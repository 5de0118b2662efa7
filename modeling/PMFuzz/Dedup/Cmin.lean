import PMFuzz.Dedup.Engine
import Mathlib.Data.Set.List

/-!
# Corpus minimization

`pmfuzz-cmin` copies the testcases of a directory except those whose PM map
has the content of one listed before it. MD5 is taken as free of collisions:
the sum of a file is its content.

The testcases missing from its output are those of the PM maps in
`duplicateFiles` (`mem_droppedFiles`), and of each content one map is no
duplicate (`exists_kept`).
-/

namespace PMFuzz.Dedup

open Names Str

/-- The directories a collection step lists. -/
inductive Place
  /-- `@dedup`. -/
  | gbl
  /-- `@dedup_sync`. -/
  | loc
  /-- `tc_dir`. -/
  | tc
  /-- `img_dir`. -/
  | img
  /-- `cmin-in-`, a temporary directory. -/
  | tmpIn
  /-- `cmin-map-dir-`, a temporary directory. -/
  | tmpMap
  deriving DecidableEq

namespace Cmin

variable (os : Os Place) (inDir mapDir : Dir)

/-- The PM maps, as listed. -/
def mapFiles : List Str :=
  (os.listdir .tmpMap mapDir).filter fun fname => fname ≠ ".state".toList ∧ "pm_map".toList <:+: fname

/-- `duplicate_files`. -/
def duplicateFiles : List Str :=
  (Fold.group (fun fname => (mapDir.lookup fname).getD []) (mapFiles os mapDir)).flatMap fun entry =>
    entry.2.tail

/-- `notcopy_list`. -/
def notcopyList : List Str :=
  (duplicateFiles os mapDir).flatMap fun file =>
    [file, replace (replace file "pm_map_".toList []) "map_".toList []]

/-- `main`: the output directory. -/
def main : Except Stop Dir :=
  (os.listdir .tmpIn inDir).foldlM (fun outDir fname =>
    if fname ∉ notcopyList os mapDir ∧ fname ≠ ".state".toList then
      copypreserve inDir fname outDir fname
    else .ok outDir) ∅

/-- `dropped_files` of the callers. -/
def droppedFiles : Except Stop (List Str) := do
  let outDir ← main os inDir mapDir
  return (os.listdir .tmpIn inDir).filter (· ∉ outDir)

/-! ## What is dropped -/

variable {os inDir mapDir}

theorem main_ok (os : Os Place) (inDir mapDir : Dir) : ∃ outDir, main os inDir mapDir = .ok outDir ∧
    ∀ n, n ∈ outDir ↔ n ∈ inDir ∧ n ∉ notcopyList os mapDir ∧ n ≠ ".state".toList := by
  have hloop : ∀ (names : List Str) (out : Dir), (∀ n ∈ names, n ∈ inDir) →
      ∃ outDir, names.foldlM (fun outDir fname =>
          if fname ∉ notcopyList os mapDir ∧ fname ≠ ".state".toList then
            copypreserve inDir fname outDir fname
          else .ok outDir) out = .ok outDir ∧
        ∀ n, n ∈ outDir ↔ n ∈ out ∨ n ∈ names ∧ n ∉ notcopyList os mapDir ∧ n ≠ ".state".toList := by
    intro names
    induction names with
    | nil => intro out _; exact ⟨out, rfl, by simp⟩
    | cons m names ih =>
      intro out hmem
      obtain ⟨b, hb⟩ := Finmap.mem_iff.mp (hmem m List.mem_cons_self)
      by_cases hc : m ∉ notcopyList os mapDir ∧ m ≠ ".state".toList
      · obtain ⟨outDir, ho, hn⟩ := ih (Finmap.insert m b out) fun n hn =>
          hmem n (List.mem_cons_of_mem _ hn)
        refine ⟨outDir, ?_, fun n => ?_⟩
        · rw [Fold.foldlM_cons_eq_ok]
          refine ⟨_, ?_, ho⟩
          rw [if_pos hc, copypreserve, read, hb]
          rfl
        · rw [hn, Finmap.mem_insert, List.mem_cons]
          constructor
          · rintro ((rfl | h) | ⟨h, h'⟩)
            · exact .inr ⟨.inl rfl, hc⟩
            · exact .inl h
            · exact .inr ⟨.inr h, h'⟩
          · rintro (h | ⟨rfl | h, h'⟩)
            · exact .inl (.inr h)
            · exact .inl (.inl rfl)
            · exact .inr ⟨h, h'⟩
      · obtain ⟨outDir, ho, hn⟩ := ih out fun n hn => hmem n (List.mem_cons_of_mem _ hn)
        refine ⟨outDir, ?_, fun n => ?_⟩
        · rw [Fold.foldlM_cons_eq_ok]
          exact ⟨out, if_neg hc, ho⟩
        · rw [hn, List.mem_cons]
          constructor
          · rintro (h | ⟨h, h'⟩)
            · exact .inl h
            · exact .inr ⟨.inr h, h'⟩
          · rintro (h | ⟨rfl | h, h'⟩)
            · exact .inl h
            · exact absurd h' hc
            · exact .inr ⟨h, h'⟩
  obtain ⟨outDir, ho, hn⟩ := hloop (os.listdir .tmpIn inDir) ∅ fun n => os.mem_listdir.mp
  refine ⟨outDir, ho, fun n => ?_⟩
  rw [hn, os.mem_listdir]
  simp [Finmap.notMem_empty]

/-- Testcases in, maps of testcases beside them. -/
structure Corpus (inDir mapDir : Dir) : Prop where
  testcases : ∀ n ∈ inDir, ∃ t : TcName, n = t.testcase
  maps : ∀ n ∈ mapDir, ∃ t : TcName, n = t.metadata.map ∨ n = t.metadata.pmMap

theorem not_pm_map_infix_map (t : TcName) : ¬ "pm_map".toList <:+: t.metadata.map := by
  have hstart : NoStart "pm_map".toList "map_".toList t.testcase := by
    simp [noStart_cons, noStart_nil]
  intro h
  exact t.not_infix_testcase (by decide) (by decide) (by decide) (hstart.infix_iff.mp h)

/-- The PM maps are those of testcases. -/
theorem mem_mapFiles (h : Corpus inDir mapDir) {n : Str} :
    n ∈ mapFiles os mapDir ↔ ∃ t : TcName, n = t.metadata.pmMap ∧ t.metadata.pmMap ∈ mapDir := by
  rw [mapFiles, List.mem_filter, os.mem_listdir, decide_eq_true_eq]
  constructor
  · rintro ⟨hn, -, hpm⟩
    obtain ⟨t, rfl | rfl⟩ := h.maps n hn
    · exact absurd hpm (not_pm_map_infix_map t)
    · exact ⟨t, rfl, hn⟩
  · rintro ⟨t, rfl, hn⟩
    refine ⟨hn, ?_, [], '_' :: t.testcase, rfl⟩
    intro heq
    exact absurd (congrArg List.head? heq) (by simp [TcName.metadata])

theorem nodup_mapFiles : (mapFiles os mapDir).Nodup := (os.nodup _ _).filter _

theorem mem_mapFiles_of_duplicate {n : Str} (h : n ∈ duplicateFiles os mapDir) :
    n ∈ mapFiles os mapDir := by
  obtain ⟨e, he, hn⟩ := List.mem_flatMap.mp h
  have := (Fold.group_groups _ _).eq_filter e he
  exact List.mem_of_mem_filter (this ▸ List.mem_of_mem_tail hn)

theorem replace_pmMap (t : TcName) :
    replace (replace t.metadata.pmMap "pm_map_".toList []) "map_".toList [] = t.testcase := by
  have h1 : replace t.metadata.pmMap "pm_map_".toList [] = t.testcase := by
    rw [TcName.metadata, replace_append (by decide), List.nil_append]
    exact replace_of_not_infix (t.not_infix_testcase (by decide) (by decide) (by decide)) (by decide)
  rw [h1]
  exact replace_of_not_infix (t.not_infix_testcase (by decide) (by decide) (by decide)) (by decide)

/-- A testcase is not copied if its PM map is a duplicate. -/
theorem mem_notcopyList (h : Corpus inDir mapDir) (t : TcName) :
    t.testcase ∈ notcopyList os mapDir ↔ t.metadata.pmMap ∈ duplicateFiles os mapDir := by
  rw [notcopyList, List.mem_flatMap]
  constructor
  · rintro ⟨n, hn, hmem⟩
    obtain ⟨u, rfl, -⟩ := (mem_mapFiles h).mp (mem_mapFiles_of_duplicate hn)
    rw [replace_pmMap, List.mem_cons, List.mem_singleton] at hmem
    rcases hmem with heq | heq
    · exact absurd (congrArg List.head? heq) (by rw [t.head?_testcase]; simp [TcName.metadata])
    · rwa [TcName.testcase_inj.mp heq]
  · intro hn
    exact ⟨_, hn, by rw [replace_pmMap]; simp⟩

/-- The testcases dropped are those whose PM map is a duplicate. -/
theorem droppedFiles_ok (os : Os Place) (h : Corpus inDir mapDir) : ∃ D : List TcName,
    droppedFiles os inDir mapDir = .ok (D.map TcName.testcase) ∧
      ∀ t, t ∈ D ↔ t.testcase ∈ inDir ∧ t.metadata.pmMap ∈ duplicateFiles os mapDir := by
  obtain ⟨outDir, ho, hout⟩ := main_ok os inDir mapDir
  have htc : ∀ n ∈ (os.listdir .tmpIn inDir).filter (· ∉ outDir), ∃ t : TcName, n = t.testcase :=
    fun n hn => h.testcases n (os.mem_listdir.mp (List.mem_of_mem_filter hn))
  obtain ⟨D, hD⟩ := Fold.exists_map htc
  refine ⟨D, ?_, fun t => ?_⟩
  · unfold droppedFiles
    rw [Fold.bind_eq_ok]
    exact ⟨outDir, ho, by rw [← hD]; rfl⟩
  · have hmap : t ∈ D ↔ t.testcase ∈ D.map TcName.testcase := by
      rw [List.mem_map]
      exact ⟨fun ht => ⟨t, ht, rfl⟩, fun ⟨u, hu, heq⟩ => TcName.testcase_inj.mp heq ▸ hu⟩
    have hstate : t.testcase ≠ ".state".toList := fun heq =>
      absurd (congrArg List.head? heq) (by rw [t.head?_testcase]; decide)
    rw [hmap, ← hD, List.mem_filter, os.mem_listdir, decide_eq_true_eq, hout, ← mem_notcopyList h]
    tauto

/-- Of each content one map is no duplicate: the first that is listed. -/
theorem exists_kept {n : Str} (h : n ∈ mapFiles os mapDir) : ∃ m ∈ mapFiles os mapDir,
    (mapDir.lookup m).getD [] = (mapDir.lookup n).getD [] ∧
      ∀ m' ∈ mapFiles os mapDir, (mapDir.lookup m').getD [] = (mapDir.lookup n).getD [] →
        (m' ∉ duplicateFiles os mapDir ↔ m' = m) := by
  have hg := Fold.group_groups (fun fname => (mapDir.lookup fname).getD []) (mapFiles os mapDir)
  obtain ⟨e, he, hkey⟩ := List.mem_map.mp (hg.covers n h)
  obtain ⟨m, rest, hm⟩ := List.exists_cons_of_ne_nil (hg.ne_nil e he)
  have hfilter := hg.eq_filter e he
  have hmem : m ∈ mapFiles os mapDir ∧ (mapDir.lookup m).getD [] = e.1 := by
    have : m ∈ e.2 := by rw [hm]; exact List.mem_cons_self
    rw [hfilter] at this
    simpa using List.mem_filter.mp this
  refine ⟨m, hmem.1, hmem.2.trans hkey, fun m' hm' hcontent => ⟨fun hdup => ?_, ?_⟩⟩
  · by_contra hne
    have hin : m' ∈ m :: rest := by
      rw [← hm, hfilter]
      exact List.mem_filter.mpr ⟨hm', decide_eq_true (hcontent.trans hkey.symm)⟩
    refine hdup (List.mem_flatMap.mpr ⟨e, he, ?_⟩)
    rw [hm]
    exact (List.mem_cons.mp hin).resolve_left hne
  · rintro rfl hdup
    obtain ⟨e', he', hin⟩ := List.mem_flatMap.mp hdup
    have hin' := List.mem_of_mem_tail hin
    rw [hg.eq_filter e' he'] at hin'
    have hkey' : (mapDir.lookup m').getD [] = e'.1 := by simpa using (List.mem_filter.mp hin').2
    have heq : e' = e := List.inj_on_of_nodup_map hg.nodup he' he (hkey'.symm.trans hmem.2)
    have hnodup : e.2.Nodup := hfilter ▸ nodup_mapFiles.filter _
    rw [heq, hm, List.tail_cons] at hin
    rw [hm] at hnodup
    exact (List.nodup_cons.mp hnodup).1 hin

end Cmin

end PMFuzz.Dedup
