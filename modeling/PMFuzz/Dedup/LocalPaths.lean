import PMFuzz.Dedup.FileDedup
import PMFuzz.Dedup.UpdateLocal
import PMFuzz.Framework.Paths
import PMFuzz.Names.Kinds

/-!
# `update_local`, on paths

The paths that `update_local` gives to `copypreserve`. Those of the testcases
and of their images lose every `.min`: in place (`Setting.InPlace`) the call is
the one on directories (`updateLocalAt_ok`), and elsewhere no testcase comes to
`@dedup_sync` (`testcase_notMem`).
-/

namespace PMFuzz.Dedup

open Names Str Glob Paths

variable {D : Type}

/-! ## The code -/

section

variable [DecidableEq D]

/-- `copypreserve`, of paths. -/
def copyPath (t : Paths.Tree D) (files : D → Dir) (src dst : Str) : Except Stop (D → Dir) :=
  if (t.resolve dst).isSome then
    .error (.abort ("Destination ".toList ++ dst ++ " should not be a directory".toList))
  else
    match find t files src with
    | none => .error (.fileNotFound src)
    | some b =>
      match t.locate dst with
      | none => .error (.fileNotFound dst)
      | some f => .ok (Function.update files f.1 (Finmap.insert f.2 b (files f.1)))

/-- `dedup_dir_gbl`. -/
def dedupDirGbl (outdir : Str) : Str := join outdir "@dedup".toList

/-- `dedup_dir_loc`. -/
def dedupDirLoc (outdir : Str) (iterId : ℕ) : Str :=
  join (join outdir (stageDir 2 iterId)) "@dedup_sync".toList

/-- An output directory, in an iteration of stage 2. -/
structure Setting (D : Type) where
  tree : Paths.Tree D
  outdir : Str
  iterId : ℕ
  gbl : D
  loc : D
  resolve_gbl : tree.resolve (dedupDirGbl outdir) = some gbl
  resolve_loc : tree.resolve (dedupDirLoc outdir iterId) = some loc
  ne : gbl ≠ loc
  /-- There are no directories in `@dedup_sync`. -/
  flat : ∀ n, n ≠ ".".toList → n ≠ "..".toList → tree.entry loc n = none

/-- One round of the first loop of `update_local`. -/
def copyLocalAt (s : Setting D) (locTcFiles : List Str) (files : D → Dir) (entry : Str × Option Str) :
    Except Stop (D → Dir) := do
  let gblDir := dedupDirGbl s.outdir
  let locDir := dedupDirLoc s.outdir s.iterId
  let destNameTc := replace entry.1 ".min".toList []
  let cnt ← iterCnt entry.1
  if destNameTc ∉ locTcFiles ∧ cnt = s.iterId then
    let dest := replace (join locDir destNameTc) ".min".toList []
    let files ← copyPath s.tree files (join gblDir entry.1) dest
    match entry.2 with
    | none => .error (.abort ("Image not found for ".toList ++ destNameTc))
    | some img =>
      let dest := replace (join locDir img) ".min".toList []
      let files ← copyPath s.tree files (join gblDir img) dest
      let metadataFiles ← getMetadataFiles entry.1
      let files ← copyPath s.tree files (join gblDir metadataFiles.map) (join locDir metadataFiles.map)
      if (find s.tree files (join gblDir metadataFiles.pmMap)).isSome then
        copyPath s.tree files (join gblDir metadataFiles.pmMap) (join locDir metadataFiles.pmMap)
      else return files
  else return files

/-- One round of the second loop. -/
def copyLocalSiteAt (s : Setting D) (files : D → Dir) (cs : Str) : Except Stop (D → Dir) :=
  if cs ∉ files s.loc then
    copyPath s.tree files (join (dedupDirGbl s.outdir) cs) (join (dedupDirLoc s.outdir s.iterId) cs)
  else .ok files

/-- `update_local`. -/
def updateLocalAt (os : Os Place) (s : Setting D) (files : D → Dir) : Except Stop (D → Dir) := do
  let locTcFiles := (os.listdir .loc (files s.loc)).map (replace · ".min".toList [])
  let testcases ← globalDedupListTc os (files s.gbl)
  let files ← testcases.foldlM (copyLocalAt s locTcFiles) files
  (globalDedupListCs os (files s.gbl)).foldlM (copyLocalSiteAt s) files

end

/-! ## The paths -/

theorem isName_copied {t : TcName} {n : Str} (hn : n ∈ copied t) : IsName n := by
  simp only [copied, List.mem_cons, List.not_mem_nil, or_false] at hn
  have hmem : n ∈ t.metadata.names false := by
    rcases hn with rfl | rfl | rfl | rfl <;> simp [Metadata.names, Metadata.values, TcName.metadata]
  have hslash : '/' ∉ n := slash_notMem_names hmem
  rcases hn with rfl | rfl | rfl | rfl
  · exact isName_of_head t.head?_testcase (by decide) hslash
  · exact isName_of_head (head?_pmCmprPool t) (by decide) hslash
  · exact isName_of_head (c := 'm') rfl (by decide) hslash
  · exact isName_of_head (c := 'p') rfl (by decide) hslash

theorem isName_crashSite {n : Str} (h : isCmprCrashSite n = true) (hslash : '/' ∉ n) : IsName n := by
  obtain ⟨v, a, b, -, -, rfl⟩ := isCmprCrashSite_iff.mp h
  obtain ⟨c, hc⟩ := v.isClean.head
  exact isName_of_head (c := 'i') (by rw [hc]; rfl) (by decide) hslash

variable {outdir d n : Str} {k : ℕ}

theorem getLast?_join (hn : '/' ∉ n) (hne : n ≠ []) : (join d n).getLast? = n.getLast? := by
  obtain ⟨c, hc⟩ := Option.ne_none_iff_exists'.mp (mt List.getLast?_eq_none_iff.mp hne)
  rw [join_of_notMem hn]
  split
  · rw [List.getLast?_append, hc]
    rfl
  · rw [List.getLast?_append, List.getLast?_cons, hc]
    rfl

theorem join_eq {c : Char} (hd : d.getLast? = some c) (hc : c ≠ '/') (hn : '/' ∉ n) : join d n = d ++ '/' :: n := by
  rw [join_of_notMem hn, if_neg]
  rintro (rfl | hlast)
  · cases hd
  · exact hc (Option.some.inj (hd.symm.trans hlast))

theorem getLast?_dedupDirGbl : (dedupDirGbl outdir).getLast? = some 'p' := getLast?_join (by decide) (by decide)

theorem getLast?_dedupDirLoc (outdir : Str) (k : ℕ) : (dedupDirLoc outdir k).getLast? = some 'c' :=
  getLast?_join (by decide) (by decide)

theorem join_dedupDirGbl (hn : '/' ∉ n) : join (dedupDirGbl outdir) n = dedupDirGbl outdir ++ '/' :: n :=
  join_eq getLast?_dedupDirGbl (by decide) hn

theorem join_dedupDirLoc (hn : '/' ∉ n) : join (dedupDirLoc outdir k) n = dedupDirLoc outdir k ++ '/' :: n :=
  join_eq (getLast?_dedupDirLoc _ _) (by decide) hn

theorem ne_nil_of_getLast? {c : Char} (h : d.getLast? = some c) : d ≠ [] := by
  rintro rfl
  cases h

namespace Setting

variable (s : Setting D) {files files' : D → Dir} {loc loc' : Dir}

/-- The directory of the paths that lose `.min`. -/
def minDir : Str := replace (dedupDirLoc s.outdir s.iterId) ".min".toList []

/-- It is `@dedup_sync`. -/
def InPlace : Prop := s.tree.resolve s.minDir = some s.loc

instance [DecidableEq D] : Decidable s.InPlace := inferInstanceAs (Decidable (_ = _))

/-- The last part of the path keeps its name. -/
theorem minDir_ne_nil : s.minDir ≠ [] := by
  obtain ⟨a, ha⟩ := List.getLast?_eq_some_iff.mp (getLast?_dedupDirLoc s.outdir s.iterId)
  intro h
  have hlast : replace (a ++ 'c' :: []) ".min".toList [] = [] := by rw [← ha]; exact h
  rw [replace_append_cons (by decide) (by decide)] at hlast
  exact absurd hlast (by simp)

theorem replace_min_join (hn : '/' ∉ n) (hmin : replace n ".min".toList [] = n) :
    replace (join (dedupDirLoc s.outdir s.iterId) n) ".min".toList [] = s.minDir ++ '/' :: n := by
  rw [join_dedupDirLoc hn, replace_append_cons (by decide) (by decide), hmin, minDir]

theorem find_gbl (hn : '/' ∉ n) :
    find s.tree files (join (dedupDirGbl s.outdir) n) = (files s.gbl).lookup n := by
  rw [find, join_dedupDirGbl hn, Tree.locate_child _ (ne_nil_of_getLast? getLast?_dedupDirGbl) hn, s.resolve_gbl]
  rfl

/-! ## In place -/

section

variable [DecidableEq D]

/-- The files, with others in `@dedup_sync`. -/
def withLoc (files : D → Dir) (loc : Dir) : D → Dir := Function.update files s.loc loc

@[simp] theorem withLoc_loc : s.withLoc files loc s.loc = loc := Function.update_self _ _ _

@[simp] theorem withLoc_gbl : s.withLoc files loc s.gbl = files s.gbl := Function.update_of_ne s.ne _ _

theorem withLoc_self : s.withLoc files (files s.loc) = files := Function.update_eq_self _ _

/-- A copy to a path in `@dedup_sync`. -/
theorem copyPath_ok (hd : d ≠ []) (hres : s.tree.resolve d = some s.loc) (hn : IsName n)
    (h : copypreserve (files s.gbl) n loc n = .ok loc') :
    copyPath s.tree (s.withLoc files loc) (join (dedupDirGbl s.outdir) n) (d ++ '/' :: n) =
      .ok (s.withLoc files loc') := by
  obtain ⟨b, hb, rfl⟩ := copypreserve_eq_ok.mp h
  have hdir : s.tree.resolve (d ++ '/' :: n) = none := by
    rw [Tree.resolve_child _ hd hn.slash, hres]
    exact (if_neg hn.ne_nil).trans (s.flat n hn.ne_dot hn.ne_dots)
  rw [copyPath, hdir, if_neg (by simp), s.find_gbl hn.slash, s.withLoc_gbl, hb, Tree.locate_child _ hd hn.slash, hres]
  simp [withLoc]

theorem copyPath_loc (hn : IsName n) (h : copypreserve (files s.gbl) n loc n = .ok loc') :
    copyPath s.tree (s.withLoc files loc) (join (dedupDirGbl s.outdir) n)
      (join (dedupDirLoc s.outdir s.iterId) n) = .ok (s.withLoc files loc') := by
  rw [join_dedupDirLoc hn.slash]
  exact s.copyPath_ok (ne_nil_of_getLast? (getLast?_dedupDirLoc _ _)) s.resolve_loc hn h

theorem copyPath_min (hin : s.InPlace) (hn : IsName n) (hmin : replace n ".min".toList [] = n)
    (h : copypreserve (files s.gbl) n loc n = .ok loc') :
    copyPath s.tree (s.withLoc files loc) (join (dedupDirGbl s.outdir) n)
      (replace (join (dedupDirLoc s.outdir s.iterId) n) ".min".toList []) = .ok (s.withLoc files loc') := by
  rw [s.replace_min_join hn.slash hmin]
  exact s.copyPath_ok s.minDir_ne_nil hin hn h

/-- A round of the first loop. -/
theorem copyLocalAt_ok {t : TcName} {locTcFiles : List Str} {img : Option Str}
    (himg : ∀ i, img = some i → i = t.metadata.pmCmprPool)
    (hin : t.testcase ∉ locTcFiles → iterCnt t.testcase = .ok s.iterId → s.InPlace)
    (h : copyLocal s.iterId locTcFiles (files s.gbl) loc (t.testcase, img) = .ok loc') :
    copyLocalAt s locTcFiles (s.withLoc files loc) (t.testcase, img) = .ok (s.withLoc files loc') := by
  have hname : ∀ n ∈ copied t, IsName n := fun n => isName_copied
  simp only [copied, List.forall_mem_cons, List.not_mem_nil, false_imp_iff, implies_true, and_true] at hname
  obtain ⟨htc, hpool, hmap, hpm⟩ := hname
  simp only [copyLocalAt, replace_min_testcase]
  rcases copyLocal_cases himg h with ⟨cnt, hcnt, hcond, rfl⟩ | ⟨hdue, rfl, d₁, d₂, d₃, h₁, h₂, h₃, h⟩
  · refine Fold.bind_eq_ok.mpr ⟨cnt, hcnt, ?_⟩
    rw [if_neg hcond]
    rfl
  · have hplace := hin hdue.1 hdue.2
    refine Fold.bind_eq_ok.mpr ⟨s.iterId, hdue.2, ?_⟩
    rw [if_pos ⟨hdue.1, rfl⟩]
    refine Fold.bind_eq_ok.mpr ⟨_, s.copyPath_min hplace htc (replace_min_testcase t) h₁, ?_⟩
    refine Fold.bind_eq_ok.mpr ⟨_, s.copyPath_min hplace hpool (replace_min_pmCmprPool t) h₂, ?_⟩
    refine Fold.bind_eq_ok.mpr ⟨_, getMetadataFiles_testcase t, Fold.bind_eq_ok.mpr ⟨_, s.copyPath_loc hmap h₃, ?_⟩⟩
    rw [s.find_gbl hpm.slash, withLoc_gbl]
    unfold copyIfThere at h
    split at h
    · rename_i hmem
      rw [if_pos (Finmap.lookup_isSome.mpr hmem)]
      exact s.copyPath_loc hpm h
    · rename_i hmem
      cases h
      rw [if_neg (mt Finmap.lookup_isSome.mp hmem)]
      rfl

/-- A round of the second loop. -/
theorem copyLocalSiteAt_ok {cs : Str} (hcs : IsName cs) (h : copyLocalSite (files s.gbl) loc cs = .ok loc') :
    copyLocalSiteAt s (s.withLoc files loc) cs = .ok (s.withLoc files loc') := by
  unfold copyLocalSite at h
  rw [copyLocalSiteAt, withLoc_loc]
  split at h
  · rename_i hno
    rw [if_pos hno]
    exact s.copyPath_loc hcs h
  · rename_i hno
    cases h
    rw [if_neg hno]

/-- The call on paths is the one on directories. -/
theorem updateLocalAt_ok {os : Os Place} (hslash : ∀ n ∈ files s.gbl, '/' ∉ n)
    (hin : s.InPlace ∨ ∀ t, ¬ Due s.iterId (files s.gbl) (files s.loc) t)
    (h : updateLocal os s.iterId (files s.gbl) (files s.loc) = .ok loc') :
    updateLocalAt os s files = .ok (s.withLoc files loc') := by
  obtain ⟨tcs, loc, htcs, hmem, hloc, hsites⟩ := updateLocal_loops h
  refine Fold.bind_eq_ok.mpr ⟨_, htcs, Fold.bind_eq_ok.mpr ⟨s.withLoc files loc, ?_, ?_⟩⟩
  · have hrounds := Fold.foldlM_map (e := s.withLoc files)
      (g := copyLocalAt s ((os.listdir .loc (files s.loc)).map (replace · ".min".toList []))) ?_ hloc
    · rwa [withLoc_self] at hrounds
    · intro e he d d' hround
      obtain ⟨t, ht, rfl⟩ := List.mem_map.mp he
      refine s.copyLocalAt_ok (fun i hi => ?_) (fun hno hgen => ?_) hround
      · exact (Option.some.inj (Option.ite_none_right_eq_some.mp hi).2).symm
      · refine hin.resolve_right fun hnot => hnot t ⟨(hmem t).mp ht, hgen, fun hmem => hno ?_⟩
        exact listed_of_mem hmem os
  · show (globalDedupListCs os (s.withLoc files loc s.gbl)).foldlM _ _ = _
    rw [withLoc_gbl]
    refine Fold.foldlM_map (e := s.withLoc files) (fun cs hcs d d' hround => ?_) hsites
    obtain ⟨hlist, hsite⟩ := List.mem_filter.mp hcs
    exact s.copyLocalSiteAt_ok (isName_crashSite hsite (hslash cs (os.mem_listdir.mp hlist))) hround

/-! ## Elsewhere -/

/-- A copy adds nothing but its destination. -/
theorem copyPath_mem {t : Paths.Tree D} {src dst : Str} {e : D} (h : copyPath t files src dst = .ok files')
    (hn : n ∈ files' e) :
    n ∈ files e ∨ t.locate dst = some (e, n) := by
  unfold copyPath at h
  split at h
  · cases h
  · split at h
    · cases h
    · split at h
      · cases h
      · rename_i f hf
        cases h
        by_cases he : e = f.1
        · subst he
          rw [Function.update_self] at hn
          refine (Finmap.mem_insert.mp hn).symm.imp_right fun hname => ?_
          rw [hf, hname]
        · rw [Function.update_of_ne he] at hn
          exact .inl hn

/-- The testcase did not come to `@dedup_sync`. -/
structure Absent (t : TcName) (files : D → Dir) : Prop where
  notMem : t.testcase ∉ files s.loc
  slash : ∀ n ∈ files s.gbl, '/' ∉ n

theorem Absent.copy {t : TcName} {src dst : Str} (h : s.Absent t files)
    (hcopy : copyPath s.tree files src dst = .ok files') (hdst : s.tree.locate dst ≠ some (s.loc, t.testcase)) :
    s.Absent t files' where
  notMem hin := (copyPath_mem hcopy hin).elim h.notMem hdst
  slash n hn := (copyPath_mem hcopy hn).elim (h.slash n) (Tree.slash_notMem_locate _)

namespace Absent

variable {t u : TcName}

/-- Paths that lose `.min` lead elsewhere. -/
theorem copy_min {src : Str} (hin : ¬ s.InPlace) (h : s.Absent t files) (hn : IsName n)
    (hmin : replace n ".min".toList [] = n)
    (hcopy : copyPath s.tree files src (replace (join (dedupDirLoc s.outdir s.iterId) n) ".min".toList []) =
      .ok files') :
    s.Absent t files' := by
  refine h.copy s hcopy fun hdst => hin ?_
  rw [s.replace_min_join hn.slash hmin, Tree.locate_child _ s.minDir_ne_nil hn.slash] at hdst
  obtain ⟨d, hd, heq⟩ := Option.map_eq_some_iff.mp hdst
  cases heq
  exact hd

/-- And no other copy is of a testcase. -/
theorem copy_loc {src : Str} (h : s.Absent t files) (hslash : '/' ∉ n) (hn : n ≠ t.testcase)
    (hcopy : copyPath s.tree files src (join (dedupDirLoc s.outdir s.iterId) n) = .ok files') : s.Absent t files' := by
  refine h.copy s hcopy fun hdst => hn ?_
  rw [join_dedupDirLoc hslash, Tree.locate_child _ (ne_nil_of_getLast? (getLast?_dedupDirLoc _ _)) hslash,
    s.resolve_loc] at hdst
  cases hdst
  rfl

theorem round {locTcFiles : List Str} {img : Option Str} (hin : ¬ s.InPlace) (h : s.Absent t files)
    (himg : ∀ i, img = some i → i = u.metadata.pmCmprPool)
    (hround : copyLocalAt s locTcFiles files (u.testcase, img) = .ok files') : s.Absent t files' := by
  have hname : ∀ n ∈ copied u, IsName n := fun n => isName_copied
  simp only [copied, List.forall_mem_cons, List.not_mem_nil, false_imp_iff, implies_true, and_true] at hname
  obtain ⟨htc, hpool, hmap, hpm⟩ := hname
  obtain ⟨-, hnemap, hnepm⟩ := testcase_ne_files (t := t) (u := u)
  simp only [copyLocalAt, replace_min_testcase] at hround
  obtain ⟨cnt, -, hround⟩ := Fold.bind_eq_ok.mp hround
  split at hround
  · obtain ⟨f₁, h₁, hround⟩ := Fold.bind_eq_ok.mp hround
    have hf₁ := h.copy_min s hin htc (replace_min_testcase u) h₁
    cases img with
    | none => cases hround
    | some i =>
      obtain rfl := himg i rfl
      obtain ⟨f₂, h₂, hround⟩ := Fold.bind_eq_ok.mp hround
      have hf₂ := hf₁.copy_min s hin hpool (replace_min_pmCmprPool u) h₂
      obtain ⟨md, hmd, hround⟩ := Fold.bind_eq_ok.mp hround
      cases (getMetadataFiles_testcase u).symm.trans hmd
      obtain ⟨f₃, h₃, hround⟩ := Fold.bind_eq_ok.mp hround
      have hf₃ := hf₂.copy_loc s hmap.slash hnemap.symm h₃
      split at hround
      · exact hf₃.copy_loc s hpm.slash hnepm.symm hround
      · cases hround
        exact hf₃
  · cases hround
    exact h

end Absent

/-- Then a testcase that is due does not come to `@dedup_sync`. -/
theorem testcase_notMem {os : Os Place} {t : TcName} (hin : ¬ s.InPlace) (h : s.Absent t files)
    (hrun : updateLocalAt os s files = .ok files') : t.testcase ∉ files' s.loc := by
  obtain ⟨l, hl, hrun⟩ := Fold.bind_eq_ok.mp hrun
  obtain ⟨tcs, htcs, -, -⟩ := globalDedupListTc_ok os (files s.gbl)
  cases htcs.symm.trans hl
  obtain ⟨f, hf, hsites⟩ := Fold.bind_eq_ok.mp hrun
  have hfirst : s.Absent t f := by
    refine Fold.foldlM_inv (P := s.Absent t) (fun e he f₁ f₂ hf₁ hround => ?_) h hf
    obtain ⟨u, -, rfl⟩ := List.mem_map.mp he
    exact hf₁.round s hin (fun i hi => (Option.some.inj (Option.ite_none_right_eq_some.mp hi).2).symm) hround
  refine (Fold.foldlM_inv (P := s.Absent t) (fun cs hcs f₁ f₂ hf₁ hround => ?_) hfirst hsites).notMem
  obtain ⟨hlist, hsite⟩ := List.mem_filter.mp hcs
  unfold copyLocalSiteAt at hround
  split at hround
  · refine hf₁.copy_loc s (hfirst.slash cs (os.mem_listdir.mp hlist)) ?_ hround
    rintro rfl
    exact notMem_copied hsite List.mem_cons_self
  · cases hround
    exact hf₁

/-! ## The calls of an iteration -/

/-- Each testcase of `@dedup` has its image and its map. -/
structure Stocked (gbl : Dir) : Prop where
  slash : ∀ n ∈ gbl, '/' ∉ n
  image : ∀ t : TcName, t.testcase ∈ gbl → t.metadata.pmCmprPool ∈ gbl
  map : ∀ t : TcName, t.testcase ∈ gbl → t.metadata.map ∈ gbl

/-- What earlier calls leave; stage 1 goes on beside them. -/
inductive Left : (D → Dir) → Prop
  | start {files : D → Dir} (h : files s.loc = ∅) : Left files
  | beside {files files' : D → Dir} (h : Left files) (hloc : files' s.loc = files s.loc) : Left files'
  | call {files files' : D → Dir} (os : Os Place) (h : Left files) (hgbl : Stocked (files s.gbl))
      (hrun : updateLocalAt os s files = .ok files') : Left files'

/-- The copies of a call, and of the next one. -/
def UpdatesExactly (os : Os Place) (files : D → Dir) : Prop :=
  ∃ files', updateLocalAt os s files = .ok files' ∧ (∀ d, d ≠ s.loc → files' d = files d) ∧
    Adds s.iterId (files s.gbl) (files s.loc) (files' s.loc) ∧ ∀ os', updateLocalAt os' s files' = .ok files'

theorem updateLocalAt_adds (os : Os Place) (hgbl : Stocked (files s.gbl))
    (hclear : Clear s.iterId (files s.gbl) (files s.loc))
    (hin : s.InPlace ∨ ∀ t, ¬ Due s.iterId (files s.gbl) (files s.loc) t) :
    ∃ loc', updateLocalAt os s files = .ok (s.withLoc files loc') ∧ Adds s.iterId (files s.gbl) (files s.loc) loc' := by
  obtain ⟨loc', h⟩ : ∃ loc', updateLocal os s.iterId (files s.gbl) (files s.loc) = .ok loc' :=
    updateLocal_total fun t ht _ _ => ⟨hgbl.image t ht, hgbl.map t ht⟩
  exact ⟨loc', s.updateLocalAt_ok hgbl.slash hin h, updateLocal_adds hclear h⟩

theorem Left.earlier (hin : s.InPlace) (h : s.Left files) : Earlier (files s.loc) := by
  induction h with
  | start h =>
    rw [h]
    exact ⟨fun n hn => absurd hn Finmap.notMem_empty, fun t n _ hn => absurd hn Finmap.notMem_empty⟩
  | beside h hloc ih =>
    rw [hloc]
    exact ih
  | call os h hgbl hrun ih =>
    obtain ⟨loc', hok, hadds⟩ := s.updateLocalAt_adds os hgbl ih.clear (.inl hin)
    cases hok.symm.trans hrun
    rw [withLoc_loc]
    exact hadds.earlier ih

/-- Exactly if the path of `@dedup_sync` without `.min` is the same directory, or
nothing is to copy. -/
theorem updatesExactly_iff {os : Os Place} (hleft : s.Left files) (hgbl : Stocked (files s.gbl)) :
    s.UpdatesExactly os files ↔ s.InPlace ∨ ∀ t, ¬ Due s.iterId (files s.gbl) (files s.loc) t := by
  constructor
  · rintro ⟨files', hrun, hothers, hadds, -⟩
    by_contra hcon
    obtain ⟨hin, hdue⟩ := not_or.mp hcon
    obtain ⟨t, ht⟩ := not_forall_not.mp hdue
    refine s.testcase_notMem hin ⟨ht.notMem, hgbl.slash⟩ hrun ?_
    exact (Dir.mem_congr (hadds.due t ht _ List.mem_cons_self)).mpr ht.mem
  · intro hin
    have hclear : Clear s.iterId (files s.gbl) (files s.loc) :=
      hin.elim (fun hplace => (hleft.earlier s hplace).clear) Clear.of_not_due
    obtain ⟨loc', hrun, hadds⟩ := s.updateLocalAt_adds os hgbl hclear hin
    refine ⟨_, hrun, fun d hd => Function.update_of_ne hd _ _, ?_, fun os' => ?_⟩
    · rw [withLoc_loc]
      exact hadds
    · have hidle : updateLocal os' s.iterId (s.withLoc files loc' s.gbl) (s.withLoc files loc' s.loc) = .ok loc' := by
        rw [withLoc_gbl, withLoc_loc]
        exact updateLocal_idle (fun t => hadds.not_due) hadds.sites
      rw [s.updateLocalAt_ok ?_ (.inr fun t => ?_) hidle, withLoc, withLoc, Function.update_idem]
      · rw [withLoc_gbl]
        exact hgbl.slash
      · rw [withLoc_gbl, withLoc_loc]
        exact hadds.not_due

end

end Setting

/-! ### Two output directories -/

/-- `/out` and `/out.min`, with the directories of an iteration. -/
def twoOutdirs : Paths.Tree ℕ where
  root := 0
  cwd := 0
  entry
    | 0, n => if n = "out".toList then some 1 else if n = "out.min".toList then some 5 else none
    | 1, n => if n = "@dedup".toList then some 2 else if n = stageDir 2 1 then some 3 else none
    | 3, n => if n = "@dedup_sync".toList then some 4 else none
    | 5, n => if n = "@dedup".toList then some 6 else if n = stageDir 2 1 then some 7 else none
    | 7, n => if n = "@dedup_sync".toList then some 8 else none
    | _, _ => none

def outSetting : Setting ℕ where
  tree := twoOutdirs
  outdir := "/out".toList
  iterId := 1
  gbl := 2
  loc := 4
  resolve_gbl := by decide
  resolve_loc := by decide
  ne := by decide
  flat _ _ _ := rfl

def outMinSetting : Setting ℕ where
  tree := twoOutdirs
  outdir := "/out.min".toList
  iterId := 1
  gbl := 6
  loc := 8
  resolve_gbl := by decide
  resolve_loc := by decide
  ne := by decide
  flat _ _ _ := rfl

/-- One testcase in each `@dedup`. -/
def dueFiles (d : ℕ) : Dir :=
  if d = 2 ∨ d = 6 then
    [⟨tc1.testcase, [1]⟩, ⟨tc1.metadata.pmCmprPool, [2]⟩, ⟨tc1.metadata.map, [0, 7]⟩].toFinmap
  else ∅

theorem stocked_dueFiles : Setting.Stocked (dueFiles 2) := by
  have hone : ∀ t : TcName, t.testcase ∈ dueFiles 2 → t = tc1 := by
    intro t ht
    rcases Finmap.mem_list_toFinmap _ _ |>.mp ht with ⟨b, hb⟩
    simp only [List.mem_cons, List.not_mem_nil, or_false, Sigma.mk.injEq] at hb
    rcases hb with ⟨h, -⟩ | ⟨h, -⟩ | ⟨h, -⟩
    · exact TcName.testcase_inj.mp h
    · exact absurd h testcase_ne_files.1
    · exact absurd h testcase_ne_files.2.1
  refine ⟨fun n hn => ?_, fun t ht => ?_, fun t ht => ?_⟩
  · rcases Finmap.mem_list_toFinmap _ _ |>.mp hn with ⟨b, hb⟩
    simp only [List.mem_cons, List.not_mem_nil, or_false, Sigma.mk.injEq] at hb
    rcases hb with ⟨rfl, -⟩ | ⟨rfl, -⟩ | ⟨rfl, -⟩ <;> decide
  · rw [hone t ht]
    decide
  · rw [hone t ht]
    decide

theorem due_dueFiles : Due 1 (dueFiles 2) ∅ tc1 := ⟨by decide, by rw [iterCnt_testcase]; decide, Finmap.notMem_empty⟩

/-- The files of `/out` come to its own `@dedup_sync`. -/
theorem updatesExactly_iff_out : outSetting.UpdatesExactly (Os.sorted Place 0) dueFiles :=
  (outSetting.updatesExactly_iff (.start rfl) stocked_dueFiles).mpr (.inl (by decide))

/-- Those of `/out.min` come to the `@dedup_sync` of `/out`. -/
theorem not_updatesExactly_outMin : outMinSetting.Left dueFiles ∧ Setting.Stocked (dueFiles 6) ∧
    ¬ outMinSetting.UpdatesExactly (Os.sorted Place 0) dueFiles := by
  refine ⟨.start rfl, stocked_dueFiles, ?_⟩
  rintro ⟨files', hrun, -, hadds, -⟩
  have hin : ¬ outMinSetting.InPlace := by decide
  refine outMinSetting.testcase_notMem (t := tc1) hin ⟨Finmap.notMem_empty, stocked_dueFiles.slash⟩ hrun ?_
  exact (Dir.mem_congr (hadds.due tc1 due_dueFiles _ List.mem_cons_self)).mpr due_dueFiles.mem

end PMFuzz.Dedup
