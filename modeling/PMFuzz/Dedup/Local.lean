import PMFuzz.Dedup.Global

/-!
# Local minimization

`minimize_corpus_lcl` runs `pmfuzz-cmin` on the testcases of `@dedup_sync`
and of `tc_dir`, the latter over the former where a name is in both, and
removes what it drops from `tc_dir` and from `@dedup`. `minimizeCorpusLcl_ok`
says what it does.
-/

namespace PMFuzz.Dedup

open Names

/-- One round of the two copying loops: `dirs` are `tmp_indir` and
`tmp_mapdir`. -/
def addLocal (src : Dir) (dirs : Dir × Dir) (f : Str) : Except Stop (Dir × Dir) := do
  if isTc f false then
    return (← copypreserve src f dirs.1 f, dirs.2)
  else if isMap f || isPmMap f then
    return (dirs.1, ← copyIfThere src f dirs.2)
  else return dirs

/-- The types that `minimize_corpus_lcl` deletes from `@dedup`. -/
def typesToDelete (m : Metadata) : List Str := [m.testcase, m.minTestcase, m.pmMap, m.map]

/-- What the placeholder of `minimize_corpus_lcl` holds. -/
def placeholderLcl (now : ℕ) : Bytes :=
  Bytes.ofStr ("Deleted at epoch = ".toList ++ Nat.toDigits 10 now)

/-- One round of the loop that removes from `tc_dir`. -/
def dropFromTc (tcDir : Dir) (f : Str) : Except Stop Dir := do
  return tcDir.removeAll (← getMetadataFiles f).values

/-- `os.remove` in `@dedup`, and the placeholder when it has succeeded. -/
def removeMarked (deleted : Str) (text : Bytes) (gbl : Dir) (file : Str) : Dir :=
  if file ∈ gbl then Finmap.insert deleted text (gbl.erase file) else gbl

/-- One round of the loop that removes from `@dedup`. -/
def dropFromGblLcl (now : ℕ) (gbl : Dir) (f : Str) : Except Stop Dir := do
  let metadataFiles ← getMetadataFiles f
  return (typesToDelete metadataFiles).foldl
    (removeMarked metadataFiles.deleted (placeholderLcl now)) gbl

/-- `minimize_corpus_lcl`: `tc_dir` and `@dedup` after it. -/
def minimizeCorpusLcl (os : Os Place) (loc tcDir gbl : Dir) : Except Stop (Dir × Dir) := do
  let dirs ← (os.listdir .loc loc).foldlM (addLocal loc) (∅, ∅)
  let dirs ← (os.listdir .tc tcDir).foldlM (addLocal tcDir) dirs
  let droppedFiles ← Cmin.droppedFiles os dirs.1 dirs.2
  let tcDir ← droppedFiles.foldlM dropFromTc tcDir
  let gbl ← droppedFiles.foldlM (dropFromGblLcl os.time) gbl
  return (tcDir, gbl)

/-! ## The corpus -/

variable {os : Os Place} {loc tcDir tcDir' gbl gbl' src : Dir}

/-- What a copying loop adds. -/
structure AddedLocal (src : Dir) (names : List Str) (dirs dirs' : Dir × Dir) : Prop where
  testcase : ∀ n, n ∈ dirs'.1 ↔ n ∈ dirs.1 ∨ n ∈ names ∧ isTc n false
  map : ∀ n, dirs'.2.lookup n =
    if n ∈ names ∧ (isMap n ∨ isPmMap n) then src.lookup n else dirs.2.lookup n

theorem isTc_of_isMap {n : Str} (h : isMap n = true ∨ isPmMap n = true) : isTc n false = false := by
  rw [Bool.eq_false_iff]
  intro htc
  obtain ⟨t, rfl⟩ := isTc_iff.mp htc
  rcases h with h | h
  · rw [isMap_testcase] at h; cases h
  · rw [isPmMap_testcase] at h; cases h

theorem AddedLocal.cons {m : Str} {names : List Str} {dirs dirs₁ dirs' : Dir × Dir}
    (h : AddedLocal src [m] dirs dirs₁) (h' : AddedLocal src names dirs₁ dirs') :
    AddedLocal src (m :: names) dirs dirs' where
  testcase n := by
    rw [h'.testcase, h.testcase, List.mem_singleton, List.mem_cons]
    tauto
  map n := by
    rw [h'.map, h.map]
    by_cases hmap : isMap n = true ∨ isPmMap n = true
    · by_cases hn : n ∈ names <;> simp [hmap, hn]
    · simp [hmap]

/-- One file. -/
theorem addLocal_file {m : Str} (hm : m ∈ src) (dirs : Dir × Dir) :
    ∃ dirs', addLocal src dirs m = .ok dirs' ∧ AddedLocal src [m] dirs dirs' := by
  cases htc : isTc m false with
  | true =>
    obtain ⟨b, hb⟩ := Finmap.mem_iff.mp hm
    refine ⟨(Finmap.insert m b dirs.1, dirs.2), ?_, fun n => ?_, fun n => ?_⟩
    · rw [addLocal, if_pos htc, copypreserve_eq_ok.mpr ⟨b, hb, rfl⟩]
      rfl
    · rw [Finmap.mem_insert, List.mem_singleton]
      exact ⟨fun h => h.elim (fun hn => .inr ⟨hn, hn ▸ htc⟩) .inl,
        fun h => h.elim .inr fun hn => .inl hn.1⟩
    · rw [if_neg]
      intro ⟨hn, hmap⟩
      rw [List.mem_singleton] at hn
      rw [← hn, isTc_of_isMap hmap] at htc
      cases htc
  | false =>
    have htestcase : ∀ n, ¬ (n ∈ [m] ∧ isTc n false = true) := by
      intro n ⟨hn, h⟩
      rw [List.mem_singleton.mp hn, htc] at h
      cases h
    have hnot : ¬ isTc m false = true := by simp [htc]
    by_cases hmap : (isMap m || isPmMap m) = true
    · obtain ⟨mapDir, hc, hlook, -⟩ := copyIfThere_ok src m dirs.2
      refine ⟨(dirs.1, mapDir), ?_, fun n => (or_iff_left (htestcase n)).symm, fun n => ?_⟩
      · rw [addLocal, if_neg hnot, if_pos hmap, hc]
        rfl
      · rw [hlook]
        by_cases hn : n = m
        · subst hn
          have hmap' : isMap n = true ∨ isPmMap n = true := by simpa using hmap
          rw [if_pos ⟨rfl, hm⟩, if_pos ⟨List.mem_singleton_self n, hmap'⟩]
        · rw [if_neg fun h => hn h.1, if_neg fun h => hn (List.mem_singleton.mp h.1)]
    · refine ⟨dirs, ?_, fun n => (or_iff_left (htestcase n)).symm, fun n => ?_⟩
      · rw [addLocal, if_neg hnot, if_neg hmap]
        rfl
      · rw [if_neg]
        intro ⟨hn, h⟩
        rw [List.mem_singleton] at hn
        exact hmap (by simpa [hn] using h)

theorem addLocal_ok {names : List Str} (hnames : ∀ n ∈ names, n ∈ src) (dirs : Dir × Dir) :
    ∃ dirs', names.foldlM (addLocal src) dirs = .ok dirs' ∧ AddedLocal src names dirs dirs' := by
  induction names generalizing dirs with
  | nil => exact ⟨dirs, rfl, fun n => by simp, fun n => by simp⟩
  | cons m names ih =>
    obtain ⟨dirs₁, hm, hadd⟩ := addLocal_file (hnames m List.mem_cons_self) dirs
    obtain ⟨dirs', h, hadd'⟩ := ih (fun n hn => hnames n (List.mem_cons_of_mem _ hn)) dirs₁
    exact ⟨dirs', Fold.foldlM_cons_eq_ok.mpr ⟨dirs₁, hm, h⟩, hadd.cons hadd'⟩

/-- The loops over `@dedup_sync` and `tc_dir`. -/
structure CorpusLcl (loc tcDir : Dir) (dirs : Dir × Dir) : Prop where
  testcase : ∀ n, n ∈ dirs.1 ↔ isTc n false ∧ n ∈ tcDir ∪ loc
  map : ∀ n, dirs.2.lookup n = if isMap n ∨ isPmMap n then (tcDir ∪ loc).lookup n else none

theorem CorpusLcl.corpus {dirs : Dir × Dir} (h : CorpusLcl loc tcDir dirs) :
    Cmin.Corpus dirs.1 dirs.2 where
  testcases n hn := isTc_iff.mp ((h.testcase n).mp hn).1
  maps n hn := by
    rw [← Finmap.lookup_isSome, h.map] at hn
    split at hn
    · rename_i hm
      rcases hm with hm | hm
      · obtain ⟨t, ht⟩ := isMap_iff.mp hm
        exact ⟨t, .inl ht⟩
      · obtain ⟨t, ht⟩ := isPmMap_iff.mp hm
        exact ⟨t, .inr ht⟩
    · cases hn

theorem corpusLcl_ok (os : Os Place) (loc tcDir : Dir) : ∃ dirs dirs',
    (os.listdir .loc loc).foldlM (addLocal loc) (∅, ∅) = .ok dirs ∧
      (os.listdir .tc tcDir).foldlM (addLocal tcDir) dirs = .ok dirs' ∧ CorpusLcl loc tcDir dirs' := by
  have hmem : ∀ p d, ∀ n ∈ os.listdir p d, n ∈ d := fun _ _ _ => os.mem_listdir.mp
  obtain ⟨dirs, h, hloc⟩ := addLocal_ok (hmem .loc loc) (∅, ∅)
  obtain ⟨dirs', h', htc⟩ := addLocal_ok (hmem .tc tcDir) dirs
  refine ⟨dirs, dirs', h, h', fun n => ?_, fun n => ?_⟩
  · have hempty : n ∉ (∅ : Dir) := Finmap.notMem_empty
    rw [htc.testcase, hloc.testcase, os.mem_listdir, os.mem_listdir, Finmap.mem_union]
    simp only [hempty, false_or]
    tauto
  · rw [htc.map, hloc.map]
    simp only [os.mem_listdir]
    by_cases hm : isMap n = true ∨ isPmMap n = true
    · simp only [hm, and_true, if_true]
      split
      · rename_i ht
        exact (Finmap.lookup_union_left ht).symm
      · rename_i ht
        rw [Finmap.lookup_union_right ht]
        split
        · rfl
        · rename_i hl
          rw [Finmap.lookup_eq_none.mpr hl, Finmap.lookup_empty]
    · simp only [hm, and_false, if_false, Finmap.lookup_empty]

/-! ## The removals -/

theorem dropFromTc_ok (D : List TcName) (tcDir : Dir) : ∃ tcDir',
    (D.map TcName.testcase).foldlM dropFromTc tcDir = .ok tcDir' ∧ ∀ n, tcDir'.lookup n =
      if n ∈ D.flatMap fun t => t.metadata.values then none else tcDir.lookup n := by
  induction D generalizing tcDir with
  | nil => exact ⟨tcDir, rfl, fun n => by simp⟩
  | cons t D ih =>
    obtain ⟨tcDir', h, hlook⟩ := ih (tcDir.removeAll t.metadata.values)
    refine ⟨tcDir', ?_, fun n => ?_⟩
    · rw [List.map_cons, Fold.foldlM_cons_eq_ok]
      exact ⟨_, by rw [dropFromTc, getMetadataFiles_testcase]; rfl, h⟩
    · rw [hlook, Dir.lookup_removeAll, List.flatMap_cons]
      by_cases h1 : n ∈ t.metadata.values <;>
        simp only [h1, List.mem_append, true_or, false_or, if_true, if_false, ite_self]

/-- `gbl'` is `gbl` without the files that `minimize_corpus_lcl` deletes of
the testcases `D`, and with placeholders of those that had a file there. -/
structure DropsLcl (text : Bytes) (gbl : Dir) (D : List TcName) (gbl' : Dir) : Prop where
  placed : ∀ t ∈ D, t.testcase ∈ gbl → t.metadata.deleted ∈ gbl'
  gone : ∀ n, n ∈ D.flatMap (fun t => typesToDelete t.metadata) → n ∉ gbl'
  rest : ∀ n, n ∉ D.flatMap (fun t => typesToDelete t.metadata) → gbl'.lookup n = gbl.lookup n ∨
    n ∈ D.map (fun t => t.metadata.deleted) ∧ gbl'.lookup n = some text

theorem typesToDelete_subset (m : Metadata) : typesToDelete m ⊆ m.values := by
  intro n hn
  simp only [typesToDelete, List.mem_cons, List.not_mem_nil, or_false] at hn
  rcases hn with rfl | rfl | rfl | rfl <;> simp [Metadata.values]

theorem DropsLcl.deleted_mem {text : Bytes} {D : List TcName} (h : DropsLcl text gbl D gbl')
    {t : TcName} (ht : t.metadata.deleted ∈ gbl) : t.metadata.deleted ∈ gbl' := by
  rcases h.rest _ (deleted_notMem_flatMap typesToDelete_subset t) with h | ⟨-, h⟩
  · exact (Dir.mem_congr h).mpr ht
  · exact Finmap.mem_of_lookup_eq_some h

theorem removeMarked_ok (text : Bytes) {deleted : Str} {files : List Str} (hdel : deleted ∉ files)
    (gbl : Dir) (n : Str) :
    (n ∈ files → n ∉ files.foldl (removeMarked deleted text) gbl) ∧
    (n ∉ files → (files.foldl (removeMarked deleted text) gbl).lookup n = gbl.lookup n ∨
      n = deleted ∧ (files.foldl (removeMarked deleted text) gbl).lookup n = some text) := by
  induction files generalizing gbl with
  | nil => exact ⟨fun h => absurd h List.not_mem_nil, fun _ => .inl rfl⟩
  | cons m files ih =>
    obtain ⟨hm, hfiles⟩ := List.ne_and_not_mem_of_not_mem_cons hdel
    obtain ⟨hgone, hrest⟩ := ih hfiles (removeMarked deleted text gbl m)
    have hstep : (removeMarked deleted text gbl m).lookup n =
        if n = m then none else if n = deleted ∧ m ∈ gbl then some text else gbl.lookup n := by
      unfold removeMarked
      by_cases hmem : m ∈ gbl
      · rw [if_pos hmem, Dir.lookup_insert, Dir.lookup_erase]
        by_cases hn : n = deleted
        · have : n ≠ m := fun h => hm (hn ▸ h)
          simp [hn, hmem, Ne.symm (hn ▸ this.symm)]
        · simp [hn]
      · rw [if_neg hmem]
        by_cases hn : n = m
        · rw [if_pos hn, hn]; exact Finmap.lookup_eq_none.mpr hmem
        · simp [hn, hmem]
    refine ⟨fun hn => ?_, fun hn => ?_⟩
    · by_cases hf : n ∈ files
      · exact hgone hf
      · obtain rfl := (List.mem_cons.mp hn).resolve_right hf
        rcases hrest hf with h | ⟨h, -⟩
        · rw [List.foldl_cons, ← Finmap.lookup_eq_none, h, hstep, if_pos rfl]
        · exact absurd h.symm hm
    · obtain ⟨hnm, hnf⟩ := List.ne_and_not_mem_of_not_mem_cons hn
      rcases hrest hnf with h | h
      · rw [hstep, if_neg hnm] at h
        split at h
        · rename_i hd
          exact .inr ⟨hd.1, h⟩
        · exact .inl h
      · exact .inr h

/-- A file that is removed leaves the placeholder. -/
theorem removeMarked_placed (text : Bytes) {deleted : Str} {files : List Str} (hdel : deleted ∉ files)
    {gbl : Dir} (h : deleted ∈ gbl ∨ ∃ f ∈ files, f ∈ gbl) :
    deleted ∈ files.foldl (removeMarked deleted text) gbl := by
  induction files generalizing gbl with
  | nil => exact h.resolve_right fun ⟨f, hf, _⟩ => List.not_mem_nil hf
  | cons m files ih =>
    obtain ⟨hm, hfiles⟩ := List.ne_and_not_mem_of_not_mem_cons hdel
    refine ih hfiles ?_
    unfold removeMarked
    by_cases hmem : m ∈ gbl
    · rw [if_pos hmem]
      exact .inl (Finmap.mem_insert.mpr (.inl rfl))
    · rw [if_neg hmem]
      refine h.imp_right fun ⟨f, hf, hin⟩ => ⟨f, (List.mem_cons.mp hf).resolve_left ?_, hin⟩
      rintro rfl
      exact hmem hin

theorem testcase_mem_typesToDelete (t : TcName) : t.testcase ∈ typesToDelete t.metadata := by
  simp [typesToDelete, TcName.metadata]

theorem dropFromGblLcl_ok (now : ℕ) (D : List TcName) (gbl : Dir) : ∃ gbl',
    (D.map TcName.testcase).foldlM (dropFromGblLcl now) gbl = .ok gbl' ∧
      DropsLcl (placeholderLcl now) gbl D gbl' := by
  induction D generalizing gbl with
  | nil => exact ⟨gbl, rfl, fun t ht => absurd ht List.not_mem_nil,
      fun n hn => absurd hn List.not_mem_nil, fun n _ => .inl rfl⟩
  | cons t D ih =>
    obtain ⟨gbl', h, hdrops⟩ := ih ((typesToDelete t.metadata).foldl
      (removeMarked t.metadata.deleted (placeholderLcl now)) gbl)
    have hdel : t.metadata.deleted ∉ typesToDelete t.metadata := fun h =>
      TcName.deleted_notMem_values (typesToDelete_subset _ h)
    have hstep := removeMarked_ok (placeholderLcl now) hdel gbl
    have hplaced : t.testcase ∈ gbl → t.metadata.deleted ∈ gbl' := fun ht => hdrops.deleted_mem
      (removeMarked_placed _ hdel (.inr ⟨_, testcase_mem_typesToDelete t, ht⟩))
    refine ⟨gbl', ?_, fun u hu hin => ?_, fun n hn => ?_, fun n hn => ?_⟩
    · rw [List.map_cons, Fold.foldlM_cons_eq_ok]
      exact ⟨_, by rw [dropFromGblLcl, getMetadataFiles_testcase]; rfl, h⟩
    · rcases List.mem_cons.mp hu with rfl | hu
      · exact hplaced hin
      · by_cases hut : u.testcase ∈ typesToDelete t.metadata
        · cases TcName.eq_of_mem_values u.testcase_mem_values (typesToDelete_subset _ hut)
          exact hplaced hin
        · refine hdrops.placed u hu ?_
          rcases (hstep u.testcase).2 hut with heq | ⟨hd, -⟩
          · exact (Dir.mem_congr heq).mpr hin
          · have hmem : u.testcase ∈ u.metadata.values := by simp [Metadata.values, TcName.metadata]
            exact absurd (hd ▸ hmem) TcName.deleted_notMem_values
    · by_cases hD : n ∈ D.flatMap fun t => typesToDelete t.metadata
      · exact hdrops.gone n hD
      · rw [List.flatMap_cons, List.mem_append] at hn
        have hgone := (hstep n).1 (hn.resolve_right hD)
        rcases hdrops.rest n hD with h | ⟨hdel, -⟩
        · rw [← Finmap.lookup_eq_none, h]
          exact Finmap.lookup_eq_none.mpr hgone
        · obtain ⟨u, -, rfl⟩ := List.mem_map.mp hdel
          exact absurd (typesToDelete_subset _ (hn.resolve_right hD)) TcName.deleted_notMem_values
    · rw [List.flatMap_cons, List.mem_append, not_or] at hn
      rw [List.map_cons, List.mem_cons]
      rcases hdrops.rest n hn.2 with h | ⟨hdel, h⟩
      · rw [h]
        rcases (hstep n).2 hn.1 with h | ⟨hdel, h⟩
        · exact .inl h
        · exact .inr ⟨.inl hdel, h⟩
      · exact .inr ⟨.inr hdel, h⟩

/-- Every testcase dropped has, over `@dedup_sync` and `tc_dir`, the PM map
of one that is kept. -/
theorem minimizeCorpusLcl_ok (os : Os Place) (loc tcDir gbl : Dir) : ∃ tcDir' gbl',
    minimizeCorpusLcl os loc tcDir gbl = .ok (tcDir', gbl') ∧ ∃ D : List TcName,
      (∀ n, tcDir'.lookup n =
        if n ∈ D.flatMap fun t => t.metadata.values then none else tcDir.lookup n) ∧
      DropsLcl (placeholderLcl os.time) gbl D gbl' ∧
      ∀ t ∈ D, t.testcase ∈ tcDir ∪ loc ∧ t.metadata.pmMap ∈ tcDir ∪ loc ∧ ∃ u : TcName, u ∉ D ∧
        (tcDir ∪ loc).lookup u.metadata.pmMap = (tcDir ∪ loc).lookup t.metadata.pmMap := by
  obtain ⟨dirs, dirs', hloc, htc, hcorpus⟩ := corpusLcl_ok os loc tcDir
  obtain ⟨D, hD, hdrop⟩ := Cmin.droppedFiles_ok os hcorpus.corpus
  obtain ⟨tcDir', htcDir, htcDir'⟩ := dropFromTc_ok D tcDir
  obtain ⟨gbl', hgbl, hgbl'⟩ := dropFromGblLcl_ok os.time D gbl
  refine ⟨tcDir', gbl', ?_, D, htcDir', hgbl', fun t ht => ?_⟩
  · exact Fold.bind_eq_ok.mpr ⟨dirs, hloc, Fold.bind_eq_ok.mpr ⟨dirs', htc,
      Fold.bind_eq_ok.mpr ⟨_, hD, Fold.bind_eq_ok.mpr ⟨_, htcDir,
        Fold.bind_eq_ok.mpr ⟨_, hgbl, rfl⟩⟩⟩⟩⟩
  · obtain ⟨hin, hdup⟩ := (hdrop t).mp ht
    have hlook : ∀ v : TcName,
        dirs'.2.lookup v.metadata.pmMap = (tcDir ∪ loc).lookup v.metadata.pmMap := by
      intro v
      rw [hcorpus.map, if_pos (.inr (isPmMap_iff.mpr ⟨v, rfl⟩))]
    have hpm := Cmin.mem_mapFiles_of_duplicate hdup
    obtain ⟨t', heq, htmem⟩ := (Cmin.mem_mapFiles hcorpus.corpus).mp hpm
    cases TcName.pmMap_inj.mp heq
    obtain ⟨m, hm, hcontent, hone⟩ := Cmin.exists_kept hpm
    have hkept := (hone m hm hcontent).mpr rfl
    obtain ⟨u, rfl, humem⟩ := (Cmin.mem_mapFiles hcorpus.corpus).mp hm
    obtain ⟨b, hb⟩ := Finmap.mem_iff.mp humem
    obtain ⟨c, hc⟩ := Finmap.mem_iff.mp htmem
    rw [hb, hc] at hcontent
    refine ⟨((hcorpus.testcase _).mp hin).2, ?_, u, fun hu => hkept ((hdrop u).mp hu).2, ?_⟩
    · rw [← Finmap.lookup_isSome, ← hlook, hc]
      rfl
    · rw [← hlook, ← hlook, hb, hc]
      exact congrArg some hcontent

end PMFuzz.Dedup
