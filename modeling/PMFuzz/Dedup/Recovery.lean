import PMFuzz.Dedup.Global

/-!
# Interrupted updates of the store

`update_global` copies the files of a testcase one by one, and a later run
takes the testcase in `@dedup` for a sign that all of them are there.

* `updateGlobal_eq_copies`: `update_global` is the list of its copies, done in
  turn (`globalCopies`);
* `updateGlobal_total`: it does not abort where every testcase of `tc_dir`
  has its image;
* `recovers_iff`: interrupted after some of its copies and run again, it leaves
  a complete store exactly when no testcase was cut (`CleanCut`);
* `cut_testcase`: one that is.
-/

namespace PMFuzz.Dedup

open Names Str

/-- A `copypreserve` into `@dedup`, under the name the file has. -/
structure Copy where
  src : Dir
  name : Str

def Copy.run (gbl : Dir) (c : Copy) : Except Stop Dir := copypreserve c.src c.name gbl c.name

/-- The copies of a file that need not be there. -/
def copiesIfThere (src : Dir) (name : Str) : List Copy := if name ∈ src then [⟨src, name⟩] else []

/-- The copies of `copyTestcase`. -/
def testcaseCopies (tcDir imgDir : Dir) (testcase img : Str) : List Copy :=
  ⟨tcDir, testcase⟩ :: (copiesIfThere tcDir ("map_".toList ++ testcase) ++
    (copiesIfThere tcDir ("pm_map_".toList ++ testcase) ++ [⟨imgDir, img⟩]))

/-- Those of one round of the first loop. -/
def collectCopies (gblTcFiles tcDir imgDir : Dir) (entry : Str × Str) : Except Stop (List Copy) := do
  let destNamePlaceholder := (← getMetadataFiles entry.1).deleted
  if entry.1 ∉ gblTcFiles ∧ destNamePlaceholder ∉ gblTcFiles then
    return testcaseCopies tcDir imgDir entry.1 entry.2
  else return []

/-- Those of the second loop. -/
def siteCopies (imgDir gbl : Dir) (names : List Str) : List Copy :=
  (names.filter fun fname => isCmprCrashSite fname ∧ fname ∉ gbl).map (⟨imgDir, ·⟩)

/-- The copies of `update_global`, in its order. -/
def globalCopies (os : Os Place) (tcDir imgDir gbl : Dir) : Except Stop (List Copy) := do
  let localTestcases ← localTestcasesList os tcDir imgDir
  let copies ← localTestcases.mapM (collectCopies gbl tcDir imgDir)
  return copies.flatten ++ siteCopies imgDir gbl (os.listdir .img imgDir)

/-- `update_global`, interrupted after `k` of its copies. -/
def interruptedUpdate (os : Os Place) (k : ℕ) (tcDir imgDir gbl : Dir) : Except Stop Dir := do
  let copies ← globalCopies os tcDir imgDir gbl
  (copies.take k).foldlM Copy.run gbl

/-- The testcases of the store have their image, and the maps that are beside
them in `tc_dir`. -/
structure Recovered (tcDir gbl : Dir) : Prop where
  image : ∀ t : TcName, t.testcase ∈ gbl → t.image ∈ gbl
  map : ∀ t : TcName, t.testcase ∈ gbl → t.metadata.map ∈ tcDir → t.metadata.map ∈ gbl
  pmMap : ∀ t : TcName, t.testcase ∈ gbl → t.metadata.pmMap ∈ tcDir → t.metadata.pmMap ∈ gbl

/-- A testcase is not among the first `k` copies, or all its other files are,
or were in the store before. -/
def CleanCut (os : Os Place) (k : ℕ) (tcDir imgDir gbl : Dir) : Prop :=
  ∀ copies, globalCopies os tcDir imgDir gbl = .ok copies → ∀ t : TcName,
    t.testcase ∈ (copies.take k).map Copy.name →
      ∀ n, Copied tcDir t n → n ∈ (copies.take k).map Copy.name ∨ n ∈ gbl

variable {os os' : Os Place} {tcDir imgDir gbl gbl' g cur cur' src : Dir} {copies : List Copy} {k : ℕ}
  {t : TcName} {n : Str} {names : List Str} {tcs : List TcName}

/-! ## The copies of an update -/

theorem foldlM_copiesIfThere (src : Dir) (name : Str) (dst : Dir) :
    (copiesIfThere src name).foldlM Copy.run dst = copyIfThere src name dst := by
  unfold copiesIfThere copyIfThere
  split
  · exact bind_pure _
  · rfl

theorem foldlM_testcaseCopies (tcDir imgDir gbl : Dir) (testcase img : Str) :
    (testcaseCopies tcDir imgDir testcase img).foldlM Copy.run gbl =
      copyTestcase tcDir imgDir gbl testcase img := by
  rw [testcaseCopies, List.foldlM_cons]
  refine bind_congr fun gbl => ?_
  rw [List.foldlM_append, foldlM_copiesIfThere]
  refine bind_congr fun gbl => ?_
  rw [List.foldlM_append, foldlM_copiesIfThere]
  exact bind_congr fun gbl => bind_pure _

/-- The copies for a testcase of `tc_dir`. -/
def offeredCopies (gbl tcDir imgDir : Dir) (t : TcName) : List Copy :=
  if t.testcase ∉ gbl ∧ t.metadata.deleted ∉ gbl then
    testcaseCopies tcDir imgDir t.testcase t.image
  else []

theorem collectCopies_testcase (gbl tcDir imgDir : Dir) (t : TcName) :
    collectCopies gbl tcDir imgDir (t.testcase, t.image) = .ok (offeredCopies gbl tcDir imgDir t) := by
  rw [collectCopies, getMetadataFiles_testcase]
  show (if t.testcase ∉ gbl ∧ t.metadata.deleted ∉ gbl then _ else _) = _
  unfold offeredCopies
  split <;> rfl

theorem foldlM_offeredCopies (gbl tcDir imgDir cur : Dir) (t : TcName) :
    (offeredCopies gbl tcDir imgDir t).foldlM Copy.run cur =
      collectTestcase gbl tcDir imgDir cur (t.testcase, t.image) := by
  rw [collectTestcase, getMetadataFiles_testcase]
  show _ = (if t.testcase ∉ gbl ∧ t.metadata.deleted ∉ gbl then _ else _)
  unfold offeredCopies
  split
  · exact foldlM_testcaseCopies ..
  · rfl

theorem foldlM_flatMap_offeredCopies (gbl tcDir imgDir cur : Dir) (tcs : List TcName) :
    (tcs.flatMap (offeredCopies gbl tcDir imgDir)).foldlM Copy.run cur =
      (tcs.map fun t => (t.testcase, t.image)).foldlM (collectTestcase gbl tcDir imgDir) cur := by
  induction tcs generalizing cur with
  | nil => rfl
  | cons t tcs ih =>
    rw [List.flatMap_cons, List.foldlM_append, foldlM_offeredCopies, List.map_cons, List.foldlM_cons]
    exact bind_congr fun cur => ih cur

/-- The crash sites that are copied are those that the store did not have
before the loop. -/
theorem foldlM_siteCopies (hnodup : names.Nodup)
    (h : ∀ n ∈ names, isCmprCrashSite n = true → (n ∈ cur ↔ n ∈ gbl)) :
    (siteCopies imgDir gbl names).foldlM Copy.run cur = names.foldlM (collectCrashSite imgDir) cur := by
  induction names generalizing cur with
  | nil => rfl
  | cons n names ih =>
    obtain ⟨hnotin, hnodup⟩ := List.nodup_cons.mp hnodup
    have htail := fun m hm => h m (List.mem_cons_of_mem n hm)
    rw [List.foldlM_cons, collectCrashSite, siteCopies]
    by_cases hn : isCmprCrashSite n = true ∧ n ∉ gbl
    · have hcur : isCmprCrashSite n = true ∧ n ∉ cur :=
        ⟨hn.1, mt (h n List.mem_cons_self hn.1).mp hn.2⟩
      rw [List.filter_cons_of_pos (by simpa using hn), List.map_cons, List.foldlM_cons, if_pos hcur]
      show copypreserve imgDir n cur n >>= _ = _
      cases hc : copypreserve imgDir n cur n with
      | error e => rfl
      | ok cur' =>
        obtain ⟨b, -, rfl⟩ := copypreserve_eq_ok.mp hc
        refine ih hnodup fun m hm hsite => ?_
        have hne : m ≠ n := fun heq => hnotin (heq ▸ hm)
        rw [Finmap.mem_insert, or_iff_right hne, htail m hm hsite]
    · have hcur : ¬ (isCmprCrashSite n = true ∧ n ∉ cur) := fun hc =>
        hn ⟨hc.1, mt (h n List.mem_cons_self hc.1).mpr hc.2⟩
      rw [List.filter_cons_of_neg (by simpa using hn), if_neg hcur]
      exact ih hnodup htail

theorem localTestcasesList_copies (gbl : Dir) {l : List (Str × Str)}
    (h : localTestcasesList os tcDir imgDir = .ok l) :
    ∃ tcs : List TcName, l = tcs.map (fun t => (t.testcase, t.image)) ∧ tcs.Nodup ∧
      (∀ t ∈ tcs, t.testcase ∈ tcDir ∧ t.image ∈ imgDir) ∧ globalCopies os tcDir imgDir gbl =
        .ok (tcs.flatMap (offeredCopies gbl tcDir imgDir) ++
          siteCopies imgDir gbl (os.listdir .img imgDir)) := by
  obtain ⟨tcs, rfl, hnodup, hmem, himg⟩ := localTestcasesList_eq_ok h
  refine ⟨tcs, rfl, hnodup, fun t ht => ⟨(hmem t).mp ht, himg t ht⟩, ?_⟩
  have hmap : (tcs.map fun t => (t.testcase, t.image)).mapM (collectCopies gbl tcDir imgDir) =
      .ok (tcs.map (offeredCopies gbl tcDir imgDir)) := by
    rw [Fold.mapM_eq_ok, List.forall₂_map_left_iff, List.forall₂_map_right_iff, List.forall₂_same]
    exact fun t _ => collectCopies_testcase gbl tcDir imgDir t
  rw [globalCopies, h]
  show ((tcs.map fun t => (t.testcase, t.image)).mapM (collectCopies gbl tcDir imgDir) >>= _) = _
  rw [hmap, List.flatMap_def]
  rfl

/-- `update_global` is its copies, done in turn. -/
theorem updateGlobal_eq_copies (os : Os Place) (tcDir imgDir gbl : Dir) :
    updateGlobal os tcDir imgDir gbl =
      (globalCopies os tcDir imgDir gbl).bind fun copies => copies.foldlM Copy.run gbl := by
  cases hl : localTestcasesList os tcDir imgDir with
  | error e =>
    rw [updateGlobal, globalCopies, hl]
    rfl
  | ok l =>
    obtain ⟨tcs, rfl, hnodup, -, hcopies⟩ := localTestcasesList_copies gbl hl
    rw [hcopies, updateGlobal, hl]
    show ((tcs.map fun t => (t.testcase, t.image)).foldlM (collectTestcase gbl tcDir imgDir) gbl >>=
      _) = List.foldlM Copy.run gbl _
    rw [List.foldlM_append, foldlM_flatMap_offeredCopies]
    cases hcur : (tcs.map fun t => (t.testcase, t.image)).foldlM (collectTestcase gbl tcDir imgDir) gbl with
    | error e => rfl
    | ok cur =>
      refine (foldlM_siteCopies (os.nodup _ _) fun n _ hsite => ?_).symm
      rw [List.foldlM_map] at hcur
      exact Dir.mem_congr ((copyLoop_ok hnodup hcur).2 n fun t _ _ _ hn =>
        cmprCrashSite_notMem_family hsite t hn.mem_family)

/-! ## After some of the copies -/

theorem foldlM_copies (h : copies.foldlM Copy.run cur = .ok cur') :
    n ∈ cur' ↔ n ∈ copies.map Copy.name ∨ n ∈ cur := by
  induction copies generalizing cur with
  | nil =>
    cases Fold.foldlM_nil_eq_ok.mp h
    simp
  | cons c copies ih =>
    obtain ⟨u, hu, h⟩ := Fold.foldlM_cons_eq_ok.mp h
    obtain ⟨b, -, rfl⟩ := copypreserve_eq_ok.mp hu
    rw [ih h, Finmap.mem_insert, List.map_cons, List.mem_cons]
    tauto

theorem foldlM_copies_total (h : ∀ c ∈ copies, c.name ∈ c.src) :
    ∃ cur', copies.foldlM Copy.run cur = .ok cur' := by
  obtain ⟨cur', hcur', -⟩ := Fold.foldlM_total (f := Copy.run) (P := fun _ => True)
    (fun c hc s _ => by
      obtain ⟨b, hb⟩ := Finmap.mem_iff.mp (h c hc)
      exact ⟨_, copypreserve_eq_ok.mpr ⟨b, hb, rfl⟩, trivial⟩) (s := cur) trivial
  exact ⟨cur', hcur'⟩

/-- What is copied is there. -/
theorem offeredCopies_source {c : Copy} (ht : t.testcase ∈ tcDir) (himg : t.image ∈ imgDir)
    (hc : c ∈ offeredCopies gbl tcDir imgDir t) : c.name ∈ c.src := by
  have hthere : ∀ name, c ∈ copiesIfThere tcDir name → c.name ∈ c.src := by
    intro name hc
    unfold copiesIfThere at hc
    split at hc
    · rename_i hin
      obtain rfl := List.mem_singleton.mp hc
      exact hin
    · exact absurd hc List.not_mem_nil
  unfold offeredCopies at hc
  split at hc
  · rw [testcaseCopies, List.mem_cons, List.mem_append, List.mem_append, List.mem_singleton] at hc
    rcases hc with rfl | hc | hc | rfl
    · exact ht
    · exact hthere _ hc
    · exact hthere _ hc
    · exact himg
  · exact absurd hc List.not_mem_nil

theorem siteCopies_source {c : Copy} (hc : c ∈ siteCopies imgDir gbl (os.listdir .img imgDir)) :
    c.name ∈ c.src := by
  obtain ⟨fname, hin, rfl⟩ := List.mem_map.mp hc
  exact os.mem_listdir.mp (List.mem_filter.mp hin).1

/-- Where every testcase of `tc_dir` has its image, `update_global` does not
abort. -/
theorem updateGlobal_total (himg : ∀ t : TcName, t.testcase ∈ tcDir → t.image ∈ imgDir) :
    ∃ gbl', updateGlobal os tcDir imgDir gbl = .ok gbl' := by
  obtain ⟨tcs, hfilter, -, hmem⟩ := filter_isTc os .tc tcDir
  have hlist : localTestcasesList os tcDir imgDir = .ok (tcs.map fun t => (t.testcase, t.image)) := by
    rw [localTestcasesList, hfilter, Fold.mapM_eq_ok, List.forall₂_map_left_iff,
      List.forall₂_map_right_iff, List.forall₂_same]
    intro t ht
    rw [replace_testcase_image]
    exact if_neg (not_not.mpr (himg t ((hmem t).mp ht)))
  obtain ⟨tcs', -, -, hsrc, hcopies⟩ := localTestcasesList_copies gbl hlist
  rw [updateGlobal_eq_copies, hcopies]
  refine foldlM_copies_total fun c hc => ?_
  rcases List.mem_append.mp hc with hc | hc
  · obtain ⟨t, ht, hc⟩ := List.mem_flatMap.mp hc
    exact offeredCopies_source (hsrc t ht).1 (hsrc t ht).2 hc
  · exact siteCopies_source hc

theorem interruptedUpdate_images (h : interruptedUpdate os k tcDir imgDir gbl = .ok g) :
    ∀ t : TcName, t.testcase ∈ tcDir → t.image ∈ imgDir := by
  obtain ⟨copies, hcopies, -⟩ := Fold.bind_eq_ok.mp h
  obtain ⟨l, hl, -⟩ := Fold.bind_eq_ok.mp hcopies
  obtain ⟨tcs, -, -, hmem, himg⟩ := localTestcasesList_eq_ok hl
  exact fun t ht => himg t ((hmem t).mpr ht)

/-- The files of a testcase are copied for it alone. -/
theorem Updated.mem_copied (h : Updated tcDir imgDir gbl gbl') (hn : Copied tcDir t n) :
    n ∈ gbl' ↔ n ∈ gbl ∨ Offered tcDir gbl t := by
  rw [h.mem]
  refine or_congr_right ⟨?_, fun ht => .inl ⟨t, ht, hn⟩⟩
  rintro (⟨u, hu, hnu⟩ | ⟨hsite, -⟩)
  · exact TcName.eq_of_mem_family hn.mem_family hnu.mem_family ▸ hu
  · exact absurd hn.mem_family (cmprCrashSite_notMem_family hsite t)

theorem recovered_iff : Recovered tcDir gbl ↔
    ∀ t : TcName, t.testcase ∈ gbl → ∀ n, Copied tcDir t n → n ∈ gbl := by
  constructor
  · rintro h t ht n (rfl | rfl | ⟨rfl | rfl, hin⟩)
    · exact ht
    · exact h.image t ht
    · exact h.map t ht hin
    · exact h.pmMap t ht hin
  · intro h
    exact ⟨fun t ht => h t ht _ (.inr (.inl rfl)), fun t ht hin => h t ht _ (.inr (.inr ⟨.inl rfl, hin⟩)),
      fun t ht hin => h t ht _ (.inr (.inr ⟨.inr rfl, hin⟩))⟩

/-- A complete store is updated, the update is interrupted, and a later one
ends: the store is complete again exactly when no testcase was cut. -/
theorem recovers_iff (hgbl : Recovered tcDir gbl) (hcut : interruptedUpdate os k tcDir imgDir gbl = .ok g) :
    ∃ gbl', updateGlobal os' tcDir imgDir g = .ok gbl' ∧
      (Recovered tcDir gbl' ↔ CleanCut os k tcDir imgDir gbl) := by
  obtain ⟨gbl', hrun⟩ : ∃ gbl', updateGlobal os' tcDir imgDir g = .ok gbl' :=
    updateGlobal_total (interruptedUpdate_images hcut)
  refine ⟨gbl', hrun, ?_⟩
  have hup := updateGlobal_ok hrun
  obtain ⟨copies, hcopies, hdone⟩ := Fold.bind_eq_ok.mp hcut
  have hmem : ∀ n, n ∈ g ↔ n ∈ (copies.take k).map Copy.name ∨ n ∈ gbl := fun n => foldlM_copies hdone
  rw [recovered_iff] at hgbl ⊢
  constructor
  · intro hall copies' hcopies' t ht n hn
    cases hcopies.symm.trans hcopies'
    have hin : t.testcase ∈ g := (hmem _).mpr (.inl ht)
    have hafter := hall t ((hup.mem_copied (.inl rfl)).mpr (.inl hin)) n hn
    -- a testcase that was copied is not copied again
    exact (hmem n).mp (((hup.mem_copied hn).mp hafter).resolve_right fun hoff => hoff.notMem hin)
  · intro hclean t ht n hn
    refine (hup.mem_copied hn).mpr (((hup.mem_copied (.inl rfl)).mp ht).imp_left fun hin => ?_)
    rcases (hmem _).mp hin with hin | hin
    · exact (hmem n).mpr (hclean copies hcopies t hin n hn)
    · exact (hmem n).mpr (.inr (hgbl t hin n hn))

/-! ## Two interruptions -/

/-- A testcase with its exec map. -/
def collected : Dir := [⟨"id=1.testcase".toList, [1]⟩, ⟨"map_id=1.testcase".toList, [0, 1]⟩].toFinmap

def images : Dir := [⟨"id=1.pm_pool.tar.gz".toList, [2]⟩].toFinmap

theorem recovered_empty : Recovered collected ∅ :=
  ⟨fun _ ht => absurd ht Finmap.notMem_empty, fun _ ht => absurd ht Finmap.notMem_empty,
    fun _ ht => absurd ht Finmap.notMem_empty⟩

theorem recovers_lastCopy : ∃ g gbl',
    interruptedUpdate (Os.sorted Place 0) 3 collected images ∅ = .ok g ∧
    updateGlobal (Os.reversed Place 0) collected images g = .ok gbl' ∧
    (Recovered collected gbl' ↔ CleanCut (Os.sorted Place 0) 3 collected images ∅) := by
  have hok : (interruptedUpdate (Os.sorted Place 0) 3 collected images ∅).toOption.isSome = true := by
    decide +kernel
  obtain ⟨g, hg⟩ := Option.isSome_iff_exists.mp hok
  have hcut := Fold.toOption_eq_some.mp hg
  obtain ⟨gbl', hrun, hiff⟩ := recovers_iff recovered_empty hcut
  exact ⟨g, gbl', hcut, hrun, hiff⟩

/-- After the first copy, of a testcase, its image is never copied. -/
theorem cut_testcase : ¬ ∀ (os os' : Os Place) (k : ℕ) (tcDir imgDir gbl g gbl' : Dir),
    Recovered tcDir gbl → interruptedUpdate os k tcDir imgDir gbl = .ok g →
      updateGlobal os' tcDir imgDir g = .ok gbl' → Recovered tcDir gbl' := by
  intro h
  have hrun : (interruptedUpdate (Os.sorted Place 0) 1 collected images ∅).toOption.bind (fun g =>
      (updateGlobal (Os.sorted Place 0) collected images g).toOption.map fun gbl' =>
        decide ("id=1.testcase".toList ∈ gbl' ∧ "id=1.pm_pool.tar.gz".toList ∉ gbl')) = some true := by
    decide +kernel
  obtain ⟨g, hg, hrun⟩ := Option.bind_eq_some_iff.mp hrun
  obtain ⟨gbl', hgbl', hrun⟩ := Option.map_eq_some_iff.mp hrun
  obtain ⟨htc, himg⟩ := of_decide_eq_true hrun
  have hall := h _ _ 1 _ _ _ g gbl' recovered_empty (Fold.toOption_eq_some.mp hg)
    (Fold.toOption_eq_some.mp hgbl')
  exact himg (hall.image ⟨"id=1".toList, .root (by decide : IsDigits "1".toList), false⟩ htc)

end PMFuzz.Dedup
