import PMFuzz.Framework.Dir
import PMFuzz.Framework.Fold
import PMFuzz.Names.StageDirs
import Mathlib.Data.Set.Card

/-!
# Counting paths

`get_total_paths` of `core/whatsup.py`. The bytes that are not zero in some
map (`Reached`) are the bytes that are not zero in what the loops combine:
`getCumulativeMap_ok` for the maps of a directory, in any order, and
`combineMaps_some` for those of two. The second one starts from the map of
`@dedup`, which must be there for it to take another one (`combineMaps_none`).

The package `bitarray` is a parameter. `Bitarray.Lawful` is what its
documentation says of the operations used here.
-/

namespace PMFuzz.Driver

open Names

/-- What the statistics raise. -/
inductive Fault
  | stop (stop : Stop)
  | typeError
  deriving DecidableEq

/-! ## The code -/

/-- The objects of the package `bitarray`. -/
structure Bitarray (α : Type) where
  /-- `bitarray()` and its `fromfile`, of a file of these bytes. -/
  fromfile : Bytes → α
  /-- `a|b`, where `a` may be `None`. -/
  or : Option α → α → Except Fault α
  tobytes : α → Bytes

structure Bitarray.Lawful {α : Type} (B : Bitarray α) : Prop where
  tobytes_fromfile (b : Bytes) : B.tobytes (B.fromfile b) = b
  /-- The bitwise or of two `bitarray`s of one length. -/
  or_some (a b : α) : (B.tobytes a).length = (B.tobytes b).length →
    ∃ c, B.or (some a) b = .ok c ∧ B.tobytes c = List.zipWith (· ||| ·) (B.tobytes a) (B.tobytes b)
  /-- `None` is no operand. -/
  or_none (b : α) : B.or none b = .error .typeError

section
variable {α : Type} (B : Bitarray α)

/-- The file's bits. -/
def readMap (tcdir : Dir) (f : Str) : Except Fault α :=
  match tcdir.lookup f with
  | some b => .ok (B.fromfile b)
  | none => .error (.stop (.fileNotFound f))

/-- One round of the loop of `get_cumulative_map`. -/
def addMap (tcdir : Dir) (cumulative : Option α) (f : Str) : Except Fault (Option α) := do
  let cur ← readMap B tcdir f
  match cumulative with
  | none => return some cur
  | some cumulative => return some (← B.or (some cumulative) cur)

/-- `get_cumulative_map`, of a directory that is listed in this order. -/
def getCumulativeMap (pmfuzzdirList : List Str) (tcdir : Dir) (filt : Str → Bool) (rename : Str → Str) :
    Except Fault (Option α) :=
  (pmfuzzdirList.filter filt).foldlM (fun cumulative f => addMap B tcdir cumulative (rename f)) none

/-- `combine_maps`. -/
def combineMaps : List (Option α) → Except Fault (Option α)
  | [] => .error (.stop (.abort "No map supplied".toList))
  | first :: maps => maps.foldlM (fun cumulative m =>
    match m with
    | none => .ok cumulative
    | some m => do return some (← B.or cumulative m)) first

/-- `count_tuples`. -/
def countTuples : Option α → ℕ
  | none => 0
  | some map => (B.tobytes map).countP (· ≠ 0)

end

/-- What the statistics read below the result directory. -/
structure PmfuzzDir where
  dedup : Dir
  /-- `testcases` of a stage directory. -/
  testcases : Str → Dir

inductive StatPlace
  | dedup
  | testcases

section
variable {α : Type} (B : Bitarray α) (os : Os StatPlace)

/-- `get_inclusive_map`. -/
def getInclusiveMap (pmfuzzD : PmfuzzDir) (curStage curIterid : ℕ) (filt : Str → Bool) (rename : Str → Str) :
    Except Fault (Option α) :=
  if curStage ≠ 1 then
    match getOutdirName curStage curIterid with
    | .error stop => .error (.stop stop)
    | .ok stageD =>
      let testcaseD := pmfuzzD.testcases stageD
      getCumulativeMap B (os.listdir .testcases testcaseD) testcaseD filt rename
  else .ok none

/-- `get_total_paths`. -/
def getTotalPaths (pmfuzzdir : PmfuzzDir) (stageMax iteridMax : ℕ) : Except Fault ℕ := do
  let dedup ← getCumulativeMap B (os.listdir .dedup pmfuzzdir.dedup) pmfuzzdir.dedup isMap id
  let inclusive ← getInclusiveMap B os pmfuzzdir stageMax iteridMax isMap id
  return countTuples B (← combineMaps B [dedup, inclusive])

end

/-! ## The union -/

/-- The bytes of a map that are not zero. -/
def nonzero (m : Bytes) : Set ℕ := {i | m.getD i 0 ≠ 0}

/-- Those of a map that may be absent. -/
def marks (m : Option Bytes) : Set ℕ := {i | ∃ b ∈ m, i ∈ nonzero b}

/-- Those of the maps of a directory. -/
def mapped (d : Dir) : Set ℕ := {i | ∃ n b, isMap n = true ∧ d.lookup n = some b ∧ i ∈ nonzero b}

/-- Some map of `@dedup`, or of the current stage after the first one, has a
byte that is not zero there. -/
def Reached (pmfuzzdir : PmfuzzDir) (stageMax iteridMax : ℕ) : Set ℕ :=
  {i | i ∈ mapped pmfuzzdir.dedup ∨ stageMax ≠ 1 ∧ i ∈ mapped (pmfuzzdir.testcases (stageDir stageMax iteridMax))}

/-- The maps of the directory have one length. -/
def MapLength (len : ℕ) (d : Dir) : Prop := ∀ n b, isMap n = true → d.lookup n = some b → b.length = len

theorem marks_none : marks none = ∅ := by
  ext i
  simp [marks]

theorem marks_some (m : Bytes) : marks (some m) = nonzero m := by
  ext i
  simp [marks]

/-- Or-ing two maps unites them. -/
theorem nonzero_zipWith {a b : Bytes} (h : a.length = b.length) :
    nonzero (List.zipWith (· ||| ·) a b) = nonzero a ∪ nonzero b := by
  ext i
  simp only [nonzero, Set.mem_ofPred_eq, Set.mem_union, List.getD_eq_getElem?_getD, List.getElem?_zipWith]
  rcases lt_or_ge i a.length with hi | hi
  · have hi' : i < b.length := h ▸ hi
    simp only [List.getElem?_eq_getElem hi, List.getElem?_eq_getElem hi', Option.getD_some, ne_eq,
      UInt8.or_eq_zero_iff]
    exact Decidable.not_and_iff_or_not
  · simp [List.getElem?_eq_none hi, List.getElem?_eq_none (h ▸ hi)]

theorem finite_nonzero (m : Bytes) : (nonzero m).Finite := by
  refine (Set.finite_lt_nat m.length).subset fun i hi => ?_
  by_contra hlen
  exact hi (List.getD_eq_getElem?_getD ▸ by rw [List.getElem?_eq_none (not_lt.mp hlen)]; rfl)

theorem ncard_nonzero (m : Bytes) : (nonzero m).ncard = m.countP (· ≠ 0) := by
  induction m with
  | nil => simp [nonzero]
  | cons b m ih =>
    have hrest : (Set.image Nat.succ (nonzero m)).ncard = m.countP (· ≠ 0) := by
      rw [Set.ncard_image_of_injective _ Nat.succ_injective, ih]
    by_cases hb : b = 0
    · have hsplit : nonzero (b :: m) = Set.image Nat.succ (nonzero m) := by
        ext i
        cases i <;> simp [nonzero, hb]
      rw [hsplit, hrest, List.countP_cons_of_neg (by simpa using hb)]
    · have hsplit : nonzero (b :: m) = insert 0 (Set.image Nat.succ (nonzero m)) := by
        ext i
        cases i <;> simp [nonzero, hb]
      have hfin := (finite_nonzero m).image Nat.succ
      rw [hsplit, Set.ncard_insert_of_notMem (by simp) hfin, hrest, List.countP_cons_of_pos (by simpa using hb)]

section
variable {α : Type} {B : Bitarray α} {len : ℕ} {a b : α} {r : Option α} {d : Dir}

theorem countTuples_eq (r : Option α) : countTuples B r = (marks (r.map B.tobytes)).ncard := by
  cases r with
  | none => rw [Option.map_none, marks_none, Set.ncard_empty]; rfl
  | some m => rw [Option.map_some, marks_some, ncard_nonzero]; rfl

/-- Or-ing two `bitarray`s unites them. -/
theorem Bitarray.Lawful.or_ok (hB : B.Lawful) (ha : (B.tobytes a).length = len) (hb : (B.tobytes b).length = len) :
    ∃ c, B.or (some a) b = .ok c ∧ (B.tobytes c).length = len ∧
      nonzero (B.tobytes c) = nonzero (B.tobytes a) ∪ nonzero (B.tobytes b) := by
  have hlen : (B.tobytes a).length = (B.tobytes b).length := ha.trans hb.symm
  obtain ⟨c, hc, hbytes⟩ := hB.or_some a b hlen
  refine ⟨c, hc, ?_, by rw [hbytes, nonzero_zipWith hlen]⟩
  rw [hbytes, List.length_zipWith, ha, hb, min_self]

/-! ## A directory -/

/-- One round adds the map of the file. -/
theorem addMap_ok (hB : B.Lawful) {f : Str} {cur : Bytes} (hr : ∀ m ∈ r, (B.tobytes m).length = len)
    (hcur : d.lookup f = some cur) (hlen : cur.length = len) :
    ∃ m, addMap B d r f = .ok (some m) ∧ (B.tobytes m).length = len ∧
      nonzero (B.tobytes m) = marks (r.map B.tobytes) ∪ nonzero cur := by
  have hread : readMap B d f = .ok (B.fromfile cur) := by rw [readMap, hcur]
  have hbytes := hB.tobytes_fromfile cur
  have hcurlen : (B.tobytes (B.fromfile cur)).length = len := by rw [hbytes, hlen]
  cases r with
  | none =>
    refine ⟨B.fromfile cur, ?_, hcurlen, by rw [hbytes, Option.map_none, marks_none, Set.empty_union]⟩
    rw [addMap, hread]
    rfl
  | some m =>
    obtain ⟨c, hc, hclen, hcmarks⟩ := hB.or_ok (hr m rfl) hcurlen
    refine ⟨c, ?_, hclen, by rw [hcmarks, hbytes, Option.map_some, marks_some]⟩
    simp only [addMap, hread, bind, Except.bind, hc]
    rfl

theorem addMap_loop (hB : B.Lawful) {files : List Str} (hr : ∀ m ∈ r, (B.tobytes m).length = len)
    (hfiles : ∀ f ∈ files, ∃ b, d.lookup f = some b ∧ b.length = len) :
    ∃ r', files.foldlM (fun cumulative f => addMap B d cumulative (id f)) r = .ok r' ∧
      (∀ m ∈ r', (B.tobytes m).length = len) ∧ (r' = none ↔ r = none ∧ files = []) ∧
      marks (r'.map B.tobytes) =
        marks (r.map B.tobytes) ∪ {i | ∃ f ∈ files, ∃ b, d.lookup f = some b ∧ i ∈ nonzero b} := by
  induction files generalizing r with
  | nil => exact ⟨r, rfl, hr, by simp, by simp⟩
  | cons f files ih =>
    obtain ⟨cur, hcur, hlen⟩ := hfiles f List.mem_cons_self
    obtain ⟨m, hm, hmlen, hmarks⟩ := addMap_ok hB hr hcur hlen
    have hfiles' := fun f' hf => hfiles f' (List.mem_cons_of_mem f hf)
    obtain ⟨r', hloop, hlen', hnone, hmarks'⟩ := ih (r := some m) (fun _ h => Option.some.inj h ▸ hmlen) hfiles'
    refine ⟨r', Fold.foldlM_cons_eq_ok.mpr ⟨_, hm, hloop⟩, hlen', by simp [hnone], ?_⟩
    rw [hmarks', Option.map_some, marks_some, hmarks]
    ext i
    simp [hcur, or_assoc]

/-- In whatever order the maps are listed, they are united. -/
theorem getCumulativeMap_ok (hB : B.Lawful) {files : List Str} (hfiles : ∀ n, n ∈ files ↔ n ∈ d)
    (hd : MapLength len d) :
    ∃ r, getCumulativeMap B files d isMap id = .ok r ∧ (∀ m ∈ r, (B.tobytes m).length = len) ∧
      (r = none ↔ ∀ n ∈ d, isMap n = false) ∧ marks (r.map B.tobytes) = mapped d := by
  have hmaps : ∀ f ∈ files.filter isMap, ∃ b, d.lookup f = some b ∧ b.length = len := by
    intro f hf
    obtain ⟨hf, hmap⟩ := List.mem_filter.mp hf
    obtain ⟨b, hb⟩ := Finmap.mem_iff.mp ((hfiles f).mp hf)
    exact ⟨b, hb, hd f b hmap hb⟩
  obtain ⟨r, hr, hlen, hnone, hmarks⟩ := addMap_loop hB (r := none) nofun hmaps
  refine ⟨r, hr, hlen, ?_, ?_⟩
  · simp [hnone, List.filter_eq_nil_iff, hfiles]
  · rw [hmarks, Option.map_none, marks_none, Set.empty_union]
    ext i
    constructor
    · rintro ⟨f, hf, b, hb, hi⟩
      exact ⟨f, b, (List.mem_filter.mp hf).2, hb, hi⟩
    · rintro ⟨f, b, hmap, hb, hi⟩
      exact ⟨f, List.mem_filter.mpr ⟨(hfiles f).mpr (Finmap.mem_of_lookup_eq_some hb), hmap⟩, b, hb, hi⟩

/-! ## Two directories -/

theorem combineMaps_none (hB : B.Lawful) (m : α) : combineMaps B [none, some m] = .error .typeError := by
  simp only [combineMaps, List.foldlM_cons, hB.or_none, bind, Except.bind]

theorem combineMaps_some (hB : B.Lawful) (ha : (B.tobytes a).length = len)
    (hr : ∀ m ∈ r, (B.tobytes m).length = len) :
    ∃ c, combineMaps B [some a, r] = .ok (some c) ∧
      nonzero (B.tobytes c) = nonzero (B.tobytes a) ∪ marks (r.map B.tobytes) := by
  cases r with
  | none => exact ⟨a, rfl, by rw [Option.map_none, marks_none, Set.union_empty]⟩
  | some m =>
    obtain ⟨c, hc, -, hmarks⟩ := hB.or_ok ha (hr m rfl)
    refine ⟨c, ?_, by rw [hmarks, Option.map_some, marks_some]⟩
    simp only [combineMaps, List.foldlM_cons, List.foldlM_nil, hc, bind, Except.bind]
    rfl

end

/-- Some file of the directory is a map. -/
def HasMaps (d : Dir) : Prop := ∃ n ∈ d, isMap n = true

/-- The directories that are read hold maps of one length. -/
structure SameLength (len : ℕ) (pmfuzzdir : PmfuzzDir) (stageMax iteridMax : ℕ) : Prop where
  dedup : MapLength len pmfuzzdir.dedup
  testcases : stageMax ≠ 1 → MapLength len (pmfuzzdir.testcases (stageDir stageMax iteridMax))

section
variable {α : Type} {B : Bitarray α} {len : ℕ} {pmfuzzdir : PmfuzzDir} {stageMax iteridMax : ℕ}

theorem getInclusiveMap_ok (hB : B.Lawful) (os : Os StatPlace) (hs : 1 ≤ stageMax) (hi : 1 ≤ iteridMax)
    (hlen : SameLength len pmfuzzdir stageMax iteridMax) :
    ∃ r, getInclusiveMap B os pmfuzzdir stageMax iteridMax isMap id = .ok r ∧
      (∀ m ∈ r, (B.tobytes m).length = len) ∧
      (r ≠ none ↔ stageMax ≠ 1 ∧ HasMaps (pmfuzzdir.testcases (stageDir stageMax iteridMax))) ∧
      marks (r.map B.tobytes) =
        {i | stageMax ≠ 1 ∧ i ∈ mapped (pmfuzzdir.testcases (stageDir stageMax iteridMax))} := by
  by_cases h : stageMax = 1
  · exact ⟨none, if_neg (not_not.mpr h), nofun, by simp [h], by simp [h, marks_none]⟩
  · obtain ⟨r, hr, hrlen, hnone, hmarks⟩ := getCumulativeMap_ok hB (fun _ => os.mem_listdir) (hlen.testcases h)
    refine ⟨r, ?_, hrlen, ?_, by simp [h, hmarks]⟩
    · rw [getInclusiveMap, if_pos h, getOutdirName_of_pos hs hi]
      exact hr
    · simp [h, hnone, HasMaps]

/-- The paths are counted if and only if `@dedup` has a map or no other
directory has one. -/
theorem getTotalPaths_iff (hB : B.Lawful) (os : Os StatPlace) (hs : 1 ≤ stageMax) (hi : 1 ≤ iteridMax)
    (hlen : SameLength len pmfuzzdir stageMax iteridMax) :
    getTotalPaths B os pmfuzzdir stageMax iteridMax = .ok (Reached pmfuzzdir stageMax iteridMax).ncard ↔
      stageMax = 1 ∨ HasMaps pmfuzzdir.dedup ∨ ¬ HasMaps (pmfuzzdir.testcases (stageDir stageMax iteridMax)) := by
  obtain ⟨dedup, hdedup, hdlen, hdnone, hdmarks⟩ :=
    getCumulativeMap_ok hB (fun _ => os.mem_listdir (p := .dedup)) hlen.dedup
  obtain ⟨inclusive, hinc, hilen, hinone, himarks⟩ := getInclusiveMap_ok hB os hs hi hlen
  have hreached : Reached pmfuzzdir stageMax iteridMax =
      marks (dedup.map B.tobytes) ∪ marks (inclusive.map B.tobytes) := by
    rw [hdmarks, himarks]
    rfl
  have hrun : getTotalPaths B os pmfuzzdir stageMax iteridMax =
      (combineMaps B [dedup, inclusive]).map (countTuples B) := by
    simp only [getTotalPaths, hdedup, hinc, bind, Except.bind]
    cases combineMaps B [dedup, inclusive] <;> rfl
  rw [hrun, hreached]
  cases dedup with
  | some a =>
    have hhas : HasMaps pmfuzzdir.dedup := by
      by_contra hno
      exact absurd (hdnone.mpr fun n hn => Bool.eq_false_of_not_eq_true fun h => hno ⟨n, hn, h⟩) (by simp)
    obtain ⟨c, hc, hmarks⟩ := combineMaps_some hB (hdlen a rfl) hilen
    refine iff_of_true ?_ (.inr (.inl hhas))
    rw [hc, Except.map, countTuples_eq, Option.map_some, Option.map_some, marks_some, marks_some, hmarks]
  | none =>
    have hno : ¬ HasMaps pmfuzzdir.dedup := by
      rintro ⟨n, hn, h⟩
      rw [hdnone.mp rfl n hn] at h
      cases h
    cases inclusive with
    | some m =>
      obtain ⟨hstage, hmaps⟩ := hinone.mp (by simp)
      refine iff_of_false ?_ ?_
      · rw [combineMaps_none hB]
        nofun
      · rintro (h | h | h)
        · exact hstage h
        · exact hno h
        · exact h hmaps
    | none =>
      refine iff_of_true ?_ ?_
      · rw [Option.map_none, marks_none, Set.union_empty, Set.ncard_empty]
        rfl
      · have := mt hinone.mpr (not_not.mpr rfl)
        tauto

end

/-- `bitarray`s by their bytes. -/
def byteArrays : Bitarray Bytes where
  fromfile b := b
  or
    | none, _ => .error .typeError
    | some a, b => if a.length = b.length then .ok (List.zipWith (· ||| ·) a b) else .error (.stop .valueError)
  tobytes b := b

theorem lawful_byteArrays : byteArrays.Lawful where
  tobytes_fromfile _ := rfl
  or_some _ _ h := ⟨_, if_pos h, rfl⟩
  or_none _ := rfl

/-- A second stage with one map, and none in `@dedup`. -/
def firstMaps : PmfuzzDir where
  dedup := ∅
  testcases _ := Finmap.singleton "map_id=1.testcase".toList [1, 0]

/-- They are of one length. -/
theorem sameLength_firstMaps : SameLength 2 firstMaps 2 1 where
  dedup n b _ h := by cases h
  testcases _ n b _ h := by
    cases (Finmap.mem_singleton n _ _).mp (Finmap.mem_of_lookup_eq_some h)
    cases Finmap.lookup_singleton_eq.symm.trans h
    rfl

theorem getTotalPaths_iff_firstMaps :
    getTotalPaths byteArrays (Os.sorted StatPlace 0) firstMaps 2 1 = .ok (Reached firstMaps 2 1).ncard ↔
      2 = 1 ∨ HasMaps firstMaps.dedup ∨ ¬ HasMaps (firstMaps.testcases (stageDir 2 1)) :=
  getTotalPaths_iff lawful_byteArrays (Os.sorted StatPlace 0) (by decide) (by decide) sameLength_firstMaps

/-- `None|map` is no map. -/
theorem getTotalPaths_firstMaps :
    getTotalPaths byteArrays (Os.sorted StatPlace 0) firstMaps 2 1 ≠ .ok (Reached firstMaps 2 1).ncard := by
  have hrun : getTotalPaths byteArrays (Os.sorted StatPlace 0) firstMaps 2 1 = .error .typeError := by
    decide +kernel
  rw [hrun]
  nofun

end PMFuzz.Driver
