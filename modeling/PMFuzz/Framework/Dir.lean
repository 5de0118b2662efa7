import PMFuzz.Framework.Str
import Mathlib.Data.Finmap

/-!
# Directories

A directory is a finite map from names to contents. `listdir` returns the
names in any order: an `Os` gives one for each directory of a program, which
a program sees through its `Os` argument alone.
-/

namespace PMFuzz

/-- Contents of a file. -/
abbrev Bytes := List UInt8

/-- The files of a directory. -/
abbrev Dir := Finmap fun _ : Str => Bytes

/-- ASCII text as a file holds it. -/
def Bytes.ofStr (s : Str) : Bytes := s.map fun c => UInt8.ofNat c.toNat

/-- What a program with the directories `P` gets from the operating system:
the order in which it lists files, and the time in seconds. -/
structure Os (P : Type) where
  listdir : P → Dir → List Str
  nodup : ∀ p d, (listdir p d).Nodup
  mem_listdir : ∀ {p d n}, n ∈ listdir p d ↔ n ∈ d
  time : ℕ

/-- The names in alphabetical order. -/
def sortedNames (d : Dir) : List Str :=
  Quotient.liftOn d.keys.val (List.insertionSort (· ≤ ·)) Str.insertionSort_eq_of_perm

theorem coe_sortedNames (d : Dir) : (sortedNames d : Multiset Str) = d.keys.val := by
  unfold sortedNames
  induction d.keys.val using Quotient.inductionOn with
  | _ l => exact Multiset.coe_eq_coe.mpr (List.perm_insertionSort _ l)

/-- An operating system that lists in alphabetical order. -/
def Os.sorted (P : Type) (time : ℕ) : Os P where
  listdir _ := sortedNames
  nodup _ d := by
    rw [← Multiset.coe_nodup, coe_sortedNames]
    exact d.keys.nodup
  mem_listdir {_ d n} := by
    rw [← Multiset.mem_coe, coe_sortedNames, Finset.mem_val, Finmap.mem_keys]
  time := time

/-- An operating system that lists in the opposite order. -/
def Os.reversed (P : Type) (time : ℕ) : Os P where
  listdir p d := ((Os.sorted P time).listdir p d).reverse
  nodup p d := List.nodup_reverse.mpr ((Os.sorted P time).nodup p d)
  mem_listdir := List.mem_reverse.trans (Os.sorted P time).mem_listdir
  time := time

namespace Dir

variable {d : Dir} {n m : Str} {names : List Str}

/-- Remove those of the files that are there. -/
def removeAll (d : Dir) (names : List Str) : Dir := names.foldl (fun d n => d.erase n) d

theorem lookup_removeAll :
    (d.removeAll names).lookup n = if n ∈ names then none else d.lookup n := by
  induction names generalizing d with
  | nil => rfl
  | cons m names ih =>
    have hstep : removeAll d (m :: names) = removeAll (d.erase m) names := rfl
    rw [hstep, ih]
    by_cases hmem : n ∈ names
    · simp [hmem]
    · by_cases hm : n = m
      · subst hm
        simp
      · simp [hmem, hm, Finmap.lookup_erase_ne hm]

theorem mem_removeAll : n ∈ d.removeAll names ↔ n ∈ d ∧ n ∉ names := by
  rw [← Finmap.lookup_isSome, lookup_removeAll]
  by_cases h : n ∈ names <;> simp [h, Finmap.lookup_isSome]

/-- A file with the same content is there too. -/
theorem mem_congr {d' : Dir} (h : d'.lookup n = d.lookup m) : n ∈ d' ↔ m ∈ d := by
  rw [← Finmap.lookup_isSome, h, Finmap.lookup_isSome]

theorem lookup_insert {b : Bytes} :
    (Finmap.insert m b d).lookup n = if n = m then some b else d.lookup n := by
  by_cases h : n = m
  · subst h; simp
  · simp [h, Finmap.lookup_insert_of_ne d h]

theorem lookup_erase : (Finmap.erase m d).lookup n = if n = m then none else d.lookup n := by
  by_cases h : n = m
  · subst h; simp
  · simp [h, Finmap.lookup_erase_ne h]

end Dir

end PMFuzz
