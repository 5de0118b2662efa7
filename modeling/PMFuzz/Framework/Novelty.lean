import Mathlib.Order.BooleanAlgebra.Basic
import Mathlib.Data.Nat.Notation

/-!
# What shows something new

A collector sees a list of things and keeps those that show something that
none before has shown. What things show are elements of a Boolean algebra,
and `v` is what nothing has shown yet.

Nothing is lost: the things that are kept show what all of them show
(`sdiff_joined_kept`). Each one is kept for something that was left to show,
so there are only so many (`length_kept_le`).
-/

namespace PMFuzz.Novelty

variable {α : Type*} [GeneralizedBooleanAlgebra α] {v t : α} {ts : List α}

/-- What all of them show. -/
def joined (ts : List α) : α := ts.foldr (· ⊔ ·) ⊥

@[simp] theorem joined_nil : joined ([] : List α) = ⊥ := rfl

@[simp] theorem joined_cons (t : α) (ts : List α) : joined (t :: ts) = t ⊔ joined ts := rfl

open Classical in
/-- The things that are kept when `v` is left to show. -/
noncomputable def kept : α → List α → List α
  | _, [] => []
  | v, t :: ts => if Disjoint v t then kept v ts else t :: kept (v \ t) ts

theorem kept_cons_of_disjoint (h : Disjoint v t) : kept v (t :: ts) = kept v ts := by
  rw [kept, if_pos h]

theorem kept_cons_of_not (h : ¬ Disjoint v t) : kept v (t :: ts) = t :: kept (v \ t) ts := by
  rw [kept, if_neg h]

/-- Nothing is lost. -/
theorem sdiff_joined_kept (v : α) (ts : List α) : v \ joined (kept v ts) = v \ joined ts := by
  induction ts generalizing v with
  | nil => rfl
  | cons t ts ih =>
    by_cases h : Disjoint v t
    · rw [kept_cons_of_disjoint h, ih, joined_cons, ← sdiff_sdiff_left, h.sdiff_eq_left]
    · rw [kept_cons_of_not h, joined_cons, joined_cons, ← sdiff_sdiff_left, ← sdiff_sdiff_left, ih]

/-- Each thing that is kept takes something away. -/
theorem length_kept_le {f : α → ℕ} (hf : StrictMono f) (v : α) (ts : List α) :
    (kept v ts).length + f (v \ joined ts) ≤ f v := by
  induction ts generalizing v with
  | nil => simp [kept]
  | cons t ts ih =>
    rw [joined_cons, ← sdiff_sdiff_left]
    by_cases h : Disjoint v t
    · rw [kept_cons_of_disjoint h, h.sdiff_eq_left]
      exact ih v
    · have hlt : f (v \ t) < f v := hf (sdiff_lt_left.mpr fun ht => h ht.symm)
      have hrest := ih (v \ t)
      rw [kept_cons_of_not h, List.length_cons]
      omega

end PMFuzz.Novelty
