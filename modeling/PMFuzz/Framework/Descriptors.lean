import Mathlib.Data.Finset.Card
import Mathlib.Data.Fintype.EquivFin

/-!
# Descriptors

`open` takes the lowest descriptor that is not in use. As long as all that are in
use lie below a bound, the next one does, too, unless they are all of
those (`lowestFree_lt_iff`).
-/

namespace PMFuzz

variable {fds : Finset ℕ} {n : ℕ}

/-- The lowest descriptor that is not in use: one of so many numbers is not. -/
def lowestFree (fds : Finset ℕ) : ℕ := ((List.range (fds.card + 1)).find? (· ∉ fds)).getD fds.card

theorem find?_eq_lowestFree (fds : Finset ℕ) :
    (List.range (fds.card + 1)).find? (· ∉ fds) = some (lowestFree fds) := by
  have hex : ∃ fd ∈ List.range (fds.card + 1), fd ∉ fds := by
    by_contra hall
    push Not at hall
    have hsub : Finset.range (fds.card + 1) ⊆ fds := fun fd hfd =>
      hall fd (List.mem_range.mpr (Finset.mem_range.mp hfd))
    have hle := Finset.card_le_card hsub
    rw [Finset.card_range] at hle
    omega
  have hsome : ((List.range (fds.card + 1)).find? (· ∉ fds)).isSome = true := by
    rw [List.find?_isSome]
    simpa using hex
  obtain ⟨fd, hfd⟩ := Option.isSome_iff_exists.mp hsome
  rw [lowestFree, hfd, Option.getD_some]

theorem lowestFree_notMem (fds : Finset ℕ) : lowestFree fds ∉ fds := by
  simpa using List.find?_some (find?_eq_lowestFree fds)

theorem range_lowestFree_subset (fds : Finset ℕ) : Finset.range (lowestFree fds) ⊆ fds := by
  intro fd hfd
  have hlt := Finset.mem_range.mp hfd
  have hfind := (List.find?_range_eq_some.mp (find?_eq_lowestFree fds)).2.2 fd hlt
  simpa using hfind

theorem lowestFree_le {fd : ℕ} (h : fd ∉ fds) : lowestFree fds ≤ fd :=
  Nat.not_lt.mp fun hlt => h (range_lowestFree_subset fds (Finset.mem_range.mpr hlt))

theorem lowestFree_lt_iff (h : fds ⊆ Finset.range n) : lowestFree fds < n ↔ fds.card < n := by
  refine ⟨fun hlt => ?_, fun hcard => ?_⟩
  · have hssub : fds ⊂ Finset.range n :=
      Finset.ssubset_iff_of_subset h |>.mpr ⟨_, Finset.mem_range.mpr hlt, lowestFree_notMem fds⟩
    simpa using Finset.card_lt_card hssub
  · by_contra hge
    have hsub : Finset.range n ⊆ fds :=
      (Finset.range_subset_range.mpr (Nat.not_lt.mp hge)).trans (range_lowestFree_subset fds)
    have hle := Finset.card_le_card hsub
    rw [Finset.card_range] at hle
    exact Nat.not_lt.mpr hle hcard

/-- One more descriptor. -/
theorem card_insert_lowestFree (fds : Finset ℕ) : (insert (lowestFree fds) fds).card = fds.card + 1 :=
  Finset.card_insert_of_notMem (lowestFree_notMem fds)

theorem insert_lowestFree_subset (h : fds ⊆ Finset.range n) (hcard : fds.card < n) :
    insert (lowestFree fds) fds ⊆ Finset.range n :=
  Finset.insert_subset (Finset.mem_range.mpr ((lowestFree_lt_iff h).mpr hcard)) h

end PMFuzz
