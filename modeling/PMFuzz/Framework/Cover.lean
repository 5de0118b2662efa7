import Mathlib.Data.List.Induction
import Mathlib.Data.Option.Basic

/-!
# Greedy covers

Some of the slots have an owner, and each candidate covers some slots. `chosen`
goes through the slots and takes the owner of each slot that no candidate
taken before covers.

`chosen_covers`: every slot that has an owner is covered by a candidate that is
taken, or its owner is taken. `exists_slot`: each is taken for a slot of its
own that none before it covers.
-/

namespace PMFuzz.Cover

variable {ι κ : Type*} (owner : ι → Option κ) (covers : κ → ι → Bool) {is : List ι} {taken : List κ} {i : ι} {k : κ}

/-- What a slot adds to those taken. -/
def choose (taken : List κ) (i : ι) : List κ :=
  match owner i with
  | none => taken
  | some k => if taken.any fun k' => covers k' i then taken else taken ++ [k]

/-- The candidates taken for a list of slots. -/
def chosen (is : List ι) : List κ := is.foldl (choose owner covers) []

variable {owner covers}

theorem choose_of_none (h : owner i = none) : choose owner covers taken i = taken := by
  rw [choose, h]

theorem choose_of_covered (h : (taken.any fun k' => covers k' i) = true) : choose owner covers taken i = taken := by
  rw [choose]
  split
  · rfl
  · rw [if_pos h]

theorem choose_of_not (ho : owner i = some k) (h : (taken.any fun k' => covers k' i) = false) :
    choose owner covers taken i = taken ++ [k] := by
  rw [choose, ho]
  exact if_neg (Bool.eq_false_iff.mp h)

theorem prefix_choose (taken : List κ) (i : ι) : taken <+: choose owner covers taken i := by
  unfold choose
  split
  · exact List.prefix_rfl
  · split
    · exact List.prefix_rfl
    · exact List.prefix_append _ _

theorem chosen_append_singleton (is : List ι) (i : ι) :
    chosen owner covers (is ++ [i]) = choose owner covers (chosen owner covers is) i := by
  rw [chosen, List.foldl_append]
  rfl

theorem length_choose_le (taken : List κ) (i : ι) : (choose owner covers taken i).length ≤ taken.length + 1 := by
  unfold choose
  split
  · exact Nat.le_succ _
  · split
    · exact Nat.le_succ _
    · exact Nat.le_of_eq List.length_append

theorem length_chosen_le (is : List ι) : (chosen owner covers is).length ≤ is.length := by
  induction is using List.reverseRecOn with
  | nil => exact Nat.le_refl _
  | append_singleton is i ih =>
    rw [chosen_append_singleton, List.length_append, List.length_singleton]
    exact Nat.le_trans (length_choose_le _ i) (Nat.succ_le_succ ih)

/-- Every slot with an owner is accounted for. -/
theorem chosen_covers (hi : i ∈ is) (ho : owner i = some k) :
    k ∈ chosen owner covers is ∨ ∃ k' ∈ chosen owner covers is, covers k' i = true := by
  induction is using List.reverseRecOn with
  | nil => cases hi
  | append_singleton is j ih =>
    rw [chosen_append_singleton]
    have hsub : chosen owner covers is ⊆ choose owner covers (chosen owner covers is) j := (prefix_choose ..).subset
    rcases List.mem_append.mp hi with hi | hi
    · rcases ih hi with hk | ⟨k', hk', hc⟩
      · exact .inl (hsub hk)
      · exact .inr ⟨k', hsub hk', hc⟩
    · rw [List.mem_singleton] at hi
      subst hi
      cases hany : (chosen owner covers is).any fun k' => covers k' i with
      | true =>
        obtain ⟨k', hk', hc⟩ := List.any_eq_true.mp hany
        exact .inr ⟨k', hsub hk', hc⟩
      | false =>
        rw [choose_of_not ho hany]
        exact .inl (List.mem_append_right _ (List.mem_singleton_self k))

/-- Each candidate is taken for a slot of its own. -/
theorem exists_slot (hk : k ∈ chosen owner covers is) : ∃ i ∈ is, owner i = some k := by
  induction is using List.reverseRecOn with
  | nil => cases hk
  | append_singleton is j ih =>
    rw [chosen_append_singleton] at hk
    have hold : k ∈ chosen owner covers is → ∃ i ∈ is ++ [j], owner i = some k := fun h => by
      obtain ⟨i, hi, ho⟩ := ih h
      exact ⟨i, List.mem_append_left _ hi, ho⟩
    cases ho : owner j with
    | none =>
      rw [choose_of_none ho] at hk
      exact hold hk
    | some k' =>
      cases hany : (chosen owner covers is).any fun k' => covers k' j with
      | true =>
        rw [choose_of_covered hany] at hk
        exact hold hk
      | false =>
        rw [choose_of_not ho hany] at hk
        rcases List.mem_append.mp hk with hk | hk
        · exact hold hk
        · rw [List.mem_singleton] at hk
          exact ⟨j, List.mem_append_right _ (List.mem_singleton_self j), hk ▸ ho⟩

end PMFuzz.Cover
