import Mathlib.Data.Nat.Bitwise
import Mathlib.Data.Nat.Digits.Defs

/-!
# Bits of numbers

A number in digits of `w` bits, low digit first, has their bits one after the
other (`testBit_ofDigits`). The highest bit of a number moves up by one when
`2 ^ log2` is added (`testBit_add_log2`).
-/

namespace PMFuzz.Digits

variable {w b n p v : ℕ} {l : List ℕ}

theorem testBit_ofDigits (hl : ∀ d ∈ l, d < 2 ^ w) (hw : 0 < w) :
    (Nat.ofDigits (2 ^ w) l).testBit b = (l.getD (b / w) 0).testBit (b % w) := by
  induction l generalizing b with
  | nil => simp
  | cons d l ih =>
    obtain ⟨hd, hl⟩ := List.forall_mem_cons.mp hl
    rw [Nat.ofDigits_cons, Nat.add_comm, Nat.testBit_two_pow_mul_add _ hd]
    split
    · rename_i hlt
      rw [Nat.div_eq_of_lt hlt, Nat.mod_eq_of_lt hlt]
      rfl
    · rename_i hge
      have hdiv : b / w = (b - w) / w + 1 := Nat.div_eq_sub_div hw (by omega)
      have hmod : b % w = (b - w) % w := Nat.mod_eq_sub_mod (by omega)
      rw [ih hl, hdiv, hmod, List.getD_cons_succ]

/-- The highest bit. -/
theorem log2_eq (hp : v.testBit p = true) (h : ∀ q, p < q → v.testBit q = false) : v ≠ 0 ∧ v.log2 = p := by
  have hne : v ≠ 0 := by
    rintro rfl
    simp at hp
  refine ⟨hne, (Nat.log2_eq_iff hne).mpr ⟨Nat.ge_two_pow_of_testBit hp, ?_⟩⟩
  exact Nat.lt_pow_two_of_testBit v fun q hq => h q hq

/-- It moves up by one. -/
theorem testBit_add_log2 (hv : v ≠ 0) :
    (v + 2 ^ v.log2).testBit b = if b = v.log2 + 1 then true else if b = v.log2 then false else v.testBit b := by
  obtain ⟨hle, hlt⟩ := (Nat.log2_eq_iff hv).mp rfl
  obtain ⟨r, hr⟩ := Nat.exists_eq_add_of_le hle
  generalize v.log2 = p at *
  subst hr
  have hrp : r < 2 ^ p := by omega
  have hrp' : r < 2 ^ (p + 1) := by omega
  have hsum : 2 ^ p + r + 2 ^ p = 2 ^ (p + 1) * 1 + r := by omega
  have hv : 2 ^ p + r = 2 ^ p * 1 + r := by omega
  rw [hsum, hv, Nat.testBit_two_pow_mul_add _ hrp', Nat.testBit_two_pow_mul_add _ hrp]
  rcases Nat.lt_trichotomy b p with hb | rfl | hb
  · rw [if_pos (by omega), if_neg (by omega), if_neg (by omega), if_pos hb]
  · rw [if_pos (by omega), if_neg (by omega), if_pos rfl]
    exact Nat.testBit_eq_false_of_lt hrp
  · rcases Nat.eq_or_lt_of_le hb with rfl | hb'
    · simp
    · obtain ⟨k, rfl⟩ := Nat.exists_eq_add_of_lt hb'
      rw [if_neg (by omega), if_neg (by omega), if_neg (by omega), if_neg (by omega)]
      rw [Nat.testBit_eq_false_of_lt, Nat.testBit_eq_false_of_lt]
      · exact Nat.one_lt_two_pow (by omega)
      · exact Nat.one_lt_two_pow (by omega)

end PMFuzz.Digits
