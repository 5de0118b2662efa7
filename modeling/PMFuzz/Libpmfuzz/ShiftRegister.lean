import PMFuzz.Libpmfuzz.Map
import Mathlib.Data.Nat.Bitwise
import Mathlib.Tactic.IntervalCases

/-!
# Shift registers

What `sra_push_back` does to the bits of an element: the highest bit that is
not the base bit moves up by one (`bitTest_sraPush_mid`), the first one comes
in at bit 0 (`bitTest_sraPush_base`), and one at the top stays
(`sraPush_top`). From the base value an element so counts in unary, up to its
number of bits (`Unary.push`).
-/

namespace PMFuzz.Libpmfuzz

variable {arr : Mem} {basebit : Bool} {b c n p hits : ℕ}

/-! ## Bits of an array -/

theorem toNat_bitMask (h : b < 8) : (1 <<< UInt8.ofNat b : UInt8).toNat = 2 ^ b := by
  interval_cases b <;> rfl

/-- Bit `b % 8` of byte `b / 8`. -/
theorem bitTest_eq (arr : Mem) (b : ℕ) : bitTest arr b = (arr (b / 8)).toNat.testBit (b % 8) := by
  have hmask := toNat_bitMask (Nat.mod_lt b (by decide : 8 > 0))
  have hand : (arr (b / 8) &&& (1 <<< UInt8.ofNat (b % 8))).toNat =
      ((arr (b / 8)).toNat.testBit (b % 8)).toNat * 2 ^ (b % 8) := by
    rw [UInt8.toNat_and, hmask, Nat.and_two_pow]
  have hzero : (arr (b / 8) &&& (1 <<< UInt8.ofNat (b % 8)) = 0) ↔
      (arr (b / 8)).toNat.testBit (b % 8) = false := by
    rw [← UInt8.toNat_inj, hand]
    cases (arr (b / 8)).toNat.testBit (b % 8) <;> simp
  cases hbit : (arr (b / 8)).toNat.testBit (b % 8) with
  | false => simp [bitTest, hzero.mpr hbit]
  | true =>
    rw [bitTest, bne_iff_ne]
    intro h
    rw [hzero.mp h] at hbit
    cases hbit

theorem bitTest_bitSet (arr : Mem) (b c : ℕ) :
    bitTest (bitSet arr b) c = (decide (c = b) || bitTest arr c) := by
  have hmask := toNat_bitMask (Nat.mod_lt b (by decide : 8 > 0))
  rw [bitTest_eq, bitTest_eq, bitSet]
  by_cases hbyte : c / 8 = b / 8
  · have hplace : b % 8 = c % 8 ↔ c = b := by omega
    rw [hbyte, Function.update_self, UInt8.toNat_or, hmask, Nat.testBit_or, Nat.testBit_two_pow,
      Bool.or_comm, decide_eq_decide.mpr hplace]
  · have hne : c ≠ b := fun h => hbyte (h ▸ rfl)
    rw [Function.update_of_ne hbyte, decide_eq_false hne, Bool.false_or]

theorem bitTest_bitClear (arr : Mem) (b c : ℕ) :
    bitTest (bitClear arr b) c = (!decide (c = b) && bitTest arr c) := by
  have hlt : b % 8 < 8 := Nat.mod_lt b (by decide)
  have hmask := toNat_bitMask hlt
  rw [bitTest_eq, bitTest_eq, bitClear]
  by_cases hbyte : c / 8 = b / 8
  · have hplace : b % 8 = c % 8 ↔ c = b := by omega
    have hc : c % 8 < 8 := Nat.mod_lt c (by decide)
    have hpow : 2 ^ (b % 8) < 2 ^ 8 := Nat.pow_lt_pow_right (by decide) hlt
    have hnot : (~~~(1 <<< UInt8.ofNat (b % 8)) : UInt8).toNat = 2 ^ 8 - (2 ^ (b % 8) + 1) := by
      rw [UInt8.toNat_not, hmask, show UInt8.size = 2 ^ 8 from rfl]
      omega
    rw [hbyte, Function.update_self, UInt8.toNat_and, hnot, Nat.testBit_and,
      Nat.testBit_two_pow_sub_succ hpow, Nat.testBit_two_pow, Bool.and_comm, decide_eq_true hc,
      Bool.true_and, decide_eq_decide.mpr hplace]
  · have hne : c ≠ b := fun h => hbyte (h ▸ rfl)
    rw [Function.update_of_ne hbyte, decide_eq_false hne, Bool.not_false, Bool.true_and]

theorem eq_zero_of_testBit {x : UInt8} (h : ∀ j < 8, x.toNat.testBit j = false) : x = 0 := by
  rw [← UInt8.toNat_inj]
  refine Nat.eq_of_testBit_eq fun j => ?_
  by_cases hj : j < 8
  · rw [h j hj]
    exact (Nat.zero_testBit j).symm
  · have hx : x.toNat < 2 ^ j := Nat.lt_of_lt_of_le x.toNat_lt (Nat.pow_le_pow_right (by decide) (by omega))
    rw [Nat.testBit_lt_two_pow hx]
    exact (Nat.zero_testBit j).symm

/-! ## One push -/

/-- No bit differs from the base bit. -/
theorem sraSearch_base (h : ∀ q < n, bitTest arr q = basebit) : sraSearch arr basebit n = -1 := by
  induction n with
  | zero => rfl
  | succ n ih =>
    rw [sraSearch, if_neg (by simp [h n (by omega)])]
    exact ih fun q hq => h q (by omega)

/-- The highest bit that differs. -/
theorem sraSearch_eq (hp : p < n) (hdiff : bitTest arr p ≠ basebit)
    (h : ∀ q, p < q → q < n → bitTest arr q = basebit) : sraSearch arr basebit n = p := by
  induction n with
  | zero => omega
  | succ n ih =>
    rw [sraSearch]
    by_cases hn : p = n
    · rw [if_pos (by simpa [← hn] using hdiff), hn]
    · rw [if_neg (by simp [h n (by omega) (by omega)])]
      exact ih (by omega) fun q hq hqn => h q hq (by omega)

/-- An element at its base value. -/
theorem bitTest_sraPush_base (hn : 0 < n) (h : ∀ q < n, bitTest arr q = basebit) :
    bitTest (sraPush arr n basebit) c = if c = 0 then !basebit else bitTest arr c := by
  have hne : ¬ (-1 : ℤ) = n - 1 := by omega
  rw [sraPush, sraSearch_base h]
  simp only [ne_eq, hne, not_false_iff, if_true]
  cases basebit
  · simp [bitTest_bitSet]
  · simp [bitTest_bitClear]

theorem bitTest_sraPush_mid (hp : p + 1 < n) (hdiff : bitTest arr p ≠ basebit)
    (h : ∀ q, p < q → q < n → bitTest arr q = basebit) :
    bitTest (sraPush arr n basebit) c =
      if c = p + 1 then !basebit else if c = p then basebit else bitTest arr c := by
  have hne : ¬ (p : ℤ) = n - 1 := by omega
  have hnat : ((p : ℤ) + 1).toNat = p + 1 := by omega
  rw [sraPush, sraSearch_eq (by omega) hdiff h]
  simp only [ne_eq, hne, not_false_iff, if_true, hnat, Nat.add_one_ne_zero, Nat.add_sub_cancel]
  cases basebit
  · simp only [Bool.false_eq_true, if_false, bitTest_bitClear, bitTest_bitSet]
    by_cases h1 : c = p + 1 <;> by_cases h2 : c = p <;> simp [h1, h2]
  · simp only [if_true, bitTest_bitClear, bitTest_bitSet]
    by_cases h1 : c = p + 1 <;> by_cases h2 : c = p <;> simp [h1, h2]

theorem sraPush_top (hn : 0 < n) (hdiff : bitTest arr (n - 1) ≠ basebit) : sraPush arr n basebit = arr := by
  have heq : (((n - 1 : ℕ) : ℤ)) = n - 1 := by omega
  rw [sraPush, sraSearch_eq (p := n - 1) (by omega) hdiff (fun q _ _ => by omega), heq]
  simp

/-- All bits are base bits, or there is a highest one that is not. -/
theorem exists_highest (arr : Mem) (basebit : Bool) (n : ℕ) : (∀ q < n, bitTest arr q = basebit) ∨
    ∃ p < n, bitTest arr p ≠ basebit ∧ ∀ q, p < q → q < n → bitTest arr q = basebit := by
  induction n with
  | zero => exact .inl fun q hq => absurd hq (Nat.not_lt_zero q)
  | succ n ih =>
    by_cases hn : bitTest arr n = basebit
    · rcases ih with hbase | ⟨p, hp, hdiff, hrest⟩
      · left
        intro q hq
        rcases Nat.lt_succ_iff_lt_or_eq.mp hq with h | rfl
        · exact hbase q h
        · exact hn
      · refine .inr ⟨p, by omega, hdiff, fun q hpq hq => ?_⟩
        rcases Nat.lt_succ_iff_lt_or_eq.mp hq with h | rfl
        · exact hrest q hpq h
        · exact hn
    · exact .inr ⟨n, by omega, hn, fun q hpq hq => by omega⟩

/-- Unless the highest bit is set already, some bit changes. -/
theorem exists_bitTest_sraPush_ne (hn : 0 < n) (htop : bitTest arr (n - 1) = basebit) :
    ∃ b < n, bitTest (sraPush arr n basebit) b ≠ bitTest arr b := by
  rcases exists_highest arr basebit n with hbase | ⟨p, hp, hdiff, hrest⟩
  · refine ⟨0, hn, ?_⟩
    rw [bitTest_sraPush_base hn hbase, if_pos rfl, hbase 0 hn]
    exact Bool.not_ne_self basebit
  · have hp1 : p + 1 < n := by
      refine Nat.lt_of_le_of_ne hp fun h => hdiff ?_
      rw [← htop, ← h, Nat.add_sub_cancel]
    refine ⟨p + 1, hp1, ?_⟩
    rw [bitTest_sraPush_mid hp1 hdiff hrest, if_pos rfl, hrest (p + 1) (by omega) hp1]
    exact Bool.not_ne_self basebit

/-! ## Counting -/

/-- `n` bits that hold `hits` in unary: one bit differs from the base bit,
and no bit at 0. -/
def Unary (basebit : Bool) (n hits : ℕ) (arr : Mem) : Prop :=
  ∀ b < n, bitTest arr b = (basebit ^^ decide (hits ≠ 0 ∧ b = min hits n - 1))

theorem Unary.push (h : Unary basebit n hits arr) (hn : 0 < n) :
    Unary basebit n (hits + 1) (sraPush arr n basebit) := by
  intro b hb
  rcases Nat.eq_zero_or_pos hits with rfl | hpos
  · have hbase : ∀ q < n, bitTest arr q = basebit := fun q hq => by simpa using h q hq
    have hmin : min 1 n - 1 = 0 := by omega
    rw [bitTest_sraPush_base hn hbase]
    by_cases h0 : b = 0
    · simp [h0, hmin]
    · simp [h0, hmin, hbase b hb]
  have hne : hits ≠ 0 := by omega
  have hdiff : bitTest arr (min hits n - 1) ≠ basebit := by
    rw [h _ (by omega)]
    simp [hne]
  by_cases htop : hits < n
  · have hrest : ∀ q, min hits n - 1 < q → q < n → bitTest arr q = basebit := fun q hq hqn => by
      rw [h q hqn]
      have : ¬ q = min hits n - 1 := by omega
      simp [this]
    have h1 : min (hits + 1) n - 1 = min hits n - 1 + 1 := by omega
    rw [bitTest_sraPush_mid (by omega) hdiff hrest, h1]
    by_cases hb1 : b = min hits n - 1 + 1
    · simp [hb1]
    · by_cases hb0 : b = min hits n - 1
      · simp [hb0]
      · rw [if_neg hb1, if_neg hb0, h b hb]
        simp [hb1, hb0]
  · have hmin : min hits n - 1 = n - 1 := by omega
    have hmin' : min (hits + 1) n - 1 = n - 1 := by omega
    rw [sraPush_top hn (hmin ▸ hdiff), h b hb, hmin, hmin']
    simp [hne]

/-- An element that was not hit is zero. -/
theorem Unary.eq_zero {bytes : ℕ} (h : Unary false (bytes * 8) 0 arr) {i : ℕ} (hi : i < bytes) :
    arr i = 0 := by
  refine eq_zero_of_testBit fun j hj => ?_
  have hbit := h (i * 8 + j) (by omega)
  rw [bitTest_eq, show (i * 8 + j) / 8 = i by omega, show (i * 8 + j) % 8 = j by omega] at hbit
  simpa using hbit

end PMFuzz.Libpmfuzz
