import Mathlib.Data.Nat.Bitwise
import Mathlib.Data.Nat.Count

/-!
# Counting ones in parallel

The usual count of the ones in a number of 32 bits: first in pairs of bits, then in
groups of four, then in bytes, and one multiplication sums the bytes. No step
carries from one byte to the next, so it is enough to know what the steps do to
one byte (`count_byte`), and a byte has 256 values. `parallelCount_eq` says
what comes out.
-/

namespace PMFuzz.Popcount

variable {a b c d k m n r s : ℕ}

/-- Two numbers, one behind the other. -/
theorem and_add_mul (ha : a < 2 ^ k) (hm : m < 2 ^ k) :
    (a + 2 ^ k * r) &&& (m + 2 ^ k * s) = (a &&& m) + 2 ^ k * (r &&& s) := by
  have hand : a &&& m < 2 ^ k := Nat.and_lt_two_pow a hm
  refine Nat.eq_of_testBit_eq fun i => ?_
  rw [Nat.testBit_and, Nat.add_comm a, Nat.add_comm m, Nat.add_comm (a &&& m), Nat.testBit_two_pow_mul_add _ ha,
    Nat.testBit_two_pow_mul_add _ hm, Nat.testBit_two_pow_mul_add _ hand]
  split <;> rw [Nat.testBit_and]

/-- A number from its four bytes, low byte first. -/
def pack (a b c d : ℕ) : ℕ := a + 2 ^ 8 * (b + 2 ^ 8 * (c + 2 ^ 8 * d))

theorem and_pack {p : ℕ} (ha : a < 2 ^ 8) (hb : b < 2 ^ 8) (hc : c < 2 ^ 8) (hk : k < 2 ^ 8) (hm : m < 2 ^ 8)
    (hn : n < 2 ^ 8) : pack a b c d &&& pack k m n p = pack (a &&& k) (b &&& m) (c &&& n) (d &&& p) := by
  unfold pack
  rw [and_add_mul ha hk, and_add_mul hb hm, and_add_mul hc hn]

/-! ## The steps on a byte -/

def pairs (a : ℕ) : ℕ := a - (a / 2 &&& 0x55)

def fours (a : ℕ) : ℕ := (pairs a &&& 0x33) + (pairs a / 4 &&& 0x33)

def ones (a : ℕ) : ℕ := Nat.count (fun j => a.testBit j = true) 8

theorem pairs_byte : ∀ a < 256, (a / 2 &&& 0x55) ≤ a ∧ pairs a < 256 := by decide +kernel

/-- What comes down from the byte above is masked. -/
theorem pairs_shift : ∀ a < 256, ∀ t < 2, a / 2 + 2 ^ 7 * t &&& 0x55 = a / 2 &&& 0x55 := by decide +kernel

theorem fours_shift : ∀ a < 256, ∀ t < 4, a / 4 + 2 ^ 6 * t &&& 0x33 = a / 4 &&& 0x33 := by decide +kernel

/-- Each half holds a number up to 4, and both make the count. -/
theorem count_byte : ∀ a < 256, fours a % 16 ≤ 4 ∧ fours a / 16 ≤ 4 ∧ fours a % 16 + fours a / 16 = ones a := by
  decide +kernel

/-! ## The steps on the number -/

theorem pairs_pack (ha : a < 256) (hb : b < 256) (hc : c < 256) (hd : d < 256) :
    pack a b c d - (pack a b c d >>> 1 &&& 0x55555555) = pack (pairs a) (pairs b) (pairs c) (pairs d) := by
  have hshift : pack a b c d >>> 1 =
      pack (a / 2 + 2 ^ 7 * (b % 2)) (b / 2 + 2 ^ 7 * (c % 2)) (c / 2 + 2 ^ 7 * (d % 2)) (d / 2) := by
    rw [Nat.shiftRight_eq_div_pow]
    unfold pack
    omega
  have hmask : 0x55555555 = pack 0x55 0x55 0x55 0x55 := rfl
  rw [hshift, hmask, and_pack (by omega) (by omega) (by omega) (by decide) (by decide) (by decide),
    pairs_shift a ha _ (Nat.mod_lt b (by decide)),
    pairs_shift b hb _ (Nat.mod_lt c (by decide)), pairs_shift c hc _ (Nat.mod_lt d (by decide))]
  have hle := And.intro (pairs_byte a ha).1 (And.intro (pairs_byte b hb).1
    (And.intro (pairs_byte c hc).1 (pairs_byte d hd).1))
  unfold pairs pack
  omega

theorem fours_pack (ha : a < 256) (hb : b < 256) (hc : c < 256) (hd : d < 256) :
    (pack (pairs a) (pairs b) (pairs c) (pairs d) &&& 0x33333333) +
        (pack (pairs a) (pairs b) (pairs c) (pairs d) >>> 2 &&& 0x33333333) =
      pack (fours a) (fours b) (fours c) (fours d) := by
  have hpa := (pairs_byte a ha).2
  have hpb := (pairs_byte b hb).2
  have hpc := (pairs_byte c hc).2
  have hpd := (pairs_byte d hd).2
  have hmask : 0x33333333 = pack 0x33 0x33 0x33 0x33 := rfl
  unfold fours
  generalize pairs a = p at *
  generalize pairs b = q at *
  generalize pairs c = r at *
  generalize pairs d = s at *
  have hshift : pack p q r s >>> 2 =
      pack (p / 4 + 2 ^ 6 * (q % 4)) (q / 4 + 2 ^ 6 * (r % 4)) (r / 4 + 2 ^ 6 * (s % 4)) (s / 4) := by
    rw [Nat.shiftRight_eq_div_pow]
    unfold pack
    omega
  rw [hshift, hmask, and_pack hpa hpb hpc (by decide) (by decide) (by decide),
    and_pack (by omega) (by omega) (by omega) (by decide) (by decide) (by decide),
    fours_shift p hpa _ (Nat.mod_lt q (by decide)), fours_shift q hpb _ (Nat.mod_lt r (by decide)),
    fours_shift r hpc _ (Nat.mod_lt s (by decide))]
  unfold pack
  omega

/-- The halves of all bytes are added at once. -/
theorem halves_pack {p q r s : ℕ} (hp : p % 16 ≤ 4 ∧ p / 16 ≤ 4) (hq : q % 16 ≤ 4 ∧ q / 16 ≤ 4)
    (hr : r % 16 ≤ 4 ∧ r / 16 ≤ 4) (hs : s % 16 ≤ 4 ∧ s / 16 ≤ 4) :
    (pack p q r s + pack p q r s >>> 4) &&& 0xF0F0F0F =
      pack (p % 16 + p / 16) (q % 16 + q / 16) (r % 16 + r / 16) (s % 16 + s / 16) := by
  have hsum : pack p q r s + pack p q r s >>> 4 =
      pack (p + p / 16 + 2 ^ 4 * (q % 16)) (q + q / 16 + 2 ^ 4 * (r % 16)) (r + r / 16 + 2 ^ 4 * (s % 16))
        (s + s / 16) := by
    rw [Nat.shiftRight_eq_div_pow]
    unfold pack
    omega
  have hmask : 0xF0F0F0F = pack 0xF 0xF 0xF 0xF := rfl
  have hlow : ∀ x, x &&& 0xF = x % 16 := fun x => Nat.and_two_pow_sub_one_eq_mod x 4
  have hhalf : ∀ x y, x % 16 ≤ 4 ∧ x / 16 ≤ 4 → (x + x / 16 + 2 ^ 4 * y) % 16 = x % 16 + x / 16 := by omega
  have hlast := hhalf s 0 hs
  rw [Nat.mul_zero, Nat.add_zero] at hlast
  rw [hsum, hmask, and_pack (by omega) (by omega) (by omega) (by decide) (by decide) (by decide), hlow, hlow, hlow,
    hlow, hhalf p _ hp,
    hhalf q _ hq, hhalf r _ hr, hlast]

/-- The high byte of the product is the sum of the bytes. -/
theorem mul_pack {p q r s : ℕ} (hp : p ≤ 8) (hq : q ≤ 8) (hr : r ≤ 8) (hs : s ≤ 8) :
    (pack p q r s * 0x01010101 % 2 ^ 32) >>> 24 = p + q + r + s := by
  have hprod : pack p q r s * 0x01010101 = p + 2 ^ 8 * (p + q) + 2 ^ 16 * (p + q + r) + 2 ^ 24 * (p + q + r + s) +
      2 ^ 32 * (q + r + s + 2 ^ 8 * (r + s) + 2 ^ 16 * s) := by
    unfold pack
    omega
  rw [hprod, Nat.add_mul_mod_self_left, Nat.mod_eq_of_lt (by omega), Nat.shiftRight_eq_div_pow]
  omega

/-! ## The count -/

/-- The count of the ones of a number of 32 bits. -/
def parallelCount (v : ℕ) : ℕ :=
  let v := v - (v >>> 1 &&& 0x55555555)
  let v := (v &&& 0x33333333) + (v >>> 2 &&& 0x33333333)
  (((v + v >>> 4) &&& 0xF0F0F0F) * 0x01010101 % 2 ^ 32) >>> 24

theorem ones_le (a : ℕ) : ones a ≤ 8 := Nat.count_le _

theorem parallelCount_pack (ha : a < 256) (hb : b < 256) (hc : c < 256) (hd : d < 256) :
    parallelCount (pack a b c d) = ones a + ones b + ones c + ones d := by
  obtain ⟨hla, hha, hca⟩ := count_byte a ha
  obtain ⟨hlb, hhb, hcb⟩ := count_byte b hb
  obtain ⟨hlc, hhc, hcc⟩ := count_byte c hc
  obtain ⟨hld, hhd, hcd⟩ := count_byte d hd
  unfold parallelCount
  rw [pairs_pack ha hb hc hd]
  dsimp only
  rw [fours_pack ha hb hc hd, halves_pack ⟨hla, hha⟩ ⟨hlb, hhb⟩ ⟨hlc, hhc⟩ ⟨hld, hhd⟩, hca, hcb, hcc, hcd,
    mul_pack (ones_le a) (ones_le b) (ones_le c) (ones_le d)]

end PMFuzz.Popcount
