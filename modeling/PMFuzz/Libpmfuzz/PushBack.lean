import PMFuzz.Framework.Digits
import PMFuzz.Framework.Fold
import PMFuzz.Libpmfuzz.ShiftRegister
import Mathlib.Algebra.Order.Ring.Int

/-!
# A push with machine integers

`sra_push_back` as `shiftregarr.h` has it: the sizes are `size_t`, the search
counts an `int32_t` down to -1, and nothing but the indices keeps the macros
inside the element. `search_eq` and `push_eq` compare it with `sraSearch` and
`sraPush`, whose bits are known; `sraPushBack_advances` says what it does to
the number in the element.
-/

namespace PMFuzz.Libpmfuzz.PushBack

/-! ## The code -/

/-- `int32_t it = n`. -/
def toInt32 (n : ℕ) : ℤ := (n : ℤ).bmod (2 ^ 32)

/-- The two conditions to break. -/
def breaks (arr : Mem) (basebit : UInt8) (it : ℕ) : Bool :=
  basebit != 0 && !bitTest arr it || basebit == 0 && bitTest arr it

/-- A search that has ended. -/
structure Search where
  it : ℤ
  /-- The bit indices tested. -/
  tested : List ℤ

/-- `while (it--)`. With a negative index `BITTEST` has no value. -/
def search (arr : Mem) (basebit : UInt8) (it : ℤ) : Except Fault Search :=
  if it = 0 then .ok ⟨it - 1, []⟩
  else if it - 1 < 0 then .error .access
  else if breaks arr basebit (it - 1).toNat then .ok ⟨it - 1, [it - 1]⟩
  else do
    let s ← search arr basebit (it - 1)
    return ⟨s.it, (it - 1) :: s.tested⟩
termination_by it.toNat

/-- What follows the search. -/
def push (arr : Mem) (elemSzBits : ℤ) (basebit : UInt8) (it : ℤ) : Mem :=
  if it ≠ elemSzBits - 1 then
    let it := it + 1
    let arr := if basebit != 0 then bitClear arr it.toNat else bitSet arr it.toNat
    if it ≠ 0 then
      let it := it - 1
      if basebit != 0 then bitSet arr it.toNat else bitClear arr it.toNat
    else arr
  else arr

/-- The memory after a call, and the bit indices it tested. -/
structure Pushed where
  mem : Mem
  tested : List ℤ

/-- `sra_push_back`. -/
def sraPushBack (mem : Mem) (size elemSz loc : UInt64) (basebit : UInt8) : Except Fault Pushed :=
  if elemSz = 0 then .error .division
  else if loc < size / elemSz then do
    let off := (loc * elemSz).toNat
    let arr : Mem := fun k => mem (off + k)
    let elemSzBits := toInt32 (elemSz * 8).toNat
    let s ← search arr basebit elemSzBits
    let arr := push arr elemSzBits basebit s.it
    return ⟨fun k => if k < off then mem k else arr (k - off), s.tested⟩
  else .error .assertion

/-! ## The number in an element -/

/-- The first `bytes` bytes as a number, low byte first. -/
def value (arr : Mem) (bytes : ℕ) : ℕ := Nat.ofDigits (2 ^ 8) ((List.range bytes).map fun j => (arr j).toNat)

/-- It is complemented where the base bit is 1. -/
def reading (basebit : UInt8) (arr : Mem) (bytes : ℕ) : ℕ :=
  if basebit != 0 then 2 ^ (bytes * 8) - 1 - value arr bytes else value arr bytes

/-- One more: the first bit, or the highest bit moved up, if it is not the
last. -/
def advance (bits v : ℕ) : ℕ := if v = 0 then 1 else if v.log2 = bits - 1 then v else v + 2 ^ v.log2

/-- The element at an index. -/
def element (mem : Mem) (elemSz loc : ℕ) : Mem := fun k => mem (loc * elemSz + k)

variable {arr arr' mem : Mem} {basebit : UInt8} {b n p bytes : ℕ}

theorem digit_lt : ∀ d ∈ (List.range bytes).map fun j => (arr j).toNat, d < 2 ^ 8 := by
  intro d hd
  obtain ⟨j, -, rfl⟩ := List.mem_map.mp hd
  exact (arr j).toNat_lt

theorem value_lt (arr : Mem) (bytes : ℕ) : value arr bytes < 2 ^ (bytes * 8) := by
  have hlt := Nat.ofDigits_lt_base_pow_length (by decide : 1 < 2 ^ 8) (@digit_lt arr bytes)
  rw [List.length_map, List.length_range, ← Nat.pow_mul, Nat.mul_comm] at hlt
  exact hlt

theorem testBit_value (h : b < bytes * 8) : (value arr bytes).testBit b = bitTest arr b := by
  rw [value, Digits.testBit_ofDigits digit_lt (by decide), bitTest_eq]
  have hbyte : b / 8 < bytes := by omega
  simp [hbyte]

/-- The bits that differ from the base bit. -/
theorem testBit_reading : (reading basebit arr bytes).testBit b =
    (decide (b < bytes * 8) && (bitTest arr b ^^ basebit != 0)) := by
  have hlt := value_lt arr bytes
  unfold reading
  by_cases hb : b < bytes * 8
  · cases hbase : basebit != 0 with
    | true =>
      rw [if_pos rfl, Nat.sub_sub, Nat.add_comm, Nat.testBit_two_pow_sub_succ hlt, testBit_value hb]
      simp
    | false => simp [testBit_value hb, hb]
  · have hpow : 2 ^ (bytes * 8) ≤ 2 ^ b := Nat.pow_le_pow_right (by decide) (by omega)
    rw [Nat.testBit_eq_false_of_lt, decide_eq_false hb, Bool.false_and]
    split <;> omega

theorem testBit_reading_eq_true : (reading basebit arr bytes).testBit b = true ↔
    b < bytes * 8 ∧ bitTest arr b ≠ (basebit != 0) := by
  rw [testBit_reading, Bool.and_eq_true, decide_eq_true_eq, bne_iff_ne.symm]

/-- Where no bit differs, the number is 0. -/
theorem reading_base (h : ∀ q < bytes * 8, bitTest arr q = (basebit != 0)) : reading basebit arr bytes = 0 := by
  refine Nat.eq_of_testBit_eq fun b => ?_
  rw [Nat.zero_testBit, Bool.eq_false_iff]
  exact fun hb => (testBit_reading_eq_true.mp hb).2 (h b (testBit_reading_eq_true.mp hb).1)

/-- The highest bit that differs is the highest bit of the number. -/
theorem reading_highest (hp : p < bytes * 8) (hdiff : bitTest arr p ≠ (basebit != 0))
    (h : ∀ q, p < q → q < bytes * 8 → bitTest arr q = (basebit != 0)) :
    reading basebit arr bytes ≠ 0 ∧ (reading basebit arr bytes).log2 = p := by
  refine Digits.log2_eq (testBit_reading_eq_true.mpr ⟨hp, hdiff⟩) fun q hq => Bool.eq_false_iff.mpr fun hb => ?_
  obtain ⟨hlt, hne⟩ := testBit_reading_eq_true.mp hb
  exact hne (h q hq hlt)

/-- A push advances the number. -/
theorem reading_sraPush (hbytes : 0 < bytes) : reading basebit (sraPush arr (bytes * 8) (basebit != 0)) bytes =
    advance (bytes * 8) (reading basebit arr bytes) := by
  have hn : 0 < bytes * 8 := by omega
  rcases exists_highest arr (basebit != 0) (bytes * 8) with hbase | ⟨p, hp, hdiff, hrest⟩
  · rw [advance, if_pos (reading_base hbase)]
    refine Nat.eq_of_testBit_eq fun b => ?_
    rw [testBit_reading, bitTest_sraPush_base hn hbase]
    by_cases hzero : b = 0
    · simp [hzero, hbytes]
    · have hone : Nat.testBit 1 b = false := Nat.testBit_eq_false_of_lt (Nat.one_lt_two_pow hzero)
      rw [if_neg hzero, hone]
      by_cases hb : b < bytes * 8
      · simp [hbase b hb]
      · simp [hb]
  · obtain ⟨hne, hlog⟩ := reading_highest hp hdiff hrest
    rw [advance, if_neg hne, hlog]
    split
    · rename_i htop
      rw [sraPush_top hn (htop ▸ hdiff)]
    · rename_i htop
      have hp1 : p + 1 < bytes * 8 := by omega
      refine Nat.eq_of_testBit_eq fun b => ?_
      rw [testBit_reading, bitTest_sraPush_mid hp1 hdiff hrest, ← hlog, Digits.testBit_add_log2 hne, hlog,
        testBit_reading]
      by_cases h1 : b = p + 1
      · simp [h1, hp1]
      · rw [if_neg h1, if_neg h1]
        by_cases h0 : b = p
        · simp [h0]
        · rw [if_neg h0, if_neg h0]

/-! ## The bytes after the element -/

theorem byte_eq_of_bits (h : ∀ j < 8, bitTest arr (b * 8 + j) = bitTest arr' (b * 8 + j)) : arr b = arr' b := by
  rw [← UInt8.toNat_inj]
  refine Nat.eq_of_testBit_eq fun j => ?_
  by_cases hj : j < 8
  · have hbit := h j hj
    rw [bitTest_eq, bitTest_eq, show (b * 8 + j) / 8 = b by omega, show (b * 8 + j) % 8 = j by omega] at hbit
    exact hbit
  · have hpow : 2 ^ 8 ≤ 2 ^ j := Nat.pow_le_pow_right (by decide) (by omega)
    rw [Nat.testBit_eq_false_of_lt ((arr b).toNat_lt.trans_le hpow),
      Nat.testBit_eq_false_of_lt ((arr' b).toNat_lt.trans_le hpow)]

/-- A push leaves the bits from `n` on. -/
theorem bitTest_sraPush_of_le {base : Bool} (hn : 0 < n) (hb : n ≤ b) :
    bitTest (sraPush arr n base) b = bitTest arr b := by
  rcases exists_highest arr base n with hbase | ⟨p, hp, hdiff, hrest⟩
  · rw [bitTest_sraPush_base hn hbase, if_neg (by omega)]
  · by_cases htop : p = n - 1
    · rw [sraPush_top hn (htop ▸ hdiff)]
    · rw [bitTest_sraPush_mid (by omega) hdiff hrest, if_neg (by omega), if_neg (by omega)]

theorem sraPush_frame {base : Bool} (hbytes : 0 < bytes) (hb : bytes ≤ b) :
    sraPush arr (bytes * 8) base b = arr b :=
  byte_eq_of_bits fun j _ => bitTest_sraPush_of_le (by omega) (by omega)

/-! ## The search -/

theorem breaks_eq (arr : Mem) (basebit : UInt8) (b : ℕ) :
    breaks arr basebit b = (bitTest arr b != (basebit != 0)) := by
  unfold breaks
  rw [show (basebit == 0) = !(basebit != 0) from (Bool.not_not _).symm]
  cases basebit != 0 <;> cases bitTest arr b <;> rfl

/-- It ends, after at most `n` turns, where `sraSearch` does, and tests bits
of the element only. -/
theorem search_eq (arr : Mem) (basebit : UInt8) (n : ℕ) :
    ∃ tested, search arr basebit n = .ok ⟨sraSearch arr (basebit != 0) n, tested⟩ ∧
      tested.length ≤ n ∧ ∀ b ∈ tested, 0 ≤ b ∧ b < n := by
  induction n with
  | zero =>
    refine ⟨[], ?_, Nat.zero_le _, fun b hb => absurd hb List.not_mem_nil⟩
    rw [search]
    rfl
  | succ n ih =>
    have hne : ¬ ((n + 1 : ℕ) : ℤ) = 0 := by omega
    have hit : ((n + 1 : ℕ) : ℤ) - 1 = n := by omega
    have hpos : ¬ (n : ℤ) < 0 := by omega
    rw [search, if_neg hne, hit, if_neg hpos, Int.toNat_natCast, breaks_eq, sraSearch]
    split
    · exact ⟨[n], rfl, by simp, fun b hb => by rw [List.mem_singleton.mp hb]; omega⟩
    · obtain ⟨tested, heq, hlen, hin⟩ := ih
      refine ⟨n :: tested, by rw [heq]; rfl, Nat.succ_le_succ hlen, fun b hb => ?_⟩
      rcases List.mem_cons.mp hb with rfl | hb
      · omega
      · have := hin b hb
        omega

theorem neg_one_le_sraSearch (arr : Mem) (base : Bool) (n : ℕ) : -1 ≤ sraSearch arr base n := by
  induction n with
  | zero => exact Int.le_refl _
  | succ n ih =>
    rw [sraSearch]
    split
    · omega
    · exact ih

theorem push_eq (arr : Mem) (basebit : UInt8) (n : ℕ) :
    push arr n basebit (sraSearch arr (basebit != 0) n) = sraPush arr n (basebit != 0) := by
  have hle := neg_one_le_sraSearch arr (basebit != 0) n
  rw [push, sraPush]
  generalize sraSearch arr (basebit != 0) n = it at *
  have hzero : it + 1 ≠ 0 ↔ (it + 1).toNat ≠ 0 := by omega
  have hpred : (it + 1 - 1).toNat = (it + 1).toNat - 1 := by omega
  simp only [hzero, hpred]

/-! ## The call -/

variable {size elemSz loc : UInt64}

theorem toInt32_eq (hn : n ≤ 2 ^ 31 - 1) : toInt32 n = n :=
  Int.bmod_eq_of_le (by omega) (by omega)

/-- The number of bits fits in an `int32_t`. -/
theorem elemSzBits_eq (hbits : 8 * elemSz.toNat ≤ 2 ^ 31 - 1) :
    toInt32 (elemSz * 8).toNat = (elemSz.toNat * 8 : ℕ) := by
  have hlt : elemSz.toNat * (8 : UInt64).toNat < 2 ^ 64 := by
    show elemSz.toNat * 8 < 2 ^ 64
    omega
  have hle : elemSz.toNat * 8 ≤ 2 ^ 31 - 1 := by omega
  rw [UInt64.toNat_mul, Nat.mod_eq_of_lt hlt]
  exact toInt32_eq hle

/-- The place of an element does not overflow. -/
theorem offset_eq (hloc : loc.toNat < size.toNat / elemSz.toNat) :
    (loc * elemSz).toNat = loc.toNat * elemSz.toNat := by
  have hle : loc.toNat * elemSz.toNat ≤ size.toNat := calc
    loc.toNat * elemSz.toNat ≤ size.toNat / elemSz.toNat * elemSz.toNat := Nat.mul_le_mul_right _ hloc.le
    _ ≤ size.toNat := Nat.div_mul_le_self _ _
  rw [UInt64.toNat_mul, Nat.mod_eq_of_lt (Nat.lt_of_le_of_lt hle size.toNat_lt)]

/-- A call at an index of the array pushes to the element there, and to
nothing else. -/
theorem sraPushBack_eq (mem : Mem) (basebit : UInt8) (helem : 1 ≤ elemSz.toNat)
    (hbits : 8 * elemSz.toNat ≤ 2 ^ 31 - 1) (hloc : loc.toNat < size.toNat / elemSz.toNat) :
    ∃ p, sraPushBack mem size elemSz loc basebit = .ok p ∧
      element p.mem elemSz.toNat loc.toNat =
        sraPush (element mem elemSz.toNat loc.toNat) (elemSz.toNat * 8) (basebit != 0) ∧
      (∀ i, ¬ (loc.toNat * elemSz.toNat ≤ i ∧ i < loc.toNat * elemSz.toNat + elemSz.toNat) → p.mem i = mem i) ∧
      p.tested.length ≤ elemSz.toNat * 8 ∧ ∀ b ∈ p.tested, 0 ≤ b ∧ b < elemSz.toNat * 8 := by
  have hne : elemSz ≠ 0 := by
    rintro rfl
    exact absurd helem (by decide)
  have hlt : loc < size / elemSz := by
    rw [UInt64.lt_iff_toNat_lt, UInt64.toNat_div]
    exact hloc
  obtain ⟨tested, hsearch, hlen, hin⟩ := search_eq (element mem elemSz.toNat loc.toNat) basebit (elemSz.toNat * 8)
  refine ⟨⟨fun k => if k < loc.toNat * elemSz.toNat then mem k else
    sraPush (element mem elemSz.toNat loc.toNat) (elemSz.toNat * 8) (basebit != 0) (k - loc.toNat * elemSz.toNat),
    tested⟩, ?_, ?_, fun i hi => ?_, hlen, hin⟩
  · rw [sraPushBack, if_neg hne, if_pos hlt, offset_eq hloc, elemSzBits_eq hbits]
    show (search (element mem elemSz.toNat loc.toNat) basebit _ >>= _) = _
    rw [hsearch, ← push_eq]
    rfl
  · funext k
    show (if _ then _ else _) = _
    rw [if_neg (by omega), Nat.add_sub_cancel_left]
  · show (if _ then _ else _) = _
    split
    · rfl
    · rename_i hlow
      obtain ⟨k, rfl⟩ := Nat.exists_eq_add_of_le (Nat.le_of_not_lt hlow)
      rw [Nat.add_sub_cancel_left, sraPush_frame helem (by omega)]
      rfl

/-- The machine integers make no difference. -/
theorem map_sraPushBack (mem : Mem) (basebit : UInt8) (hbits : 8 * elemSz.toNat ≤ 2 ^ 31 - 1) :
    (sraPushBack mem size elemSz loc basebit).map Pushed.mem =
      Libpmfuzz.sraPushBack mem size.toNat elemSz.toNat loc.toNat (basebit != 0) := by
  by_cases hzero : elemSz.toNat = 0
  · rw [sraPushBack, if_pos (UInt64.toNat_inj.mp hzero), Libpmfuzz.sraPushBack, if_pos hzero]
    rfl
  rw [Libpmfuzz.sraPushBack, if_neg hzero]
  by_cases hloc : loc.toNat < size.toNat / elemSz.toNat
  · have helem : 1 ≤ elemSz.toNat := Nat.one_le_iff_ne_zero.mpr hzero
    obtain ⟨p, hp, helement, hout, -⟩ := sraPushBack_eq mem basebit helem hbits hloc
    rw [hp, if_pos hloc]
    refine congrArg Except.ok (funext fun k => ?_)
    split
    · rename_i hin
      obtain ⟨j, rfl⟩ := Nat.exists_eq_add_of_le hin.1
      rw [Nat.add_sub_cancel_left]
      exact congrFun helement j
    · rename_i hnot
      exact hout k hnot
  · have hnot : ¬ loc < size / elemSz := by
      rw [UInt64.lt_iff_toNat_lt, UInt64.toNat_div]
      exact hloc
    rw [sraPushBack, if_neg fun h => hzero (congrArg UInt64.toNat h), if_neg hnot, if_neg hloc]
    rfl

/-- A call at an index of the array advances the number in the element there. -/
theorem sraPushBack_advances (mem : Mem) (size elemSz loc : UInt64) (basebit : UInt8)
    (helem : 1 ≤ elemSz.toNat) (hbits : 8 * elemSz.toNat ≤ 2 ^ 31 - 1) (hloc : loc.toNat < size.toNat / elemSz.toNat) :
    ∃ p, sraPushBack mem size elemSz loc basebit = .ok p ∧
      reading basebit (element p.mem elemSz.toNat loc.toNat) elemSz.toNat =
        advance (elemSz.toNat * 8) (reading basebit (element mem elemSz.toNat loc.toNat) elemSz.toNat) ∧
      p.tested.length ≤ elemSz.toNat * 8 ∧ (∀ b ∈ p.tested, 0 ≤ b ∧ b < elemSz.toNat * 8) ∧
      ∀ i, ¬ (loc.toNat * elemSz.toNat ≤ i ∧ i < loc.toNat * elemSz.toNat + elemSz.toNat) → p.mem i = mem i := by
  obtain ⟨p, hp, helement, hout, hlen, hin⟩ := sraPushBack_eq mem basebit helem hbits hloc
  refine ⟨p, hp, ?_, hlen, hin, hout⟩
  rw [helement]
  exact reading_sraPush helem

/-- The second of two bytes that hold 5: its bit 2 moves up, and the number is
9. -/
theorem sraPushBack_advances_five : ∃ p, sraPushBack (fun _ => 5) 2 1 1 0 = .ok p ∧
    reading 0 (element p.mem 1 1) 1 = 9 ∧ p.mem 0 = 5 := by
  obtain ⟨p, hp, hval, -, -, hframe⟩ := sraPushBack_advances (fun _ => 5) 2 1 1 0 (by decide) (by decide) (by decide)
  refine ⟨p, hp, hval.trans (by decide), hframe 0 (by decide)⟩

end PMFuzz.Libpmfuzz.PushBack
