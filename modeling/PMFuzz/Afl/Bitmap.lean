import PMFuzz.Libpmfuzz.PushBack

/-!
# Maps of executions

The fuzzer's view of the maps that an execution leaves behind
(`afl-fuzz-bitmap.c`): arrays of bytes that it goes through in words of 64
bits. Byte for byte, `classify_counts` replaces each hit count by its class
(`classifyCounts_eq`), `simplify_trace` tells hit from not hit
(`simplifyTrace_eq`), and `has_new_bits_backend` takes what the trace shows
from the virgin map and tells how much of it is new
(`bitTest_hasNewBits`, `hasNewBits_snd`).

The number of words is `MAP_SIZE >> 3`; nothing depends on it.
-/

namespace PMFuzz.Afl

open Libpmfuzz

/-! ## Words in memory -/

/-- `((u16 *)m)[i]`. -/
def load16 (m : Mem) (i : ℕ) : UInt16 := (m (2 * i + 1)).toUInt16 <<< 8 ||| (m (2 * i)).toUInt16

def store16 (m : Mem) (i : ℕ) (w : UInt16) : Mem := fun k =>
  if k = 2 * i then w.toUInt8 else if k = 2 * i + 1 then (w >>> 8).toUInt8 else m k

/-- `((u64 *)m)[i]`. -/
def load64 (m : Mem) (i : ℕ) : UInt64 := .ofNat (PushBack.value (fun k => m (8 * i + k)) 8)

def store64 (m : Mem) (i : ℕ) (w : UInt64) : Mem := fun k =>
  if k / 8 = i then .ofNat (w.toNat >>> (8 * (k % 8))) else m k

/-! ## The code -/

/-- `count_class_lookup8`. -/
def countClassLookup8 (b : UInt8) : UInt8 :=
  if b = 0 then 0
  else if b = 1 then 1
  else if b = 2 then 2
  else if b = 3 then 4
  else if b ≤ 7 then 8
  else if b ≤ 15 then 16
  else if b ≤ 31 then 32
  else if b ≤ 127 then 64
  else 128

/-- What `init_count_class16` puts into `count_class_lookup16`. -/
def countClassLookup16 (x : UInt16) : UInt16 :=
  (countClassLookup8 (x >>> 8).toUInt8).toUInt16 <<< 8 ||| (countClassLookup8 x.toUInt8).toUInt16

/-- A turn of `classify_counts`. -/
def classifyWord (m : Mem) (i : ℕ) : Mem :=
  if load64 m i ≠ 0 then
    (List.range 4).foldl (fun m j => store16 m (4 * i + j) (countClassLookup16 (load16 m (4 * i + j)))) m
  else m

/-- `classify_counts`. -/
def classifyCounts (m : Mem) (words : ℕ) : Mem := (List.range words).foldl classifyWord m

/-- `simplify_lookup`. -/
def simplifyLookup (b : UInt8) : UInt8 := if b = 0 then 1 else 128

/-- A turn of `simplify_trace`. -/
def simplifyWord (m : Mem) (i : ℕ) : Mem :=
  if load64 m i ≠ 0 then
    (List.range 8).foldl (fun m k => Function.update m (8 * i + k) (simplifyLookup (m (8 * i + k)))) m
  else store64 m i 0x0101010101010101

/-- `simplify_trace`. -/
def simplifyTrace (m : Mem) (words : ℕ) : Mem := (List.range words).foldl simplifyWord m

/-- A turn of `has_new_bits_backend`: the virgin map and `ret`. -/
def newBitsWord (current : Mem) (s : Mem × UInt8) (i : ℕ) : Mem × UInt8 :=
  if load64 current i ≠ 0 ∧ load64 current i &&& load64 s.1 i ≠ 0 then
    (store64 s.1 i (load64 s.1 i &&& ~~~(load64 current i)),
      if s.2 < 2 then
        if (List.range 8).any fun k => current (8 * i + k) != 0 && s.1 (8 * i + k) == 0xff then 2 else 1
      else s.2)
  else s

/-- `has_new_bits_backend`. -/
def hasNewBitsBackend (current virgin : Mem) (words : ℕ) : Mem × UInt8 :=
  (List.range words).foldl (newBitsWord current) (virgin, 0)

/-! ## Words, bit by bit -/

variable {m current virgin : Mem} {w : UInt64} {b i j k n words : ℕ}

theorem testBit_load64 (h : j < 64) : (load64 m i).toNat.testBit j = bitTest m (64 * i + j) := by
  have hdiv : (64 * i + j) / 8 = 8 * i + j / 8 := by omega
  have hmod : (64 * i + j) % 8 = j % 8 := by omega
  rw [load64, UInt64.toNat_ofNat_of_lt' (PushBack.value_lt _ 8), PushBack.testBit_value h, bitTest_eq, bitTest_eq,
    hdiv, hmod]

theorem bitTest_store64 (m : Mem) (i : ℕ) (w : UInt64) (b : ℕ) :
    bitTest (store64 m i w) b = if b / 64 = i then w.toNat.testBit (b % 64) else bitTest m b := by
  have hdiv : b / 8 / 8 = b / 64 := by omega
  rw [bitTest_eq, store64, hdiv]
  split
  · have hlt : b % 8 < 8 := Nat.mod_lt b (by decide)
    have hbit : 8 * (b / 8 % 8) + b % 8 = b % 64 := by omega
    rw [UInt8.toNat_ofNat', Nat.testBit_mod_two_pow, decide_eq_true hlt, Bool.true_and, Nat.testBit_shiftRight, hbit]
  · rw [bitTest_eq]

theorem ne_zero_iff : w ≠ 0 ↔ ∃ j < 64, w.toNat.testBit j = true := by
  constructor
  · intro hne
    obtain ⟨j, hj⟩ := Nat.exists_testBit_of_ne_zero fun h => hne (UInt64.toNat_inj.mp h)
    refine ⟨j, Nat.lt_of_not_le fun hle => ?_, hj⟩
    have hpow : w.toNat < 2 ^ j := Nat.lt_of_lt_of_le w.toNat_lt (Nat.pow_le_pow_right (by decide) hle)
    rw [Nat.testBit_eq_false_of_lt hpow] at hj
    cases hj
  · rintro ⟨j, -, hj⟩ rfl
    simp at hj

theorem byte_ne_zero_iff : m k ≠ 0 ↔ ∃ j < 8, bitTest m (8 * k + j) = true := by
  have hbit : ∀ j < 8, bitTest m (8 * k + j) = (m k).toNat.testBit j := fun j hj => by
    rw [bitTest_eq, show (8 * k + j) / 8 = k by omega, show (8 * k + j) % 8 = j by omega]
  constructor
  · intro hne
    by_contra h
    refine hne (eq_zero_of_testBit fun j hj => ?_)
    rw [← hbit j hj]
    exact Bool.eq_false_iff.mpr fun hj' => h ⟨j, hj, hj'⟩
  · rintro ⟨j, hj, hbit'⟩ hzero
    rw [hbit j hj, hzero] at hbit'
    simp at hbit'

/-- A word is not zero exactly if one of its bytes is not. -/
theorem load64_ne_zero : load64 m i ≠ 0 ↔ ∃ k < 8, m (8 * i + k) ≠ 0 := by
  rw [ne_zero_iff]
  constructor
  · rintro ⟨j, hj, hbit⟩
    rw [testBit_load64 hj] at hbit
    refine ⟨j / 8, by omega, byte_ne_zero_iff.mpr ⟨j % 8, by omega, ?_⟩⟩
    rwa [show 8 * (8 * i + j / 8) + j % 8 = 64 * i + j by omega]
  · rintro ⟨k, hk, hne⟩
    obtain ⟨j, hj, hbit⟩ := byte_ne_zero_iff.mp hne
    have hlt : 8 * k + j < 64 := by omega
    refine ⟨8 * k + j, hlt, ?_⟩
    rwa [testBit_load64 hlt, show 64 * i + (8 * k + j) = 8 * (8 * i + k) + j by omega]

theorem byte_eq_ff_iff : m k = 0xff ↔ ∀ j < 8, bitTest m (8 * k + j) = true := by
  have hones : ∀ j < 8, bitTest (fun _ => 0xff) (8 * k + j) = true := fun j hj => by
    rw [bitTest_eq, show (8 * k + j) % 8 = j by omega]
    exact (by decide : ∀ j < 8, (0xff : UInt8).toNat.testBit j = true) j hj
  constructor
  · intro heq j hj
    rw [← hones j hj, bitTest_eq, bitTest_eq, show (8 * k + j) / 8 = k by omega, heq]
  · intro h
    have hbits : ∀ j < 8, bitTest m (k * 8 + j) = bitTest (fun _ => 0xff) (k * 8 + j) := fun j hj => by
      rw [Nat.mul_comm, h j hj, hones j hj]
    exact PushBack.byte_eq_of_bits hbits

theorem testBit_not (h : j < 64) : (~~~w).toNat.testBit j = !w.toNat.testBit j := by
  rw [← UInt64.toNat_toBitVec, UInt64.toBitVec_not, BitVec.testBit_toNat, BitVec.getLsbD_not, decide_eq_true h,
    Bool.true_and]
  rfl

/-! ## New bits -/

/-- A trace and a virgin map have a bit in common in word `i`. -/
theorem and_load64_ne_zero :
    load64 current i &&& load64 virgin i ≠ 0 ↔
      ∃ j < 64, bitTest current (64 * i + j) = true ∧ bitTest virgin (64 * i + j) = true := by
  rw [ne_zero_iff]
  refine exists_congr fun j => and_congr_right fun hj => ?_
  rw [UInt64.toNat_and, Nat.testBit_and, testBit_load64 hj, testBit_load64 hj, Bool.and_eq_true]

theorem newBitsWord_fst (current : Mem) (s : Mem × UInt8) (i : ℕ) : (newBitsWord current s i).1 =
    if load64 current i ≠ 0 ∧ load64 current i &&& load64 s.1 i ≠ 0 then
      store64 s.1 i (load64 s.1 i &&& ~~~(load64 current i))
    else s.1 := by
  rw [newBitsWord, apply_ite Prod.fst]

/-- A turn takes the bits of the word away. -/
theorem bitTest_newBitsWord (current : Mem) (s : Mem × UInt8) (i b : ℕ) :
    bitTest (newBitsWord current s i).1 b = (bitTest s.1 b && !(decide (b / 64 = i) && bitTest current b)) := by
  have hj : b % 64 < 64 := Nat.mod_lt b (by decide)
  rw [newBitsWord_fst]
  by_cases hb : b / 64 = i
  · have hsplit : 64 * i + b % 64 = b := by omega
    rw [decide_eq_true hb, Bool.true_and]
    split
    · rw [bitTest_store64, if_pos hb, UInt64.toNat_and, Nat.testBit_and, testBit_not hj, testBit_load64 hj,
        testBit_load64 hj, hsplit]
    · rename_i hnone
      cases hcur : bitTest current b with
      | false => rw [Bool.not_false, Bool.and_true]
      | true =>
        -- the word of the trace is not zero, so it has no bit of the virgin map
        have hload : load64 current i ≠ 0 := ne_zero_iff.mpr ⟨b % 64, hj, by rw [testBit_load64 hj, hsplit, hcur]⟩
        have hzero := fun h => hnone ⟨hload, and_load64_ne_zero.mpr ⟨b % 64, hj, by rw [hsplit, hcur], h⟩⟩
        rw [hsplit] at hzero
        rw [Bool.eq_false_iff.mpr hzero, Bool.false_and]
  · rw [decide_eq_false hb, Bool.false_and, Bool.not_false, Bool.and_true]
    split
    · rw [bitTest_store64, if_neg hb]
    · rfl

theorem hasNewBits_succ (current virgin : Mem) (n : ℕ) : hasNewBitsBackend current virgin (n + 1) =
    newBitsWord current (hasNewBitsBackend current virgin n) n := by
  unfold hasNewBitsBackend
  rw [List.range_succ, List.foldl_append, List.foldl_cons, List.foldl_nil]

/-- It takes all bits of the trace from the virgin map. -/
theorem bitTest_hasNewBits (current virgin : Mem) (words b : ℕ) :
    bitTest (hasNewBitsBackend current virgin words).1 b =
      (bitTest virgin b && !(decide (b < 64 * words) && bitTest current b)) := by
  induction words with
  | zero => simp [hasNewBitsBackend]
  | succ n ih =>
    rw [hasNewBits_succ, bitTest_newBitsWord, ih, Bool.and_assoc,
      ← Bool.not_or, ← Bool.and_or_distrib_right]
    congr 3
    rw [Bool.eq_iff_iff]
    simp only [Bool.or_eq_true, decide_eq_true_eq]
    omega

/-- Byte `k` of the trace is hit, and was hit by no trace before. -/
def freshByte (current virgin : Mem) (k : ℕ) : Bool := current k != 0 && virgin k == 0xff

/-- Bit `b` of the trace was in no trace before. -/
def freshBit (current virgin : Mem) (b : ℕ) : Bool := bitTest current b && bitTest virgin b

/-- How much of the first `words` words of a trace is new. -/
def newBits (current virgin : Mem) (words : ℕ) : UInt8 :=
  if (List.range (8 * words)).any (freshByte current virgin) then 2
  else if (List.range (64 * words)).any (freshBit current virgin) then 1
  else 0

theorem freshByte_eq_true : freshByte current virgin k = true ↔ current k ≠ 0 ∧ virgin k = 0xff := by
  rw [freshByte, Bool.and_eq_true, bne_iff_ne, beq_iff_eq]

theorem freshBit_eq_true : freshBit current virgin b = true ↔ bitTest current b = true ∧ bitTest virgin b = true := by
  rw [freshBit, Bool.and_eq_true]

theorem freshBit_of_freshByte (h : freshByte current virgin k = true) :
    ∃ j < 8, freshBit current virgin (8 * k + j) = true := by
  obtain ⟨hhit, hff⟩ := freshByte_eq_true.mp h
  obtain ⟨j, hj, hbit⟩ := byte_ne_zero_iff.mp hhit
  exact ⟨j, hj, freshBit_eq_true.mpr ⟨hbit, byte_eq_ff_iff.mp hff j hj⟩⟩

/-- The word `i` holds a byte, or a bit, with `f`. -/
def inWord (w i : ℕ) (f : ℕ → Bool) : Bool := (List.range w).any fun j => f (w * i + j)

theorem inWord_eq_true {w : ℕ} {f : ℕ → Bool} : inWord w i f = true ↔ ∃ j < w, f (w * i + j) = true := by
  rw [inWord, List.any_eq_true]
  simp

theorem any_range_succ (w n : ℕ) (f : ℕ → Bool) :
    (List.range (w * (n + 1))).any f = ((List.range (w * n)).any f || inWord w n f) := by
  rw [Nat.mul_succ, List.range_add, List.any_append, List.any_map]
  rfl

/-- A word with nothing in common with the virgin map shows nothing new. -/
theorem inWord_freshBit : inWord 64 i (freshBit current virgin) = true ↔
    load64 current i ≠ 0 ∧ load64 current i &&& load64 virgin i ≠ 0 := by
  simp only [inWord_eq_true, freshBit_eq_true]
  rw [and_load64_ne_zero, and_iff_right_of_imp]
  rintro ⟨j, hj, hbit, -⟩
  exact ne_zero_iff.mpr ⟨j, hj, by rw [testBit_load64 hj, hbit]⟩

theorem inWord_freshByte_le (h : inWord 8 i (freshByte current virgin) = true) :
    inWord 64 i (freshBit current virgin) = true := by
  obtain ⟨k, hk, hfresh⟩ := inWord_eq_true.mp h
  obtain ⟨j, hj, hbit⟩ := freshBit_of_freshByte hfresh
  refine inWord_eq_true.mpr ⟨8 * k + j, by omega, ?_⟩
  rwa [show 64 * i + (8 * k + j) = 8 * (8 * i + k) + j by omega]

theorem newBitsWord_snd (current : Mem) (s : Mem × UInt8) (i : ℕ) : (newBitsWord current s i).2 =
    if s.2 < 2 then
      if inWord 8 i (freshByte current s.1) then 2
      else if inWord 64 i (freshBit current s.1) then 1
      else s.2
    else s.2 := by
  rw [newBitsWord, apply_ite Prod.snd]
  by_cases hcond : load64 current i ≠ 0 ∧ load64 current i &&& load64 s.1 i ≠ 0
  · rw [if_pos hcond, if_pos (inWord_freshBit.mpr hcond)]
    rfl
  · have hbit := mt inWord_freshBit.mp hcond
    rw [if_neg hcond, if_neg hbit, if_neg (mt inWord_freshByte_le hbit), ite_self]

/-- It tells how much is new. -/
theorem hasNewBits_snd (current virgin : Mem) (words : ℕ) :
    (hasNewBitsBackend current virgin words).2 = newBits current virgin words := by
  induction words with
  | zero => rfl
  | succ n ih =>
    -- the words before have left word `n` as it was
    have hsame : ∀ b, 64 * n ≤ b →
        bitTest (hasNewBitsBackend current virgin n).1 b = bitTest virgin b := fun b hb => by
      rw [bitTest_hasNewBits, decide_eq_false (by omega), Bool.false_and, Bool.not_false, Bool.and_true]
    have hbyte : inWord 8 n (freshByte current (hasNewBitsBackend current virgin n).1) =
        inWord 8 n (freshByte current virgin) := by
      refine congrArg (List.any (List.range 8)) (funext fun k => ?_)
      rw [freshByte, freshByte, PushBack.byte_eq_of_bits fun j _ => hsame _ (by omega)]
    have hbit : inWord 64 n (freshBit current (hasNewBitsBackend current virgin n).1) =
        inWord 64 n (freshBit current virgin) := by
      refine congrArg (List.any (List.range 64)) (funext fun j => ?_)
      rw [freshBit, freshBit, hsame _ (by omega)]
    have h2 : ¬ (2 : UInt8) < 2 := by decide
    have h1 : (1 : UInt8) < 2 := by decide
    have h0 : (0 : UInt8) < 2 := by decide
    rw [hasNewBits_succ, newBitsWord_snd, ih, hbyte, hbit, newBits, newBits, any_range_succ 8, any_range_succ 64]
    cases (List.range (8 * n)).any (freshByte current virgin) <;>
      cases (List.range (64 * n)).any (freshBit current virgin) <;> simp [h0, h1, h2]

/-! ## Classes of hit counts -/

theorem toNat_pair (x y : UInt8) : (x.toUInt16 <<< 8 ||| y.toUInt16).toNat = x.toNat * 2 ^ 8 + y.toNat := by
  have hx := x.toNat_lt
  have hy := y.toNat_lt
  have hlt : x.toNat * 2 ^ 8 < 2 ^ 16 := by omega
  rw [UInt16.toNat_or, UInt16.toNat_shiftLeft, UInt8.toNat_toUInt16, UInt8.toNat_toUInt16]
  show x.toNat <<< 8 % 2 ^ 16 ||| y.toNat = _
  rw [Nat.shiftLeft_eq, Nat.mod_eq_of_lt hlt, ← Nat.shiftLeft_eq, ← Nat.shiftLeft_add_eq_or_of_lt hy]

theorem toUInt8_pair (x y : UInt8) : (x.toUInt16 <<< 8 ||| y.toUInt16).toUInt8 = y := by
  have hy := y.toNat_lt
  rw [← UInt8.toNat_inj, UInt16.toNat_toUInt8, toNat_pair]
  omega

theorem shiftRight_pair (x y : UInt8) : ((x.toUInt16 <<< 8 ||| y.toUInt16) >>> 8).toUInt8 = x := by
  have hx := x.toNat_lt
  have hy := y.toNat_lt
  rw [← UInt8.toNat_inj, UInt16.toNat_toUInt8, UInt16.toNat_shiftRight, toNat_pair]
  show (x.toNat * 2 ^ 8 + y.toNat) >>> 8 % 2 ^ 8 = _
  rw [Nat.shiftRight_eq_div_pow]
  omega

/-- The table of pairs looks up both bytes. -/
theorem store16_lookup (m : Mem) (i k : ℕ) : store16 m i (countClassLookup16 (load16 m i)) k =
    if k / 2 = i then countClassLookup8 (m k) else m k := by
  rw [store16, countClassLookup16, toUInt8_pair, shiftRight_pair, load16, toUInt8_pair, shiftRight_pair]
  by_cases heven : k = 2 * i
  · rw [if_pos heven, if_pos (by omega), heven]
  · by_cases hodd : k = 2 * i + 1
    · rw [if_neg heven, if_pos hodd, if_pos (by omega), hodd]
    · rw [if_neg heven, if_neg hodd, if_neg (by omega)]

theorem foldl_store16 (m : Mem) (i k n : ℕ) :
    (List.range n).foldl (fun m j => store16 m (4 * i + j) (countClassLookup16 (load16 m (4 * i + j)))) m k =
      if 8 * i ≤ k ∧ k < 8 * i + 2 * n then countClassLookup8 (m k) else m k := by
  induction n with
  | zero => rw [if_neg (by omega)]; rfl
  | succ n ih =>
    rw [List.range_succ, List.foldl_append, List.foldl_cons, List.foldl_nil, store16_lookup, ih]
    by_cases hk : k / 2 = 4 * i + n
    · rw [if_pos hk, if_neg (by omega), if_pos (by omega)]
    · rw [if_neg hk]
      by_cases hlow : 8 * i ≤ k ∧ k < 8 * i + 2 * n
      · rw [if_pos hlow, if_pos (by omega)]
      · rw [if_neg hlow, if_neg (by omega)]

/-- In a word of zeros each byte is 0. -/
theorem byte_of_load64_zero (h : ¬ load64 m (k / 8) ≠ 0) : m k = 0 := by
  by_contra hne
  refine h (load64_ne_zero.mpr ⟨k % 8, Nat.mod_lt k (by decide), ?_⟩)
  rwa [Nat.div_add_mod]

theorem classifyWord_apply (m : Mem) (i k : ℕ) :
    classifyWord m i k = if k / 8 = i then countClassLookup8 (m k) else m k := by
  have hrange : (8 * i ≤ k ∧ k < 8 * i + 2 * 4) ↔ k / 8 = i := by omega
  unfold classifyWord
  split
  · rw [foldl_store16]
    simp only [hrange]
  · rename_i hzero
    split
    · rename_i hk
      have hbyte : m k = 0 := byte_of_load64_zero (hk ▸ hzero)
      rw [hbyte]
      rfl
    · rfl

/-- What a loop over the words does to each byte. -/
theorem foldl_words {f : Mem → ℕ → Mem} {g : UInt8 → UInt8} (hf : ∀ m i k, f m i k = if k / 8 = i then g (m k) else m k)
    (m : Mem) (words k : ℕ) : (List.range words).foldl f m k = if k < 8 * words then g (m k) else m k := by
  induction words with
  | zero => rfl
  | succ n ih =>
    rw [List.range_succ, List.foldl_append, List.foldl_cons, List.foldl_nil, hf, ih]
    by_cases hk : k / 8 = n
    · rw [if_pos hk, if_neg (by omega), if_pos (by omega)]
    · rw [if_neg hk]
      by_cases hlow : k < 8 * n
      · rw [if_pos hlow, if_pos (by omega)]
      · rw [if_neg hlow, if_neg (by omega)]

theorem classifyCounts_eq (m : Mem) (words k : ℕ) :
    classifyCounts m words k = if k < 8 * words then countClassLookup8 (m k) else m k :=
  foldl_words classifyWord_apply m words k

theorem foldl_simplify (m : Mem) (i k n : ℕ) :
    (List.range n).foldl (fun m j => Function.update m (8 * i + j) (simplifyLookup (m (8 * i + j)))) m k =
      if 8 * i ≤ k ∧ k < 8 * i + n then simplifyLookup (m k) else m k := by
  induction n with
  | zero => rw [if_neg (by omega)]; rfl
  | succ n ih =>
    rw [List.range_succ, List.foldl_append, List.foldl_cons, List.foldl_nil]
    by_cases hk : k = 8 * i + n
    · subst hk
      rw [Function.update_self, ih, if_neg (by omega), if_pos (by omega)]
    · rw [Function.update_of_ne hk, ih]
      by_cases hlow : 8 * i ≤ k ∧ k < 8 * i + n
      · rw [if_pos hlow, if_pos (by omega)]
      · rw [if_neg hlow, if_neg (by omega)]

theorem simplifyWord_apply (m : Mem) (i k : ℕ) :
    simplifyWord m i k = if k / 8 = i then simplifyLookup (m k) else m k := by
  have hrange : (8 * i ≤ k ∧ k < 8 * i + 8) ↔ k / 8 = i := by omega
  unfold simplifyWord
  split
  · rw [foldl_simplify]
    simp only [hrange]
  · rename_i hzero
    rw [store64]
    split
    · rename_i hk
      have hbyte : m k = 0 := byte_of_load64_zero (hk ▸ hzero)
      rw [hbyte]
      have hlt : k % 8 < 8 := Nat.mod_lt k (by decide)
      interval_cases k % 8 <;> rfl
    · rfl

theorem simplifyTrace_eq (m : Mem) (words k : ℕ) :
    simplifyTrace m words k = if k < 8 * words then simplifyLookup (m k) else m k :=
  foldl_words simplifyWord_apply m words k

end PMFuzz.Afl
