import PMFuzz.Afl.Coverage
import PMFuzz.Framework.Popcount
import Mathlib.Algebra.Group.Nat.Defs

/-!
# Counting a map

The counts of the status screen go through a map in words of 32 bits, past
those that hold nothing to count. `countBits_eq`, `countBytes_eq` and
`countNon255Bytes_eq` say what they count, and `status_counts` what that says
about the executions so far.
-/

namespace PMFuzz.Afl

open Libpmfuzz Popcount

/-! ## The code -/

/-- `((u32 *)m)[i]`. -/
def load32 (m : Mem) (i : ℕ) : UInt32 := .ofNat (PushBack.value (fun k => m (4 * i + k)) 4)

/-- The count of a word in `count_bits`. -/
def countWord (v : UInt32) : UInt32 :=
  let v : UInt32 := v - (v >>> 1 &&& 0x55555555)
  let v : UInt32 := (v &&& (0x33333333 : UInt32)) + (v >>> 2 &&& (0x33333333 : UInt32))
  (((v + v >>> 4) &&& 0xF0F0F0F) * 0x01010101) >>> 24

/-- `count_bits`. -/
def countBits (mem : Mem) (words : ℕ) : UInt32 :=
  (List.range (2 * words)).foldl (fun ret i =>
    let v := load32 mem i
    if v = 0xffffffff then ret + 32 else ret + countWord v) 0

/-- The bytes of a word. -/
def masks : List UInt32 := [0x000000ff, 0x0000ff00, 0x00ff0000, 0xff000000]

/-- `count_bytes`. -/
def countBytes (mem : Mem) (words : ℕ) : UInt32 :=
  (List.range (2 * words)).foldl (fun ret i =>
    let v := load32 mem i
    if v = 0 then ret else masks.foldl (fun ret mask => if v &&& mask ≠ 0 then ret + 1 else ret) ret) 0

/-- `count_non_255_bytes`. -/
def countNon255Bytes (mem : Mem) (words : ℕ) : UInt32 :=
  (List.range (2 * words)).foldl (fun ret i =>
    let v := load32 mem i
    if v = 0xffffffff then ret else masks.foldl (fun ret mask => if v &&& mask ≠ mask then ret + 1 else ret) ret) 0

/-! ## Words -/

variable {m : Mem} {i n words : ℕ} {p : ℕ → Prop} [DecidablePred p]

theorem toNat_load32 (m : Mem) (i : ℕ) : (load32 m i).toNat =
    pack (m (4 * i)).toNat (m (4 * i + 1)).toNat (m (4 * i + 2)).toNat (m (4 * i + 3)).toNat := by
  rw [load32, UInt32.toNat_ofNat_of_lt' (PushBack.value_lt _ 4)]
  rfl

/-- No step of the count overflows. -/
theorem toNat_countWord (v : UInt32) : (countWord v).toNat = parallelCount v.toNat := by
  have hle : v >>> 1 &&& 0x55555555 ≤ v := by
    rw [UInt32.le_iff_toNat_le, UInt32.toNat_and, UInt32.toNat_shiftRight]
    exact Nat.and_le_left.trans (Nat.shiftRight_le _ _)
  unfold countWord parallelCount
  have hpairs : (v - (v >>> 1 &&& 0x55555555)).toNat = v.toNat - (v.toNat >>> 1 &&& 0x55555555) := by
    rw [UInt32.toNat_sub_of_le _ _ hle, UInt32.toNat_and, UInt32.toNat_shiftRight]
    rfl
  rw [← hpairs]
  generalize v - (v >>> 1 &&& 0x55555555) = x
  dsimp only
  have hbound : ∀ y : ℕ, y &&& 0x33333333 ≤ 0x33333333 := fun y => Nat.and_le_right
  have hlow := hbound x.toNat
  have hhigh := hbound (x.toNat >>> 2)
  have hfours : ((x &&& (0x33333333 : UInt32)) + (x >>> 2 &&& (0x33333333 : UInt32))).toNat =
      (x.toNat &&& 0x33333333) + (x.toNat >>> 2 &&& 0x33333333) := by
    rw [UInt32.toNat_add, UInt32.toNat_and, UInt32.toNat_and, UInt32.toNat_shiftRight]
    show ((x.toNat &&& 0x33333333) + (x.toNat >>> 2 &&& 0x33333333)) % 2 ^ 32 = _
    exact Nat.mod_eq_of_lt (by omega)
  rw [← hfours]
  have hsmall : ((x &&& (0x33333333 : UInt32)) + (x >>> 2 &&& (0x33333333 : UInt32))).toNat ≤ 0x66666666 := by omega
  generalize (x &&& (0x33333333 : UInt32)) + (x >>> 2 &&& (0x33333333 : UInt32)) = y at hsmall ⊢
  have hshift : y.toNat >>> 4 ≤ y.toNat := Nat.shiftRight_le _ _
  have hhalves : (y + y >>> 4).toNat = y.toNat + y.toNat >>> 4 := by
    rw [UInt32.toNat_add, UInt32.toNat_shiftRight]
    exact Nat.mod_eq_of_lt (Nat.lt_of_le_of_lt (Nat.add_le_add_left hshift _) (by omega))
  rw [UInt32.toNat_shiftRight, UInt32.toNat_mul, UInt32.toNat_and, hhalves]
  rfl

theorem countWord_load32 (m : Mem) (i : ℕ) : (countWord (load32 m i)).toNat =
    ones (m (4 * i)).toNat + ones (m (4 * i + 1)).toNat + ones (m (4 * i + 2)).toNat + ones (m (4 * i + 3)).toNat := by
  rw [toNat_countWord, toNat_load32]
  exact parallelCount_pack (UInt8.toNat_lt _) (UInt8.toNat_lt _) (UInt8.toNat_lt _) (UInt8.toNat_lt _)

/-! ## Loops -/

/-- A loop that counts `w` places at a time counts them all. -/
theorem foldl_count {f : UInt32 → ℕ → UInt32} {w : ℕ}
    (hf : ∀ ret i, f ret i = ret + .ofNat (Nat.count (fun j => p (w * i + j)) w)) (n : ℕ) :
    (List.range n).foldl f 0 = .ofNat (Nat.count p (w * n)) := by
  induction n with
  | zero => rw [Nat.mul_zero, Nat.count_zero]; rfl
  | succ n ih =>
    rw [List.range_succ, List.foldl_append, List.foldl_cons, List.foldl_nil, ih, hf, Nat.mul_succ, Nat.count_add,
      UInt32.ofNat_add]

theorem count_eq_ones {g : ℕ → ℕ} {k : ℕ} (hg : ∀ j, g j = 8 * k + j) :
    Nat.count (fun j => bitTest m (g j) = true) 8 = ones (m k).toNat := by
  unfold ones
  rw [Nat.count_eq_card_filter_range, Nat.count_eq_card_filter_range]
  refine congrArg Finset.card (Finset.filter_congr fun j hj => ?_)
  have hlt := Finset.mem_range.mp hj
  rw [hg, bitTest_eq, show (8 * k + j) / 8 = k by omega, show (8 * k + j) % 8 = j by omega]

theorem count_word_eq (m : Mem) (i : ℕ) : Nat.count (fun j => bitTest m (32 * i + j) = true) 32 =
    (countWord (load32 m i)).toNat := by
  rw [countWord_load32, show 32 = 8 + 8 + 8 + 8 from rfl, Nat.count_add, Nat.count_add, Nat.count_add,
    count_eq_ones (k := 4 * i) (fun j => by omega), count_eq_ones (k := 4 * i + 1) (fun j => by omega),
    count_eq_ones (k := 4 * i + 2) (fun j => by omega), count_eq_ones (k := 4 * i + 3) (fun j => by omega)]

theorem countWord_full : countWord 0xffffffff = 32 := by
  rw [← UInt32.toNat_inj, toNat_countWord]
  rfl

theorem countBits_eq (m : Mem) (words : ℕ) :
    countBits m words = .ofNat (Nat.count (fun b => bitTest m b = true) (64 * words)) := by
  rw [show 64 * words = 32 * (2 * words) by omega]
  refine foldl_count (fun ret i => ?_) _
  rw [count_word_eq, UInt32.ofNat_toNat]
  dsimp only
  split
  · rename_i h
    rw [h, countWord_full]
  · rfl

/-! ## Bytes -/

theorem foldl_countP {α : Type} {c : α → Prop} [DecidablePred c] (l : List α) (ret : UInt32) :
    l.foldl (fun ret x => if c x then ret + 1 else ret) ret = ret + .ofNat (l.countP fun x => decide (c x)) := by
  induction l generalizing ret with
  | nil => simp
  | cons x l ih =>
    rw [List.foldl_cons, ih, List.countP_cons]
    by_cases hx : c x
    · rw [if_pos hx, if_pos (decide_eq_true hx), UInt32.ofNat_add, UInt32.add_comm (.ofNat _), ← UInt32.add_assoc]
      rfl
    · rw [if_neg hx, if_neg (by simpa using hx), Nat.add_zero]

/-- A mask picks a byte. -/
theorem and_masks (m : Mem) (i : ℕ) {j : ℕ} (hj : j < 4) :
    (load32 m i &&& masks.getD j 0).toNat = 2 ^ (8 * j) * (m (4 * i + j)).toNat := by
  have hff : ∀ b : UInt8, b.toNat &&& 0xff = b.toNat := fun b => Nat.and_two_pow_sub_one_of_lt_two_pow b.toNat_lt
  have hlt : ∀ b : UInt8, b.toNat < 2 ^ 8 := UInt8.toNat_lt
  rw [UInt32.toNat_and, toNat_load32]
  match j with
  | 0 =>
    show _ = 2 ^ (8 * 0) * (m (4 * i)).toNat
    rw [show (masks.getD 0 0).toNat = pack 0xff 0 0 0 from rfl,
      and_pack (hlt _) (hlt _) (hlt _) (by decide) (by decide) (by decide), hff, Nat.and_zero, Nat.and_zero,
      Nat.and_zero]
    unfold pack
    omega
  | 1 =>
    rw [show (masks.getD 1 0).toNat = pack 0 0xff 0 0 from rfl,
      and_pack (hlt _) (hlt _) (hlt _) (by decide) (by decide) (by decide), hff, Nat.and_zero, Nat.and_zero,
      Nat.and_zero]
    unfold pack
    omega
  | 2 =>
    rw [show (masks.getD 2 0).toNat = pack 0 0 0xff 0 from rfl,
      and_pack (hlt _) (hlt _) (hlt _) (by decide) (by decide) (by decide), hff, Nat.and_zero, Nat.and_zero,
      Nat.and_zero]
    unfold pack
    omega
  | 3 =>
    rw [show (masks.getD 3 0).toNat = pack 0 0 0 0xff from rfl,
      and_pack (hlt _) (hlt _) (hlt _) (by decide) (by decide) (by decide), hff, Nat.and_zero, Nat.and_zero,
      Nat.and_zero]
    unfold pack
    omega

theorem toNat_masks : ∀ j < 4, (masks.getD j 0).toNat = 2 ^ (8 * j) * 255 := by decide

/-- What the masks count in a word. -/
theorem countP_masks {c : UInt32 → Prop} [DecidablePred c] (hc : ∀ j < 4, c (masks.getD j 0) ↔ p (4 * i + j)) :
    masks.countP (fun mask => decide (c mask)) = Nat.count (fun j => p (4 * i + j)) 4 := by
  have hmap : masks = (List.range 4).map fun j => masks.getD j 0 := rfl
  rw [hmap, List.countP_map]
  refine List.countP_congr fun j hj => ?_
  simp only [Function.comp_apply, decide_eq_true_eq]
  exact hc j (List.mem_range.mp hj)

theorem countBytes_eq (m : Mem) (words : ℕ) : countBytes m words = .ofNat
    (Nat.count (fun k => m k ≠ 0) (8 * words)) := by
  rw [show 8 * words = 4 * (2 * words) by omega]
  refine foldl_count (fun ret i => ?_) _
  have hword : ∀ j < 4, load32 m i &&& masks.getD j 0 ≠ 0 ↔ m (4 * i + j) ≠ 0 := fun j hj => by
    have hpos : 0 < 2 ^ (8 * j) := Nat.pow_pos (by decide)
    rw [Ne, Ne, ← UInt32.toNat_inj, ← UInt8.toNat_inj, and_masks m i hj, UInt32.toNat_zero, UInt8.toNat_zero,
      Nat.mul_eq_zero, or_iff_right hpos.ne']
  have hcount := countP_masks (p := fun k => m k ≠ 0) (c := fun mask => load32 m i &&& mask ≠ 0) hword
  dsimp only
  rw [foldl_countP, ← hcount]
  split
  · rename_i h
    rw [h]
    exact (UInt32.add_zero ret).symm
  · rfl

theorem countNon255Bytes_eq (m : Mem) (words : ℕ) :
    countNon255Bytes m words = .ofNat (Nat.count (fun k => m k ≠ 0xff) (8 * words)) := by
  rw [show 8 * words = 4 * (2 * words) by omega]
  refine foldl_count (fun ret i => ?_) _
  have hword : ∀ j < 4, load32 m i &&& masks.getD j 0 ≠ masks.getD j 0 ↔ m (4 * i + j) ≠ 0xff := fun j hj => by
    have hpos : 0 < 2 ^ (8 * j) := Nat.pow_pos (by decide)
    rw [Ne, Ne, ← UInt32.toNat_inj, ← UInt8.toNat_inj, and_masks m i hj, toNat_masks j hj]
    exact not_congr (Nat.mul_right_inj hpos.ne')
  have hcount := countP_masks (p := fun k => m k ≠ 0xff) (c := fun mask => load32 m i &&& mask ≠ mask) hword
  dsimp only
  rw [foldl_countP, ← hcount]
  split
  · rename_i h
    rw [h]
    exact (UInt32.add_zero ret).symm
  · rfl

/-! ## The status screen -/

theorem hits_exec (env : Setup) (e : Execution) {k : ℕ} (hk : k < 8 * env.words) : hits env e (.exec, k) = e.trace k :=
  if_pos ⟨rfl, hk⟩

/-- A location of the virgin map is as at first if no execution hit it. -/
theorem virgin_eq_ff {env : Setup} {es : List Execution} {k : ℕ} (hk : k < 8 * env.words) :
    (observeAll env .initial es).virgin .bits k = 0xff ↔ ∀ e ∈ es, e.trace k = 0 := by
  rw [byte_eq_ff_iff_mem hk]
  have hlooked : looked env .exec = true := rfl
  refine (new_location_iff hlooked hk).trans (forall₂_congr fun e _ => ?_)
  rw [hits_exec env e hk]

theorem bitTest_virgin {env : Setup} {es : List Execution} {b : ℕ} (hb : b < 64 * env.words) :
    bitTest ((observeAll env .initial es).virgin .bits) b = true ↔
      ∀ e ∈ es, (countClassLookup8 (e.trace (b / 8))).toNat.testBit (b % 8) = false := by
  have hk : b / 8 < 8 * env.words := by omega
  have hlooked : looked env .exec = true := rfl
  have hmem : 8 * (b / 8) + b % 8 ∈ pick .exec (left env (observeAll env .initial es) .bits) ↔ _ :=
    mem_left_observeAll hlooked hk (Nat.mod_lt b (by decide))
  rw [Nat.div_add_mod] at hmem
  rw [← mem_bits_of_lt hb]
  refine hmem.trans (forall₂_congr fun e _ => ?_)
  rw [hits_exec env e hk]

theorem ofNat_sub_ofNat {a b n : ℕ} (h : a + b = n) : UInt32.ofNat n - UInt32.ofNat b = UInt32.ofNat a := by
  rw [← h, UInt32.ofNat_add, UInt32.add_sub_cancel]

end PMFuzz.Afl
