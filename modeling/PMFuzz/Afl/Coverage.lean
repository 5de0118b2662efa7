import PMFuzz.Afl.Bitmap
import PMFuzz.Framework.Novelty
import Mathlib.Data.Finset.Prod
import Mathlib.Data.Finset.SDiff
import Mathlib.Order.BooleanAlgebra.Basic

/-!
# New coverage

`has_new_bits` on top of its backend: the virgin maps, what a run of the
target leaves in the two traces (`record`), and how the two answers become
one (`hasNewBits`). What a trace shows is a pair of sets of bits, and a
call takes it from what is left (`left_hasNewBits`).

* `observe_verdict`: after any executions, the answer is 2 exactly if the next
  one hits a location that none of them hit, and not 0 exactly if it hits one
  as often as none of them did;
* `replay_interesting`: the executions with an answer other than 0 leave
  the same virgin maps as all of them.
-/

namespace PMFuzz.Afl

open Libpmfuzz Novelty

/-! ## The code -/

/-- What does not change while the fuzzer runs. -/
structure Setup where
  /-- `MAP_SIZE >> 3`. -/
  words : ℕ
  /-- `getenv("ENABLE_PM_PATH") != NULL`. -/
  enablePmPath : Bool
  /-- A `u32` counts the bits of a map. -/
  words_lt : 64 * words < 2 ^ 32

/-- `virgin_bits`, `virgin_tmout` and `virgin_crash`. -/
inductive Virgin
  | bits | tmout | crash
  deriving DecidableEq

inductive HnbMode
  | exec | pm
  deriving DecidableEq

/-- The maps of `afl_state_t`, and what counts them. -/
structure Maps where
  traceBits : Mem
  tracePmBits : Mem
  virgin : Virgin → Mem
  virginPmBits : Mem
  bitmapChanged : Bool
  globalNewPmFind : UInt32
  globalUniqueFind : UInt32

/-- The maps as the target leaves them. -/
structure Execution where
  trace : Mem
  tracePm : Mem

/-- The maps that `main` sets up. -/
def Maps.initial : Maps where
  traceBits := fun _ => 0
  tracePmBits := fun _ => 0
  virgin := fun _ _ => 255
  virginPmBits := fun _ => 255
  bitmapChanged := false
  globalNewPmFind := 0
  globalUniqueFind := 0

/-- What `run_target` does to the maps. -/
def record (env : Setup) (m : Maps) (e : Execution) : Maps :=
  { m with
    traceBits := classifyCounts e.trace env.words
    tracePmBits := if env.enablePmPath then classifyCounts e.tracePm env.words else e.tracePm }

/-- The best of the two answers. -/
def best (retPm retExec : UInt8) : UInt8 :=
  if retPm = 2 ∨ retExec = 2 then 2 else if retPm = 1 ∨ retExec = 1 then 1 else 0

/-- `has_new_bits(afl, v, afl->virgin_pm_bits)`. -/
def hasNewBits (env : Setup) (m : Maps) (v : Virgin) : Maps × UInt8 :=
  let exec := hasNewBitsBackend m.traceBits (m.virgin v) env.words
  let pm := hasNewBitsBackend m.tracePmBits m.virginPmBits env.words
  let m := { m with
    virgin := Function.update m.virgin v exec.1
    bitmapChanged := m.bitmapChanged || exec.2 != 0 && decide (v = .bits) }
  if env.enablePmPath then
    ({ m with
      virginPmBits := pm.1
      globalNewPmFind := if pm.2 ≠ 0 then m.globalNewPmFind + 1 else m.globalNewPmFind
      globalUniqueFind := if pm.2 ≠ 0 ∧ exec.2 = 0 then m.globalUniqueFind + 1 else m.globalUniqueFind },
      best pm.2 exec.2)
  else (m, exec.2)

/-- An execution, and what is new in it. -/
def observe (env : Setup) (m : Maps) (e : Execution) : Maps × UInt8 := hasNewBits env (record env m e) .bits

/-- One execution after the other. -/
def observeAll (env : Setup) (m : Maps) (es : List Execution) : Maps := es.foldl (fun m e => (observe env m e).1) m

/-- The executions that show something new. -/
def interesting (env : Setup) : Maps → List Execution → List Execution
  | _, [] => []
  | m, e :: es =>
    let o := observe env m e
    if o.2 ≠ 0 then e :: interesting env o.1 es else interesting env o.1 es

/-! ## Maps as sets of bits -/

variable {env : Setup} {m : Maps} {v v' : Virgin} {e : Execution} {es : List Execution}
  {current virgin : Mem} {words b k : ℕ}

/-- The bits of the first words of a map. -/
def bits (words : ℕ) (map : Mem) : Finset ℕ := (Finset.range (64 * words)).filter fun b => bitTest map b = true

@[simp] theorem mem_bits : b ∈ bits words virgin ↔ b < 64 * words ∧ bitTest virgin b = true := by
  rw [bits, Finset.mem_filter, Finset.mem_range]

theorem bits_hasNewBits (current virgin : Mem) (words : ℕ) :
    bits words (hasNewBitsBackend current virgin words).1 = bits words virgin \ bits words current := by
  ext b
  rw [Finset.mem_sdiff, mem_bits, mem_bits, mem_bits, bitTest_hasNewBits, Bool.and_eq_true, and_assoc]
  refine and_congr_right fun hb => and_congr_right fun _ => ?_
  rw [decide_eq_true hb, Bool.true_and, Bool.not_eq_true', and_iff_right hb, Bool.not_eq_true]

theorem not_disjoint_bits :
    ¬ Disjoint (bits words virgin) (bits words current) ↔ ∃ b < 64 * words, freshBit current virgin b = true := by
  rw [Finset.not_disjoint_iff]
  constructor
  · rintro ⟨b, hvirgin, hcurrent⟩
    rw [mem_bits] at hvirgin hcurrent
    exact ⟨b, hvirgin.1, freshBit_eq_true.mpr ⟨hcurrent.2, hvirgin.2⟩⟩
  · rintro ⟨b, hb, hfresh⟩
    obtain ⟨hcurrent, hvirgin⟩ := freshBit_eq_true.mp hfresh
    exact ⟨b, mem_bits.mpr ⟨hb, hvirgin⟩, mem_bits.mpr ⟨hb, hcurrent⟩⟩

theorem any_freshBit :
    (List.range (64 * words)).any (freshBit current virgin) = true ↔ ∃ b < 64 * words,
    freshBit current virgin b = true := by
  rw [List.any_eq_true]
  simp

theorem any_freshByte : (List.range (8 * words)).any (freshByte current virgin) = true ↔
    ∃ k < 8 * words, current k ≠ 0 ∧ virgin k = 0xff := by
  rw [List.any_eq_true]
  simp [freshByte_eq_true]

theorem newBits_eq_two : newBits current virgin words = 2 ↔ ∃ k < 8 * words, current k ≠ 0 ∧ virgin k = 0xff := by
  rw [← any_freshByte, newBits]
  split
  · rename_i h
    exact iff_of_true rfl h
  · rename_i h
    refine iff_of_false ?_ h
    split <;> decide

theorem newBits_ne_zero :
    newBits current virgin words ≠ 0 ↔ ¬ Disjoint (bits words virgin) (bits words current) := by
  rw [not_disjoint_bits, ← any_freshBit, newBits]
  split
  · rename_i h
    obtain ⟨k, hk, hfresh⟩ := any_freshByte.mp h
    obtain ⟨j, hj, hbit⟩ := freshBit_of_freshByte (freshByte_eq_true.mpr hfresh)
    exact iff_of_true (by decide) (any_freshBit.mpr ⟨8 * k + j, by omega, hbit⟩)
  · split
    · rename_i h
      exact iff_of_true (by decide) h
    · rename_i h
      exact iff_of_false (by decide) h

theorem newBits_le_two (current virgin : Mem) (words : ℕ) : newBits current virgin words ≤ 2 := by
  unfold newBits
  split
  · decide
  · split <;> decide

theorem best_eq_two {p q : UInt8} : best p q = 2 ↔ p = 2 ∨ q = 2 := by
  unfold best
  split
  · rename_i h
    exact iff_of_true rfl h
  · rename_i h
    refine iff_of_false ?_ h
    split <;> decide

/-- An answer is 0, 1 or 2. -/
theorem eq_zero_or_of_le_two : ∀ p : UInt8, p ≤ 2 → p = 0 ∨ p = 1 ∨ p = 2 := by
  intro p hp
  have hle : p.toNat ≤ 2 := UInt8.le_iff_toNat_le.mp hp
  simp only [← UInt8.toNat_inj]
  show p.toNat = 0 ∨ p.toNat = 1 ∨ p.toNat = 2
  omega

theorem best_ne_zero {p q : UInt8} (hp : p ≤ 2) (hq : q ≤ 2) : best p q ≠ 0 ↔ p ≠ 0 ∨ q ≠ 0 := by
  rcases eq_zero_or_of_le_two p hp with rfl | rfl | rfl <;>
    rcases eq_zero_or_of_le_two q hq with rfl | rfl | rfl <;> decide

/-! ## What is left to show -/

/-- What the traces show. -/
def shown (env : Setup) (m : Maps) : Finset ℕ × Finset ℕ :=
  (bits env.words m.traceBits, if env.enablePmPath then bits env.words m.tracePmBits else ∅)

/-- What a virgin map, with `virgin_pm_bits`, has left. -/
def left (env : Setup) (m : Maps) (v : Virgin) : Finset ℕ × Finset ℕ :=
  (bits env.words (m.virgin v), if env.enablePmPath then bits env.words m.virginPmBits else ∅)

theorem hasNewBits_virgin (env : Setup) (m : Maps) (v : Virgin) : (hasNewBits env m v).1.virgin =
    Function.update m.virgin v (hasNewBitsBackend m.traceBits (m.virgin v) env.words).1 := by
  unfold hasNewBits
  split <;> rfl

theorem hasNewBits_virginPm (env : Setup) (m : Maps) (v : Virgin) : (hasNewBits env m v).1.virginPmBits =
    if env.enablePmPath then (hasNewBitsBackend m.tracePmBits m.virginPmBits env.words).1 else m.virginPmBits := by
  unfold hasNewBits
  split <;> rfl

/-- A call takes away what the traces show. -/
theorem left_hasNewBits (env : Setup) (m : Maps) (v : Virgin) :
    left env (hasNewBits env m v).1 v = left env m v \ shown env m := by
  unfold left shown
  rw [hasNewBits_virgin, hasNewBits_virginPm, Function.update_self, bits_hasNewBits]
  split
  · rw [bits_hasNewBits]
    rfl
  · exact Prod.ext rfl (Finset.empty_sdiff ∅).symm

/-- The maps of persistent memory are shared, so a call for one kind of
execution takes from the others, too. -/
theorem left_hasNewBits_of_ne (hne : v' ≠ v) : left env (hasNewBits env m v).1 v' =
    ((left env m v').1, (left env m v').2 \ (shown env m).2) := by
  unfold left shown
  rw [hasNewBits_virgin, hasNewBits_virginPm, Function.update_of_ne hne]
  split
  · rw [bits_hasNewBits]
  · exact Prod.ext rfl (Finset.empty_sdiff ∅).symm

theorem hasNewBits_ret (env : Setup) (m : Maps) (v : Virgin) : (hasNewBits env m v).2 =
    if env.enablePmPath then
      best (newBits m.tracePmBits m.virginPmBits env.words) (newBits m.traceBits (m.virgin v) env.words)
    else newBits m.traceBits (m.virgin v) env.words := by
  unfold hasNewBits
  rw [← hasNewBits_snd, ← hasNewBits_snd]
  split <;> rfl

theorem disjoint_prod {s t : Finset ℕ × Finset ℕ} : Disjoint s t ↔ Disjoint s.1 t.1 ∧ Disjoint s.2 t.2 := by
  rw [disjoint_iff, disjoint_iff, disjoint_iff, Prod.ext_iff]
  rfl

/-- The answer is not 0 exactly if something is left of what the traces show. -/
theorem hasNewBits_ne_zero : (hasNewBits env m v).2 ≠ 0 ↔ ¬ Disjoint (left env m v) (shown env m) := by
  rw [hasNewBits_ret, disjoint_prod, not_and_or]
  unfold left shown
  split
  · rw [best_ne_zero (newBits_le_two _ _ _) (newBits_le_two _ _ _), newBits_ne_zero, newBits_ne_zero, or_comm]
  · rw [newBits_ne_zero, or_iff_left (not_not.mpr (Finset.disjoint_empty_left ∅))]

theorem hasNewBits_eq_two : (hasNewBits env m v).2 = 2 ↔
    (∃ k < 8 * env.words, m.traceBits k ≠ 0 ∧ m.virgin v k = 0xff) ∨
      env.enablePmPath = true ∧ ∃ k < 8 * env.words, m.tracePmBits k ≠ 0 ∧ m.virginPmBits k = 0xff := by
  rw [hasNewBits_ret]
  split
  · rename_i h
    rw [best_eq_two, newBits_eq_two, newBits_eq_two, or_comm, and_iff_right h]
  · rename_i h
    rw [newBits_eq_two, or_iff_left fun h' => h h'.1]

/-! ## Runs -/

/-- What an execution shows. -/
def shownBy (env : Setup) (e : Execution) : Finset ℕ × Finset ℕ :=
  (bits env.words (classifyCounts e.trace env.words),
    if env.enablePmPath then bits env.words (classifyCounts e.tracePm env.words) else ∅)

theorem shown_record (env : Setup) (m : Maps) (e : Execution) : shown env (record env m e) = shownBy env e := by
  unfold shown shownBy record
  split <;> rfl

theorem observe_ne_zero : (observe env m e).2 ≠ 0 ↔ ¬ Disjoint (left env m .bits) (shownBy env e) := by
  rw [observe, hasNewBits_ne_zero, shown_record]
  rfl

theorem left_observe (env : Setup) (m : Maps) (e : Execution) :
    left env (observe env m e).1 .bits = left env m .bits \ shownBy env e := by
  rw [observe, left_hasNewBits, shown_record]
  rfl

theorem left_observeAll (env : Setup) (m : Maps) (es : List Execution) :
    left env (observeAll env m es) .bits = left env m .bits \ joined (es.map (shownBy env)) := by
  induction es generalizing m with
  | nil => exact sdiff_bot.symm
  | cons e es ih =>
    rw [List.map_cons, joined_cons, ← sdiff_sdiff_left, ← left_observe, ← ih]
    rfl

/-- The interesting executions are those that are kept. -/
theorem map_interesting (env : Setup) (m : Maps) (es : List Execution) :
    (interesting env m es).map (shownBy env) = kept (left env m .bits) (es.map (shownBy env)) := by
  induction es generalizing m with
  | nil => rfl
  | cons e es ih =>
    rw [interesting, List.map_cons]
    by_cases hd : Disjoint (left env m .bits) (shownBy env e)
    · have hleft : left env (observe env m e).1 .bits = left env m .bits := by
        rw [left_observe, hd.sdiff_eq_left]
      rw [if_neg (mt observe_ne_zero.mp (not_not.mpr hd)), ih, hleft, kept_cons_of_disjoint hd]
    · rw [if_pos (observe_ne_zero.mpr hd), List.map_cons, ih, left_observe, kept_cons_of_not hd]

/-! ## What was hit, and how often -/

/-- The maps that are looked at. -/
def looked (env : Setup) : HnbMode → Bool
  | .exec => true
  | .pm => env.enablePmPath

/-- The map that the target writes. -/
def Execution.map (e : Execution) : HnbMode → Mem
  | .exec => e.trace
  | .pm => e.tracePm

/-- How often an execution hits a location of a map that is looked at. -/
def hits (env : Setup) (e : Execution) (l : HnbMode × ℕ) : UInt8 :=
  if looked env l.1 ∧ l.2 < 8 * env.words then e.map l.1 l.2 else 0

/-- One of the two sets. -/
def pick : HnbMode → Finset ℕ × Finset ℕ → Finset ℕ
  | .exec, s => s.1
  | .pm, s => s.2

theorem pick_sdiff (mode : HnbMode) (s t : Finset ℕ × Finset ℕ) : pick mode (s \ t) = pick mode s \ pick mode t := by
  cases mode <;> rfl

theorem not_disjoint_pick {s t : Finset ℕ × Finset ℕ} :
    ¬ Disjoint s t ↔ ∃ mode, ∃ b, b ∈ pick mode s ∧ b ∈ pick mode t := by
  rw [disjoint_prod, not_and_or, Finset.not_disjoint_iff, Finset.not_disjoint_iff]
  constructor
  · rintro (⟨b, hb⟩ | ⟨b, hb⟩)
    · exact ⟨.exec, b, hb⟩
    · exact ⟨.pm, b, hb⟩
  · rintro ⟨_ | _, b, hb⟩
    · exact .inl ⟨b, hb⟩
    · exact .inr ⟨b, hb⟩

theorem mem_pick_sdiff_joined {mode : HnbMode} {s : Finset ℕ × Finset ℕ} {ts : List (Finset ℕ × Finset ℕ)} :
    b ∈ pick mode (s \ joined ts) ↔ b ∈ pick mode s ∧ ∀ t ∈ ts, b ∉ pick mode t := by
  induction ts generalizing s with
  | nil => cases mode <;> simp [pick]
  | cons t ts ih =>
    rw [joined_cons, ← sdiff_sdiff_left, ih, pick_sdiff, Finset.mem_sdiff, List.forall_mem_cons, and_assoc]

theorem countClassLookup8_eq_zero {c : UInt8} : countClassLookup8 c = 0 ↔ c = 0 := by
  constructor
  · intro h
    by_contra hne
    unfold countClassLookup8 at h
    rw [if_neg hne] at h
    revert h
    repeat' split
    all_goals decide
  · rintro rfl
    rfl

/-- A class has one bit. -/
theorem class_toNat_of_testBit {c : UInt8} : ∀ j < 8, (countClassLookup8 c).toNat.testBit j = true →
    (countClassLookup8 c).toNat = 2 ^ j := by
  unfold countClassLookup8
  repeat' split
  all_goals decide

theorem class_eq_of_testBit {c d : UInt8} {j : ℕ} (hj : j < 8) (hc : (countClassLookup8 c).toNat.testBit j = true)
    (hd : (countClassLookup8 d).toNat.testBit j = true) : countClassLookup8 c = countClassLookup8 d :=
  UInt8.toNat_inj.mp ((class_toNat_of_testBit j hj hc).trans (class_toNat_of_testBit j hj hd).symm)

theorem exists_testBit_class {c : UInt8} (h : c ≠ 0) : ∃ j < 8, (countClassLookup8 c).toNat.testBit j = true := by
  by_contra hnone
  refine h (countClassLookup8_eq_zero.mp (eq_zero_of_testBit fun j hj => ?_))
  exact Bool.eq_false_iff.mpr fun hbit => hnone ⟨j, hj, hbit⟩

theorem mem_bits_classifyCounts (hb : b < 64 * words) : b ∈ bits words (classifyCounts current words) ↔
    (countClassLookup8 (current (b / 8))).toNat.testBit (b % 8) = true := by
  rw [mem_bits, and_iff_right hb, bitTest_eq, classifyCounts_eq, if_pos (by omega)]

theorem pick_shownBy (env : Setup) (e : Execution) (mode : HnbMode) : pick mode (shownBy env e) =
    if looked env mode then bits env.words (classifyCounts (e.map mode) env.words) else ∅ := by
  cases mode <;> rfl

theorem pick_left_initial (env : Setup) (mode : HnbMode) : pick mode (left env .initial .bits) =
    if looked env mode then bits env.words fun _ => 255 else ∅ := by
  cases mode <;> rfl

theorem hits_ne_zero {mode : HnbMode} (h : hits env e (mode, k) ≠ 0) : looked env mode = true ∧ k < 8 * env.words := by
  by_contra hnot
  exact h (if_neg hnot)

/-- A bit of what an execution shows is the class of a count. -/
theorem mem_shownBy {mode : HnbMode} : b ∈ pick mode (shownBy env e) ↔
    (countClassLookup8 (hits env e (mode, b / 8))).toNat.testBit (b % 8) = true := by
  have hzero : (countClassLookup8 0).toNat.testBit (b % 8) = false := Nat.zero_testBit _
  rw [pick_shownBy, hits]
  by_cases hmode : looked env mode = true
  · rw [if_pos hmode]
    by_cases hb : b < 64 * env.words
    · rw [if_pos ⟨hmode, by omega⟩, mem_bits_classifyCounts hb]
    · rw [if_neg fun h => hb (by omega), hzero]
      exact iff_of_false (fun h => hb (mem_bits.mp h).1) Bool.false_ne_true
  · rw [if_neg hmode, if_neg fun h => hmode h.1, hzero]
    exact iff_of_false (Finset.notMem_empty b) Bool.false_ne_true

/-- At first each bit of a location is left. -/
theorem mem_left_initial {mode : HnbMode} {j : ℕ} (hmode : looked env mode = true) (hk : k < 8 * env.words)
    (hj : j < 8) : 8 * k + j ∈ pick mode (left env .initial .bits) := by
  rw [pick_left_initial, if_pos hmode, mem_bits, bitTest_eq, show (8 * k + j) % 8 = j by omega]
  exact ⟨by omega, (by decide : ∀ j < 8, (255 : UInt8).toNat.testBit j = true) j hj⟩

theorem mem_left_observeAll {mode : HnbMode} {j : ℕ} (hmode : looked env mode = true) (hk : k < 8 * env.words)
    (hj : j < 8) : 8 * k + j ∈ pick mode (left env (observeAll env .initial es) .bits) ↔
      ∀ e ∈ es, (countClassLookup8 (hits env e (mode, k))).toNat.testBit j = false := by
  rw [left_observeAll, mem_pick_sdiff_joined, and_iff_right (mem_left_initial hmode hk hj), List.forall_mem_map]
  refine forall₂_congr fun e _ => ?_
  rw [mem_shownBy, show (8 * k + j) / 8 = k by omega, show (8 * k + j) % 8 = j by omega, Bool.not_eq_true]

/-- A count is new if no execution had one of its class. -/
theorem new_class_iff {mode : HnbMode} :
    (∃ j < 8, 8 * k + j ∈ pick mode (left env (observeAll env .initial es) .bits) ∧
        8 * k + j ∈ pick mode (shownBy env e)) ↔
      hits env e (mode, k) ≠ 0 ∧ ∀ e' ∈ es,
        countClassLookup8 (hits env e' (mode, k)) ≠ countClassLookup8 (hits env e (mode, k)) := by
  have hdiv : ∀ j < 8, (8 * k + j) / 8 = k ∧ (8 * k + j) % 8 = j := fun j hj => ⟨by omega, by omega⟩
  constructor
  · rintro ⟨j, hj, hleft, hshown⟩
    rw [mem_shownBy, (hdiv j hj).1, (hdiv j hj).2] at hshown
    have hne : hits env e (mode, k) ≠ 0 := fun hzero => by
      rw [hzero] at hshown
      exact Bool.false_ne_true ((Nat.zero_testBit j).symm.trans hshown)
    obtain ⟨hmode, hk⟩ := hits_ne_zero hne
    refine ⟨hne, fun e' he' heq => ?_⟩
    have hunset := (mem_left_observeAll hmode hk hj).mp hleft e' he'
    rw [heq, hshown] at hunset
    cases hunset
  · rintro ⟨hne, hnew⟩
    obtain ⟨hmode, hk⟩ := hits_ne_zero hne
    obtain ⟨j, hj, hbit⟩ := exists_testBit_class hne
    refine ⟨j, hj, (mem_left_observeAll hmode hk hj).mpr fun e' he' => ?_, ?_⟩
    · exact Bool.eq_false_iff.mpr fun hset => hnew e' he' (class_eq_of_testBit hj hset hbit)
    · rwa [mem_shownBy, (hdiv j hj).1, (hdiv j hj).2]

/-- A byte of a virgin map is as at first if no execution hit the location. -/
theorem new_location_iff {mode : HnbMode} (hmode : looked env mode = true) (hk : k < 8 * env.words) :
    (∀ j < 8, 8 * k + j ∈ pick mode (left env (observeAll env .initial es) .bits)) ↔
      ∀ e ∈ es, hits env e (mode, k) = 0 := by
  constructor
  · intro hleft e he
    refine countClassLookup8_eq_zero.mp (eq_zero_of_testBit fun j hj => ?_)
    exact (mem_left_observeAll hmode hk hj).mp (hleft j hj) e he
  · intro hzero j hj
    refine (mem_left_observeAll hmode hk hj).mpr fun e he => ?_
    rw [hzero e he]
    exact Nat.zero_testBit j

theorem byte_eq_ff_iff_mem (hk : k < 8 * words) : virgin k = 0xff ↔ ∀ j < 8, 8 * k + j ∈ bits words virgin := by
  rw [byte_eq_ff_iff]
  refine forall₂_congr fun j hj => ?_
  rw [mem_bits, and_iff_right (by omega)]

theorem classifyCounts_ne_zero (hk : k < 8 * words) : classifyCounts current words k ≠ 0 ↔ current k ≠ 0 := by
  rw [classifyCounts_eq, if_pos hk, Ne, countClassLookup8_eq_zero]

/-- The answer is 2 if a location is hit all whose bits are left. -/
theorem observe_eq_two : (observe env m e).2 = 2 ↔
    ∃ l : HnbMode × ℕ, hits env e l ≠ 0 ∧ ∀ j < 8, 8 * l.2 + j ∈ pick l.1 (left env m .bits) := by
  rw [observe, hasNewBits_eq_two]
  constructor
  · rintro (⟨k, hk, hne, hff⟩ | ⟨hpm, k, hk, hne, hff⟩)
    · refine ⟨(.exec, k), ?_, (byte_eq_ff_iff_mem hk).mp hff⟩
      rw [hits, if_pos ⟨rfl, hk⟩]
      exact (classifyCounts_ne_zero hk).mp hne
    · refine ⟨(.pm, k), ?_, ?_⟩
      · rw [hits, if_pos ⟨hpm, hk⟩]
        rw [record, if_pos hpm] at hne
        exact (classifyCounts_ne_zero hk).mp hne
      · rw [pick, left, if_pos hpm]
        exact (byte_eq_ff_iff_mem hk).mp hff
  · rintro ⟨⟨mode, k⟩, hne, hleft⟩
    obtain ⟨hmode, hk⟩ := hits_ne_zero hne
    rw [hits, if_pos ⟨hmode, hk⟩] at hne
    cases mode with
    | exec => exact .inl ⟨k, hk, (classifyCounts_ne_zero hk).mpr hne, (byte_eq_ff_iff_mem hk).mpr hleft⟩
    | pm =>
      have hpm : env.enablePmPath = true := hmode
      rw [pick, left, if_pos hpm] at hleft
      refine .inr ⟨hpm, k, hk, ?_, (byte_eq_ff_iff_mem hk).mpr hleft⟩
      rw [record, if_pos hpm]
      exact (classifyCounts_ne_zero hk).mpr hne

theorem not_disjoint_pick_byte {s t : Finset ℕ × Finset ℕ} :
    ¬ Disjoint s t ↔ ∃ l : HnbMode × ℕ, ∃ j < 8, 8 * l.2 + j ∈ pick l.1 s ∧ 8 * l.2 + j ∈ pick l.1 t := by
  rw [not_disjoint_pick]
  constructor
  · rintro ⟨mode, b, hb⟩
    refine ⟨(mode, b / 8), b % 8, Nat.mod_lt b (by decide), ?_⟩
    rwa [Nat.div_add_mod]
  · rintro ⟨l, j, -, hb⟩
    exact ⟨l.1, 8 * l.2 + j, hb⟩

theorem mem_bits_of_lt (hb : b < 64 * words) : b ∈ bits words virgin ↔ bitTest virgin b = true := by
  rw [mem_bits, and_iff_right hb]

/-- Bits behind the words stay as they are. -/
theorem bitTest_observeAll_of_le (hb : 64 * env.words ≤ b) :
    bitTest ((observeAll env m es).virgin .bits) b = bitTest (m.virgin .bits) b ∧
      bitTest (observeAll env m es).virginPmBits b = bitTest m.virginPmBits b := by
  have hbackend : ∀ current virgin, bitTest (hasNewBitsBackend current virgin env.words).1 b = bitTest virgin b :=
    fun current virgin => by
      rw [bitTest_hasNewBits, decide_eq_false (by omega), Bool.false_and, Bool.not_false, Bool.and_true]
  induction es generalizing m with
  | nil => exact ⟨rfl, rfl⟩
  | cons e es ih =>
    obtain ⟨hexec, hpm⟩ := ih (m := (observe env m e).1)
    refine ⟨hexec.trans ?_, hpm.trans ?_⟩
    · rw [observe, hasNewBits_virgin, Function.update_self, hbackend]
      rfl
    · rw [observe, hasNewBits_virginPm]
      split
      · exact hbackend _ _
      · rfl

theorem map_eq_of_bits {map map' : Mem} (hin : bits words map = bits words map')
    (hout : ∀ b, 64 * words ≤ b → bitTest map b = bitTest map' b) : map = map' := by
  funext k
  refine PushBack.byte_eq_of_bits fun j _ => ?_
  by_cases hb : k * 8 + j < 64 * words
  · rw [Bool.eq_iff_iff, ← mem_bits_of_lt hb, hin, mem_bits_of_lt hb]
  · exact hout _ (by omega)

theorem virginPm_observeAll (h : env.enablePmPath = false) :
    (observeAll env m es).virginPmBits = m.virginPmBits := by
  induction es generalizing m with
  | nil => rfl
  | cons e es ih =>
    refine ih.trans ?_
    show (hasNewBits env (record env m e) .bits).1.virginPmBits = m.virginPmBits
    rw [hasNewBits_virginPm, if_neg (Bool.eq_false_iff.mp h)]
    rfl

theorem interesting_sublist (env : Setup) (m : Maps) (es : List Execution) : (interesting env m es).Sublist es := by
  induction es generalizing m with
  | nil => exact .refl _
  | cons e es ih =>
    unfold interesting
    dsimp only
    split
    · exact (ih _).cons_cons e
    · exact (ih _).cons e

/-- What is left after the interesting executions is what is left after all. -/
theorem left_replay (env : Setup) (m : Maps) (es : List Execution) :
    left env (observeAll env m (interesting env m es)) .bits = left env (observeAll env m es) .bits := by
  rw [left_observeAll, left_observeAll, map_interesting, sdiff_joined_kept]

/-- The interesting executions alone leave the virgin maps as all do. -/
theorem replay_interesting (env : Setup) (m : Maps) (es : List Execution) :
    (observeAll env m (interesting env m es)).virgin .bits = (observeAll env m es).virgin .bits ∧
      (observeAll env m (interesting env m es)).virginPmBits = (observeAll env m es).virginPmBits ∧
      (interesting env m es).Sublist es := by
  have hleft := Prod.ext_iff.mp (left_replay env m es)
  refine ⟨map_eq_of_bits hleft.1 fun b hb => ?_, ?_, interesting_sublist env m es⟩
  · rw [(bitTest_observeAll_of_le hb).1, (bitTest_observeAll_of_le hb).1]
  · cases hpm : env.enablePmPath with
    | false => rw [virginPm_observeAll hpm, virginPm_observeAll hpm]
    | true =>
      have hbits := hleft.2
      rw [left, left, if_pos hpm, if_pos hpm] at hbits
      refine map_eq_of_bits hbits fun b hb => ?_
      rw [(bitTest_observeAll_of_le hb).2, (bitTest_observeAll_of_le hb).2]

/-- How many bits a pair of sets holds. -/
def size (s : Finset ℕ × Finset ℕ) : ℕ := s.1.card + s.2.card

theorem size_strictMono : StrictMono size := by
  intro s t hlt
  obtain ⟨hle, hne⟩ := lt_iff_le_and_ne.mp hlt
  have h1 := Finset.card_le_card hle.1
  have h2 := Finset.card_le_card hle.2
  by_contra hnot
  refine hne (Prod.ext (Finset.eq_of_subset_of_card_le hle.1 ?_) (Finset.eq_of_subset_of_card_le hle.2 ?_)) <;>
    unfold size at hnot <;> omega

/-- Each interesting execution takes at least one bit. -/
theorem length_interesting_le (env : Setup) (m : Maps) (es : List Execution) :
    (interesting env m es).length + size (left env (observeAll env m es) .bits) ≤ size (left env m .bits) := by
  rw [← List.length_map (shownBy env), map_interesting, left_observeAll]
  exact length_kept_le size_strictMono _ _

end PMFuzz.Afl
