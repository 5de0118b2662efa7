import PMFuzz.Framework.Str
import PMFuzz.Framework.Fold
import Mathlib.Algebra.Group.Nat.Defs

/-!
# Labelling basic blocks

The annotation pass, on a basic block: `labelPMBasicBlock` inserts a hint if
the block calls functions with PM annotations.

The loop counts the calls whose callee is one (`scan_ok`), except those through
a `BitCastInst` (`seen`), and fails at a callee that is no function without its
casts (`stuck`). So the label is right (`Labels`) exactly on the blocks and
modules of `Labelable`.
-/

namespace PMFuzz.Annotation

/-! ## LLVM -/

/-- What the pass uses of LLVM: values, functions, instructions and modules. -/
structure Llvm (Value Function Instruction Module : Type) where
  /-- `dyn_cast<Function>`. -/
  function : Value → Option Function
  isLoadInst : Value → Bool
  isStoreInst : Value → Bool
  isBitCastInst : Value → Bool
  stripPointerCasts : Value → Value
  hasFnAttribute : Function → Str → Bool
  isCallInst : Instruction → Bool
  isInvokeInst : Instruction → Bool
  getCalledValue : Instruction → Value
  isPHI : Instruction → Bool
  isEHPad : Instruction → Bool
  /-- The value of a function. -/
  value : Function → Value
  getName : Function → Str
  /-- `CallInst::Create`. -/
  createCall : Function → BitVec 32 → Instruction
  getNamedValue : Module → Str → Option Value
  /-- The global is of the type of the hints. -/
  isHintType : Value → Bool
  /-- `ConstantExpr::getBitCast`, to that type. -/
  getBitCast : Value → Value
  /-- With the type of the hints. -/
  getOrInsertFunction : Module → Str → Module × Value
  /-- How many instructions come before it. -/
  getFirstInsertionPt : List Instruction → ℕ
  function_value (f : Function) : function (value f) = some f
  getName_named {M : Module} {name : Str} {v : Value} {f : Function} :
    getNamedValue M name = some v → function v = some f → getName f = name
  getCalledValue_createCall (f : Function) (val : BitVec 32) : getCalledValue (createCall f val) = value f
  /-- A function has no casts. -/
  strip_function {v : Value} {f : Function} : function v = some f → stripPointerCasts v = v
  function_inst {v : Value} : (isLoadInst v || isStoreInst v || isBitCastInst v) = true → function v = none
  /-- Neither of them is a cast. -/
  strip_inst {v : Value} : (isLoadInst v || isStoreInst v) = true → stripPointerCasts v = v
  isPHI_call {i : Instruction} : (isCallInst i || isInvokeInst i) = true → isPHI i = false
  isEHPad_call {i : Instruction} : (isCallInst i || isInvokeInst i) = true → isEHPad i = false
  /-- A cast to another type. -/
  function_getBitCast {v : Value} : isHintType v = false → function (getBitCast v) = none
  getOrInsertFunction_none {M : Module} {name : Str} : getNamedValue M name = none →
    ∃ f, (getOrInsertFunction M name).2 = value f ∧ getName f = name
  getOrInsertFunction_some {M : Module} {name : Str} {v : Value} : getNamedValue M name = some v →
    (getOrInsertFunction M name).2 = if isHintType v then v else getBitCast v
  /-- Only the instructions that have to come first do. -/
  getFirstInsertionPt_skips (BB : List Instruction) : ∃ first rest, BB = first ++ rest ∧
    first.length = getFirstInsertionPt BB ∧ ∀ i ∈ first, isPHI i = true ∨ isEHPad i = true

/-- A failed `cast`. -/
inductive BadCast
  | function
  | instruction

variable {Value Function Instruction Module : Type} (L : Llvm Value Function Instruction Module)

namespace Llvm

/-- `getCalledFunction`. -/
def getCalledFunction (i : Instruction) : Option Function := L.function (L.getCalledValue i)

/-- `cast<Function>`. -/
def castFunction (v : Value) : Except BadCast Function :=
  match L.function v with
  | some f => .ok f
  | none => .error .function

/-! ## The pass -/

/-- `isPMReadFunc`. -/
def isPMReadFunc (fn : Function) : Bool :=
  L.hasFnAttribute fn "pmfuzz_pm_read_func".toList || L.hasFnAttribute fn "pmfuzz_pm_read_write_func".toList

/-- `isPMWriteFunc`. -/
def isPMWriteFunc (fn : Function) : Bool :=
  L.hasFnAttribute fn "pmfuzz_pm_write_func".toList || L.hasFnAttribute fn "pmfuzz_pm_read_write_func".toList

/-- `insertPMReadWriteHint`, with the next value of `rand`. -/
def insertPMReadWriteHint (M : Module) (BB : List Instruction) (val : BitVec 32) (funcName : Str) :
    Except BadCast (Module × List Instruction) := do
  let (M, callee) := L.getOrInsertFunction M funcName
  let insertFunc ← L.castFunction callee
  let pt := L.getFirstInsertionPt BB
  if pt < BB.length then
    return (M, BB.take pt ++ L.createCall insertFunc val :: BB.drop pt)
  else .error .instruction

/-- The callee that the loop finds in an instruction. -/
def calledFunc (i : Instruction) : Except BadCast (Option Function) :=
  if L.isCallInst i || L.isInvokeInst i then
    match L.getCalledFunction i with
    | some fn => .ok (some fn)
    | none =>
      let calledValue := L.getCalledValue i
      if L.isLoadInst calledValue || L.isStoreInst calledValue then .ok none
      -- its assignment to `CalledFunc` is commented out
      else if L.isBitCastInst calledValue then .ok none
      else (L.castFunction (L.stripPointerCasts calledValue)).map some
  else .ok none

/-- One round of the loop. -/
def scan (cnts : UInt32 × UInt32) (i : Instruction) : Except BadCast (UInt32 × UInt32) := do
  match ← L.calledFunc i with
  | some fn =>
    return (cnts.1 + (if L.isPMReadFunc fn then 1 else 0), cnts.2 + if L.isPMWriteFunc fn then 1 else 0)
  | none => return cnts

/-- The end of `labelPMBasicBlock`. -/
def injectHints (M : Module) (BB : List Instruction) (val : BitVec 32) (hasRead hasWrite : UInt32) :
    Except BadCast (Module × List Instruction) :=
  if hasRead ≠ 0 ∧ hasWrite ≠ 0 then L.insertPMReadWriteHint M BB val "pmfuzz_rw".toList
  else if hasRead ≠ 0 then L.insertPMReadWriteHint M BB val "pmfuzz_ro".toList
  else if hasWrite ≠ 0 then L.insertPMReadWriteHint M BB val "pmfuzz_wo".toList
  else .ok (M, BB)

/-- `labelPMBasicBlock`. -/
def labelPMBasicBlock (M : Module) (BB : List Instruction) (val : BitVec 32) :
    Except BadCast (Module × List Instruction × UInt32) := do
  let (hasRead, hasWrite) ← BB.foldlM L.scan (0, 0)
  let (M, BB) ← L.injectHints M BB val hasRead hasWrite
  return (M, BB, hasRead + hasWrite)

/-! ## What the loop finds -/

/-- The function that a call or an invoke comes to, without casts. -/
def resolved (i : Instruction) : Option Function :=
  if L.isCallInst i || L.isInvokeInst i then L.function (L.stripPointerCasts (L.getCalledValue i)) else none

/-- What the loop sees of it. -/
def seen (i : Instruction) : Option Function :=
  if L.isBitCastInst (L.getCalledValue i) then none else L.resolved i

/-- A call of what is no function, neither loaded nor a `BitCastInst`. -/
def stuck (i : Instruction) : Bool :=
  let v := L.getCalledValue i
  (L.isCallInst i || L.isInvokeInst i) && !(L.isLoadInst v || L.isStoreInst v || L.isBitCastInst v) &&
    (L.resolved i).isNone

/-- The calls that the loop counts. -/
def count (p : Function → Bool) (BB : List Instruction) : ℕ := BB.countP fun i => (L.seen i).any p

/-- The block calls such a function. -/
def touches (p : Function → Bool) (BB : List Instruction) : Bool := BB.any fun i => (L.resolved i).any p

variable {L} {M M' : Module} {BB pre post : List Instruction} {i : Instruction} {p : Function → Bool}
  {cnts : UInt32 × UInt32} {val : BitVec 32} {name : Str}

theorem calledFunc_eq (i : Instruction) :
    L.calledFunc i = if L.stuck i then .error .function else .ok (L.seen i) := by
  unfold calledFunc stuck seen
  by_cases hcall : (L.isCallInst i || L.isInvokeInst i) = true
  · have hres : L.resolved i = L.function (L.stripPointerCasts (L.getCalledValue i)) := if_pos hcall
    rw [if_pos hcall, hcall, hres, getCalledFunction]
    have hinst := L.function_inst (v := L.getCalledValue i)
    have hstrip := L.strip_inst (v := L.getCalledValue i)
    cases hfun : L.function (L.getCalledValue i) with
    | some f =>
      rw [hfun] at hinst
      simp only [reduceCtorEq, imp_false, Bool.not_eq_true, Bool.or_eq_false_iff] at hinst
      simp [L.strip_function hfun, hfun, hinst]
    | none =>
      by_cases hload : (L.isLoadInst (L.getCalledValue i) || L.isStoreInst (L.getCalledValue i)) = true
      · simp [hload, hstrip hload, hfun]
      · cases hcast : L.isBitCastInst (L.getCalledValue i) with
        | true => simp [hload, hcast]
        | false =>
          cases hs : L.function (L.stripPointerCasts (L.getCalledValue i)) <;>
            simp [hload, hcast, castFunction, hs, Except.map]
  · have hres : L.resolved i = none := if_neg hcall
    simp [hcall, hres]

theorem scan_eq (h : L.stuck i = false) : L.scan cnts i =
    .ok (cnts.1 + (if (L.seen i).any L.isPMReadFunc then 1 else 0),
      cnts.2 + if (L.seen i).any L.isPMWriteFunc then 1 else 0) := by
  rw [scan, calledFunc_eq, h]
  cases L.seen i with
  | none =>
    show Except.ok cnts = _
    simp
  | some fn => rfl

/-- The loop stops at a call that is stuck. -/
theorem stuck_of_scan {cnts' : UInt32 × UInt32} (h : BB.foldlM L.scan cnts = .ok cnts') : ∀ i ∈ BB,
    L.stuck i = false := by
  intro i hi
  obtain ⟨u, v, hround⟩ := Fold.foldlM_mem h i hi
  obtain ⟨fn, hfn, -⟩ := Fold.bind_eq_ok.mp hround
  rw [calledFunc_eq] at hfn
  by_contra hstuck
  rw [if_pos (Bool.not_eq_false _ ▸ hstuck)] at hfn
  cases hfn

theorem ofNat_count_cons : UInt32.ofNat (L.count p (i :: BB)) =
    (if (L.seen i).any p then 1 else 0) + UInt32.ofNat (L.count p BB) := by
  rw [count, List.countP_cons, UInt32.ofNat_add, UInt32.add_comm]
  split <;> rfl

/-- Otherwise it counts. -/
theorem scan_ok (h : ∀ i ∈ BB, L.stuck i = false) : BB.foldlM L.scan cnts =
    .ok (cnts.1 + UInt32.ofNat (L.count L.isPMReadFunc BB), cnts.2 + UInt32.ofNat (L.count L.isPMWriteFunc BB)) := by
  induction BB generalizing cnts with
  | nil =>
    show Except.ok cnts = .ok (cnts.1 + 0, cnts.2 + 0)
    simp
  | cons i BB ih =>
    refine Fold.foldlM_cons_eq_ok.mpr ⟨_, scan_eq (h i List.mem_cons_self), ?_⟩
    rw [ih fun j hj => h j (List.mem_cons_of_mem i hj), ofNat_count_cons, ofNat_count_cons, UInt32.add_assoc,
      UInt32.add_assoc]

/-! ## The hint -/

/-- A hint, for what a block does. -/
def hint : Bool → Bool → Option Str
  | true, true => some "pmfuzz_rw".toList
  | true, false => some "pmfuzz_ro".toList
  | false, true => some "pmfuzz_wo".toList
  | false, false => none

theorem hint_inj : ∀ {r w r' w' : Bool}, hint r w = hint r' w' → r = r' ∧ w = w' := by decide

/-- The name of a hint is not taken by what is not one. -/
def HintSymbol (L : Llvm Value Function Instruction Module) (M : Module) (name : Str) : Prop :=
  ∀ v, L.getNamedValue M name = some v → L.isHintType v = true ∧ (L.function v).isSome = true

/-- One call of a function is inserted at the first insertion point, and
nothing else. -/
def Hinted (L : Llvm Value Function Instruction Module) (BB BB' : List Instruction) (val : BitVec 32) (name : Str) :
    Prop :=
  ∃ f pre post, L.getName f = name ∧ BB = pre ++ post ∧ pre.length = L.getFirstInsertionPt BB ∧
    BB' = pre ++ L.createCall f val :: post

theorem castFunction_eq_ok {v : Value} {f : Function} : L.castFunction v = .ok f ↔ L.function v = some f := by
  unfold castFunction
  cases L.function v <;> simp

theorem castFunction_getOrInsertFunction :
    (∃ f, L.castFunction (L.getOrInsertFunction M name).2 = .ok f) ↔ L.HintSymbol M name := by
  unfold HintSymbol
  simp only [castFunction_eq_ok]
  cases hv : L.getNamedValue M name with
  | none =>
    obtain ⟨f, hf, -⟩ := L.getOrInsertFunction_none hv
    rw [hf]
    exact iff_of_true ⟨f, L.function_value f⟩ nofun
  | some v =>
    simp only [L.getOrInsertFunction_some hv, Option.some.injEq, forall_eq']
    cases htype : L.isHintType v with
    | true => simp [Option.isSome_iff_exists]
    | false => simp [L.function_getBitCast htype]

theorem getName_getOrInsertFunction {f : Function} (h : L.castFunction (L.getOrInsertFunction M name).2 = .ok f) :
    L.getName f = name := by
  have hfun := castFunction_eq_ok.mp h
  cases hv : L.getNamedValue M name with
  | none =>
    obtain ⟨g, hg, hname⟩ := L.getOrInsertFunction_none hv
    rw [hg] at hfun
    cases (L.function_value g).symm.trans hfun
    exact hname
  | some v =>
    rw [L.getOrInsertFunction_some hv] at hfun
    cases htype : L.isHintType v with
    | true =>
      rw [htype] at hfun
      exact L.getName_named hv hfun
    | false =>
      rw [htype] at hfun
      cases (L.function_getBitCast htype).symm.trans hfun

/-- A block with a call has an insertion point. -/
theorem getFirstInsertionPt_lt (hi : i ∈ BB) (hcall : (L.isCallInst i || L.isInvokeInst i) = true) :
    L.getFirstInsertionPt BB < BB.length := by
  obtain ⟨first, rest, hBB, hlen, hfirst⟩ := L.getFirstInsertionPt_skips BB
  have hrest : i ∈ rest := by
    rw [hBB] at hi
    refine (List.mem_append.mp hi).resolve_left fun hin => ?_
    rcases hfirst i hin with hphi | hpad
    · exact absurd ((L.isPHI_call hcall).symm.trans hphi) Bool.false_ne_true
    · exact absurd ((L.isEHPad_call hcall).symm.trans hpad) Bool.false_ne_true
  have hpos := List.length_pos_of_mem hrest
  have hsum : BB.length = first.length + rest.length := by rw [hBB, List.length_append]
  omega

theorem getFirstInsertionPt_lt_of_touches (h : L.touches p BB = true) : L.getFirstInsertionPt BB < BB.length := by
  obtain ⟨i, hi, hres⟩ := List.any_eq_true.mp h
  refine getFirstInsertionPt_lt hi ?_
  by_contra hcall
  rw [resolved, if_neg hcall] at hres
  cases hres

/-- The insertion succeeds exactly if the name is free or a hint's. -/
theorem insertPMReadWriteHint_iff (val : BitVec 32) (hpt : L.getFirstInsertionPt BB < BB.length) :
    (∃ r, L.insertPMReadWriteHint M BB val name = .ok r) ↔ L.HintSymbol M name := by
  rw [← castFunction_getOrInsertFunction]
  constructor
  · rintro ⟨r, hr⟩
    obtain ⟨f, hf, -⟩ := Fold.bind_eq_ok.mp hr
    exact ⟨f, hf⟩
  · rintro ⟨f, hf⟩
    exact ⟨_, Fold.bind_eq_ok.mpr ⟨f, hf, if_pos hpt⟩⟩

theorem insertPMReadWriteHint_ok {BB' : List Instruction} (h : L.insertPMReadWriteHint M BB val name = .ok (M', BB')) :
    L.Hinted BB BB' val name := by
  obtain ⟨f, hf, h⟩ := Fold.bind_eq_ok.mp h
  dsimp only at h
  split at h
  · rename_i hpt
    cases h
    exact ⟨f, _, _, getName_getOrInsertFunction hf, (List.take_append_drop _ _).symm,
      List.length_take_of_le hpt.le, rfl⟩
  · cases h

/-- A block has one hint at most. -/
theorem Hinted.name_eq {BB' : List Instruction} {name' : Str} (h : L.Hinted BB BB' val name)
    (h' : L.Hinted BB BB' val name') : name = name' := by
  obtain ⟨f, pre, post, rfl, hBB, hlen, rfl⟩ := h
  obtain ⟨f', pre', post', rfl, hBB', hlen', heq⟩ := h'
  have hcall := (List.cons.inj (List.append_inj heq (hlen.trans hlen'.symm)).2).1
  have hval : L.value f = L.value f' := by
    rw [← L.getCalledValue_createCall f val, hcall, L.getCalledValue_createCall]
  have hfun := congrArg L.function hval
  rw [L.function_value, L.function_value] at hfun
  rw [Option.some.inj hfun]

theorem Hinted.ne {BB' : List Instruction} (h : L.Hinted BB BB' val name) : BB' ≠ BB := by
  obtain ⟨f, pre, post, -, rfl, -, rfl⟩ := h
  intro heq
  have hlen := congrArg List.length heq
  simp only [List.length_append, List.length_cons] at hlen
  omega

/-! ## The label -/

/-- The block gets the hint for the functions that it calls, and is otherwise as
it was. -/
def Labels (L : Llvm Value Function Instruction Module) (M : Module) (BB : List Instruction) (val : BitVec 32) : Prop :=
  ∃ M' BB' n, L.labelPMBasicBlock M BB val = .ok (M', BB', n) ∧
    match hint (L.touches L.isPMReadFunc BB) (L.touches L.isPMWriteFunc BB) with
    | some name => L.Hinted BB BB' val name
    | none => BB' = BB

/-- Each callee is a function without its casts, or loaded, or a `BitCastInst`; the
calls of a kind that there are, without those through a `BitCastInst`, are no
multiple of `2 ^ 32`; and the hint's name is no other symbol's. -/
structure Labelable (L : Llvm Value Function Instruction Module) (M : Module) (BB : List Instruction) : Prop where
  stuck : ∀ i ∈ BB, L.stuck i = false
  reads : L.touches L.isPMReadFunc BB = true → ¬ 2 ^ 32 ∣ L.count L.isPMReadFunc BB
  writes : L.touches L.isPMWriteFunc BB = true → ¬ 2 ^ 32 ∣ L.count L.isPMWriteFunc BB
  symbol : ∀ name, hint (L.touches L.isPMReadFunc BB) (L.touches L.isPMWriteFunc BB) = some name → L.HintSymbol M name

/-- The counter is not zero. -/
def counted (L : Llvm Value Function Instruction Module) (p : Function → Bool) (BB : List Instruction) : Bool :=
  decide (UInt32.ofNat (L.count p BB) ≠ 0)

theorem ofNat_eq_zero {n : ℕ} : UInt32.ofNat n = 0 ↔ 2 ^ 32 ∣ n := by
  rw [← UInt32.toNat_inj, UInt32.toNat_ofNat', Nat.dvd_iff_mod_eq_zero]
  rfl

theorem count_eq_zero (h : L.touches p BB = false) : L.count p BB = 0 := by
  refine List.countP_eq_zero.mpr fun i hi hseen => ?_
  have hres : ¬ (L.resolved i).any p = true := List.any_eq_false.mp h i hi
  unfold seen at hseen
  split at hseen
  · cases hseen
  · exact hres hseen

theorem counted_eq_touches :
    L.counted p BB = L.touches p BB ↔ (L.touches p BB = true → ¬ 2 ^ 32 ∣ L.count p BB) := by
  rw [counted, ← ofNat_eq_zero]
  cases htouches : L.touches p BB with
  | true => simp
  | false => simp [count_eq_zero htouches]

/-- After the loop. -/
theorem labelPMBasicBlock_eq (M : Module) (val : BitVec 32) (h : ∀ i ∈ BB, L.stuck i = false) :
    ∃ n, L.labelPMBasicBlock M BB val =
    (match hint (L.counted L.isPMReadFunc BB) (L.counted L.isPMWriteFunc BB) with
      | some name => L.insertPMReadWriteHint M BB val name
      | none => .ok (M, BB)) >>= fun r => .ok (r.1, r.2, n) := by
  obtain ⟨reads, hreads⟩ : ∃ n, UInt32.ofNat (L.count L.isPMReadFunc BB) = n := ⟨_, rfl⟩
  obtain ⟨writes, hwrites⟩ : ∃ n, UInt32.ofNat (L.count L.isPMWriteFunc BB) = n := ⟨_, rfl⟩
  have hscan : BB.foldlM L.scan (0, 0) = .ok (reads, writes) := by
    rw [scan_ok h, hreads, hwrites, UInt32.zero_add, UInt32.zero_add]
  refine ⟨reads + writes, ?_⟩
  have hinject : L.injectHints M BB val reads writes =
      match hint (L.counted L.isPMReadFunc BB) (L.counted L.isPMWriteFunc BB) with
      | some name => L.insertPMReadWriteHint M BB val name
      | none => .ok (M, BB) := by
    rw [injectHints, counted, counted, hreads, hwrites]
    by_cases hr : reads = 0 <;> by_cases hw : writes = 0 <;> simp only [hr, hw, hint, ne_eq, not_true,
    not_false_eq_true,
      decide_true, decide_false, and_true, and_false, and_self, if_true, if_false]
  rw [← hinject, labelPMBasicBlock, hscan]
  rfl

/-- A block with a hint has a place for it. -/
theorem getFirstInsertionPt_lt_of_hint {name : Str}
    (hname : hint (L.touches L.isPMReadFunc BB) (L.touches L.isPMWriteFunc BB) = some name) :
    L.getFirstInsertionPt BB < BB.length := by
  cases hread : L.touches L.isPMReadFunc BB with
  | true => exact getFirstInsertionPt_lt_of_touches hread
  | false =>
    cases hwrite : L.touches L.isPMWriteFunc BB with
    | true => exact getFirstInsertionPt_lt_of_touches hwrite
    | false =>
      rw [hread, hwrite] at hname
      cases hname

/-- The hint that a block got is the only one it can be seen to have. -/
theorem eq_of_hinted {inserted due : Option Str} {r : Module × List Instruction}
    (hres : (match inserted with
      | some name => L.insertPMReadWriteHint M BB val name
      | none => .ok (M, BB)) = .ok r)
    (hlabel : match due with
      | some name => L.Hinted BB r.2 val name
      | none => r.2 = BB) : inserted = due := by
  cases inserted with
  | none =>
    cases hres
    cases due with
    | none => rfl
    | some name => exact absurd rfl hlabel.ne
  | some name =>
    have hinserted := insertPMReadWriteHint_ok hres
    cases due with
    | none => exact absurd hlabel hinserted.ne
    | some name' => rw [hinserted.name_eq hlabel]

/-- The label is right exactly where the loop can tell. -/
theorem labels_iff : L.Labels M BB val ↔ L.Labelable M BB := by
  constructor
  · rintro ⟨M', BB', n, hrun, hlabel⟩
    obtain ⟨cnts, hscan, -⟩ := Fold.bind_eq_ok.mp hrun
    have hstuck := stuck_of_scan hscan
    obtain ⟨n', heq⟩ := labelPMBasicBlock_eq M val hstuck
    rw [heq] at hrun
    obtain ⟨res, hres, hrun⟩ := Fold.bind_eq_ok.mp hrun
    cases hrun
    have hhint := eq_of_hinted hres hlabel
    obtain ⟨hreads, hwrites⟩ := hint_inj hhint
    refine ⟨hstuck, counted_eq_touches.mp hreads, counted_eq_touches.mp hwrites, fun name hname => ?_⟩
    rw [hhint, hname] at hres
    exact (insertPMReadWriteHint_iff val (getFirstInsertionPt_lt_of_hint hname)).mp ⟨res, hres⟩
  · intro h
    obtain ⟨n, heq⟩ := labelPMBasicBlock_eq M val h.stuck
    rw [counted_eq_touches.mpr h.reads, counted_eq_touches.mpr h.writes] at heq
    unfold Labels
    cases hhint : hint (L.touches L.isPMReadFunc BB) (L.touches L.isPMWriteFunc BB) with
    | none =>
      rw [hhint] at heq
      exact ⟨M, BB, n, heq, rfl⟩
    | some name =>
      rw [hhint] at heq
      obtain ⟨r, hr⟩ := (insertPMReadWriteHint_iff val (getFirstInsertionPt_lt_of_hint hhint)).mpr (h.symbol name hhint)
      refine ⟨r.1, r.2, n, ?_, insertPMReadWriteHint_ok hr⟩
      rw [heq]
      exact Fold.bind_eq_ok.mpr ⟨r, hr, rfl⟩

end Llvm

/-! ### A call of an argument -/

inductive SmallValue
  | function (name : Str) (attrs : List Str)
  | argument
  | load
  | bitCast (v : SmallValue)

inductive SmallInst
  | call (callee : SmallValue) (arg : BitVec 32)
  | ret

namespace SmallValue

def toFunction : SmallValue → Option (Str × List Str)
  | function name attrs => some (name, attrs)
  | _ => none

def stripPointerCasts : SmallValue → SmallValue
  | bitCast v => v.stripPointerCasts
  | v => v

def isLoad : SmallValue → Bool
  | load => true
  | _ => false

def isBitCast : SmallValue → Bool
  | bitCast _ => true
  | _ => false

end SmallValue

/-- LLVM, with a few kinds of values. -/
def smallLlvm : Llvm SmallValue (Str × List Str) SmallInst (List (Str × List Str)) where
  function := SmallValue.toFunction
  isLoadInst := SmallValue.isLoad
  isStoreInst _ := false
  isBitCastInst := SmallValue.isBitCast
  stripPointerCasts := SmallValue.stripPointerCasts
  hasFnAttribute f attr := f.2.contains attr
  isCallInst
    | .call _ _ => true
    | .ret => false
  isInvokeInst _ := false
  getCalledValue
    | .call callee _ => callee
    | .ret => .argument
  isPHI _ := false
  isEHPad _ := false
  value f := .function f.1 f.2
  getName f := f.1
  createCall f val := .call (.function f.1 f.2) val
  getNamedValue M name := (M.find? (decide <| ·.1 = name)).map fun f => .function f.1 f.2
  isHintType _ := true
  getBitCast v := .bitCast v
  getOrInsertFunction M name :=
    match M.find? (decide <| ·.1 = name) with
    | none => (M ++ [(name, [])], .function name [])
    | some f => (M, .function f.1 f.2)
  getFirstInsertionPt _ := 0
  function_value _ := rfl
  getName_named {M name v f} hv hf := by
    obtain ⟨g, hg, rfl⟩ := Option.map_eq_some_iff.mp hv
    cases hf
    have hname := List.find?_some hg
    exact of_decide_eq_true hname
  getCalledValue_createCall _ _ := rfl
  strip_function {v} _ h := by cases v <;> first | rfl | cases h
  function_inst {v} h := by cases v <;> first | rfl | cases h
  strip_inst {v} h := by cases v <;> first | rfl | cases h
  isPHI_call _ := rfl
  isEHPad_call _ := rfl
  function_getBitCast h := by cases h
  getOrInsertFunction_none {M name} h := by
    rw [Option.map_eq_none_iff.mp h]
    exact ⟨(name, []), rfl, rfl⟩
  getOrInsertFunction_some {M name v} h := by
    obtain ⟨f, hf, rfl⟩ := Option.map_eq_some_iff.mp h
    rw [hf]
    rfl
  getFirstInsertionPt_skips BB := ⟨[], BB, rfl, rfl, nofun⟩

/-- A function that writes. -/
def writer : SmallValue := .function "pmem_persist".toList ["pmfuzz_pm_write_func".toList]

/-- The pass fails on the call of an argument, and does not see a write through
a `BitCastInst`. -/
theorem not_labels_argument : ¬ smallLlvm.Labels [] [.call .argument 0, .ret] 0 ∧
    ¬ smallLlvm.Labels [] [.call (.bitCast writer) 0, .ret] 0 := by
  constructor
  · rintro ⟨M', BB', n, hrun, -⟩
    obtain ⟨cnts, hscan, -⟩ := Fold.bind_eq_ok.mp hrun
    have hstuck := Llvm.stuck_of_scan hscan (.call .argument 0) List.mem_cons_self
    exact absurd hstuck (by decide)
  · rintro ⟨M', BB', n, hrun, hlabel⟩
    cases hrun
    have hhint : smallLlvm.Hinted [.call (.bitCast writer) 0, .ret] [.call (.bitCast writer) 0, .ret] 0
        "pmfuzz_wo".toList := hlabel
    exact hhint.ne rfl

end PMFuzz.Annotation
