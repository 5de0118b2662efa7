import Mathlib.Logic.Function.Basic
import Mathlib.Data.Int.Notation
import Mathlib.Data.Nat.Notation

/-!
# The PM map

The map that `libpmfuzz.c` keeps of the PM accesses of a target, and the
three hints that update it: `pmfuzz_ro`, `pmfuzz_wo` and `pmfuzz_rw`. In
path mode `update_loc` counts edges between locations; in baseline mode each
location is a shift register (`shiftregarr.h`) that moves up by one bit.

Memory behind `__pmfuzz_area_ptr` is a function of the byte's index.
-/

namespace PMFuzz.Libpmfuzz

/-- What ends the target instead of a return. -/
inductive Fault
  /-- An `assert` fails. -/
  | assertion
  /-- Division by zero. -/
  | division
  /-- An access outside an array, or through a null or closed handle. -/
  | access
  /-- `exit(1)` or `abort()`. -/
  | exit
  deriving DecidableEq

/-- Bytes by index. -/
abbrev Mem := ℕ → UInt8

/-- `%` on `uint32_t`. -/
def umod (a b : UInt32) : Except Fault UInt32 := if b = 0 then .error .division else .ok (a % b)

/-! ## Shift register arrays -/

/-- `BITTEST(arr, b)`. -/
def bitTest (arr : Mem) (b : ℕ) : Bool := arr (b / 8) &&& (1 <<< UInt8.ofNat (b % 8)) != 0

/-- `BITSET(arr, b)`. -/
def bitSet (arr : Mem) (b : ℕ) : Mem :=
  Function.update arr (b / 8) (arr (b / 8) ||| (1 <<< UInt8.ofNat (b % 8)))

/-- `BITCLEAR(arr, b)`. -/
def bitClear (arr : Mem) (b : ℕ) : Mem :=
  Function.update arr (b / 8) (arr (b / 8) &&& ~~~(1 <<< UInt8.ofNat (b % 8)))

/-- `while (it--)`: the index at which the search breaks, coming down from
`it`, or -1. -/
def sraSearch (arr : Mem) (basebit : Bool) : ℕ → ℤ
  | 0 => -1
  | it + 1 => if bitTest arr it != basebit then it else sraSearch arr basebit it

/-- What `sra_push_back` does to one element, `arr` its first byte. -/
def sraPush (arr : Mem) (elemSzBits : ℕ) (basebit : Bool) : Mem :=
  let it := sraSearch arr basebit elemSzBits
  if it ≠ elemSzBits - 1 then
    let it := (it + 1).toNat
    let arr := if basebit then bitClear arr it else bitSet arr it
    if it ≠ 0 then
      if basebit then bitSet arr (it - 1) else bitClear arr (it - 1)
    else arr
  else arr

/-- `sra_push_back(mem, size, elem_sz, loc, basebit)`. -/
def sraPushBack (mem : Mem) (size elemSz loc : ℕ) (basebit : Bool) : Except Fault Mem :=
  if elemSz = 0 then .error .division
  else if loc < size / elemSz then
    let arr := sraPush (fun k => mem (loc * elemSz + k)) (elemSz * 8) basebit
    .ok fun k => if loc * elemSz ≤ k ∧ k < loc * elemSz + elemSz then arr (k - loc * elemSz) else mem k
  else .error .assertion

/-! ## Updates -/

/-- `COUNTER_CAP`. -/
def counterCap : UInt32 := 255

/-- The variables behind the map. -/
structure PmMap where
  area : Mem
  mapSize : UInt32
  prevLoc : UInt32
  sraElemSize : UInt32

/-- The switches `update_loc` reads from the environment: `ENABLE_PM_PATH`
and `UNFOCUSSED_MODE` are set. -/
structure MapEnv where
  enablePmPath : Bool
  unfocussedMode : Bool

/-- `get_next_pow_2`. -/
def getNextPow2 (val : UInt32) : UInt32 :=
  let val := val - 1
  let val := val ||| val >>> 1
  let val := val ||| val >>> 2
  let val := val ||| val >>> 4
  let val := val ||| val >>> 8
  let val := val ||| val >>> 16
  val + 1

/-- `update_loc`. -/
def updateLoc (env : MapEnv) (m : PmMap) (loc : UInt32) : Except Fault PmMap :=
  if env.enablePmPath || env.unfocussedMode then
    let curLoc := loc ^^^ m.prevLoc
    let count := m.area curLoc.toNat
    .ok { m with
      prevLoc := loc >>> 1
      area := if count.toUInt32 < counterCap then Function.update m.area curLoc.toNat (count + 1)
        else m.area }
  else do
    let size := if m.sraElemSize = 0 then getNextPow2 (counterCap / 8) else m.sraElemSize
    let elemId ← umod loc (m.mapSize / size - 97)
    let curLoc := elemId ^^^ m.prevLoc
    let area ← sraPushBack m.area m.mapSize.toNat size.toNat curLoc.toNat false
    return { m with sraElemSize := size, prevLoc := elemId >>> 1, area := area }

/-- `pmfuzz_ro`. -/
def pmfuzzRo (env : MapEnv) (m : PmMap) (rand : UInt32) : Except Fault PmMap := do
  let loc ← umod rand (m.mapSize / 2)
  updateLoc env m loc

/-- `pmfuzz_wo`. -/
def pmfuzzWo (env : MapEnv) (m : PmMap) (rand : UInt32) : Except Fault PmMap := do
  let loc ← umod rand (m.mapSize / 2 - 97)
  updateLoc env m (loc + m.mapSize / 2)

/-- `pmfuzz_rw`. -/
def pmfuzzRw (env : MapEnv) (m : PmMap) (rand : UInt32) : Except Fault PmMap := do
  let loc ← umod rand (m.mapSize / 2 - 97)
  let m ← updateLoc env m loc
  updateLoc env m (loc + m.mapSize / 2)

/-- A PM hint of the annotation pass. -/
inductive Hint
  | ro (rand : UInt32)
  | wo (rand : UInt32)
  | rw (rand : UInt32)

/-- The call a hint is. -/
def Hint.apply (env : MapEnv) (m : PmMap) : Hint → Except Fault PmMap
  | .ro rand => pmfuzzRo env m rand
  | .wo rand => pmfuzzWo env m rand
  | .rw rand => pmfuzzRw env m rand

/-- The element size of baseline mode. -/
example : getNextPow2 (counterCap / 8) = 32 := by decide

end PMFuzz.Libpmfuzz
