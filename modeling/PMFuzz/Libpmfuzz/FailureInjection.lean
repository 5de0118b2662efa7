import PMFuzz.Libpmfuzz.Map
import PMFuzz.Libpmfuzz.FailureList
import Mathlib.Algebra.Group.Nat.Defs

/-!
# Failure injection

`pmfuzz_init`, `pmfuzz_inject_failure` and `pmfuzz_term` of `libpmfuzz.c`.
With `FI_MODE=IMG_GEN` a failure point dumps the PM image if the PM map has
changed since the last dump and the point is selected (`saveImg`), and the
ids of these points go to the file that `FAILURE_LIST` names, also where the image
cannot be written. With `FI_MODE=IMG_REP` that file selects the points.

The debug output is left out, and names are taken to fit the C buffers.
Text written to the file is there at once.
-/

namespace PMFuzz.Libpmfuzz

/-- What the library reads from the environment. -/
structure Env extends MapEnv where
  /-- `FI_MODE`. -/
  fiMode : Option String
  /-- `FAILURE_LIST` is set. -/
  failureList : Bool
  /-- The file it names can be opened for writing. -/
  writable : Bool
  /-- `FI_IMG_SUFFIX`. -/
  fiImgSuffix : Option (List Char)
  /-- `GEN_ALL_CS` is set. -/
  genAllCs : Bool
  /-- `IMG_CREAT_FINJ` is set. -/
  imgCreatFinj : Bool
  /-- The image of a failure id can be written: `fopen` of it, or `cp` to it, succeeds. -/
  saves : UInt32 → Bool

/-- `FIMode_t`. -/
inductive FiMode
  | none
  | imgGen
  | imgRep
  deriving DecidableEq

/-- `failure_list_file`. -/
inductive Handle
  | null
  | opened
  | closed
  deriving DecidableEq

/-- An image dumped: its failure id and its file name. -/
structure Dump where
  id : UInt32
  name : List Char
  deriving DecidableEq

/-- The library's variables, the file that `FAILURE_LIST` names, and the
images written so far. -/
structure Lib where
  map : PmMap
  /-- `__last_pmfuzz_area_ptr`. -/
  last : Mem
  initComplete : Bool
  failureId : UInt32
  /-- `failure_list`. -/
  table : Mem
  handle : Handle
  listFile : Option (List Char)
  /-- `TC_NAME`. -/
  tcName : List Char
  dumps : List Dump

/-- `MAX_FAILURE_COUNT`. -/
def maxFailureCount : ℕ := 10000

/-- `MAX_CRASH_DUMP_ID`. -/
def maxCrashDumpId : ℕ := 10000

/-- `get_fi_mode`. -/
def getFiMode (env : Env) : Except Fault FiMode :=
  match env.fiMode with
  | .none => .ok .none
  | some s =>
    if s = "" then .ok .none
    else if s = "IMG_GEN" then .ok .imgGen
    else if s = "IMG_REP" then if env.failureList then .ok .imgRep else .error .exit
    else .error .exit

/-- `%d` of a `uint32_t`. -/
def asInt (id : UInt32) : ℤ := id.toInt32.toInt

/-- Below 2^31 an id is printed as it is. -/
theorem asInt_eq {id : UInt32} (h : id.toNat < 2 ^ 31) : asInt id = id.toNat := by
  show id.toBitVec.toInt = _
  rw [BitVec.toInt_eq_toNat_of_lt]
  · rfl
  · show 2 * id.toNat < 2 ^ 32
    omega

/-- `%06d`. -/
def format06d (n : ℤ) : List Char :=
  let ds := Nat.toDigits 10 n.natAbs
  if n < 0 then '-' :: (List.replicate (5 - ds.length) '0' ++ ds)
  else List.replicate (6 - ds.length) '0' ++ ds

/-- `strstr`, as an index. -/
def strstr (pat : List Char) : List Char → Option ℕ
  | [] => if pat = [] then some 0 else none
  | c :: cs => if pat.isPrefixOf (c :: cs) then some 0 else (strstr pat cs).map (· + 1)

/-- `tc_name` up to `".pm_pool"` and `".crash_site"`. -/
def stripTcName (tcName : List Char) : List Char :=
  let rmstart1 := (strstr ".pm_pool".toList tcName).getD tcName.length
  let rmstart2 := (strstr ".crash_site".toList tcName).getD tcName.length
  tcName.take (min rmstart1 rmstart2)

/-- The name of a failure image. -/
def imageName (env : Env) (tcName : List Char) (id : UInt32) : List Char :=
  stripTcName tcName ++ '.' :: (env.fiImgSuffix.getD []) ++ ".id=".toList ++ format06d (asInt id) ++
    ".crash_site".toList

/-- `save_img`, with what `rand()` returned. -/
def saveImg (env : Env) (id : UInt32) (rand : ℕ) : Bool :=
  let prob := rand % maxCrashDumpId
  let divideFactor := if id = 0 then 1 else id.toNat
  let saveImg := decide (prob < 10000 / divideFactor)
  let saveImg := if id = 0 then false else saveImg
  let saveImg :=
    if env.genAllCs then decide (id.toNat < 100) && decide (id.toNat % 5 = 0) else saveImg
  if env.imgCreatFinj then true else saveImg

/-- `memcmp(a, b, n)` finds a difference. -/
def memDiff (a b : Mem) (n : ℕ) : Bool := (List.range n).any fun k => a k != b k

/-- `memcpy(dst, src, n)`. -/
def memCopy (dst src : Mem) (n : ℕ) : Mem := fun k => if k < n then src k else dst k

/-- The end of `pmfuzz_inject_failure` with `inject_failure` set. -/
def dumpImage (env : Env) (lib : Lib) (mode : FiMode) : Except Fault Lib :=
  let lib := if env.saves lib.failureId then
      { lib with dumps := lib.dumps ++ [⟨lib.failureId, imageName env lib.tcName lib.failureId⟩] }
    else lib
  -- whether there is an image or not
  if mode = .imgGen ∧ lib.handle ≠ .null then
    if lib.handle = .opened then
      .ok { lib with listFile := lib.listFile.map (· ++ line (asInt lib.failureId)) }
    else .error .access
  else .ok lib

/-- `pmfuzz_inject_failure`, with what `rand()` returns if it is called. -/
def pmfuzzInjectFailure (env : Env) (lib : Lib) (rand : ℕ) : Except Fault Lib := do
  let lib := { lib with failureId := lib.failureId + 1 }
  if !lib.initComplete then return lib
  let mode ← getFiMode env
  match mode with
  | .none => return lib
  | .imgRep =>
    if lib.failureId.toNat < maxFailureCount then
      if lib.table lib.failureId.toNat ≠ 0 then dumpImage env lib mode else return lib
    else .error .access
  | .imgGen =>
    let n := lib.map.mapSize.toNat
    if memDiff lib.map.area lib.last n && saveImg env lib.failureId rand then
      dumpImage env { lib with last := memCopy lib.last lib.map.area n } mode
    else return lib

/-- `failure_list[index++] = failure_id`, from index 0. -/
def storeIds (table : Mem) (ids : List ℤ) : Mem := fun k =>
  match ids[k]? with
  | some id => UInt8.ofInt id
  | none => table k

/-- `pmfuzz_init`. -/
def pmfuzzInit (env : Env) (lib : Lib) (path : List Char) : Except Fault Lib := do
  if lib.initComplete then return lib
  let lib := { lib with tcName := path }
  let mode ← getFiMode env
  if env.failureList then
    match mode with
    | .none => return { lib with initComplete := true }
    | .imgGen =>
      if env.writable then
        return { lib with handle := .opened, listFile := some [], initComplete := true }
      else .error .assertion
    | .imgRep =>
      -- `fopen` returns NULL for a missing file, and the loop reads it before the assertion
      match lib.listFile with
      | .none => .error .access
      | some text =>
        match readIds maxFailureCount text with
        | .none => .error .exit
        | some ids =>
          return { lib with
            handle := .opened, table := storeIds lib.table ids, initComplete := true }
  else return { lib with initComplete := true }

/-- `pmfuzz_term`. -/
def pmfuzzTerm (env : Env) (lib : Lib) : Except Fault Lib :=
  if env.failureList then
    if lib.handle = .opened then .ok { lib with handle := .closed } else .error .access
  else .ok lib

/-- A call the target makes between `pmfuzz_init` and its end. -/
inductive Event
  | hint (h : Hint)
  | failure (rand : ℕ)

/-- One call of the target. -/
def Event.apply (env : Env) (lib : Lib) : Event → Except Fault Lib
  | .hint h => do
    let map ← h.apply env.toMapEnv lib.map
    return { lib with map := map }
  | .failure rand => pmfuzzInjectFailure env lib rand

/-- A sequence of calls. -/
def calls (env : Env) (lib : Lib) (events : List Event) : Except Fault Lib :=
  events.foldlM (Event.apply env) lib

/-- A run of the target on the image `path`. -/
def runTarget (env : Env) (lib : Lib) (path : List Char) (events : List Event) : Except Fault Lib := do
  let lib ← pmfuzzInit env lib path
  calls env lib events

/-- The state a process starts in: `failure_list` is zero and
`__pmfuzz_failure_id` is -1. -/
structure Lib.Fresh (lib : Lib) : Prop where
  initComplete : lib.initComplete = false
  failureId : lib.failureId = -1
  table : ∀ k, lib.table k = 0
  handle : lib.handle = .null
  dumps : lib.dumps = []

end PMFuzz.Libpmfuzz
