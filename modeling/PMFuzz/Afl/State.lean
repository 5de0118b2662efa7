import PMFuzz.Afl.Counts
import PMFuzz.Afl.Files

/-!
# The fuzzer

`afl_state_t` as far as its queue goes, and a run of the target. What the
target does is a parameter: it may do something else each time it runs,
so it is told how often it has run. A function that ends the fuzzer throws
(`Abort`).

The files under `out_dir` are what is at each path.
-/

namespace PMFuzz.Afl

open Libpmfuzz (Mem)

/-- What `run_target` and `calibrate_case` return. -/
inductive Fault
  | none | tmout | crash | error | noInst | noBits
  deriving DecidableEq

/-- What ends the fuzzer. -/
inductive Abort
  /-- `FATAL("Unable to execute target application")`. -/
  | target
  /-- `PFATAL("Unable to create '%s'")` or `PFATAL("Unable to remove '%s'")`. -/
  | file
  /-- A null pointer is read. -/
  | null
  /-- `FATAL` or `PFATAL` because of the initial inputs. -/
  | input
  deriving DecidableEq

/-- A run of the target. -/
structure Outcome where
  execution : Execution
  fault : Fault
  /-- The signal that killed it. -/
  killSignal : Option ℕ
  /-- Ctrl+C has been pressed by now. -/
  stopSoon : Bool

/-- `pmfuzz_focus`. -/
inductive Focus
  | rw | ro | wo
  deriving DecidableEq

/-- What does not change while the fuzzer runs. -/
structure Env extends Setup where
  dumbMode : Bool
  crashMode : Fault
  fastCal : Bool
  pmfuzzFocus : Focus
  resumingFuzz : Bool
  disableTrim : Bool
  /-- `schedule == MMOPT || schedule == RARE || fixed_seed`. -/
  byLength : Bool
  execTmout : ℕ
  hangTmout : ℕ
  hash32 : Mem → UInt32
  /-- What the target does in a run with an input and a timeout. -/
  target : ℕ → List UInt8 → ℕ → Outcome
  /-- The time after so many runs. -/
  curTimeUs : ℕ → UInt64

/-- `struct queue_entry`. -/
structure QueueEntry where
  /-- Without its directory. -/
  fname : Name
  len : ℕ
  calFailed : ℕ
  trimDone : Bool
  wasFuzzed : Bool
  hasNewCov : Bool
  varBehavior : Bool
  favored : Bool
  fsRedundant : Bool
  bitmapSize : UInt32
  fuzzLevel : UInt32
  execCksum : UInt32
  execUs : UInt64
  handicap : UInt64
  nFuzz : UInt64
  depth : UInt64
  traceMini : Option Mem
  tcRef : UInt32
  newPmAccess : Bool

/-- The part of `afl_state_t` that is modelled. The queue is an array. -/
structure Fuzzer where
  maps : Maps
  totalExecs : ℕ
  stopSoon : Bool
  killSignal : ℕ
  files : Str → Option (List UInt8)
  queue : ℕ → QueueEntry
  queuedPaths : ℕ
  queueCur : Option ℕ
  queueCycle : UInt64
  seekTo : ℕ
  curDepth : UInt64
  topRated : ℕ → Option ℕ
  scoreChanged : Bool
  hadNewPmAccess : Bool
  queuedFavored : UInt32
  pendingFavored : UInt32
  pendingNotFuzzed : UInt32
  queuedWithCov : UInt32
  queuedVariable : UInt32
  totalCrashes : UInt64
  uniqueCrashes : UInt64
  totalTmouts : UInt64
  uniqueTmouts : UInt64
  uniqueHangs : UInt64
  firstTrace : Mem
  varBytes : Mem
  varByteCount : UInt32

/-- `MAP_SIZE`. -/
def Env.mapSize (env : Env) : ℕ := 8 * env.words

/-- An assignment to fields of an entry. -/
def Fuzzer.modify (s : Fuzzer) (q : ℕ) (f : QueueEntry → QueueEntry) : Fuzzer :=
  { s with queue := Function.update s.queue q (f (s.queue q)) }

/-- `run_target`, after `write_to_testcase`. -/
def runTarget (env : Env) (s : Fuzzer) (mem : List UInt8) (timeout : ℕ) : Fuzzer × Fault :=
  let o := env.target s.totalExecs mem timeout
  ({ s with
    maps := record env.toSetup s.maps o.execution
    totalExecs := s.totalExecs + 1
    stopSoon := s.stopSoon || o.stopSoon
    killSignal := o.killSignal.getD s.killSignal }, o.fault)

/-- The trace that run number `k` of the target leaves. -/
def Env.runTrace (env : Env) (mem : List UInt8) (timeout k : ℕ) : Mem :=
  classifyCounts (env.target k mem timeout).execution.trace env.words

/-- `has_new_bits` in a state. -/
def Fuzzer.hasNewBits (env : Env) (s : Fuzzer) (v : Virgin) : Fuzzer × UInt8 :=
  let r := Afl.hasNewBits env.toSetup s.maps v
  ({ s with maps := r.1 }, r.2)

/-- `open` with `O_CREAT | O_EXCL`, and what is written to it. -/
def createExcl (s : Fuzzer) (path : FilePath) (content : List UInt8) : Except Abort Fuzzer :=
  match s.files path.render with
  | some _ => .error .file
  | none => .ok { s with files := Function.update s.files path.render (some content) }

/-- `unlink`. -/
def unlink (s : Fuzzer) (path : FilePath) : Except Abort Fuzzer :=
  match s.files path.render with
  | some _ => .ok { s with files := Function.update s.files path.render none }
  | none => .error .file

/-- The bytes of a map that are written to a file. -/
def mapBytes (env : Env) (map : Mem) : List UInt8 := (List.range env.mapSize).map map

/-! ## Fields -/

variable {env : Env} {s : Fuzzer} {q p : ℕ} {f : QueueEntry → QueueEntry}

theorem Fuzzer.modify_queue_self (s : Fuzzer) (q : ℕ) (f : QueueEntry → QueueEntry) :
    (s.modify q f).queue q = f (s.queue q) := Function.update_self ..

theorem Fuzzer.modify_queue_of_ne (h : p ≠ q) : (s.modify q f).queue p = s.queue p := Function.update_of_ne h ..

/-- What no modification of an entry changes. -/
theorem Fuzzer.modify_congr {α : Type*} (g : QueueEntry → α) (h : g (f (s.queue q)) = g (s.queue q)) (p : ℕ) :
    g ((s.modify q f).queue p) = g (s.queue p) := by
  by_cases hpq : p = q
  · subst hpq
    rwa [Fuzzer.modify_queue_self]
  · rw [Fuzzer.modify_queue_of_ne hpq]

/-! ## Files -/

variable {path : FilePath} {content : List UInt8}

theorem createExcl_of_none (h : s.files path.render = none) :
    createExcl s path content = .ok { s with files := Function.update s.files path.render (some content) } := by
  rw [createExcl, h]

theorem unlink_of_some (h : (s.files path.render).isSome = true) :
    unlink s path = .ok { s with files := Function.update s.files path.render none } := by
  obtain ⟨content, hcontent⟩ := Option.isSome_iff_exists.mp h
  rw [unlink, hcontent]

/-- Another file stays as it is. -/
theorem update_render_of_ne {files : Str → Option (List UInt8)} {path path' : FilePath} {x : Option (List UInt8)}
    (h : path' ≠ path) : Function.update files path.render x path'.render = files path'.render :=
  Function.update_of_ne (fun heq => h (FilePath.render_injective heq)) ..

end PMFuzz.Afl
