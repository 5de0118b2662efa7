import PMFuzz.Framework.Interrupt
import PMFuzz.Names.StageDirs
import Mathlib.Data.Finset.Image

/-!
# The driver

`run_pmfuzz` and the functions it calls, as a program on the result directory
that may be interrupted (`system`). It keeps no state of its own:
`State.sync` reads where it is from the names of the stage directories.

What fuzzing, collecting and deduplication do is left open, but for where:
below the entries of the result directory, and on special entries (`work`).
Timers and answers are chosen. A path is a file's or a directory's, and
`path.isfile` of one that `makedirs` is to make is left out.
-/

namespace PMFuzz.Driver

open Names Interrupt

/-! ## The result directory -/

/-- The names from the result directory to a file. -/
abbrev Path := List Str

inductive FsOp
  | mkdir (p : Path)
  /-- Writes a file that is not there. -/
  | create (p : Path)
  | remove (p : Path)
  deriving DecidableEq

def FsOp.path : FsOp → Path
  | mkdir p | create p | remove p => p

/-- The result directory, and what the process that runs has done to it, the
latest first. -/
structure Outdir where
  files : Finset Path
  done : List FsOp
  deriving DecidableEq

/-- A new file needs a directory to be in. -/
def CanMake (files : Finset Path) (p : Path) : Prop :=
  p ≠ [] ∧ p ∉ files ∧ (p.dropLast = [] ∨ p.dropLast ∈ files)

instance (files : Finset Path) (p : Path) : Decidable (CanMake files p) :=
  inferInstanceAs (Decidable (_ ∧ _))

def FsOp.apply (o : FsOp) (w : Outdir) : Option Outdir :=
  match o with
  | mkdir p | create p => if CanMake w.files p then some ⟨insert p w.files, o :: w.done⟩ else none
  | remove p =>
    if p ∈ w.files ∧ ∀ q ∈ w.files, p <+: q → q = p then some ⟨w.files.erase p, o :: w.done⟩ else none

def entries (files : Finset Path) : Finset Str :=
  (files.filter fun p => p.length = 1).image List.headI

/-- The order in which names are listed. -/
structure Listing where
  listdir : Finset Str → List Str
  mem_listdir : ∀ {s n}, n ∈ listdir s ↔ n ∈ s

/-- The alphabetical order. -/
def Listing.sorted : Listing where
  listdir s := Quotient.liftOn s.val (List.insertionSort (· ≤ ·)) Str.insertionSort_eq_of_perm
  mem_listdir {s n} := by
    obtain ⟨⟨l⟩, hl⟩ := s
    exact List.mem_insertionSort (· ≤ ·)

/-! ## `State` -/

structure StateInf where
  stage : ℕ
  iterId : ℕ
  dedupExists : Bool
  deriving DecidableEq

/-- One round of the loop of `sync`. -/
def syncRound (state : StateInf) (dir : Str) : Except Stop StateInf :=
  match dir with
  | [] => .error .indexError
  | '@' :: _ => .ok (if dir = "@dedup".toList then { state with dedupExists := true } else state)
  | _ => do
    let inf ← getStageInf dir
    return if state.stage < inf.1 then { state with stage := inf.1, iterId := inf.2 }
      else if inf.1 = state.stage ∧ state.iterId < inf.2 then { state with iterId := inf.2 }
      else state

/-- `sync`, of a new `State`. -/
def sync (os : Listing) (files : Finset Path) : Except Stop StateInf :=
  (os.listdir (entries files)).foldlM syncRound ⟨0, 0, false⟩

/-! ## Stages -/

/-- What is done to the result directory. -/
abbrev Cmd := Prog FsOp StateInf

/-- `os.mkdir`, with the error caught. -/
def mkdir (p : Path) : Cmd Unit := do
  let _ ← Prog.perform (.mkdir p)
  pure ()

/-- `makedirs`, with the error caught. -/
def makedirs (p : Path) : Cmd Unit := p.inits.tail.forM mkdir

/-- The operation leaves the entries of the result directory, but for special
ones. -/
def FsOp.inside (o : FsOp) : Bool :=
  match o.path with
  | [] => false
  | [n] => n.head? = some '@'
  | _ => true

def work : Cmd Unit := Prog.busy FsOp.inside

/-- `Stage1.__init__`. -/
def stage1Init : Cmd Unit := do
  let dir ← Prog.lift (getOutdirName 1 1)
  makedirs [dir, ".afl-results".toList]
  makedirs [dir, "testcases".toList]
  makedirs [dir, "pm_images".toList]
  makedirs [dir, ".afl-results".toList, "master_fuzzer".toList, "queue".toList]
  makedirs [dir, "maps".toList]

/-- `Dedup.__init__`. -/
def dedupInit (stage iterId : ℕ) : Cmd Unit := do
  let dir ← Prog.lift (getOutdirName stage iterId)
  makedirs ["@dedup".toList]
  makedirs [dir, "@dedup_sync".toList]
  makedirs [dir, "testcases".toList]
  makedirs ["@temp".toList]
  makedirs [dir, "pm_images".toList]

/-- `Stage2.__init__`. -/
def stage2Init (stage iterId : ℕ) : Cmd Unit := do
  let dir ← Prog.lift (getOutdirName stage iterId)
  dedupInit stage iterId
  makedirs [dir, ".afl-results".toList]

def FsOp.removesBelow (dir : Str) : FsOp → Bool
  | remove (d :: _ :: _) => d = dir
  | _ => false

/-- `Stage2.clear`. -/
def clear (stage iterId : ℕ) : Cmd Unit := do
  let dir ← Prog.lift (getOutdirName stage iterId)
  -- `rmtree` removes a directory after what is in it
  Prog.busy (FsOp.removesBelow dir)
  if ← Prog.perform (.remove [dir]) then pure () else Prog.abort

/-! ## `pmfuzz.py` -/

/-- `run_dedup`. -/
def runDedup (stage iterId : ℕ) : Cmd Unit := do
  dedupInit stage iterId
  work

/-- `collect_stage1`. -/
def collectStage1 (disableStage2 : Bool) : Cmd Unit := do
  stage1Init
  runDedup 1 1
  -- `collect`
  work
  dedupInit 1 1
  -- `run` and `update_global`
  work
  (if disableStage2 then work else pure ())

/-- `run_stage1`. -/
def runStage1 : Cmd Unit := do
  stage1Init
  work

/-- `run_stage2`. -/
def runStage2 : Cmd Unit := do
  let state ← Prog.look
  let next := if state.stage = 1 then (2, 1) else (state.stage, state.iterId + 1)
  if state.stage = 1 then
    stage2Init next.1 next.2
    work
  else
    stage2Init state.stage state.iterId
    -- `completed` makes the timers that are not there
    work
    if ← Prog.ask then
      -- `terminate`
      work
      runDedup state.stage state.iterId
      clear state.stage state.iterId
      stage2Init next.1 next.2
      work
    else
      -- `resume`
      work

/-- A file of `@info`, if it is not there. -/
def createInfo (name : Str) : Cmd Unit := do
  let _ ← Prog.perform (.create ["@info".toList, name])
  pure ()

/-- `update_info`. -/
def updateInfo : Cmd Unit := do
  makedirs ["@info".toList]
  createInfo "starttime".toList
  createInfo "cmd".toList
  createInfo "currentstate".toList

/-- `run_pmfuzz`, up to its loop. -/
def runPmfuzz (_disableStage2 : Bool) : Cmd Unit := do
  updateInfo
  let state ← Prog.look
  (if 1 < state.stage ∧ ¬ state.dedupExists then Prog.abort else pure ())
  if state.stage ≠ 1 ∧ state.stage ≠ 0 then
    -- whether to resume
    if ← Prog.ask then pure () else Prog.abort
  else pure ()

/-- One turn of the loop. -/
def turn (disableStage2 : Bool) : Cmd Unit := do
  let state ← Prog.look
  (if state.stage ≠ 0 then collectStage1 disableStage2 else pure ())
  if state.stage = 0 then
    runStage1
    -- the timer
    work
  else if state.stage = 1 ∧ ¬ disableStage2 then
    work
    -- `expired`
    if ← Prog.ask then runStage2 else pure ()
  else if state.stage = 2 ∧ ¬ disableStage2 then runStage2
  else if ¬ disableStage2 then Prog.abort
  else pure ()

/-- `run_pmfuzz` on a result directory, with the argument `disable_stage2`. -/
def system (os : Listing) : System Outdir FsOp StateInf Bool where
  apply := FsOp.apply
  observe w := (sync os w.files).toOption
  restart w := { w with done := [] }
  main := runPmfuzz
  turn := turn

end PMFuzz.Driver
