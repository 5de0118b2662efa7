import PMFuzz.Framework.Run
import Mathlib.Data.List.Basic
import Mathlib.Data.PNat.Defs

/-!
# The job runner

`Parallel` (`helper/parallel.py`) runs one function on many parameter lists,
each call in a process of its own, with at most `cores` of them alive.
`run(params)` polls `alive_cnt` until a core is free and starts the process;
`wait` polls `alive` until every process in `pobjs` is dead.

A job is named by its place in the order of starting. The parent advances
by one `is_alive` check, or one step outside the polling loops, at each
`tick`; a job may end (`finish`) between any two of these. The parent's
place in the code is `Pc`.
-/

namespace PMFuzz.Parallel

open Run

/-- `FAILURE_EXIT` and `FAILURE_CONT`. -/
inductive FailureMode
  | failureExit
  | failureCont
  deriving DecidableEq

/-- How the process of a job ends. -/
inductive JobEnd
  /-- The job function returned. -/
  | returned
  /-- An exception left the job function; `_wrapper` raises it again. -/
  | raised
  /-- Killed by a signal. -/
  | signalled (sig : ℕ+)
  /-- `abort` under PMFuzz's SIGUSR1 handler, which ends in `sys.exit(0)`:
  no `Exception`, so `_wrapper` lets it pass. -/
  | aborted
  deriving DecidableEq

/-- `process.exitcode`, as `multiprocessing` documents it. -/
def JobEnd.exitcode : JobEnd → ℤ
  | .returned => 0
  | .raised => 1
  | .signalled sig => -sig
  | .aborted => 0

/-- The job function failed. -/
def JobEnd.Failed (e : JobEnd) : Prop := e ≠ .returned

instance (e : JobEnd) : Decidable e.Failed := inferInstanceAs (Decidable (e ≠ _))

/-- A job that ended with a nonzero exit code failed. -/
theorem JobEnd.failed_of_exitcode {e : JobEnd} (h : e.exitcode ≠ 0) : e.Failed := by
  rintro rfl
  exact h rfl

/-- The fields of a `Parallel` object that its methods read but never write,
and whether the parent has a SIGUSR1 handler (without one, `abort` only
prints and returns). The constructor aborts on fewer than one core. -/
structure Config where
  cores : ℕ
  failureMode : FailureMode
  handler : Bool
  cores_pos : 1 ≤ cores

/-- Where the parent is. -/
inductive Pc (α : Type)
  /-- Between two calls. -/
  | ready
  /-- In `run(params)`, in the loop of `alive_cnt`: `idx` processes looked
  at, `cnt` of them alive, and the dead ones in `idx_to_delete`. -/
  | counting (params : α) (idx cnt : ℕ) (idxToDelete : List ℕ)
  /-- In `wait()`, in the loop of `alive`: `idx` processes found dead. -/
  | waiting (idx : ℕ)
  /-- `wait()` has returned. -/
  | returned
  /-- The SIGUSR1 handler has ended the parent. -/
  | exited

structure Pool (α : Type) where
  /-- The parameter lists of the calls of `run` still to come. -/
  todo : List α
  pc : Pc α
  /-- `self.pobjs`. -/
  pobjs : List ℕ
  /-- The parameters of the processes started, in the order of starting. -/
  started : List α
  /-- How each process ended, if it has. -/
  ended : ℕ → Option JobEnd
  /-- The parent has called `abort`. -/
  abortCalled : Bool

variable {α : Type}

/-- A new `Parallel` object, and the calls of `run` that will be made on it
before `wait`. -/
def init (calls : List α) : Pool α :=
  { todo := calls, pc := .ready, pobjs := [], started := [], ended := fun _ => none,
    abortCalled := false }

/-- Process `j` has been started and has not ended. -/
def Pool.Alive (s : Pool α) (j : ℕ) : Prop := j < s.started.length ∧ s.ended j = none

instance (s : Pool α) (j : ℕ) : Decidable (s.Alive j) := inferInstanceAs (Decidable (_ ∧ _))

/-- The number of processes alive. -/
def Pool.aliveJobs (s : Pool α) : ℕ := (List.range s.started.length).countP (s.Alive ·)

/-- `for i in sorted(idx_to_delete, reverse=True): del self.pobjs[i]`. -/
def delete (idxToDelete pobjs : List ℕ) : List ℕ :=
  (idxToDelete.mergeSort fun a b => b ≤ a).foldl (fun l i => l.eraseIdx i) pobjs

/-- `alive_cnt` at the process `j` with index `idx`. -/
def Pool.look (s : Pool α) (cfg : Config) (p : α) (idx cnt : ℕ) (del : List ℕ) (j : ℕ) :
    Pool α :=
  match s.ended j with
  | none => { s with pc := .counting p (idx + 1) (cnt + 1) del }
  | some e =>
    if cfg.failureMode = .failureExit ∧ e.exitcode ≠ 0 then
      { s with
        abortCalled := true
        pc := if cfg.handler then .exited else .counting p (idx + 1) cnt (del ++ [idx]) }
    else { s with pc := .counting p (idx + 1) cnt (del ++ [idx]) }

/-- The end of `alive_cnt`: the dead processes are dropped, and `run` polls
again at full capacity, or starts the process. -/
def Pool.afterCount (s : Pool α) (cfg : Config) (p : α) (cnt : ℕ) (del : List ℕ) : Pool α :=
  let pobjs := delete del s.pobjs
  if cnt = cfg.cores then { s with pobjs := pobjs, pc := .counting p 0 0 [] }
  else
    { s with
      todo := s.todo.tail
      pc := .ready
      pobjs := pobjs ++ [s.started.length]
      started := s.started ++ [p] }

/-- One step of the parent. -/
def Pool.tick (s : Pool α) (cfg : Config) : Option (Pool α) :=
  match s.pc with
  | .ready =>
    match s.todo with
    | p :: _ => some { s with pc := .counting p 0 0 [] }
    | [] => some { s with pc := .waiting 0 }
  | .counting p idx cnt del =>
    match s.pobjs[idx]? with
    | some j => some (s.look cfg p idx cnt del j)
    | none => some (s.afterCount cfg p cnt del)
  | .waiting idx =>
    match s.pobjs[idx]? with
    | some j =>
      match s.ended j with
      | none => some { s with pc := .waiting 0 }
      | some _ => some { s with pc := .waiting (idx + 1) }
    | none => some { s with pc := .returned }
  | .returned => none
  | .exited => none

/-- What can happen next: a step of the parent, or a process that ends. -/
inductive Action
  | tick
  | finish (j : ℕ) (e : JobEnd)

/-- One step of the parent and its processes. -/
def step (cfg : Config) (s : Pool α) : Action → Option (Pool α)
  | .tick => s.tick cfg
  | .finish j e =>
    if s.Alive j then some { s with ended := Function.update s.ended j (some e) } else none

/-- `s` is reached by the actions `as` from the start of the calls. -/
def Reaches (cfg : Config) (calls : List α) (as : List Action) (s : Pool α) : Prop :=
  exec (step cfg) (init calls) as = some s

end PMFuzz.Parallel
