import PMFuzz.Framework.Run
import PMFuzz.Stage2.Jobs
import Mathlib.Algebra.Field.Rat
import Mathlib.Data.Finset.Card

/-!
# A stage-2 iteration

`resume`, and what `run_stage2` does with an iteration that it finds
completed, as a system of small steps: the stage looks at one timer at each
`tick`, and between two of them time passes (`wait`) and the AFL instances
fill their queues (`queue`). `listdir` may return another order each time. An
instance runs until it is killed.

The stage's place in the code is `Phase`. `known` is no variable of the code:
it collects the jobs that make up `run_count`.
-/

namespace PMFuzz.Stage2

open Names Dedup Run

/-- The two kinds of jobs. -/
inductive Kind
  | tc
  | cs
  deriving DecidableEq

/-- The other kind. -/
def Kind.other : Kind → Kind
  | .tc => .cs
  | .cs => .tc

/-- `cores_tc` and `cores_cs`. -/
def Config.slots (cfg : Config) (k : Kind) : ℕ :=
  let half := cfg.cores / 2
  if cfg.finjEnabled then if half = 0 then 1 else half
  else match k with
    | .tc => cfg.cores
    | .cs => 0

/-- The names of the jobs of a kind that `resume` walks. -/
def jobsOf (os : Os Place) (cfg : Config) (loc : Dir) : Kind → Except Stop (List Str)
  | .tc => do return (← localDedupListSt2 os cfg loc).map fun entry => testcaseName entry.1
  | .cs => do return (← localDedupListCsSt2 os cfg loc).map csName

/-- Where the stage is. -/
inductive Phase
  /-- Between two calls of `run_stage2`. -/
  | idle
  /-- In `get_run_count`, with these jobs left and `run_count` so far. -/
  | count (k : Kind) (todo : List Str) (runCount : ℕ) (known : Finset Str)
  /-- In the loop of `resume` over the jobs of a kind. -/
  | visit (k : Kind) (todo : List Str) (runCount : ℕ) (known : Finset Str)
  /-- In the loop of `kill_all`. -/
  | killing (todo : List Str)
  /-- `terminate` has returned; `run_dedup` and `clear` are left. -/
  | terminated
  /-- `clear` has removed the directory. -/
  | cleared
  deriving DecidableEq

structure Schedule where
  /-- `@dedup_sync`. -/
  loc : Dir
  timers : Timers
  /-- `time.time()`. -/
  now : {q : ℚ // 0 < q}
  /-- The jobs of each kind whose AFL instance runs. These have a pid file,
  which `_terminate_testcase` and `_terminate_cs` look for. -/
  live : Kind → Finset Str
  /-- The jobs with cases in their queue that are not collected. -/
  queued : Finset Str
  phase : Phase

/-- A new iteration. -/
def init (loc : Dir) (now : {q : ℚ // 0 < q}) : Schedule :=
  { loc := loc, timers := fun _ => .fresh, now := now, live := fun _ => ∅, queued := ∅, phase := .idle }

namespace Schedule

variable (s : Schedule)

/-- The number of AFL instances. -/
def instances : ℕ := (s.live .tc).card + (s.live .cs).card

/-- There is a pid file for the job. -/
def Running (job : Str) : Prop := job ∈ s.live .tc ∨ job ∈ s.live .cs

instance (job : Str) : Decidable (s.Running job) := inferInstanceAs (Decidable (_ ∨ _))

/-- `_terminate_testcase` and `_terminate_cs`: the instance is killed and its
queue collected. -/
def terminate (job : Str) : Schedule :=
  if s.Running job then
    { s with live := fun k => (s.live k).erase job, queued := s.queued.erase job }
  else s

/-- `start_new`, then `_run_testcase` or `_run_cs`. -/
def start (cfg : Config) (k : Kind) (job : Str) : Schedule :=
  { s with
    timers := Function.update s.timers job (.startNew cfg.tcTimeout s.now)
    live := Function.update s.live k (insert job (s.live k))
    queued := insert job s.queued }

/-- One step of the stage. -/
def tick (cfg : Config) (os : Os Place) : Option Schedule :=
  match s.phase with
  | .idle => none
  | .count k (job :: todo) runCount known =>
    if !(s.timers job).isNew && !(s.timers job).expired s.now then
      -- the pid file is opened
      if s.Running job then some { s with phase := .count k todo (runCount + 1) (insert job known) }
      else none
    else some { s with phase := .count k todo runCount known }
  | .count k [] runCount known =>
    (jobsOf os cfg s.loc k).toOption.map fun jobs => { s with phase := .visit k jobs runCount known }
  | .visit k (job :: todo) runCount known =>
    if !(s.timers job).isNew then
      if (s.timers job).expired s.now then
        some { s.terminate job with phase := .visit k todo runCount known }
      else some { s with phase := .visit k todo runCount known }
    else if runCount < cfg.slots k then
      some { s.start cfg k job with phase := .visit k todo (runCount + 1) (insert job known) }
    else some { s with phase := .visit k todo runCount known }
  | .visit .tc [] _ _ =>
    if cfg.finjEnabled then
      (jobsOf os cfg s.loc .cs).toOption.map fun jobs => { s with phase := .count .cs jobs 0 ∅ }
    else some { s with phase := .idle }
  | .visit .cs [] _ _ => some { s with phase := .idle }
  | .killing (job :: todo) =>
    if !(s.timers job).isNew && (s.timers job).expired s.now then
      some { s.terminate job with phase := .killing todo }
    else some { s with phase := .killing todo }
  -- `collect_results` goes through the queues of all jobs
  | .killing [] => some { s with queued := ∅, phase := .terminated }
  | .terminated => some { s with phase := .cleared }
  | .cleared => none

end Schedule

/-- What can happen next. -/
inductive Action
  /-- `resume` is called, and `update_local` leaves `loc`. -/
  | resume (os : Os Place) (loc : Dir)
  /-- `run_stage2` finds the iteration completed and calls `terminate`. -/
  | finish (os : Os Place)
  | tick (os : Os Place)
  | wait (dt : ℚ≥0)
  | queue (job : Str)

/-- One step of the stage and its instances. `update_local` removes nothing,
and `resume` makes both lists before the first loop. -/
def step (cfg : Config) (s : Schedule) : Action → Option Schedule
  | .resume os loc =>
    if s.phase = .idle ∧ s.loc.keys ⊆ loc.keys then
      match jobsOf os cfg loc .tc, jobsOf os cfg loc .cs with
      | .ok tcs, .ok _ => some { s with loc := loc, phase := .count .tc tcs 0 ∅ }
      | _, _ => none
    else none
  | .finish os =>
    if s.phase = .idle ∧ completed os s.loc s.timers s.now then
      some { s with
        phase := .killing ((localDedupList os s.loc).map fun entry => testcaseName entry.1) }
    else none
  | .tick os => s.tick cfg os
  | .wait dt => some { s with now := ⟨s.now + dt, add_pos_of_pos_of_nonneg s.now.2 dt.2⟩ }
  | .queue job => if s.Running job then some { s with queued := insert job s.queued } else none

/-- `s` is reached by the actions `as` from the start of an iteration. -/
def Reaches (cfg : Config) (as : List Action) (s : Schedule) : Prop :=
  ∃ loc now, exec (step cfg) (init loc now) as = some s

/-! ## What a tick does -/

/-- The cases of `Schedule.tick`. -/
inductive Ticks (cfg : Config) (s : Schedule) : Schedule → Prop
  | counted {k job todo runCount known} (hp : s.phase = .count k (job :: todo) runCount known) :
    Ticks cfg s { s with phase := .count k todo (runCount + 1) (insert job known) }
  | notCounted {k job todo runCount known} (hp : s.phase = .count k (job :: todo) runCount known)
    (h : (s.timers job).isNew = true ∨ (s.timers job).expired s.now = true) :
    Ticks cfg s { s with phase := .count k todo runCount known }
  | countEnds {k jobs runCount known} (os : Os Place) (hp : s.phase = .count k [] runCount known)
    (hjobs : jobsOf os cfg s.loc k = .ok jobs) :
    Ticks cfg s { s with phase := .visit k jobs runCount known }
  | passes {k job todo runCount known} (hp : s.phase = .visit k (job :: todo) runCount known)
    (h : (s.timers job).isNew = true ∨ (s.timers job).expired s.now = false) :
    Ticks cfg s { s with phase := .visit k todo runCount known }
  | kills {k job todo runCount known} (hp : s.phase = .visit k (job :: todo) runCount known) :
    Ticks cfg s { s.terminate job with phase := .visit k todo runCount known }
  | starts {k job todo runCount known} (hp : s.phase = .visit k (job :: todo) runCount known)
    (hnew : (s.timers job).isNew = true) (hroom : runCount < cfg.slots k) :
    Ticks cfg s { s.start cfg k job with phase := .visit k todo (runCount + 1) (insert job known) }
  | crashSites {runCount known jobs} (os : Os Place) (hp : s.phase = .visit .tc [] runCount known)
    (hjobs : jobsOf os cfg s.loc .cs = .ok jobs) :
    Ticks cfg s { s with phase := .count .cs jobs 0 ∅ }
  | returns {k runCount known} (hp : s.phase = .visit k [] runCount known) :
    Ticks cfg s { s with phase := .idle }
  | killAllKills {job todo} (hp : s.phase = .killing (job :: todo)) :
    Ticks cfg s { s.terminate job with phase := .killing todo }
  | killAllPasses {job todo} (hp : s.phase = .killing (job :: todo))
    (h : (s.timers job).isNew = true ∨ (s.timers job).expired s.now = false) :
    Ticks cfg s { s with phase := .killing todo }
  | collects (hp : s.phase = .killing []) : Ticks cfg s { s with queued := ∅, phase := .terminated }
  | clears (hp : s.phase = .terminated) : Ticks cfg s { s with phase := .cleared }

theorem ticks_of_tick {cfg : Config} {os : Os Place} {s t : Schedule} (h : s.tick cfg os = some t) :
    Ticks cfg s t := by
  unfold Schedule.tick at h
  split at h
  · cases h
  · rename_i k job todo rc known hp
    split at h
    · split at h
      · cases h; exact .counted hp
      · cases h
    · rename_i hc
      cases h
      refine .notCounted hp ?_
      cases hn : (s.timers job).isNew <;> cases he : (s.timers job).expired s.now <;> simp_all
  · rename_i k rc known hp
    obtain ⟨jobs, hjobs, rfl⟩ := Fold.toOption_map_eq_some.mp h
    exact .countEnds os hp hjobs
  · rename_i k job todo rc known hp
    split at h
    · split at h
      · cases h; exact .kills hp
      · rename_i hexp
        cases h
        exact .passes hp (.inr (by simpa using hexp))
    · rename_i hnew
      have hnew' : (s.timers job).isNew = true := by simpa using hnew
      split at h
      · rename_i hroom
        cases h; exact .starts hp hnew' hroom
      · cases h; exact .passes hp (.inl hnew')
  · rename_i rc known hp
    split at h
    · obtain ⟨jobs, hjobs, rfl⟩ := Fold.toOption_map_eq_some.mp h
      exact .crashSites os hp hjobs
    · cases h; exact .returns hp
  · rename_i rc known hp
    cases h; exact .returns hp
  · rename_i job todo hp
    split at h
    · cases h; exact .killAllKills hp
    · rename_i hc
      cases h
      refine .killAllPasses hp ?_
      cases hn : (s.timers job).isNew <;> cases he : (s.timers job).expired s.now <;> simp_all
  · rename_i hp
    cases h; exact .collects hp
  · rename_i hp
    cases h; exact .clears hp
  · cases h

theorem resume_eq_some {cfg : Config} {s t : Schedule} {os : Os Place} {loc : Dir}
    (h : step cfg s (.resume os loc) = some t) :
    (s.phase = .idle ∧ s.loc.keys ⊆ loc.keys) ∧ ∃ tcs css, jobsOf os cfg loc .tc = .ok tcs ∧
      jobsOf os cfg loc .cs = .ok css ∧ t = { s with loc := loc, phase := .count .tc tcs 0 ∅ } := by
  obtain ⟨hc, h⟩ := Option.ite_none_right_eq_some.mp h
  refine ⟨hc, ?_⟩
  split at h
  · rename_i tcs css htcs hcss
    cases h
    exact ⟨tcs, css, htcs, hcss, rfl⟩
  · cases h

end PMFuzz.Stage2
