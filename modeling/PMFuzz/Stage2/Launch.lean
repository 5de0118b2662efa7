import PMFuzz.Stage2.Schedule

/-!
# Starting the instances of a stage-2 iteration

`resume`, and `run_stage2` up to the end of `kill_all`, write by write: each
`tick` is one step on the files and processes that tell what became of a job,
its timer, its AFL instance and its pid file. The process may stop before
each of them, by an exception, by `abort` or because it is killed (`stop`), and
be started again on the same directory. A step that has no next state is one
where the code raises or aborts, so that only `stop` is left.

Here a timer is a file, which `_sync` empties before it writes it; what
`Schedule` takes as one step, the start of an instance, is `Point.set` to
`Point.running`. The images are left out: nothing is read off them. `history`
is no variable of the code.
-/

namespace PMFuzz.Stage2.Launch

open Names Dedup Run

/-! ## The files -/

/-- A file that is written by `open(…, 'w')` and `write`. -/
inductive File (α : Type)
  | absent
  /-- It is opened, which empties it. -/
  | emptied
  | holds (a : α)
  deriving DecidableEq

/-- `read`: the state of a timer. `eval` raises on an empty file. -/
def readTimer : File PTimer → Option PTimer
  | .absent => some .fresh
  | .emptied => none
  | .holds t => some t

/-- What was done for a job. -/
inductive Event
  /-- `exec_shell` has started its AFL instance. -/
  | launched (job : Str) (pid : ℕ)
  /-- `run_afl` has written its pid file. -/
  | wrotePid (job : Str) (pid : ℕ)
  deriving DecidableEq

def Event.job : Event → Str
  | .launched job _ | .wrotePid job _ => job

/-! ## The code -/

/-- What the stage is called with. -/
structure Setting extends Config where
  dryRun : Bool

/-- A loop over the jobs, each of which begins with a `PTimer(…)`. -/
inductive Task
  /-- In `get_run_count`. -/
  | count (k : Kind)
  /-- In `resume`. -/
  | visit (k : Kind)
  /-- In `show_progress`. -/
  | progress (k : Kind)
  /-- In `completed`. -/
  | completed
  /-- In `kill_all`. -/
  | killAll
  deriving DecidableEq

/-- The loops of `resume`, the first two for the line it prints. -/
def Setting.resumeTasks (setting : Setting) : List Task :=
  [.count .tc, .count .cs, .count .tc, .visit .tc] ++
    (if setting.finjEnabled then [.count .cs, .visit .cs] else []) ++ [.progress .tc, .progress .cs]

/-- The jobs that a loop goes through. -/
def Task.jobs (os : Os Place) (cfg : Config) (loc : Dir) : Task → Except Stop (List Str)
  | .count k | .visit k | .progress k => jobsOf os cfg loc k
  | .completed | .killAll => .ok ((localDedupList os loc).map fun entry => testcaseName entry.1)

/-- A loop with the jobs that are left, and the loops after it. -/
structure Loop where
  task : Task
  todo : List Str
  runCount : ℕ
  rest : List Task
  deriving DecidableEq

/-- The loop after a job that is counted or started. -/
def Loop.counted (l : Loop) : Loop := { l with runCount := l.runCount + 1 }

/-- Where the process is in the round for a job. -/
inductive Point
  /-- In `_sync`, which has emptied the file of the timer and is to write
  `t`; then the process is at `next`. -/
  | sync (t : PTimer) (next : Point)
  /-- The timer is made. -/
  | made (t : PTimer)
  /-- In `start_new`, before `set`. -/
  | set
  /-- In `start_new`, before `start`. -/
  | start
  /-- In `_run_testcase` or `_run_cs`, with no instance yet. -/
  | run
  /-- `exec_shell` has returned. -/
  | launched (pid : ℕ)
  /-- The pid file is emptied. -/
  | pidOpened (pid : ℕ)
  /-- `run_afl` has returned. -/
  | running (pid : ℕ)
  /-- In `_terminate_testcase` or `_terminate_cs`, after `os.kill`. -/
  | killed
  deriving DecidableEq

inductive Phase
  /-- No call is going on. -/
  | idle
  /-- In `resume`, before the end of `update_local`. -/
  | resuming
  | loop (l : Loop)
  /-- In the round for a job; `l` has the jobs after it. -/
  | round (job : Str) (l : Loop) (p : Point)
  deriving DecidableEq

structure Launcher where
  setting : Setting
  /-- `@dedup_sync`. -/
  loc : Dir
  timers : Str → File PTimer
  pidFiles : Str → File ℕ
  /-- The processes there are, for `psutil.pid_exists`. -/
  pids : Finset ℕ
  /-- `time.time()`. -/
  now : {q : ℚ // 0 < q}
  /-- The latest first. -/
  history : List Event
  phase : Phase

/-- A new iteration. -/
def init (setting : Setting) (loc : Dir) (now : {q : ℚ // 0 < q}) : Launcher :=
  { setting := setting, loc := loc, timers := fun _ => .absent, pidFiles := fun _ => .absent,
    pids := ∅, now := now, history := [], phase := .idle }

/-- What a step finds: the order of a listing, and the pid of a new process. -/
structure Env where
  os : Os Place
  pid : ℕ

namespace Launcher

variable (s : Launcher)

/-- The first of these loops begins; `get_run_count` starts at zero. -/
def begin (os : Os Place) (runCount : ℕ) : List Task → Option Launcher
  | [] => some { s with phase := .idle }
  | task :: rest =>
    (task.jobs os s.setting.toConfig s.loc).toOption.map fun jobs =>
      { s with phase := .loop ⟨task, jobs, match task with | .count _ => 0 | _ => runCount, rest⟩ }

/-- `_sync` opens the file of the timer. -/
def sync (job : Str) (l : Loop) (t : PTimer) (next : Point) : Launcher :=
  { s with timers := Function.update s.timers job .emptied, phase := .round job l (.sync t next) }

/-- `_terminate_testcase` and `_terminate_cs`, up to `os.kill`. -/
def terminate (job : Str) (l : Loop) : Option Launcher :=
  match s.pidFiles job with
  | .absent => some { s with phase := .loop l }
  | .emptied => none
  | .holds pid =>
    if pid ∈ s.pids then some { s with pids := s.pids.erase pid, phase := .round job l .killed } else none

/-- What a loop does with the timer that it has made. -/
def body (job : Str) (l : Loop) (t : PTimer) : Option Launcher :=
  match l.task with
  | .count _ =>
    if !t.isNew && !t.expired s.now then
      match s.pidFiles job with
      | .holds pid => if pid ∈ s.pids then some { s with phase := .loop l.counted } else none
      | _ => none
    else some { s with phase := .loop l }
  | .visit k =>
    if !t.isNew then if t.expired s.now then s.terminate job l else some { s with phase := .loop l }
    -- `start_new` begins with `clear`
    else if l.runCount < s.setting.slots k then some (s.sync job l .fresh .set)
    else some { s with phase := .loop l }
  | .progress _ =>
    -- `elapsed_pb` divides by the length
    if !t.isNew && !t.expired s.now && t.length = 0 then none else some { s with phase := .loop l }
  | .completed =>
    if t.isNew || !t.expired s.now then some { s with phase := .resuming } else some { s with phase := .loop l }
  | .killAll =>
    if !t.isNew && t.expired s.now then s.terminate job l else some { s with phase := .loop l }

/-- A step in the round for a job. -/
def roundTick (env : Env) (job : Str) (l : Loop) : Point → Option Launcher
  | .sync t next =>
    some { s with timers := Function.update s.timers job (.holds t), phase := .round job l next }
  | .made t => s.body job l t
  | .set => some (s.sync job l ⟨0, s.setting.tcTimeout⟩ .start)
  | .start => some (s.sync job l (.startNew s.setting.tcTimeout s.now) .run)
  | .run =>
    if s.setting.dryRun then some { s with phase := .loop l.counted }
    else some { s with
      pids := insert env.pid s.pids, history := .launched job env.pid :: s.history
      phase := .round job l (.launched env.pid) }
  | .launched pid => some { s with
      pidFiles := Function.update s.pidFiles job .emptied, phase := .round job l (.pidOpened pid) }
  | .pidOpened pid => some { s with
      pidFiles := Function.update s.pidFiles job (.holds pid), history := .wrotePid job pid :: s.history
      phase := .round job l (.running pid) }
  | .running pid =>
    -- `_run_cs` looks whether AFL has crashed
    if l.task = .visit .cs ∧ pid ∉ s.pids then none else some { s with phase := .loop l.counted }
  | .killed => some { s with pidFiles := Function.update s.pidFiles job .absent, phase := .loop l }

/-- One step of the process. -/
def tick (env : Env) : Option Launcher :=
  match s.phase with
  | .idle => none
  | .resuming => s.begin env.os 0 s.setting.resumeTasks
  | .loop l =>
    match l.todo with
    | [] => s.begin env.os l.runCount l.rest
    | job :: todo => (readTimer (s.timers job)).map fun t => s.sync job { l with todo := todo } t (.made t)
  | .round job l p => s.roundTick env job l p

end Launcher

/-- What can happen next. -/
inductive Action
  /-- `Stage2.run` is called. -/
  | run (setting : Setting)
  /-- `run_stage2` is called for an iteration that there is. -/
  | runStage2 (setting : Setting) (os : Os Place)
  /-- `update_local` adds to `@dedup_sync`. -/
  | update (loc : Dir)
  | tick (env : Env)
  /-- The process stops. -/
  | stop
  | wait (dt : ℚ≥0)
  /-- Processes start and end, the instances among them. -/
  | processes (pids : Finset ℕ)

def step (s : Launcher) : Action → Option Launcher
  | .run setting => if s.phase = .idle then some { s with setting := setting, phase := .resuming } else none
  | .runStage2 setting os =>
    if s.phase = .idle then Launcher.begin { s with setting := setting } os 0 [.completed, .killAll] else none
  | .update loc =>
    if s.phase = .resuming ∧ s.loc.keys ⊆ loc.keys then some { s with loc := loc } else none
  | .tick env => s.tick env
  | .stop => if s.phase = .idle then none else some { s with phase := .idle }
  | .wait dt => some { s with now := ⟨s.now + dt, add_pos_of_pos_of_nonneg s.now.2 dt.2⟩ }
  | .processes pids => some { s with pids := pids }

/-! ## What is done for a job -/

/-- The AFL instance of the job was started and its pid file written. -/
def Launched (h : List Event) (job : Str) : Prop := ∃ pid, .launched job pid ∈ h ∧ .wrotePid job pid ∈ h

/-- The AFL instance of the job was started. -/
def Started (h : List Event) (job : Str) : Prop := ∃ pid, .launched job pid ∈ h

/-- The timer of the job tells what was done: its file can be read, it is no
longer new only if the job was launched, and still new if it was not started. -/
structure Launcher.Agrees (s : Launcher) (job : Str) : Prop where
  readable : ∃ t, readTimer (s.timers job) = some t
  launched : ∀ t, readTimer (s.timers job) = some t → t.isNew = false → Launched s.history job
  fresh : ¬ Started s.history job → ∀ t, readTimer (s.timers job) = some t → t.isNew = true

/-- The process is at work on the files of the job: it has emptied its timer,
or started it and not written the pid file. -/
def Point.unfinished : Point → Bool
  | .sync _ _ | .run | .launched _ | .pidOpened _ => true
  | _ => false

/-- The job that the process is at work on. -/
def Phase.busy : Phase → Option Str
  | .round job _ p => if p.unfinished then some job else none
  | _ => none

/-- A step of a process that is not stopped. -/
def Action.undisturbed : Action → Bool
  | .tick _ | .wait _ | .processes _ => true
  | _ => false

def Action.isTick : Action → Bool
  | .tick _ => true
  | _ => false

/-- The timers and the instances agree, but for the job the process is at
work on, and the loops go by them. -/
structure Sound (s : Launcher) : Prop where
  agrees : ∀ job, s.phase.busy ≠ some job → s.Agrees job
  /-- `get_run_count` does not count a job that was not started. -/
  counts : ∀ {job l k t env u}, s.phase = .round job l (.made t) → l.task = .count k →
    ¬ Started s.history job → step s (.tick env) = some u → u.phase = .loop l
  /-- With one, `completed` is false. -/
  completed : ∀ {job l t env u}, s.phase = .round job l (.made t) → l.task = .completed →
    ¬ Started s.history job → step s (.tick env) = some u → u.phase = .resuming
  /-- `resume` starts it if there is a slot free. -/
  starts : ∀ {k job todo rc rest}, s.phase = .loop ⟨.visit k, job :: todo, rc, rest⟩ →
    ¬ Started s.history job → rc < s.setting.slots k → s.setting.dryRun = false →
    ∃ n, ∀ as, (∀ a ∈ as, a.undisturbed = true) → as.countP Action.isTick = n →
      ∃ t, exec step s as = some t ∧ Launched t.history job

/-- The process is not stopped while it is at work on a job, and a dry run
does not come to start one. -/
def Safe (s : Launcher) : Action → Prop
  | .stop => s.phase.busy = none
  | .tick _ => s.setting.dryRun = true → ∀ job l, s.phase ≠ .round job l .run
  | _ => True

end PMFuzz.Stage2.Launch
