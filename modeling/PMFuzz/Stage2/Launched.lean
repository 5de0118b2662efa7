import PMFuzz.Dedup.FileDedup
import PMFuzz.Stage2.Launch

/-!
# What a started timer says

`always_sound_iff`: the timers agree with the instances in every state of a
run exactly if no process is stopped while it is at work on a job, and no dry
run comes to start one. `Inv` says what the timer of each job tells, and what
is done at each point of a round.
-/

namespace PMFuzz.Stage2.Launch

open Names Dedup Run

variable {s t u : Launcher} {job m : Str} {l : Loop} {p next : Point} {tm : PTimer} {f : File PTimer}
  {h : List Event} {pid : ℕ} {env : Env}

/-! ## Timers and the history -/

/-- Nothing was done for the job. -/
structure Untouched (h : List Event) (job : Str) : Prop where
  launched : ¬ Started h job
  wrotePid : ∀ pid, .wrotePid job pid ∉ h

/-- A timer tells what was done. -/
def Tells (h : List Event) (job : Str) (t : PTimer) : Prop :=
  t.isNew = true ∧ Untouched h job ∨ t.isNew = false ∧ Launched h job

/-- The file of a timer tells what was done. -/
def Told (h : List Event) (job : Str) (f : File PTimer) : Prop := ∃ t, readTimer f = some t ∧ Tells h job t

theorem Launched.started (hl : Launched h job) : Started h job := hl.imp fun _ hp => hp.1

theorem Tells.isNew (ht : Tells h job tm) (hno : ¬ Started h job) : tm.isNew = true :=
  ht.elim And.left fun ht => absurd ht.2.started hno

theorem Told.agrees (ht : Told s.history job (s.timers job)) : s.Agrees job := by
  obtain ⟨tm, hread, htells⟩ := ht
  have huniq : ∀ {t}, readTimer (s.timers job) = some t → t = tm := fun hr => Option.some.inj (hr.symm.trans hread)
  refine ⟨⟨tm, hread⟩, fun t hr hold => ?_, fun hno t hr => ?_⟩
  · cases huniq hr
    rcases htells with ⟨hnew, -⟩ | ⟨-, hl⟩
    · rw [hnew] at hold; cases hold
    · exact hl
  · cases huniq hr
    exact htells.isNew hno

/-- What is done for one job is nothing for another. -/
theorem Told.cons {e : Event} (ht : Told h m f) (hne : m ≠ e.job) : Told (e :: h) m f := by
  have hold : ∀ e' : Event, e'.job = m → e' ∈ e :: h → e' ∈ h := by
    intro e' hm hin
    refine (List.mem_cons.mp hin).resolve_left ?_
    rintro rfl
    exact hne hm.symm
  obtain ⟨tm, hread, ⟨hnew, hnone⟩ | ⟨hnew, pid, hl, hw⟩⟩ := ht
  · refine ⟨tm, hread, .inl ⟨hnew, ?_, fun pid hw => hnone.wrotePid pid (hold _ rfl hw)⟩⟩
    rintro ⟨pid, hl⟩
    exact hnone.launched ⟨pid, hold _ rfl hl⟩
  · exact ⟨tm, hread, .inr ⟨hnew, pid, List.mem_cons_of_mem _ hl, List.mem_cons_of_mem _ hw⟩⟩

/-! ## The invariant -/

/-- What was done when the process is at a point, and the file of the timer
holds `t`. -/
def Reached (h : List Event) (job : Str) (t : PTimer) : Point → Prop
  | .sync _ _ => False
  | .made t' => t' = t ∧ Tells h job t
  | .set | .start => t.isNew = true ∧ Untouched h job
  | .run => t.isNew = false ∧ Untouched h job
  | .launched pid | .pidOpened pid =>
    t.isNew = false ∧ .launched job pid ∈ h ∧ ∀ pid, .wrotePid job pid ∉ h
  | .running pid => t.isNew = false ∧ .launched job pid ∈ h ∧ .wrotePid job pid ∈ h
  | .killed => Tells h job t

/-- The same, with what the file says. -/
def AtPoint (h : List Event) (job : Str) (f : File PTimer) : Point → Prop
  | .sync t next => f = .emptied ∧ Reached h job t next
  | p => ∃ t, readTimer f = some t ∧ Reached h job t p

/-- Each timer tells what was done, but for that of the job the process is at
work on. -/
structure Inv (s : Launcher) : Prop where
  told : ∀ job, s.phase.busy ≠ some job → Told s.history job (s.timers job)
  point : ∀ {job l p}, s.phase = .round job l p → AtPoint s.history job (s.timers job) p

theorem inv_init (setting : Setting) (loc : Dir) (now : {q : ℚ // 0 < q}) : Inv (init setting loc now) where
  told _ _ := ⟨.fresh, rfl, .inl ⟨rfl, ⟨fun ⟨_, hp⟩ => List.not_mem_nil hp, fun _ => List.not_mem_nil⟩⟩⟩
  point hp := nomatch hp

/-- At a point where its files are left in order, the timer of the job tells
what was done. -/
theorem AtPoint.told (hp : AtPoint h job f p) (hp' : p.unfinished = false) : Told h job f := by
  cases p with
  | sync t next | run | launched pid | pidOpened pid => cases hp'
  | made t =>
    obtain ⟨tm, hr, rfl, ht⟩ := hp
    exact ⟨_, hr, ht⟩
  | set | start =>
    obtain ⟨tm, hr, ht⟩ := hp
    exact ⟨tm, hr, .inl ht⟩
  | running pid =>
    obtain ⟨tm, hr, hnew, hl, hw⟩ := hp
    exact ⟨tm, hr, .inr ⟨hnew, pid, hl, hw⟩⟩
  | killed => exact hp

/-- At any other, it does not. -/
theorem AtPoint.not_agrees (hp : AtPoint s.history job (s.timers job) p) (hp' : p.unfinished = true) :
    ¬ s.Agrees job := by
  intro ha
  cases p with
  | made t | set | start | running pid | killed => cases hp'
  | sync t next =>
    obtain ⟨tm, hr⟩ := ha.readable
    rw [hp.1] at hr
    cases hr
  | run =>
    obtain ⟨tm, hr, hold, hnone⟩ := hp
    exact hnone.launched (ha.launched tm hr hold).started
  | launched pid | pidOpened pid =>
    obtain ⟨tm, hr, hold, -, hnone⟩ := hp
    obtain ⟨q, -, hw⟩ := ha.launched tm hr hold
    exact hnone q hw

theorem Inv.all (hi : Inv s) (hb : s.phase.busy = none) (job : Str) : Told s.history job (s.timers job) :=
  hi.told job (by rw [hb]; exact nofun)

theorem Inv.others (hi : Inv s) (hp : s.phase = .round job l p) (hne : m ≠ job) :
    Told s.history m (s.timers m) := by
  refine hi.told m fun hb => ?_
  rw [hp] at hb
  obtain ⟨-, hb⟩ := Option.ite_none_right_eq_some.mp hb
  exact hne (Option.some.inj hb).symm

/-- Between two rounds. -/
theorem inv_of_all (ht : ∀ job, Told t.history job (t.timers job)) (hp : ∀ job l p, t.phase ≠ .round job l p) :
    Inv t :=
  ⟨fun job _ => ht job, fun h => absurd h (hp _ _ _)⟩

/-- In a round, which leaves the other jobs alone. -/
theorem inv_of_round (ht : ∀ m, m ≠ job → Told t.history m (t.timers m)) (hp : t.phase = .round job l p)
    (hpoint : AtPoint t.history job (t.timers job) p) : Inv t := by
  refine ⟨fun m hm => ?_, fun {job' l' p'} h => ?_⟩
  · by_cases hne : m = job
    · subst hne
      refine hpoint.told (Bool.eq_false_iff.mpr fun hu => hm ?_)
      rw [hp, Phase.busy, if_pos hu]
    · exact ht m hne
  · cases hp.symm.trans h
    exact hpoint

/-! ## Steps -/

theorem begin_eq_some {os : Os Place} {rc : ℕ} {tasks : List Task} (hb : s.begin os rc tasks = some t) :
    ∃ ph, t = { s with phase := ph } ∧ ∀ job l p, ph ≠ .round job l p := by
  cases tasks with
  | nil =>
    cases hb
    exact ⟨_, rfl, nofun⟩
  | cons task rest =>
    obtain ⟨jobs, -, rfl⟩ := Fold.toOption_map_eq_some.mp hb
    exact ⟨_, rfl, nofun⟩

/-- A step that only goes to a phase between two rounds. -/
theorem Inv.leave (hi : Inv s) (hb : s.phase.busy = none) {ph : Phase} (hph : ∀ job l p, ph ≠ .round job l p) :
    Inv { s with phase := ph } :=
  inv_of_all (hi.all hb) hph

/-- `_sync` empties the file. -/
theorem inv_sync (ht : ∀ m, m ≠ job → Told s.history m (s.timers m)) (hr : Reached s.history job tm next) :
    Inv (s.sync job l tm next) := by
  refine inv_of_round (fun m hne => ?_) rfl ⟨Function.update_self .., hr⟩
  show Told s.history m (Function.update s.timers job .emptied m)
  rw [Function.update_of_ne hne]
  exact ht m hne

theorem terminate_eq_some (ht : s.terminate job l = some t) :
    t = { s with phase := .loop l } ∨ ∃ pids, t = { s with pids := pids, phase := .round job l .killed } := by
  unfold Launcher.terminate at ht
  split at ht
  · cases ht; exact .inl rfl
  · cases ht
  · obtain ⟨-, ht⟩ := Option.ite_none_right_eq_some.mp ht
    cases ht
    exact .inr ⟨_, rfl⟩

/-- What a loop does with the timer that it has made. -/
inductive Uses (s : Launcher) (job : Str) (l : Loop) (tm : PTimer) : Launcher → Prop
  | leaves (ph : Phase) (hph : ∀ job l p, ph ≠ .round job l p) : Uses s job l tm { s with phase := ph }
  | starts (hnew : tm.isNew = true) : Uses s job l tm (s.sync job l .fresh .set)
  | kills (pids : Finset ℕ) : Uses s job l tm { s with pids := pids, phase := .round job l .killed }

theorem uses_of_terminate (ht : s.terminate job l = some t) : Uses s job l tm t := by
  obtain rfl | ⟨pids, rfl⟩ := terminate_eq_some ht
  · exact .leaves _ nofun
  · exact .kills pids

theorem uses_of_body (hb : s.body job l tm = some t) : Uses s job l tm t := by
  unfold Launcher.body at hb
  split at hb
  · -- `get_run_count`
    split at hb
    · split at hb
      · obtain ⟨-, hb⟩ := Option.ite_none_right_eq_some.mp hb
        cases hb
        exact .leaves _ nofun
      · cases hb
    · cases hb
      exact .leaves _ nofun
  · -- `resume`
    split at hb
    · split at hb
      · exact uses_of_terminate hb
      · cases hb
        exact .leaves _ nofun
    · rename_i hnew
      split at hb
      · cases hb
        exact .starts (by simpa using hnew)
      · cases hb
        exact .leaves _ nofun
  · -- `show_progress`
    split at hb
    · cases hb
    · cases hb
      exact .leaves _ nofun
  · -- `completed`
    split at hb
    · cases hb
      exact .leaves _ nofun
    · cases hb
      exact .leaves _ nofun
  · -- `kill_all`
    split at hb
    · exact uses_of_terminate hb
    · cases hb
      exact .leaves _ nofun

theorem Inv.roundTick (hi : Inv s) (hp : s.phase = .round job l p)
    (hsafe : s.setting.dryRun = true → p ≠ .run) (ht : s.roundTick env job l p = some t) : Inv t := by
  have hothers : ∀ m, m ≠ job → Told s.history m (s.timers m) := fun m => hi.others hp
  have hpoint := hi.point hp
  cases p with
  | sync tm next =>
    cases ht
    refine inv_of_round (fun m hne => ?_) rfl ?_
    · show Told s.history m (Function.update s.timers job (.holds tm) m)
      rw [Function.update_of_ne hne]
      exact hothers m hne
    · show AtPoint s.history job (Function.update s.timers job (.holds tm) job) next
      rw [Function.update_self]
      cases next with
      | sync _ _ => exact hpoint.2.elim
      | _ => exact ⟨tm, rfl, hpoint.2⟩
  | made tm =>
    obtain ⟨tm', hread, rfl, htells⟩ := hpoint
    have hleave : s.phase.busy = none := by rw [hp]; rfl
    cases uses_of_body ht with
    | leaves ph hph => exact hi.leave hleave hph
    | starts hnew =>
      refine inv_sync hothers ⟨rfl, ?_⟩
      rcases htells with ⟨-, hnone⟩ | ⟨hold, -⟩
      · exact hnone
      · rw [hnew] at hold; cases hold
    | kills pids => exact inv_of_round hothers rfl ⟨tm, hread, htells⟩
  | set =>
    obtain ⟨tm, -, -, hnone⟩ := hpoint
    cases ht
    exact inv_sync hothers ⟨rfl, hnone⟩
  | start =>
    obtain ⟨tm, -, -, hnone⟩ := hpoint
    cases ht
    exact inv_sync hothers ⟨decide_eq_false s.now.2.ne', hnone⟩
  | run =>
    obtain ⟨tm, hread, hold, hnone⟩ := hpoint
    rw [Launcher.roundTick] at ht
    split at ht
    · rename_i hdry
      exact absurd rfl (hsafe hdry)
    · cases ht
      refine inv_of_round (fun m hne => (hothers m hne).cons hne) rfl ⟨tm, hread, hold, ?_, fun q hq => ?_⟩
      · exact List.mem_cons_self
      · exact hnone.wrotePid q ((List.mem_cons.mp hq).resolve_left nofun)
  | launched pid =>
    cases ht
    exact inv_of_round hothers rfl hpoint
  | pidOpened pid =>
    obtain ⟨tm, hread, hold, hl, -⟩ := hpoint
    cases ht
    refine inv_of_round (fun m hne => (hothers m hne).cons hne) rfl ⟨tm, hread, hold, ?_, ?_⟩
    · exact List.mem_cons_of_mem _ hl
    · exact List.mem_cons_self
  | running pid =>
    obtain ⟨-, ht⟩ := Option.ite_none_left_eq_some.mp ht
    cases ht
    exact hi.leave (by rw [hp]; rfl) nofun
  | killed =>
    cases ht
    exact inv_of_all (hi.all (by rw [hp]; rfl)) nofun

theorem tick_round (hp : s.phase = .round job l p) : s.tick env = s.roundTick env job l p := by
  rw [Launcher.tick, hp]

theorem tick_loop {task : Task} {todo : List Str} {rc : ℕ} {rest : List Task}
    (hp : s.phase = .loop ⟨task, job :: todo, rc, rest⟩) :
    s.tick env = (readTimer (s.timers job)).map fun t => s.sync job ⟨task, todo, rc, rest⟩ t (.made t) := by
  rw [Launcher.tick, hp]

theorem Inv.tick (hi : Inv s) (hsafe : Safe s (.tick env)) (ht : s.tick env = some t) : Inv t := by
  unfold Launcher.tick at ht
  split at ht
  · cases ht
  · rename_i hp
    obtain ⟨ph, rfl, hph⟩ := begin_eq_some ht
    exact hi.leave (by rw [hp]; rfl) hph
  · rename_i l hp
    have hb : s.phase.busy = none := by rw [hp]; rfl
    split at ht
    · obtain ⟨ph, rfl, hph⟩ := begin_eq_some ht
      exact hi.leave hb hph
    · rename_i job todo _
      obtain ⟨tm, hread, rfl⟩ := Option.map_eq_some_iff.mp ht
      obtain ⟨tm', hread', htells⟩ := hi.all hb job
      cases hread.symm.trans hread'
      exact inv_sync (fun m _ => hi.all hb m) ⟨rfl, htells⟩
  · rename_i job l p hp
    exact hi.roundTick hp (fun hdry hrun => hsafe hdry job l (hrun ▸ hp)) ht

/-- What a step keeps. -/
theorem Inv.step {a : Action} (hi : Inv s) (hsafe : Safe s a) (ht : step s a = some t) : Inv t := by
  cases a with
  | run setting =>
    obtain ⟨hp, ht⟩ := Option.ite_none_right_eq_some.mp ht
    cases ht
    exact inv_of_all (hi.all (by rw [hp]; rfl)) nofun
  | runStage2 setting os =>
    obtain ⟨hp, ht⟩ := Option.ite_none_right_eq_some.mp ht
    obtain ⟨ph, rfl, hph⟩ := begin_eq_some ht
    exact inv_of_all (hi.all (by rw [hp]; rfl)) hph
  | update loc =>
    obtain ⟨-, ht⟩ := Option.ite_none_right_eq_some.mp ht
    cases ht
    exact ⟨hi.told, hi.point⟩
  | tick env => exact hi.tick hsafe ht
  | stop =>
    obtain ⟨-, ht⟩ := Option.ite_none_left_eq_some.mp ht
    cases ht
    exact hi.leave hsafe nofun
  | wait dt | processes pids =>
    cases ht
    exact ⟨hi.told, hi.point⟩

/-- A step that is not safe leaves a timer that does not tell what was done. -/
theorem Inv.breaks {a : Action} (hi : Inv s) (hnot : ¬ Safe s a) : ∃ t, Launch.step s a = some t ∧ ¬ Sound t := by
  cases a with
  | run _ | runStage2 _ _ | update _ | wait _ | processes _ => exact absurd trivial hnot
  | tick env =>
    obtain ⟨hdry, hrun⟩ := Classical.not_imp.mp hnot
    simp only [not_forall, not_not] at hrun
    obtain ⟨job, l, hp⟩ := hrun
    refine ⟨{ s with phase := .loop l.counted }, ?_, fun hsound => ?_⟩
    · show s.tick env = _
      rw [tick_round hp]
      exact if_pos hdry
    · have ha := hsound.agrees job nofun
      exact AtPoint.not_agrees (hi.point hp) rfl ⟨ha.readable, ha.launched, ha.fresh⟩
  | stop =>
    have hidle : s.phase ≠ .idle := fun hp => hnot (show s.phase.busy = none by rw [hp]; rfl)
    refine ⟨{ s with phase := .idle }, if_neg hidle, fun hsound => ?_⟩
    cases hp : s.phase with
    | idle => exact hidle hp
    | resuming | loop l => exact hnot (show s.phase.busy = none by rw [hp]; rfl)
    | round job l p =>
      have ha := hsound.agrees job nofun
      refine AtPoint.not_agrees (hi.point hp) ?_ ⟨ha.readable, ha.launched, ha.fresh⟩
      by_contra hu
      exact hnot (show s.phase.busy = none by rw [hp]; exact if_neg hu)

/-! ## The start of an instance -/

/-- The steps from a point to the return of `run_afl`. -/
def Point.left : Point → Option ℕ
  | .sync _ next => next.left.map (· + 1)
  | .made t => if t.isNew then some 9 else none
  | .set => some 7
  | .start => some 5
  | .run => some 3
  | .launched _ => some 2
  | .pidOpened _ => some 1
  | .running _ => some 0
  | .killed => none

/-- `resume` is to start the job, in `n` steps. -/
inductive Launching (s : Launcher) (job : Str) : ℕ → Prop
  | loop {k : Kind} {todo : List Str} {rc : ℕ} {rest : List Task}
    (hp : s.phase = .loop ⟨.visit k, job :: todo, rc, rest⟩) (hno : ¬ Started s.history job)
    (hroom : rc < s.setting.slots k) : Launching s job 11
  | round {k : Kind} {l : Loop} {p : Point} {n : ℕ} (hp : s.phase = .round job l p)
    (htask : l.task = .visit k) (hroom : l.runCount < s.setting.slots k) (hleft : p.left = some n) :
    Launching s job n

/-- It takes the next one. -/
theorem Launching.tick {n : ℕ} (hl : Launching s job (n + 1)) (hi : Inv s) (hdry : s.setting.dryRun = false)
    (env : Env) : ∃ t, s.tick env = some t ∧ t.setting = s.setting ∧ Launching t job n := by
  cases hl with
  | @loop k todo rc rest hp hno hroom =>
    obtain ⟨tm, hread, htells⟩ := hi.all (by rw [hp]; rfl) job
    refine ⟨s.sync job ⟨.visit k, todo, rc, rest⟩ tm (.made tm), ?_, rfl, .round rfl rfl hroom ?_⟩
    · rw [tick_loop hp, hread]
      rfl
    · rw [Point.left, Point.left, if_pos (htells.isNew hno)]
      rfl
  | @round k l p _ hp htask hroom hleft =>
    rw [tick_round hp]
    cases p with
    | sync tm next =>
      obtain ⟨n', hn', hsucc⟩ := Option.map_eq_some_iff.mp hleft
      cases hsucc
      exact ⟨_, rfl, rfl, .round rfl htask hroom hn'⟩
    | made tm =>
      obtain ⟨hnew, hn⟩ := Option.ite_none_right_eq_some.mp hleft
      cases hn
      refine ⟨s.sync job l .fresh .set, ?_, rfl, .round rfl htask hroom rfl⟩
      rw [Launcher.roundTick, Launcher.body, htask]
      simp [hnew, hroom]
    | run =>
      cases hleft
      rw [Launcher.roundTick, if_neg (by simp [hdry])]
      exact ⟨_, rfl, rfl, .round rfl htask hroom rfl⟩
    | set | start | launched pid | pidOpened pid =>
      cases hleft
      exact ⟨_, rfl, rfl, .round rfl htask hroom rfl⟩
    | running pid | killed => cases hleft

/-- Time and other processes do not change that. -/
theorem Launching.congr {n : ℕ} (hl : Launching s job n) (hp : t.phase = s.phase) (hset : t.setting = s.setting)
    (hh : t.history = s.history) : Launching t job n := by
  cases hl with
  | loop hs hno hroom => exact .loop (hp.trans hs) (hh ▸ hno) (hset ▸ hroom)
  | round hs htask hroom hleft => exact .round (hp.trans hs) htask (hset ▸ hroom) hleft

/-- Whatever else happens. -/
theorem Launching.step {n : ℕ} {a : Action} (hl : Launching s job (n + if a.isTick then 1 else 0)) (hi : Inv s)
    (hdry : s.setting.dryRun = false) (ha : a.undisturbed = true) :
    ∃ t, Launch.step s a = some t ∧ t.setting = s.setting ∧ Inv t ∧ Launching t job n := by
  cases a with
  | run _ | runStage2 _ _ | update _ | stop => cases ha
  | tick env =>
    obtain ⟨t, ht, hset, hl'⟩ := hl.tick hi hdry env
    have hsafe : Safe s (.tick env) := fun h => absurd h (by simp [hdry])
    exact ⟨t, ht, hset, hi.tick hsafe ht, hl'⟩
  | wait dt | processes pids => exact ⟨_, rfl, rfl, ⟨hi.told, hi.point⟩, hl.congr rfl rfl rfl⟩

/-- And so the job is launched. -/
theorem Launching.exec {n : ℕ} {as : List Action} (hl : Launching s job n) (hi : Inv s)
    (hdry : s.setting.dryRun = false) (has : ∀ a ∈ as, a.undisturbed = true) (hn : as.countP Action.isTick = n) :
    ∃ t, Run.exec Launch.step s as = some t ∧ Launched t.history job := by
  induction as generalizing s n with
  | nil =>
    cases hn
    refine ⟨s, rfl, ?_⟩
    cases hl with
    | @round k l p _ hp htask hroom hleft =>
      have hpoint := hi.point hp
      cases p with
      | running pid =>
        obtain ⟨tm, -, -, hdone⟩ := hpoint
        exact ⟨pid, hdone⟩
      | sync tm next =>
        obtain ⟨n', -, hsucc⟩ := Option.map_eq_some_iff.mp hleft
        cases hsucc
      | made tm =>
        obtain ⟨-, hzero⟩ := Option.ite_none_right_eq_some.mp hleft
        cases hzero
      | _ => cases hleft
  | cons a as ih =>
    rw [List.countP_cons] at hn
    subst hn
    obtain ⟨u, hu, hset, hi', hl'⟩ := hl.step hi hdry (has a List.mem_cons_self)
    obtain ⟨t, ht, hdone⟩ := ih hl' hi' (hset ▸ hdry) (fun b hb => has b (List.mem_cons_of_mem _ hb)) rfl
    exact ⟨t, (exec_cons_eq_some Launch.step).mpr ⟨u, hu, ht⟩, hdone⟩

/-- The loops go by the timers. -/
theorem Inv.sound (hi : Inv s) : Sound s where
  agrees job hb := (hi.told job hb).agrees
  counts {job l k tm env u} hp htask hno hu := by
    obtain ⟨_, -, rfl, htells⟩ := hi.point hp
    have hbody : s.body job l tm = some u := by
      rw [← hu]
      exact (tick_round hp).symm
    rw [Launcher.body, htask] at hbody
    simp only [htells.isNew hno, Bool.not_true, Bool.false_and, Bool.false_eq_true, if_false] at hbody
    cases hbody
    rfl
  completed {job l tm env u} hp htask hno hu := by
    obtain ⟨_, -, rfl, htells⟩ := hi.point hp
    have hbody : s.body job l tm = some u := by
      rw [← hu]
      exact (tick_round hp).symm
    rw [Launcher.body, htask] at hbody
    simp only [htells.isNew hno, Bool.true_or, if_true] at hbody
    cases hbody
    rfl
  starts hp hno hroom hdry := ⟨11, fun as has hn => (Launching.loop hp hno hroom).exec hi hdry has hn⟩

/-- In every state of a run the timers agree with the instances, and the
loops go by them, exactly if every step is safe. -/
theorem always_sound_iff (setting : Setting) (loc : Dir) (now : {q : ℚ // 0 < q}) (as : List Action) :
    Always step Sound (init setting loc now) as ↔ Along step Safe (init setting loc now) as :=
  always_iff_along step (fun hi => hi.sound) (fun hi hsafe ht => hi.step hsafe ht) (fun hi hnot => hi.breaks hnot)
    (inv_init setting loc now)

/-! ## A start that fails -/

/-- One core and no failure injection. -/
def oneCore : Setting := ⟨⟨1, by decide, false, none, 60⟩, false⟩

/-- `resume` starts the timer of its one testcase, and `decompress` raises. -/
def failedStart : List Action :=
  .run oneCore :: List.replicate 18 (.tick ⟨Os.sorted Place 0, 7⟩) ++ [.stop]

/-- The timer is no longer new, but no instance was started. -/
theorem not_always_sound_failedStart :
    ¬ Always step Sound (init oneCore [⟨tc1.testcase, [1]⟩].toFinmap ⟨100, by decide⟩) failedStart := by
  intro h
  have hsome : (exec step (init oneCore [⟨tc1.testcase, [1]⟩].toFinmap ⟨100, by decide⟩) failedStart).map
      (fun s => (s.phase, readTimer (s.timers "id=1".toList), s.history)) = some (.idle, some ⟨100, 60⟩, []) := by
    decide +kernel
  obtain ⟨s, hs, heq⟩ := Option.map_eq_some_iff.mp hsome
  simp only [Prod.mk.injEq] at heq
  obtain ⟨hidle, hread, hnone⟩ := heq
  have hagrees := (h _ s (List.prefix_refl _) hs).agrees "id=1".toList (by rw [hidle]; exact nofun)
  obtain ⟨pid, hpid, -⟩ := hagrees.launched _ hread (by decide)
  rw [hnone] at hpid
  exact absurd hpid List.not_mem_nil

end PMFuzz.Stage2.Launch
