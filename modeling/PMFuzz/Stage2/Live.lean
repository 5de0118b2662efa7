import PMFuzz.Stage2.Schedule

/-!
# The instances of a stage-2 iteration

What the AFL instances are in every state: `Live` says that each runs a job
of its kind whose timer was started (`Reaches.live`).
-/

namespace PMFuzz.Stage2

open Names Dedup Run

variable {cfg : Config} {s t : Schedule} {k : Kind} {job n : Str} {todo : List Str} {rc : ℕ}
  {known : Finset Str} {os : Os Place} {loc loc' : Dir}

/-! ## Jobs -/

/-- A job of a kind. -/
def JobOf (cfg : Config) (loc : Dir) : Kind → Str → Prop
  | .tc, job => ∃ f ∈ loc, isTc f true = true ∧ shouldUseTc cfg.ids f = .ok true ∧ job = testcaseName f
  | .cs, job => ∃ f ∈ loc, isCmprCrashSite f = true ∧ shouldUseCs cfg.ids f = .ok true ∧ job = csName f

theorem JobOf.mono (h : JobOf cfg loc k job) (hloc : loc.keys ⊆ loc'.keys) : JobOf cfg loc' k job := by
  have hmem : ∀ {f}, f ∈ loc → f ∈ loc' := fun hf => Finmap.mem_keys.mp (hloc (Finmap.mem_keys.mpr hf))
  cases k <;> obtain ⟨f, hf, h⟩ := h <;> exact ⟨f, hmem hf, h⟩

theorem mem_jobsOf {jobs : List Str} (h : jobsOf os cfg loc k = .ok jobs) :
    job ∈ jobs ↔ JobOf cfg loc k job := by
  cases k with
  | tc =>
    obtain ⟨l, hl, h⟩ := Fold.bind_eq_ok.mp h
    cases h
    simp only [List.mem_map, Fold.mem_filterM hl, localDedupList, List.mem_filter, os.mem_listdir,
      JobOf]
    constructor
    · rintro ⟨e, ⟨⟨f, ⟨hf, htc⟩, rfl⟩, huse⟩, rfl⟩
      exact ⟨f, hf, htc, huse, rfl⟩
    · rintro ⟨f, hf, htc, huse, rfl⟩
      exact ⟨_, ⟨⟨f, ⟨hf, htc⟩, rfl⟩, huse⟩, rfl⟩
  | cs =>
    obtain ⟨l, hl, h⟩ := Fold.bind_eq_ok.mp h
    cases h
    simp only [List.mem_map, Fold.mem_filterM hl, os.mem_listdir, JobOf]
    constructor
    · rintro ⟨f, ⟨hf, huse⟩, rfl⟩
      split at huse
      · rename_i hcs
        exact ⟨f, hf, hcs, huse, rfl⟩
      · cases huse
    · rintro ⟨f, hf, hcs, huse, rfl⟩
      exact ⟨f, ⟨hf, by rw [if_pos hcs]; exact huse⟩, rfl⟩

/-! ## The steps on the instances -/

@[simp] theorem terminate_live : (s.terminate job).live k = (s.live k).erase job := by
  unfold Schedule.terminate
  split
  · rfl
  · rename_i h
    have hno : job ∉ s.live k := by
      intro hk
      cases k
      · exact h (.inl hk)
      · exact h (.inr hk)
    exact (Finset.erase_eq_of_notMem hno).symm

@[simp] theorem terminate_loc : (s.terminate job).loc = s.loc := by unfold Schedule.terminate; split <;> rfl

@[simp] theorem terminate_timers : (s.terminate job).timers = s.timers := by
  unfold Schedule.terminate; split <;> rfl

@[simp] theorem terminate_now : (s.terminate job).now = s.now := by unfold Schedule.terminate; split <;> rfl

theorem PTimer.expired_mono {t : PTimer} {now now' : ℚ} (h : t.expired now = true) (hle : now ≤ now') :
    t.expired now' = true := by
  unfold PTimer.expired at *
  rw [decide_eq_true_eq] at *
  exact h.trans_le (sub_le_sub_right hle _)

/-! ## The invariant -/

/-- The jobs left in a loop of `resume`. -/
def TodoJobs (cfg : Config) (loc : Dir) : Phase → Prop
  | .count k todo _ _ => ∀ job ∈ todo, JobOf cfg loc k job
  | .visit k todo _ _ => ∀ job ∈ todo, JobOf cfg loc k job
  | _ => True

/-- Every instance runs a job of its kind, whose timer was started. -/
structure Live (cfg : Config) (s : Schedule) : Prop where
  job : ∀ k, ∀ job ∈ s.live k, JobOf cfg s.loc k job
  started : ∀ k, ∀ job ∈ s.live k, (s.timers job).isNew = false
  todo : TodoJobs cfg s.loc s.phase

theorem live_init (loc : Dir) (now : {q : ℚ // 0 < q}) : Live cfg (init loc now) where
  job _ _ h := absurd h (Finset.notMem_empty _)
  started _ _ h := absurd h (Finset.notMem_empty _)
  todo := trivial

/-- A step that starts nothing. -/
theorem Live.of_subset (h : Live cfg s) (hlive : ∀ k, t.live k ⊆ s.live k)
    (hloc : s.loc.keys ⊆ t.loc.keys) (htimers : t.timers = s.timers) (htodo : TodoJobs cfg t.loc t.phase) :
    Live cfg t where
  job k job hj := (h.job k job (hlive k hj)).mono hloc
  started k job hj := htimers ▸ h.started k job (hlive k hj)
  todo := htodo

theorem Live.phase_only (h : Live cfg s) {p : Phase} (htodo : TodoJobs cfg s.loc p) :
    Live cfg { s with phase := p } :=
  ⟨h.job, h.started, htodo⟩

theorem Live.terminate (h : Live cfg s) {p : Phase} (htodo : TodoJobs cfg s.loc p) :
    Live cfg { s.terminate job with phase := p } := by
  refine h.of_subset (fun k => ?_) (by rw [terminate_loc]) terminate_timers ?_
  · rw [terminate_live]
    exact Finset.erase_subset _ _
  · show TodoJobs cfg (s.terminate job).loc p
    rw [terminate_loc]
    exact htodo

theorem start_live (j : Kind) :
    (s.start cfg k job).live j = if j = k then insert job (s.live k) else s.live j := by
  simp only [Schedule.start, Function.update_apply]

theorem start_timers : (s.start cfg k job).timers n =
    if n = job then .startNew cfg.tcTimeout s.now else s.timers n := by
  simp only [Schedule.start, Function.update_apply]

theorem mem_start_live {j : Kind} : n ∈ (s.start cfg k job).live j ↔ j = k ∧ n = job ∨ n ∈ s.live j := by
  rw [start_live]
  by_cases hj : j = k
  · subst hj; simp
  · simp [hj]

theorem Live.start (h : Live cfg s) {p : Phase} (hjob : JobOf cfg s.loc k job)
    (htodo : TodoJobs cfg s.loc p) : Live cfg { s.start cfg k job with phase := p } := by
  have hlive : ∀ {j n}, n ∈ (s.start cfg k job).live j → j = k ∧ n = job ∨ n ∈ s.live j :=
    mem_start_live.mp
  refine ⟨fun j n hn => ?_, fun j n hn => ?_, htodo⟩
  · rcases hlive hn with ⟨rfl, rfl⟩ | hn
    · exact hjob
    · exact h.job j n hn
  · show ((s.start cfg k job).timers n).isNew = false
    rw [start_timers]
    split
    · exact decide_eq_false s.now.2.ne'
    · rename_i hne
      exact h.started j n ((hlive hn).resolve_left fun hj => hne hj.2)

theorem Live.ticks (h : Live cfg s) (ht : Ticks cfg s t) : Live cfg t := by
  have htodo := h.todo
  cases ht with
  | counted hp | notCounted hp _ | passes hp _ =>
    rw [hp] at htodo
    exact h.phase_only fun m hm => htodo m (List.mem_cons_of_mem _ hm)
  | countEnds os hp hjobs | crashSites os hp hjobs => exact h.phase_only fun m => (mem_jobsOf hjobs).mp
  | kills hp =>
    rw [hp] at htodo
    exact h.terminate fun m hm => htodo m (List.mem_cons_of_mem _ hm)
  | starts hp hnew hroom =>
    rw [hp] at htodo
    exact h.start (htodo _ List.mem_cons_self) fun m hm => htodo m (List.mem_cons_of_mem _ hm)
  | killAllKills hp => exact h.terminate trivial
  | collects hp => exact ⟨h.job, h.started, trivial⟩
  | returns hp | killAllPasses hp _ | clears hp => exact h.phase_only trivial

theorem Live.step {a : Action} (h : Live cfg s) (ht : step cfg s a = some t) : Live cfg t := by
  cases a with
  | resume os loc =>
    obtain ⟨hc, tcs, css, htcs, -, rfl⟩ := resume_eq_some ht
    exact ⟨fun k job hj => (h.job k job hj).mono hc.2, h.started, fun m => (mem_jobsOf htcs).mp⟩
  | finish os =>
    obtain ⟨-, ht⟩ := Option.ite_none_right_eq_some.mp ht
    cases ht
    exact h.phase_only trivial
  | tick os => exact h.ticks (ticks_of_tick ht)
  | wait dt =>
    cases ht
    exact ⟨h.job, h.started, h.todo⟩
  | queue job =>
    obtain ⟨-, ht⟩ := Option.ite_none_right_eq_some.mp ht
    cases ht
    exact ⟨h.job, h.started, h.todo⟩

theorem Reaches.live {as : List Action} (h : Reaches cfg as s) : Live cfg s := by
  obtain ⟨loc, now, h⟩ := h
  exact exec_inv (step cfg) (fun hs ht => hs.step ht) (live_init loc now) h

end PMFuzz.Stage2
