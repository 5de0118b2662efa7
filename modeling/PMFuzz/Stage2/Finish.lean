import PMFuzz.Stage2.Cores

/-!
# The end of a stage-2 iteration

`kill_all` goes through the testcases of `@dedup_sync` only. `cleared_iff`
says when no AFL instance is left as the directory goes.
-/

namespace PMFuzz.Stage2

open Names Dedup Run

variable {cfg : Config} {s s₁ s₂ t u : Schedule} {os : Os Place} {job : Str}

/-- The job runs a testcase of `@dedup_sync`. -/
def TestcaseJob (loc : Dir) (job : Str) : Prop := ∃ f ∈ loc, isTc f true = true ∧ job = testcaseName f

/-- Where `terminate`, `run_dedup` and `clear` stand: the instances of
testcases are still to be killed, or gone. -/
def EndPhase (loc : Dir) (t : Schedule) : Phase → Prop
  | .killing todo => (∀ job ∈ todo, TestcaseJob loc job) ∧
    ∀ k, ∀ job ∈ t.live k, TestcaseJob loc job → job ∈ todo
  | .terminated | .cleared => (∀ k, ∀ job ∈ t.live k, ¬ TestcaseJob loc job) ∧
    ∀ job ∈ t.queued, t.Running job
  | _ => False

/-- `t` comes after `s`, in which the iteration was found completed. -/
structure Ending (s t : Schedule) : Prop where
  timers : t.timers = s.timers
  now : (s.now : ℚ) ≤ t.now
  live : ∀ k, t.live k ⊆ s.live k
  spared : ∀ k, ∀ job ∈ s.live k, ¬ TestcaseJob s.loc job → job ∈ t.live k
  phase : EndPhase s.loc t t.phase

/-- `kill_all` begins. -/
theorem finish_ending (h : step cfg s (.finish os) = some t) :
    Ending s t ∧ ∀ job, TestcaseJob s.loc job → Finished s.timers s.now job := by
  obtain ⟨⟨-, hcomp⟩, h⟩ := Option.ite_none_right_eq_some.mp h
  cases h
  have hmem : ∀ job, job ∈ (localDedupList os s.loc).map (fun entry => testcaseName entry.1) ↔
      TestcaseJob s.loc job := by
    intro job
    simp only [localDedupList, List.map_map, List.mem_map, List.mem_filter, os.mem_listdir,
      Function.comp_apply, TestcaseJob]
    constructor
    · rintro ⟨f, ⟨hf, htc⟩, rfl⟩
      exact ⟨f, hf, htc, rfl⟩
    · rintro ⟨f, hf, htc, rfl⟩
      exact ⟨f, ⟨hf, htc⟩, rfl⟩
  refine ⟨⟨rfl, le_rfl, fun k => Finset.Subset.refl _, fun k job hj _ => hj,
    fun job => (hmem job).mp, fun k job _ => (hmem job).mpr⟩, ?_⟩
  rintro job ⟨f, hf, htc, rfl⟩
  exact completed_iff.mp hcomp f hf htc

theorem Ending.ticks (h : Ending s t) (hfin : ∀ job, TestcaseJob s.loc job → Finished s.timers s.now job)
    (ht : Ticks cfg t u) : Ending s u := by
  have hphase := h.phase
  cases ht with
  | counted hp | notCounted hp _ | countEnds _ hp _ | passes hp _ | kills hp | starts hp _ _
  | crashSites _ hp _ | returns hp => rw [hp] at hphase; exact hphase.elim
  | @killAllKills job todo hp =>
    rw [hp] at hphase
    have hlive : ∀ k, (t.terminate job).live k = (t.live k).erase job := fun k => terminate_live
    refine ⟨terminate_timers.trans h.timers, by rw [terminate_now]; exact h.now, fun k => ?_,
      fun k m hm hno => ?_, fun m hm => hphase.1 m (List.mem_cons_of_mem _ hm), fun k m hm htc => ?_⟩
    · rw [hlive]
      exact (Finset.erase_subset _ _).trans (h.live k)
    · show m ∈ (t.terminate job).live k
      rw [hlive, Finset.mem_erase]
      exact ⟨fun he => hno (he ▸ hphase.1 job List.mem_cons_self), h.spared k m hm hno⟩
    · have hm' : m ∈ (t.terminate job).live k := hm
      rw [hlive, Finset.mem_erase] at hm'
      exact (List.mem_cons.mp (hphase.2 k m hm'.2 htc)).resolve_left hm'.1
  | @killAllPasses job todo hp hno =>
    -- every timer of a testcase has expired
    rw [hp] at hphase
    obtain ⟨hnew, hexp⟩ := hfin job (hphase.1 job List.mem_cons_self)
    rw [h.timers] at hno
    rcases hno with hno | hno
    · rw [hnew] at hno; cases hno
    · rw [PTimer.expired_mono hexp h.now] at hno; cases hno
  | collects hp =>
    rw [hp] at hphase
    exact ⟨h.timers, h.now, h.live, h.spared, fun k m hm htc =>
      absurd (hphase.2 k m hm htc) List.not_mem_nil, fun m hm => absurd hm (Finset.notMem_empty m)⟩
  | clears hp =>
    rw [hp] at hphase
    exact ⟨h.timers, h.now, h.live, h.spared, hphase⟩

theorem Ending.step {a : Action} (h : Ending s t)
    (hfin : ∀ job, TestcaseJob s.loc job → Finished s.timers s.now job)
    (ht : step cfg t a = some u) : Ending s u := by
  have hphase := h.phase
  cases a with
  | resume os loc =>
    obtain ⟨⟨hp, -⟩, -⟩ := resume_eq_some ht
    rw [hp] at hphase
    exact hphase.elim
  | finish os =>
    obtain ⟨⟨hp, -⟩, -⟩ := Option.ite_none_right_eq_some.mp ht
    rw [hp] at hphase
    exact hphase.elim
  | tick os => exact h.ticks hfin (ticks_of_tick ht)
  | wait dt =>
    cases ht
    exact ⟨h.timers, h.now.trans (le_add_of_nonneg_right dt.2), h.live, h.spared, hphase⟩
  | queue job =>
    obtain ⟨hrun, ht⟩ := Option.ite_none_right_eq_some.mp ht
    cases ht
    refine ⟨h.timers, h.now, h.live, h.spared, ?_⟩
    have hqueued : (∀ m ∈ t.queued, t.Running m) → ∀ m ∈ insert job t.queued, t.Running m := by
      intro hq m hm
      rcases Finset.mem_insert.mp hm with rfl | hm
      · exact hrun
      · exact hq m hm
    show EndPhase s.loc { t with queued := insert job t.queued } t.phase
    cases hp : t.phase with
    | killing todo => rw [hp] at hphase; exact hphase
    | terminated | cleared => rw [hp] at hphase; exact ⟨hphase.1, hqueued hphase.2⟩
    | _ => rw [hp] at hphase; exact hphase.elim

/-- When `clear` removes the directory, no instance runs and every queue has
been collected exactly if no instance of a crash site ran when the iteration
was found completed (but one with the name of a testcase of `@dedup_sync`). -/
theorem cleared_iff {before after : List Action} (h : Reaches cfg before s)
    (hfinish : step cfg s (.finish os) = some s₁) (hafter : exec (step cfg) s₁ after = some s₂)
    (hcleared : s₂.phase = .cleared) :
    ((∀ k, s₂.live k = ∅) ∧ s₂.queued = ∅) ↔ ∀ job ∈ s.live .cs, TestcaseJob s.loc job := by
  obtain ⟨hstart, hfin⟩ := finish_ending hfinish
  have hend : Ending s s₂ := exec_inv (step cfg) (fun ht hu => ht.step hfin hu) hstart hafter
  have hphase := hend.phase
  rw [hcleared] at hphase
  constructor
  · intro hgone job hjob
    by_contra hno
    have := hend.spared .cs job hjob hno
    rw [hgone.1] at this
    exact Finset.notMem_empty _ this
  · intro hcs
    have hnone : ∀ k job, job ∉ s₂.live k := by
      intro k job hj
      refine hphase.1 k job hj ?_
      cases k with
      | tc =>
        obtain ⟨f, hf, htc, -, rfl⟩ := h.live.job .tc job (hend.live .tc hj)
        exact ⟨f, hf, htc, rfl⟩
      | cs => exact hcs job (hend.live .cs hj)
    refine ⟨fun k => Finset.eq_empty_of_forall_notMem (hnone k),
      Finset.eq_empty_of_forall_notMem fun job hj => ?_⟩
    rcases hphase.2 job hj with hj | hj
    · exact hnone .tc job hj
    · exact hnone .cs job hj

/-! ## Two iterations -/

/-- One call of `resume` for these jobs, time for the timers to expire, and
the call of `run_stage2` that finds the iteration completed, with the steps
before and after it. -/
def startAll (loc : Dir) (ticks : ℕ) : List Action :=
  let os := Os.sorted Place 0
  .resume os loc :: List.replicate ticks (.tick os) ++ [.wait expiry]

def endAll : List Action := List.replicate 3 (.tick (Os.sorted Place 0))

/-- The iteration that `startAll` begins, at its end. -/
def endOf (cfg : Config) (loc : Dir) (ticks : ℕ) : Option (Schedule × Schedule × Schedule) := do
  let s ← exec (step cfg) (init loc ⟨100, by decide⟩) (startAll loc ticks)
  let s₁ ← step cfg s (.finish (Os.sorted Place 0))
  let s₂ ← exec (step cfg) s₁ endAll
  return (s, s₁, s₂)

theorem endOf_eq_some {loc : Dir} {ticks : ℕ} (h : endOf cfg loc ticks = some (s, s₁, s₂)) :
    Reaches cfg (startAll loc ticks) s ∧ step cfg s (.finish (Os.sorted Place 0)) = some s₁ ∧
      exec (step cfg) s₁ endAll = some s₂ := by
  obtain ⟨s', hs, h⟩ := Option.bind_eq_some_iff.mp h
  obtain ⟨s₁', hs₁, h⟩ := Option.bind_eq_some_iff.mp h
  obtain ⟨s₂', hs₂, h⟩ := Option.bind_eq_some_iff.mp h
  simp only [Option.pure_def, Option.some.injEq, Prod.mk.injEq] at h
  obtain ⟨rfl, rfl, rfl⟩ := h
  exact ⟨⟨_, _, hs⟩, hs₁, hs₂⟩

/-- An iteration with one testcase. -/
theorem cleared_testcase : ∃ s s₁ s₂,
    endOf ⟨1, by decide, false, none, 60⟩ [⟨tc1.testcase, [1]⟩].toFinmap 4 = some (s, s₁, s₂) ∧
    (((∀ k, s₂.live k = ∅) ∧ s₂.queued = ∅) ↔ ∀ job ∈ s.live .cs, TestcaseJob s.loc job) := by
  have hsome : (endOf ⟨1, by decide, false, none, 60⟩ [⟨tc1.testcase, [1]⟩].toFinmap 4).map
    (fun r => r.2.2.phase) = some .cleared := by decide +kernel
  obtain ⟨⟨s, s₁, s₂⟩, h, hphase⟩ := Option.map_eq_some_iff.mp hsome
  obtain ⟨hs, hs₁, hs₂⟩ := endOf_eq_some h
  exact ⟨s, s₁, s₂, h, cleared_iff hs hs₁ hs₂ hphase⟩

/-- The instance of a crash site outlives its iteration. -/
theorem crashSite_outlives : ∃ cfg before s os s₁ after s₂,
    Reaches cfg before s ∧ step cfg s (.finish os) = some s₁ ∧ exec (step cfg) s₁ after = some s₂ ∧
      s₂.phase = .cleared ∧ "id=1.id=7".toList ∈ s₂.live .cs := by
  have hsome : (endOf ⟨2, by decide, true, none, 60⟩ testcaseAndSite 8).map (fun r =>
    decide (r.2.2.phase = .cleared ∧ "id=1.id=7".toList ∈ r.2.2.live .cs)) = some true := by
    decide +kernel
  obtain ⟨⟨s, s₁, s₂⟩, h, hend⟩ := Option.map_eq_some_iff.mp hsome
  obtain ⟨hs, hs₁, hs₂⟩ := endOf_eq_some h
  exact ⟨_, _, s, _, s₁, _, s₂, hs, hs₁, hs₂, of_decide_eq_true hend⟩

end PMFuzz.Stage2
