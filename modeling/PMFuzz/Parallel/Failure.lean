import PMFuzz.Parallel.Bounds
import Mathlib.Data.List.Induction

/-!
# What `FAILURE_EXIT` sees

An exit code is only read by `alive_cnt`, in the polling loop of `run`:
`wait` looks at `is_alive` alone. So the parent aborts exactly when
`alive_cnt` comes to a process that has ended with a nonzero exit code
(`abortCalled_iff`), and a failed job is lost when it ends after the last
call of `run` has looked at it, or when it ends through `abort`, whose
SIGUSR1 handler exits with code 0 (`failure_exit_swallows`).
-/

namespace PMFuzz.Parallel

open Run

variable {α : Type} {cfg : Config} {calls : List α} {s t : Pool α}

/-- The job function of some job has failed. -/
def Pool.AnyFailed (s : Pool α) : Prop := ∃ j e, s.ended j = some e ∧ e.Failed

/-- `alive_cnt` comes to a process that has ended with a nonzero exit code. -/
def Pool.AtFailure (s : Pool α) : Prop :=
  ∃ p idx cnt del j e, s.pc = .counting p idx cnt del ∧ s.pobjs[idx]? = some j ∧
    s.ended j = some e ∧ e.exitcode ≠ 0

/-- In the course of the actions `as`, `alive_cnt` comes to such a process. -/
def SeesFailure (cfg : Config) (calls : List α) (as : List Action) : Prop :=
  ∃ pre post t, as = pre ++ .tick :: post ∧ Reaches cfg calls pre t ∧ t.AtFailure

/-- The parent calls `abort` by the end of `wait` if a job has failed, and
only then. -/
def FailureReported (s : Pool α) : Prop :=
  (s.AnyFailed → s.abortCalled = true) ∧ (¬ s.AnyFailed → s.abortCalled = false)

/-- A step that leads to `abort` is one of `alive_cnt` at such a process. -/
theorem abortCalled_step (hm : cfg.failureMode = .failureExit) {a : Action}
    (ht : step cfg s a = some t) :
    t.abortCalled = true ↔ s.abortCalled = true ∨ a = .tick ∧ s.AtFailure := by
  cases a with
  | finish j e =>
    simp only [step] at ht
    split at ht <;> cases ht
    simp
  | tick =>
    simp only [step, Pool.tick] at ht
    split at ht
    · rename_i hpc
      have hno : ¬ s.AtFailure := by rintro ⟨_, _, _, _, _, _, h, -⟩; rw [hpc] at h; cases h
      split at ht <;> cases ht <;> simp [hno]
    · rename_i p idx cnt del hpc
      split at ht <;> cases ht
      · rename_i j hj
        unfold Pool.look
        split
        · rename_i he
          have hno : ¬ s.AtFailure := by
            rintro ⟨_, _, _, _, j', e, h, hj', he', -⟩
            rw [hpc] at h; cases h
            rw [hj, Option.some.injEq] at hj'
            rw [← hj', he] at he'; cases he'
          simp [hno]
        · rename_i e he
          have hat : s.AtFailure ↔ e.exitcode ≠ 0 := by
            constructor
            · rintro ⟨_, _, _, _, j', e', h, hj', he', hx⟩
              rw [hpc] at h; cases h
              rw [hj, Option.some.injEq] at hj'
              rw [← hj', he, Option.some.injEq] at he'
              rwa [he']
            · exact fun hx => ⟨p, idx, cnt, del, j, e, hpc, hj, he, hx⟩
          split
          · rename_i hx; simp [hat, hx.2]
          · rename_i hx
            have : ¬ s.AtFailure := fun h => hx ⟨hm, hat.mp h⟩
            simp [this]
      · rename_i hnone
        have hno : ¬ s.AtFailure := by
          rintro ⟨_, _, _, _, _, _, h, hj, -⟩
          rw [hpc] at h; cases h
          rw [hnone] at hj; cases hj
        unfold Pool.afterCount
        split <;> simp [hno]
    · rename_i hpc
      have hno : ¬ s.AtFailure := by rintro ⟨_, _, _, _, _, _, h, -⟩; rw [hpc] at h; cases h
      split at ht
      · split at ht <;> cases ht <;> simp [hno]
      · cases ht; simp [hno]
    · cases ht
    · cases ht

theorem SeesFailure.append_singleton {as : List Action} {a : Action} (h : Reaches cfg calls as s) :
    SeesFailure cfg calls (as ++ [a]) ↔ SeesFailure cfg calls as ∨ a = .tick ∧ s.AtFailure := by
  constructor
  · rintro ⟨pre, post, t, heq, hr, hf⟩
    rcases List.eq_nil_or_concat post with rfl | ⟨post', b, rfl⟩
    · obtain ⟨rfl, hab⟩ := List.append_inj' heq rfl
      rw [List.singleton_inj] at hab
      rw [Reaches, hr, Option.some.injEq] at h
      exact .inr ⟨hab, h ▸ hf⟩
    · rw [List.concat_eq_append, ← List.cons_append, ← List.append_assoc] at heq
      exact .inl ⟨pre, post', t, (List.append_inj' heq rfl).1, hr, hf⟩
  · rintro (⟨pre, post, t, rfl, hr, hf⟩ | ⟨rfl, hf⟩)
    · exact ⟨pre, post ++ [a], t, by simp, hr, hf⟩
    · exact ⟨as, [], s, rfl, h, hf⟩

/-- The parent has called `abort` exactly if `alive_cnt` came to a process
that had ended with a nonzero exit code. -/
theorem abortCalled_iff (hm : cfg.failureMode = .failureExit) (as : List Action) :
    ∀ {s : Pool α}, Reaches cfg calls as s → (s.abortCalled = true ↔ SeesFailure cfg calls as) := by
  induction as using List.reverseRecOn with
  | nil =>
    intro s h
    cases h
    refine ⟨fun h => by simp [init] at h, ?_⟩
    rintro ⟨pre, post, -, heq, -⟩
    simp at heq
  | append_singleton as a ih =>
    intro t h
    rw [Reaches, exec_append, Option.bind_eq_some_iff] at h
    obtain ⟨s, hs, ht⟩ := h
    obtain ⟨u, hu, ht⟩ := (exec_cons_eq_some _).mp ht
    cases ht
    rw [abortCalled_step hm hu, ih hs, SeesFailure.append_singleton hs]

theorem ended_step {a : Action} {j : ℕ} {e : JobEnd} (ht : step cfg s a = some t)
    (h : s.ended j = some e) : t.ended j = some e := by
  cases a with
  | finish k e' =>
    simp only [step] at ht
    split at ht <;> cases ht
    rename_i ha
    have hne : j ≠ k := by rintro rfl; rw [ha.2] at h; cases h
    simpa [Function.update_of_ne hne] using h
  | tick =>
    simp only [step, Pool.tick] at ht
    split at ht
    · split at ht <;> cases ht <;> exact h
    · split at ht <;> cases ht
      · unfold Pool.look
        split <;> [exact h; (split <;> exact h)]
      · unfold Pool.afterCount
        split <;> exact h
    · split at ht
      · split at ht <;> cases ht <;> exact h
      · cases ht; exact h
    · cases ht
    · cases ht

/-- A process that `alive_cnt` came to had failed. -/
theorem SeesFailure.anyFailed {as : List Action} (h : Reaches cfg calls as s)
    (hf : SeesFailure cfg calls as) : s.AnyFailed := by
  obtain ⟨pre, post, t, rfl, hr, p, idx, cnt, del, j, e, -, -, he, hx⟩ := hf
  rw [Reaches, exec_append, hr, Option.bind_some] at h
  exact ⟨j, e, exec_inv (step cfg) (I := fun s => s.ended j = some e)
    (fun hs ht => ended_step ht hs) he h, JobEnd.failed_of_exitcode hx⟩

/-- Whether `FAILURE_EXIT` reports the failures of a run that has come to
the end of `wait`, or of the parent: exactly if no job failed, or
`alive_cnt`, polling in a later call of `run`, came to a job that had
already ended with a nonzero exit code. -/
theorem failureReported_iff (hm : cfg.failureMode = .failureExit) {as : List Action}
    (h : Reaches cfg calls as s) (_hend : s.pc = .returned ∨ s.pc = .exited) :
    FailureReported s ↔ ¬ s.AnyFailed ∨ SeesFailure cfg calls as := by
  have ha := abortCalled_iff hm as h
  constructor
  · rintro ⟨h1, -⟩
    by_cases hf : s.AnyFailed
    · exact .inr (ha.mp (h1 hf))
    · exact .inl hf
  · rintro (hf | hf)
    · refine ⟨fun h => absurd h hf, fun _ => ?_⟩
      rw [Bool.eq_false_iff, Ne, ha]
      exact fun hs => hf (hs.anyFailed h)
    · exact ⟨fun _ => ha.mpr hf, fun hn => absurd (hf.anyFailed h) hn⟩

/-- On one core, with PMFuzz's handler installed. -/
def oneCore : Config := ⟨1, .failureExit, true, le_rfl⟩

/-- One job, which raises after the only call of `run` has started it. -/
def lateFailure : List Action := [.tick, .tick, .finish 0 .raised, .tick, .tick, .tick]

/-- Two jobs; the first calls `abort`, and the second call of `run` looks at
it. -/
def abortedJob : List Action :=
  [.tick, .tick, .finish 0 .aborted, .tick, .tick, .tick, .finish 1 .returned, .tick, .tick, .tick]

/-- The ends of these two runs. -/
def lateFailureEnd : Pool Unit :=
  { todo := [], pc := .returned, pobjs := [0], started := [()],
    ended := Function.update (fun _ => none) 0 (some .raised), abortCalled := false }

def abortedJobEnd : Pool Unit :=
  { todo := [], pc := .returned, pobjs := [1], started := [(), ()],
    ended := Function.update (Function.update (fun _ => none) 0 (some .aborted)) 1 (some .returned),
    abortCalled := false }

/-- `wait` returns after both runs, a job has failed in each, and the parent
has not called `abort`. -/
theorem failure_exit_swallows :
    (Reaches oneCore [()] lateFailure lateFailureEnd ∧ lateFailureEnd.pc = .returned ∧
      ¬ FailureReported lateFailureEnd) ∧
    Reaches oneCore [(), ()] abortedJob abortedJobEnd ∧ abortedJobEnd.pc = .returned ∧
      ¬ FailureReported abortedJobEnd := by
  refine ⟨⟨?_, rfl, fun h => ?_⟩, ?_, rfl, fun h => ?_⟩
  · simp [Reaches, lateFailure, lateFailureEnd, oneCore, exec, step, Pool.tick, init,
      Pool.afterCount, delete, Pool.Alive]
  · have := h.1 ⟨0, .raised, by simp [lateFailureEnd], by decide⟩
    simp [lateFailureEnd] at this
  · simp [Reaches, abortedJob, abortedJobEnd, oneCore, exec, step, Pool.tick, init,
      Pool.afterCount, Pool.look, delete, Pool.Alive, JobEnd.exitcode]
  · have := h.1 ⟨0, .aborted, by simp [abortedJobEnd], by decide⟩
    simp [abortedJobEnd] at this

/-- `failureReported_iff` on a run in which the second call of `run` comes
to a job that has raised. -/
theorem failureReported_raised :
    let as : List Action := [.tick, .tick, .finish 0 .raised, .tick, .tick]
    let s : Pool Unit :=
      { todo := [()], pc := .exited, pobjs := [0], started := [()],
        ended := Function.update (fun _ => none) 0 (some .raised), abortCalled := true }
    FailureReported s ↔ ¬ s.AnyFailed ∨ SeesFailure oneCore [(), ()] as :=
  failureReported_iff rfl (by
    simp [Reaches, oneCore, exec, step, Pool.tick, init, Pool.afterCount, Pool.look, delete,
      Pool.Alive, JobEnd.exitcode]) (.inr rfl)

end PMFuzz.Parallel
