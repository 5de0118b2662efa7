import PMFuzz.Parallel.Bounds

/-!
# Every call of `run` completes

The polling loops of `run` and `wait` end once the processes they wait for
have: from every state a `Parallel` object goes through, some ending of the
live processes lets the parent come to the end of `wait`
(`Reaches.completes`). `job_runner` puts the capacity bound, the order of
starting and the completion together. Under `FAILURE_EXIT` the parent may end in
`run`, at a job that failed, and that call starts nothing (`not_started_failureExit`).
-/

namespace PMFuzz.Parallel

open Run

variable {α : Type} {cfg : Config} {calls : List α} {s t u : Pool α}

/-- Some continuation brings the parent to the end of its calls. -/
def Completes (cfg : Config) (s : Pool α) : Prop :=
  ∃ as t, exec (step cfg) s as = some t ∧ (t.pc = .returned ∨ t.pc = .exited)

theorem Completes.of_exec {as : List Action} (h : exec (step cfg) s as = some u)
    (hu : Completes cfg u) : Completes cfg s := by
  obtain ⟨bs, t, hbs, ht⟩ := hu
  exact ⟨as ++ bs, t, by rw [exec_append, h]; exact hbs, ht⟩

theorem exec_tick (h : s.tick cfg = some u) : exec (step cfg) s [.tick] = some u := by
  rw [exec_cons, step, h, Option.bind_some, exec_nil]

theorem Completes.of_tick (h : s.tick cfg = some u) (hu : Completes cfg u) : Completes cfg s :=
  .of_exec (exec_tick h) hu

/-- Every process can end, the parent staying where it is. -/
theorem all_end (cfg : Config) (s : Pool α) (js : List ℕ) :
    ∃ as f, exec (step cfg) s as = some { s with ended := f } ∧
      (∀ j, s.ended j ≠ none → f j ≠ none) ∧ ∀ j ∈ js, j < s.started.length → f j ≠ none := by
  induction js generalizing s with
  | nil => exact ⟨[], s.ended, rfl, fun _ => id, by simp⟩
  | cons j js ih =>
    by_cases ha : s.Alive j
    · obtain ⟨as, f, he, hk, hf⟩ := ih { s with ended := Function.update s.ended j (some .returned) }
      refine ⟨.finish j .returned :: as, f, ?_, fun k hk' => hk k (finish_ne_none hk'), ?_⟩
      · rw [exec_cons, step, if_pos ha]
        exact he
      · intro k hkj hlt
        rcases List.mem_cons.mp hkj with rfl | hkj
        · exact hk _ (by simp)
        · exact hf k hkj hlt
    · obtain ⟨as, f, he, hk, hf⟩ := ih s
      refine ⟨as, f, he, hk, fun k hkj hlt => ?_⟩
      rcases List.mem_cons.mp hkj with rfl | hkj
      · exact hk _ fun hn => ha ⟨hlt, hn⟩
      · exact hf k hkj hlt

/-- With every process of `pobjs` dead, a pass of `alive_cnt` comes to its
end without counting any more. -/
theorem count_out (cfg : Config) (n : ℕ) : ∀ {s : Pool α} {p : α} {idx cnt : ℕ} {del : List ℕ},
    s.pc = .counting p idx cnt del → s.pobjs.length - idx = n →
    (∀ j ∈ s.pobjs, s.ended j ≠ none) →
    ∃ as t, exec (step cfg) s as = some t ∧ t.todo = s.todo ∧ t.pobjs = s.pobjs ∧
      t.ended = s.ended ∧
      (t.pc = .exited ∨ ∃ idx' del', t.pc = .counting p idx' cnt del' ∧ t.pobjs[idx']? = none) := by
  induction n with
  | zero =>
    intro s p idx cnt del hpc hn _
    exact ⟨[], s, rfl, rfl, rfl, rfl, .inr ⟨idx, del, hpc, List.getElem?_eq_none (by omega)⟩⟩
  | succ n ih =>
    intro s p idx cnt del hpc hn hd
    have hlt : idx < s.pobjs.length := by omega
    have hj : s.pobjs[idx]? = some s.pobjs[idx] := List.getElem?_eq_getElem hlt
    obtain ⟨e, he⟩ := Option.ne_none_iff_exists'.mp (hd _ (List.getElem_mem hlt))
    have ht : s.tick cfg = some (s.look cfg p idx cnt del s.pobjs[idx]) := by
      simp only [Pool.tick, hpc, hj]
    have hcases : ∃ pc b, s.look cfg p idx cnt del s.pobjs[idx] =
        { s with pc := pc, abortCalled := b } ∧
        (pc = .exited ∨ pc = .counting p (idx + 1) cnt (del ++ [idx])) := by
      unfold Pool.look
      simp only [he]
      split
      · refine ⟨_, true, rfl, ?_⟩
        cases cfg.handler
        · exact .inr rfl
        · exact .inl rfl
      · exact ⟨_, s.abortCalled, rfl, .inr rfl⟩
    obtain ⟨pc, b, hlook, rfl | rfl⟩ := hcases
    · exact ⟨[.tick], _, exec_tick ht, by rw [hlook], by rw [hlook], by rw [hlook],
        .inl (by rw [hlook])⟩
    · obtain ⟨as, t, hexec, h1, h2, h3, h4⟩ := ih
        (s := { s with pc := .counting p (idx + 1) cnt (del ++ [idx]), abortCalled := b })
        rfl (show s.pobjs.length - (idx + 1) = n by omega) hd
      refine ⟨.tick :: as, t, ?_, h1, h2, h3, h4⟩
      rw [exec_cons, step, ht, hlook]
      exact hexec

/-- With every process of `pobjs` dead, a call of `run` ends: `alive_cnt` is
at most once more at capacity, from processes counted before they ended. -/
theorem run_returns {p : α} {idx cnt : ℕ} {del : List ℕ} (hpc : s.pc = .counting p idx cnt del)
    (hd : ∀ j ∈ s.pobjs, s.ended j ≠ none) (htodo : s.todo.head? = some p) :
    ∃ as t, exec (step cfg) s as = some t ∧
      (t.pc = .exited ∨ t.pc = .ready ∧ t.todo.length + 1 = s.todo.length) := by
  have hlen : s.todo.tail.length + 1 = s.todo.length := by
    obtain ⟨rest, hrest⟩ := List.head?_eq_some_iff.mp htodo
    simp [hrest]
  obtain ⟨as, t, he, ht1, ht2, ht3, hex | ⟨idx', del', hpc', hnone⟩⟩ := count_out cfg _ hpc rfl hd
  · exact ⟨as, t, he, .inl hex⟩
  have htick : t.tick cfg = some (t.afterCount cfg p cnt del') := by
    simp only [Pool.tick, hpc', hnone]
  by_cases hc : cnt = cfg.cores
  · -- at capacity once more: the next pass counts nothing
    have hafter : t.afterCount cfg p cnt del' =
        { t with pobjs := delete del' t.pobjs, pc := .counting p 0 0 [] } := by
      simp only [Pool.afterCount, if_pos hc]
    obtain ⟨bs, u, hu, hu1, -, -, hux | ⟨idx'', del'', hpc'', hnone''⟩⟩ := count_out cfg _
      (s := { t with pobjs := delete del' t.pobjs, pc := .counting p 0 0 [] }) rfl rfl
      (fun j hj => by
        show t.ended j ≠ none
        rw [ht3]
        exact hd j (ht2 ▸ (delete_sublist _ _).subset hj))
    · refine ⟨as ++ .tick :: bs, u, ?_, .inl hux⟩
      rw [exec_append, he, Option.bind_some, exec_cons, step, htick, hafter]
      exact hu
    · have htick' : u.tick cfg = some (u.afterCount cfg p 0 del'') := by
        simp only [Pool.tick, hpc'', hnone'']
      have hne : ¬ 0 = cfg.cores := by have := cfg.cores_pos; omega
      refine ⟨as ++ .tick :: (bs ++ [.tick]), u.afterCount cfg p 0 del'', ?_, .inr ⟨?_, ?_⟩⟩
      · rw [exec_append, he, Option.bind_some, exec_cons, step, htick, hafter, Option.bind_some,
          exec_append, hu, Option.bind_some]
        exact exec_tick htick'
      · simp only [Pool.afterCount, if_neg hne]
      · simp only [Pool.afterCount, if_neg hne]
        rw [hu1, ← hlen, ht1]
  · refine ⟨as ++ [.tick], t.afterCount cfg p cnt del', ?_, .inr ⟨?_, ?_⟩⟩
    · rw [exec_append, he, Option.bind_some]
      exact exec_tick htick
    · simp only [Pool.afterCount, if_neg hc]
    · simp only [Pool.afterCount, if_neg hc]
      rw [ht1, hlen]

/-- With every process of `pobjs` dead, `wait` returns. -/
theorem wait_returns (n : ℕ) : ∀ {s : Pool α} {idx : ℕ}, s.pc = .waiting idx →
    s.pobjs.length - idx = n → (∀ j ∈ s.pobjs, s.ended j ≠ none) → Completes cfg s := by
  induction n with
  | zero =>
    intro s idx hpc hn _
    have hnone : s.pobjs[idx]? = none := List.getElem?_eq_none (by omega)
    exact ⟨[.tick], { s with pc := .returned }, exec_tick (by simp only [Pool.tick, hpc, hnone]),
      .inl rfl⟩
  | succ n ih =>
    intro s idx hpc hn hd
    have hlt : idx < s.pobjs.length := by omega
    have hj : s.pobjs[idx]? = some s.pobjs[idx] := List.getElem?_eq_getElem hlt
    obtain ⟨e, he⟩ := Option.ne_none_iff_exists'.mp (hd _ (List.getElem_mem hlt))
    refine .of_tick (u := { s with pc := .waiting (idx + 1) }) ?_
      (ih rfl (show s.pobjs.length - (idx + 1) = n by omega) hd)
    simp only [Pool.tick, hpc, hj, he]

/-- From every state a `Parallel` object goes through, by induction on the
calls still to come. -/
theorem Inv.completes (n : ℕ) : ∀ {s : Pool α}, Inv cfg calls s → s.todo.length = n →
    Completes cfg s := by
  induction n with
  | zero =>
    intro s h hn
    have hnil := List.length_eq_zero_iff.mp hn
    obtain ⟨as, f, he, -, hf⟩ := all_end cfg s s.pobjs
    have hd : ∀ j ∈ s.pobjs, f j ≠ none := fun j hj => hf j hj (h.started j hj)
    refine .of_exec he ?_
    have hat := h.atPc
    cases hpc : s.pc with
    | ready =>
      refine .of_tick (u := { s with ended := f, pc := .waiting 0 })
        (by simp only [Pool.tick, hnil]) (wait_returns _ rfl rfl hd)
    | counting p idx cnt del =>
      rw [hpc] at hat
      have := hat.call
      simp [hnil] at this
    | waiting idx => exact wait_returns _ rfl rfl hd
    | returned => exact ⟨[], _, rfl, .inl rfl⟩
    | exited => exact ⟨[], _, rfl, .inr rfl⟩
  | succ n ih =>
    intro s h hn
    have key : ∀ {s : Pool α} {p : α} {idx cnt : ℕ} {del : List ℕ}, Inv cfg calls s →
        s.todo.length = n + 1 → s.pc = .counting p idx cnt del → Completes cfg s := by
      intro s p idx cnt del h hn hpc
      obtain ⟨as, f, he, -, hf⟩ := all_end cfg s s.pobjs
      have hat := h.atPc
      rw [hpc] at hat
      obtain ⟨bs, t, ht, hx | ⟨-, hlen⟩⟩ := run_returns (s := { s with ended := f }) hpc
        (fun j hj => hf j hj (h.started j hj)) hat.call
      · exact .of_exec he ⟨bs, t, ht, .inr hx⟩
      · have hexec : exec (Parallel.step cfg) s (as ++ bs) = some t := by rw [exec_append, he]; exact ht
        refine .of_exec hexec (ih (exec_inv (Parallel.step cfg) (fun hs ht => hs.step ht) h hexec) ?_)
        have : t.todo.length + 1 = s.todo.length := hlen
        omega
    have hat := h.atPc
    cases hpc : s.pc with
    | ready =>
      cases htodo : s.todo with
      | nil => simp [htodo] at hn
      | cons p rest =>
        have ht : s.tick cfg = some { s with pc := .counting p 0 0 [] } := by
          simp only [Pool.tick, hpc, htodo]
        exact .of_tick ht (key (h.tick ht) hn rfl)
    | counting p idx cnt del => exact key h hn hpc
    | waiting idx =>
      rw [hpc] at hat
      simp [hat.1] at hn
    | returned => exact ⟨[], s, rfl, .inl hpc⟩
    | exited => exact ⟨[], s, rfl, .inr hpc⟩

/-- A `Parallel` object never gets stuck. -/
theorem Reaches.completes {as : List Action} (h : Reaches cfg calls as s) : Completes cfg s :=
  h.inv.completes _ rfl

/-- In every state a `Parallel` object goes through, at most `cores`
processes are alive; the parameter lists started, followed by those still to
start, are the calls in their order; `alive_cnt` drops only processes that
have ended; when `wait` has returned, all calls have been started and no
process is alive; the parent has ended without it only under `FAILURE_EXIT`, at a
job that failed; and the calls can always be brought to their end. -/
theorem job_runner {as : List Action} (h : Reaches cfg calls as s) :
    s.aliveJobs ≤ cfg.cores ∧ s.started ++ s.todo = calls ∧
    (∀ a t, step cfg s a = some t → ∀ j ∈ s.pobjs, j ∉ t.pobjs → s.ended j ≠ none) ∧
    (s.pc = .returned → s.started = calls ∧ s.aliveJobs = 0) ∧ (s.pc = .exited → Exits s cfg) ∧
    Completes cfg s := by
  have hi := h.inv
  have hat := hi.atPc
  refine ⟨hi.aliveJobs_eq ▸ hi.bound, hi.order, fun a t ht j hj hd => hi.dropped_ended ht hj hd,
    fun hpc => ?_, fun hpc => ?_, h.completes⟩
  · rw [hpc] at hat
    refine ⟨by rw [← hi.order, hat.1, List.append_nil], ?_⟩
    rw [hi.aliveJobs_eq, Pool.unended, List.countP_eq_zero]
    exact fun j hj => by simpa using hat.2 j hj
  · rwa [hpc] at hat

/-- Two calls on one core: the second waits for the end of the first. -/
theorem job_runner_two_calls :
    let cfg : Config := ⟨1, .failureExit, true, le_rfl⟩
    let s : Pool ℕ :=
      { todo := [8], pc := .counting 8 1 1 [], pobjs := [0], started := [7],
        ended := fun _ => none, abortCalled := false }
    s.aliveJobs ≤ cfg.cores ∧ s.started ++ s.todo = [7, 8] ∧
    (∀ a t, step cfg s a = some t → ∀ j ∈ s.pobjs, j ∉ t.pobjs → s.ended j ≠ none) ∧
    (s.pc = .returned → s.started = [7, 8] ∧ s.aliveJobs = 0) ∧ (s.pc = .exited → Exits s cfg) ∧
    Completes cfg s :=
  have h : Reaches ⟨1, .failureExit, true, le_rfl⟩ [7, 8] [.tick, .tick, .tick, .tick] _ := by
    simp [Reaches, exec, step, Pool.tick, init, Pool.afterCount, Pool.look, delete]
  job_runner h

/-- The first of two calls on one core fails: the second is not started, whatever
happens then. -/
theorem not_started_failureExit :
    ∃ as s, Reaches ⟨1, .failureExit, true, le_rfl⟩ [7, 8] as s ∧ s.pc = .exited ∧
      ∀ bs t, exec (step ⟨1, .failureExit, true, le_rfl⟩) s bs = some t → t.started = [7] := by
  refine ⟨[.tick, .tick, .tick, .finish 0 .raised, .tick],
    { todo := [8], pc := .exited, pobjs := [0], started := [7],
      ended := Function.update (fun _ => none) 0 (some .raised), abortCalled := true }, ?_, rfl, ?_⟩
  · simp [Reaches, exec, step, Pool.tick, init, Pool.afterCount, Pool.look, Pool.Alive, delete, JobEnd.exitcode]
  · intro bs t h
    cases bs with
    | nil =>
      cases h
      rfl
    | cons a bs =>
      -- nothing happens any more
      have hstuck : step ⟨1, .failureExit, true, le_rfl⟩
          { todo := [8], pc := .exited, pobjs := [0], started := [7],
            ended := Function.update (fun _ => none) 0 (some .raised), abortCalled := true } a = none := by
        cases a with
        | tick => rfl
        | finish j e =>
          refine if_neg ?_
          rintro ⟨hj, he⟩
          obtain rfl : j = 0 := Nat.lt_one_iff.mp hj
          cases he
      rw [exec_cons, hstuck] at h
      cases h

end PMFuzz.Parallel
