import PMFuzz.Parallel.Model
import Mathlib.Data.List.Count
import Mathlib.Data.List.Perm.Basic
import Mathlib.Data.List.Sort

/-!
# The job runner is bounded and loses nothing

`Inv` holds of every state a `Parallel` object goes through (`Inv.step`,
`Reaches.inv`). Its capacity part is carried through the polling loop by
`Counted`: the processes of `pobjs` not yet looked at, with those counted,
are at most `cores`, and those looked at that are still alive are at most
the count. `delete_mem` is what the deletion by index does.
-/

namespace PMFuzz.Parallel

open Run

variable {α : Type}

/-! ## Deletion by index -/

/-- Deleting at falling indices keeps what stands at any other index. -/
theorem getElem_mem_foldl_eraseIdx {d l : List ℕ} (hd : d.Pairwise (· > ·)) {k : ℕ}
    (hk : k < l.length) (hkd : k ∉ d) : l[k] ∈ d.foldl (fun l i => l.eraseIdx i) l := by
  induction d generalizing l k with
  | nil => exact List.getElem_mem hk
  | cons i d ih =>
    obtain ⟨hid, hd⟩ := List.pairwise_cons.mp hd
    obtain ⟨hki, hkd⟩ := not_or.mp (List.mem_cons.not.mp hkd)
    rw [List.foldl_cons]
    rcases Nat.lt_or_gt_of_ne hki with hlt | hgt
    · have hl : k < (l.eraseIdx i).length := by rw [List.length_eraseIdx]; split <;> omega
      have := ih hd hl hkd
      rwa [List.getElem_eraseIdx_of_lt hl hlt] at this
    · -- what stood at `k` now stands at `k - 1`, beyond every index still to come
      have hl : k - 1 < (l.eraseIdx i).length := by rw [List.length_eraseIdx]; split <;> omega
      have := ih hd hl fun h => absurd (hid _ h) (by omega)
      rw [List.getElem_eraseIdx_of_ge hl (by omega)] at this
      simpa only [Nat.sub_add_cancel (show 1 ≤ k by omega)] using this

theorem foldl_eraseIdx_sublist (d l : List ℕ) : (d.foldl (fun l i => l.eraseIdx i) l).Sublist l := by
  induction d generalizing l with
  | nil => exact List.Sublist.refl l
  | cons i d ih => exact (ih _).trans (List.eraseIdx_sublist ..)

theorem delete_sublist (del l : List ℕ) : (delete del l).Sublist l := foldl_eraseIdx_sublist _ _

/-- Deleting at rising indices drops only what stands at one of them. -/
theorem delete_mem {del l : List ℕ} (hd : del.Pairwise (· < ·)) {j : ℕ} (hj : j ∈ l)
    (hdel : j ∉ delete del l) : ∃ k ∈ del, l[k]? = some j := by
  obtain ⟨k, hk, rfl⟩ := List.getElem_of_mem hj
  by_contra hno
  have hkd : k ∉ del := fun h => hno ⟨k, h, List.getElem?_eq_getElem hk⟩
  refine hdel (getElem_mem_foldl_eraseIdx ?_ hk (by rwa [List.mem_mergeSort]))
  have hs : (del.mergeSort fun a b => decide (b ≤ a)).Pairwise fun a b => decide (b ≤ a) = true :=
    List.pairwise_mergeSort (by simpa using fun a b c h h' => Nat.le_trans h' h)
      (by simpa using fun a b => Nat.le_total b a) del
  have hn : (del.mergeSort fun a b => decide (b ≤ a)).Nodup :=
    (List.mergeSort_perm del _).nodup_iff.mpr (hd.imp fun h => Nat.ne_of_lt h)
  refine (hs.and hn).imp fun h => ?_
  have := of_decide_eq_true h.1
  have := h.2
  omega

/-! ## The invariant -/

/-- The processes of `l` that have not ended. -/
def Pool.unended (s : Pool α) (l : List ℕ) : ℕ := l.countP fun j => (s.ended j).isNone

/-- `alive_cnt` after looking at `idx` processes. -/
structure Counted (s : Pool α) (cfg : Config) (p : α) (idx cnt : ℕ) (del : List ℕ) : Prop where
  call : s.todo.head? = some p
  rising : del.Pairwise (· < ·)
  dead : ∀ k ∈ del, k < idx ∧ ∃ j e, s.pobjs[k]? = some j ∧ s.ended j = some e
  seen : s.unended (s.pobjs.take idx) ≤ cnt
  room : cnt + s.unended (s.pobjs.drop idx) ≤ cfg.cores

/-- `alive_cnt` has ended the parent, at a job that failed. -/
structure Exits (s : Pool α) (cfg : Config) : Prop where
  mode : cfg.failureMode = .failureExit
  handler : cfg.handler = true
  failed : ∃ j e, s.ended j = some e ∧ e.exitcode ≠ 0

/-- What holds at the parent's place in the code. -/
def AtPc (s : Pool α) (cfg : Config) : Pc α → Prop
  | .ready => True
  | .counting p idx cnt del => Counted s cfg p idx cnt del
  | .waiting idx => s.todo = [] ∧ ∀ j ∈ s.pobjs.take idx, s.ended j ≠ none
  | .returned => s.todo = [] ∧ ∀ j ∈ s.pobjs, s.ended j ≠ none
  | .exited => Exits s cfg

structure Inv (cfg : Config) (calls : List α) (s : Pool α) : Prop where
  order : s.started ++ s.todo = calls
  started : ∀ j ∈ s.pobjs, j < s.started.length
  nodup : s.pobjs.Nodup
  tracked : ∀ j, s.Alive j → j ∈ s.pobjs
  ended : ∀ j e, s.ended j = some e → j < s.started.length
  bound : s.unended s.pobjs ≤ cfg.cores
  atPc : AtPc s cfg s.pc

theorem inv_init (cfg : Config) (calls : List α) : Inv cfg calls (init calls) :=
  ⟨rfl, by simp [init], List.nodup_nil, by simp [init, Pool.Alive], by simp [init],
    Nat.zero_le _, trivial⟩

/-- The processes alive are those of `pobjs` that have not ended. -/
theorem Inv.aliveJobs_eq {cfg : Config} {calls : List α} {s : Pool α} (h : Inv cfg calls s) :
    s.aliveJobs = s.unended s.pobjs := by
  rw [Pool.aliveJobs, Pool.unended, List.countP_eq_length_filter, List.countP_eq_length_filter]
  refine List.Perm.length_eq ((List.perm_ext_iff_of_nodup (List.nodup_range.filter _)
    (h.nodup.filter _)).mpr fun j => ?_)
  simp only [List.mem_filter, List.mem_range, decide_eq_true_eq, Option.isNone_iff_eq_none]
  exact ⟨fun ⟨_, ha⟩ => ⟨h.tracked j ha, ha.2⟩,
    fun ⟨hj, he⟩ => ⟨h.started j hj, h.started j hj, he⟩⟩

/-! ## One step -/

section Step

variable {cfg : Config} {calls : List α} {s t : Pool α}

/-- The end of a process changes only what `ended` says, and only for it. -/
theorem unended_finish (s : Pool α) (j : ℕ) (e : JobEnd) (l : List ℕ) :
    Pool.unended { s with ended := Function.update s.ended j (some e) } l ≤ s.unended l := by
  refine List.countP_mono_left fun k _ hk => ?_
  by_cases h : k = j
  · subst h; simp at hk
  · simpa [h] using hk

theorem finish_ne_none {f : ℕ → Option JobEnd} {j k : ℕ} {e : JobEnd} (h : f k ≠ none) :
    Function.update f j (some e) k ≠ none := by
  by_cases hk : k = j
  · subst hk; simp
  · rwa [Function.update_of_ne hk]

theorem Inv.finish (h : Inv cfg calls s) {j : ℕ} (e : JobEnd) (ha : s.Alive j) :
    Inv cfg calls { s with ended := Function.update s.ended j (some e) } := by
  refine ⟨h.order, h.started, h.nodup, fun k hk => h.tracked k ⟨hk.1, ?_⟩, fun k e' hk => ?_,
    (unended_finish s j e _).trans h.bound, ?_⟩
  · by_contra hne
    exact finish_ne_none hne hk.2
  · by_cases hkj : k = j
    · exact hkj ▸ ha.1
    · exact h.ended k e' (by simpa [hkj] using hk)
  · have hpc := h.atPc
    revert hpc
    cases hp : s.pc with
    | ready => exact id
    | counting p idx cnt del =>
      intro ⟨c, r, d, se, ro⟩
      refine ⟨c, r, fun k hk => ?_, (unended_finish s j e _).trans se,
        (Nat.add_le_add_left (unended_finish s j e _) _).trans ro⟩
      obtain ⟨hlt, i, e', hi, he⟩ := d k hk
      obtain ⟨e'', he''⟩ := Option.ne_none_iff_exists'.mp
        (finish_ne_none (f := s.ended) (j := j) (e := e) (k := i) (by rw [he]; simp))
      exact ⟨hlt, i, e'', hi, he''⟩
    | waiting idx => exact fun ⟨ht, hd⟩ => ⟨ht, fun k hk => finish_ne_none (hd k hk)⟩
    | returned => exact fun ⟨ht, hd⟩ => ⟨ht, fun k hk => finish_ne_none (hd k hk)⟩
    | exited =>
      intro ⟨hm, hh, k, e', hk, hx⟩
      have hne : k ≠ j := by
        rintro rfl
        exact absurd (ha.2.symm.trans hk) nofun
      exact ⟨hm, hh, k, e', (Function.update_of_ne hne _ _).trans hk, hx⟩

theorem unended_append (s : Pool α) (l l' : List ℕ) :
    s.unended (l ++ l') = s.unended l + s.unended l' := List.countP_append

theorem take_succ_of_getElem? {l : List ℕ} {idx j : ℕ} (h : l[idx]? = some j) :
    l.take (idx + 1) = l.take idx ++ [j] := by
  rw [List.take_add_one, h, Option.toList_some]

theorem drop_of_getElem? {l : List ℕ} {idx j : ℕ} (h : l[idx]? = some j) :
    l.drop idx = j :: l.drop (idx + 1) := by
  obtain ⟨hlt, rfl⟩ := List.getElem?_eq_some_iff.mp h
  exact List.drop_eq_getElem_cons hlt

/-- Looking at a live process counts it. -/
theorem Counted.alive {p : α} {idx cnt j : ℕ} {del : List ℕ} (h : Counted s cfg p idx cnt del)
    (hj : s.pobjs[idx]? = some j) (he : s.ended j = none) :
    Counted s cfg p (idx + 1) (cnt + 1) del := by
  have hu : s.unended [j] = 1 := by simp [Pool.unended, he]
  have hr := h.room
  have hs := h.seen
  rw [drop_of_getElem? hj, ← List.singleton_append, unended_append, hu] at hr
  refine ⟨h.call, h.rising, fun k hk => ⟨(h.dead k hk).1.trans (Nat.lt_succ_self _), (h.dead k hk).2⟩,
    ?_, by omega⟩
  rw [take_succ_of_getElem? hj, unended_append, hu]
  omega

/-- Looking at a dead process marks it for deletion. -/
theorem Counted.dead_one {p : α} {idx cnt j : ℕ} {del : List ℕ} {e : JobEnd}
    (h : Counted s cfg p idx cnt del) (hj : s.pobjs[idx]? = some j) (he : s.ended j = some e) :
    Counted s cfg p (idx + 1) cnt (del ++ [idx]) := by
  have hu : s.unended [j] = 0 := by simp [Pool.unended, he]
  have hr := h.room
  have hs := h.seen
  rw [drop_of_getElem? hj, ← List.singleton_append, unended_append, hu] at hr
  refine ⟨h.call, ?_, fun k hk => ?_, ?_, by omega⟩
  · refine List.pairwise_append.mpr ⟨h.rising, List.pairwise_singleton _ _, fun a ha b hb => ?_⟩
    rw [List.mem_singleton.mp hb]
    exact (h.dead a ha).1
  · rcases List.mem_append.mp hk with hk | hk
    · exact ⟨(h.dead k hk).1.trans (Nat.lt_succ_self _), (h.dead k hk).2⟩
    · rw [List.mem_singleton.mp hk]
      exact ⟨Nat.lt_succ_self _, j, e, hj, he⟩
  · rw [take_succ_of_getElem? hj, unended_append, hu]
    omega

/-- `Counted` is about `todo`, `pobjs` and `ended` only. -/
theorem Counted.withPc {p : α} {idx cnt : ℕ} {del : List ℕ} (h : Counted s cfg p idx cnt del)
    (pc : Pc α) (b : Bool) : Counted { s with pc := pc, abortCalled := b } cfg p idx cnt del :=
  ⟨h.call, h.rising, h.dead, h.seen, h.room⟩

theorem Inv.look (h : Inv cfg calls s) {p : α} {idx cnt j : ℕ} {del : List ℕ}
    (hpc : Counted s cfg p idx cnt del) (hj : s.pobjs[idx]? = some j) :
    Inv cfg calls (s.look cfg p idx cnt del j) := by
  unfold Pool.look
  split
  · rename_i he
    exact { h with atPc := (hpc.alive hj he).withPc _ _ }
  · rename_i e he
    have hd := hpc.dead_one hj he
    split
    · rename_i hfail
      refine { h with atPc := ?_ }
      cases hh : cfg.handler
      · exact hd.withPc _ _
      · exact ⟨hfail.1, hh, j, e, he, hfail.2⟩
    · exact { h with atPc := hd.withPc _ _ }

/-- The processes dropped at the end of `alive_cnt` have ended. -/
theorem Counted.dropped_ended {p : α} {idx cnt : ℕ} {del : List ℕ}
    (h : Counted s cfg p idx cnt del) {j : ℕ} (hj : j ∈ s.pobjs) (hd : j ∉ delete del s.pobjs) :
    s.ended j ≠ none := by
  obtain ⟨k, hk, hkj⟩ := delete_mem h.rising hj hd
  obtain ⟨-, j', e, hj', he⟩ := h.dead k hk
  rw [hkj, Option.some.injEq] at hj'
  rw [hj', he]
  exact Option.some_ne_none e

/-- At the end of `alive_cnt`, the count bounds the processes alive. -/
theorem Counted.unended_le {p : α} {idx cnt : ℕ} {del : List ℕ}
    (h : Counted s cfg p idx cnt del) (hidx : s.pobjs[idx]? = none) :
    s.unended s.pobjs ≤ cnt ∧ cnt ≤ cfg.cores := by
  have hs := h.seen
  have hr := h.room
  rw [List.take_of_length_le (List.getElem?_eq_none_iff.mp hidx)] at hs
  omega

theorem unended_sublist (s : Pool α) {l l' : List ℕ} (h : l.Sublist l') :
    s.unended l ≤ s.unended l' := h.countP_le

/-- `alive_cnt` ends: below capacity, starting one more process keeps the
bound. -/
theorem Inv.afterCount (h : Inv cfg calls s) {p : α} {idx cnt : ℕ} {del : List ℕ}
    (hpc : Counted s cfg p idx cnt del) (hidx : s.pobjs[idx]? = none) :
    Inv cfg calls (s.afterCount cfg p cnt del) := by
  obtain ⟨hle, hcores⟩ := hpc.unended_le hidx
  have hsub := delete_sublist del s.pobjs
  have htracked : ∀ j, s.Alive j → j ∈ delete del s.pobjs := fun j hj =>
    by_contra fun hd => hpc.dropped_ended (h.tracked j hj) hd hj.2
  have hbound := (unended_sublist s hsub).trans hle
  have hnew : s.ended s.started.length = none := by
    by_contra hne
    obtain ⟨e, he⟩ := Option.ne_none_iff_exists'.mp hne
    exact Nat.lt_irrefl _ (h.ended _ e he)
  unfold Pool.afterCount
  split
  · exact ⟨h.order, fun j hj => h.started j (hsub.subset hj), h.nodup.sublist hsub, htracked,
      h.ended, hbound.trans hcores, hpc.call, List.Pairwise.nil, by simp, by simp [Pool.unended],
      (Nat.zero_add _).le.trans (hbound.trans hcores)⟩
  · rename_i hne
    obtain ⟨rest, hrest⟩ := List.head?_eq_some_iff.mp hpc.call
    refine ⟨?_, fun j hj => ?_, ?_, fun j hj => ?_, fun j e he => ?_, ?_, trivial⟩
    · rw [← h.order, hrest]; simp
    · rw [List.length_append, List.length_singleton]
      rcases List.mem_append.mp hj with hj | hj
      · exact (h.started j (hsub.subset hj)).trans (Nat.lt_succ_self _)
      · rw [List.mem_singleton.mp hj]; exact Nat.lt_succ_self _
    · refine List.nodup_append.mpr ⟨h.nodup.sublist hsub, List.nodup_singleton _, ?_⟩
      intro a ha b hb hab
      rw [List.mem_singleton.mp hb] at hab
      exact Nat.lt_irrefl _ (hab ▸ h.started a (hsub.subset ha))
    · obtain ⟨hlt, he⟩ := hj
      rw [List.length_append, List.length_singleton] at hlt
      rcases Nat.lt_succ_iff_lt_or_eq.mp hlt with hlt | rfl
      · exact List.mem_append_left _ (htracked j ⟨hlt, he⟩)
      · exact List.mem_append_right _ (List.mem_singleton_self _)
    · have := h.ended j e he
      rw [List.length_append, List.length_singleton]
      omega
    · -- the new process is alive, and `cnt < cores` leaves room for it
      show Pool.unended s (delete del s.pobjs ++ [s.started.length]) ≤ cfg.cores
      rw [unended_append, Pool.unended, Pool.unended, List.countP_singleton, hnew]
      simp only [Pool.unended] at hbound
      simp only [Option.isNone_none, ite_true]
      omega

theorem Inv.tick (h : Inv cfg calls s) (ht : s.tick cfg = some t) : Inv cfg calls t := by
  have hat := h.atPc
  unfold Pool.tick at ht
  split at ht
  · split at ht <;> cases ht
    · rename_i p _ htodo
      exact { h with atPc := ⟨by simp [htodo], List.Pairwise.nil, by simp, by simp [Pool.unended],
        (Nat.zero_add _).le.trans h.bound⟩ }
    · rename_i htodo
      exact { h with atPc := ⟨htodo, by simp⟩ }
  · rename_i hp
    rw [hp] at hat
    split at ht <;> cases ht
    · rename_i hj
      exact h.look hat hj
    · rename_i hidx
      exact h.afterCount hat hidx
  · rename_i idx hp
    rw [hp] at hat
    split at ht
    · rename_i j hj
      split at ht <;> cases ht
      · exact { h with atPc := ⟨hat.1, by simp⟩ }
      · rename_i e he
        refine { h with atPc := ⟨hat.1, fun k hk => ?_⟩ }
        rw [take_succ_of_getElem? hj] at hk
        rcases List.mem_append.mp hk with hk | hk
        · exact hat.2 k hk
        · rw [List.mem_singleton.mp hk, he]
          exact Option.some_ne_none e
    · rename_i hidx
      cases ht
      refine { h with atPc := ⟨hat.1, fun k hk => hat.2 k ?_⟩ }
      rwa [List.take_of_length_le (List.getElem?_eq_none_iff.mp hidx)]
  · cases ht
  · cases ht

theorem Inv.step {a : Action} (h : Inv cfg calls s) (ht : step cfg s a = some t) :
    Inv cfg calls t := by
  cases a with
  | tick => exact h.tick ht
  | finish j e =>
    simp only [Parallel.step] at ht
    split at ht <;> cases ht
    rename_i ha
    exact h.finish e ha

end Step

theorem Reaches.inv {cfg : Config} {calls : List α} {as : List Action} {s : Pool α}
    (h : Reaches cfg calls as s) : Inv cfg calls s :=
  exec_inv (step cfg) (I := Inv cfg calls) (fun hs ht => hs.step ht) (inv_init cfg calls) h

/-- A step drops from `pobjs` only processes that have ended. -/
theorem Inv.dropped_ended {cfg : Config} {calls : List α} {s t : Pool α} {a : Action}
    (h : Inv cfg calls s) (ht : Parallel.step cfg s a = some t) {j : ℕ} (hj : j ∈ s.pobjs)
    (hd : j ∉ t.pobjs) : s.ended j ≠ none := by
  have hat := h.atPc
  cases a with
  | finish k e =>
    simp only [Parallel.step] at ht
    split at ht <;> cases ht
    exact absurd hj hd
  | tick =>
    simp only [Parallel.step, Pool.tick] at ht
    split at ht
    · split at ht <;> cases ht <;> exact absurd hj hd
    · rename_i hp
      rw [hp] at hat
      split at ht <;> cases ht
      · refine absurd hj ?_
        revert hd
        unfold Pool.look
        split <;> [exact id; (split <;> exact id)]
      · refine hat.dropped_ended hj fun hdel => hd ?_
        unfold Pool.afterCount
        split
        · exact hdel
        · exact List.mem_append_left _ hdel
    · split at ht
      · split at ht <;> cases ht <;> exact absurd hj hd
      · cases ht; exact absurd hj hd
    · cases ht
    · cases ht

end PMFuzz.Parallel
