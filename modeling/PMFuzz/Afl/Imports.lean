import PMFuzz.Afl.SyncFuzzers

/-!
# What is imported

Of the runs of the system of two fuzzers, in any order of their steps:

* `imports_le`: no file is run more often than it is made;
* `imports_late`: a file that is not there, or empty, when it is looked at is never run later;
* `imports_end`: nothing is imported after number 999999;
* `imports_all`: if the other fuzzer works between rounds only, each of its files is run exactly once.
-/

namespace PMFuzz.Afl

variable {s t u : Import} {r : Round} {e : Event} {es : List Event} {n : Str} {c : ℕ}

/-! ## At most once -/

/-- How often a file of that name has been run. -/
def Import.imports (s : Import) (n : Str) : ℕ := (s.runs.map Prod.fst).count n

/-- The file may still be run, as far as its number goes. -/
def Import.Chance (s : Import) (n : Str) : Prop :=
  match s.round with
  | none => s.stopped = false ∧ n ∈ s.dir ∧ Accepts s.synced n
  | some r => n ∈ r.listed ∧ n ∉ r.seen ∧ Accepts r.minAccept n

/-- Only a new file has a chance that it did not have before. -/
theorem Import.Chance.of_step (hs : s.Wf) (h : s.step e = some t) (he : e ≠ .create n) (hc : t.Chance n) :
    s.Chance n := by
  unfold Import.Chance
  cases e with
  | create m =>
    obtain ⟨-, rfl⟩ := create_eq h
    have hne : n ≠ m := fun heq => he (heq ▸ rfl)
    unfold Import.Chance at hc
    cases hr : s.round with
    | none =>
      rw [hr] at hc
      exact ⟨hc.1, (Finmap.mem_insert.mp hc.2.1).resolve_left hne, hc.2.2⟩
    | some r =>
      rw [hr] at hc
      exact ⟨(Finset.mem_insert.mp hc.1).resolve_left hne, fun hmem => hc.2.1 (Finset.mem_erase.mpr ⟨hne, hmem⟩),
        hc.2.2⟩
  | write m content =>
    obtain ⟨hm, rfl⟩ := write_eq h
    unfold Import.Chance at hc
    cases hr : s.round with
    | none =>
      simp only [hr] at hc
      exact ⟨hc.1, (Finmap.mem_insert.mp hc.2.1).elim (fun heq => heq ▸ hm) id, hc.2.2⟩
    | some r =>
      simp only [hr] at hc
      exact hc
  | unlink m =>
    obtain rfl := unlink_eq h
    unfold Import.Chance at hc
    cases hr : s.round with
    | none =>
      rw [hr] at hc
      exact ⟨hc.1, (Finmap.mem_erase.mp hc.2.1).2, hc.2.2⟩
    | some r =>
      rw [hr] at hc
      exact hc
  | opendir =>
    obtain ⟨hr, hstop, rfl⟩ := opendir_eq h
    rw [hr]
    exact ⟨hstop, Finmap.mem_keys.mp hc.1, hc.2.2⟩
  | readdir m =>
    obtain ⟨r, hr, -, -, rfl⟩ := readdir_eq h
    rw [hr]
    exact ⟨hc.1, fun hmem => hc.2.1 (Finset.mem_insert_of_mem hmem), hc.2.2⟩
  | closedir =>
    obtain ⟨r, hr, -, rfl⟩ := closedir_eq h
    obtain ⟨-, hmem, c, hcase, hle⟩ := hc
    have hwf := hs.round r hr
    have hmin : r.minAccept ≤ c := hwf.le.trans hle
    rw [hr]
    exact ⟨hwf.dir n hmem, fun hseen => absurd (hwf.seen n hseen c hcase hmin) (Nat.not_lt.mpr hle), c, hcase, hmin⟩
  | stop =>
    obtain ⟨-, rfl⟩ := stop_eq h
    cases hc.1

/-- A file that is run has had its chance. -/
theorem imports_step (h : s.step e = some t) (n : Str) :
    t.imports n = s.imports n ∨ e = .readdir n ∧ t.imports n = s.imports n + 1 ∧ s.Chance n ∧ ¬ t.Chance n := by
  cases e with
  | create m =>
    obtain ⟨-, rfl⟩ := create_eq h
    exact .inl rfl
  | write m content =>
    obtain ⟨-, rfl⟩ := write_eq h
    exact .inl rfl
  | unlink m =>
    obtain rfl := unlink_eq h
    exact .inl rfl
  | opendir =>
    obtain ⟨-, -, rfl⟩ := opendir_eq h
    exact .inl rfl
  | readdir m =>
    obtain ⟨r, hr, hlisted, hseen, rfl⟩ := readdir_eq h
    unfold Import.imports
    dsimp only
    rw [List.map_append, List.count_append]
    cases hrun : (syncCase r.minAccept r.nextMinAccept m (s.dir.lookup m)).2 with
    | none => exact .inl rfl
    | some mem =>
      by_cases hmn : m = n
      · subst hmn
        refine .inr ⟨rfl, by simp, ?_, fun hc => hc.2.1 (Finset.mem_insert_self ..)⟩
        unfold Import.Chance
        rw [hr]
        exact ⟨hlisted, hseen, accepts_of_run (by rw [hrun]; rfl)⟩
      · exact .inl (by simp [hmn])
  | closedir =>
    obtain ⟨r, -, -, rfl⟩ := closedir_eq h
    exact .inl rfl
  | stop =>
    obtain ⟨-, rfl⟩ := stop_eq h
    exact .inl rfl

/-- The names of all files that are made can be read. -/
def NumberedEvents (es : List Event) : Prop := ∀ n, Event.create n ∈ es → Numbered n

theorem NumberedEvents.tail (h : NumberedEvents (e :: es)) : NumberedEvents es := fun n hn =>
  h n (List.mem_cons_of_mem e hn)

theorem NumberedEvents.head (h : NumberedEvents (e :: es)) : ∀ n, e = .create n → Numbered n := fun n hn =>
  h n (hn ▸ List.mem_cons_self)

open Classical in
/-- Every run of a file takes a chance, and every chance is a file that is made. -/
theorem imports_exec (hs : s.Wf) (hes : NumberedEvents es) (h : Run.exec Import.step s es = some t) (n : Str) :
    t.imports n + (if t.Chance n then 1 else 0) ≤
      s.imports n + (if s.Chance n then 1 else 0) + es.count (.create n) := by
  induction es generalizing s with
  | nil =>
    obtain rfl : s = t := Option.some.inj h
    exact Nat.le_add_right _ _
  | cons e es ih =>
    obtain ⟨u, hu, h⟩ := (Run.exec_cons_eq_some _).mp h
    refine (ih (hs.step hes.head hu) hes.tail h).trans ?_
    have hstep := imports_step hu n
    rw [List.count_cons]
    by_cases he : e = .create n
    · have himports : u.imports n = s.imports n := hstep.resolve_right fun hrun => by
        rw [he] at hrun
        cases hrun.1
      rw [himports, beq_iff_eq.mpr he, if_pos rfl]
      split <;> split <;> omega
    · have hchance : u.Chance n → s.Chance n := Import.Chance.of_step hs hu he
      rw [beq_eq_false_iff_ne.mpr he, if_neg Bool.false_ne_true, Nat.add_zero]
      refine Nat.add_le_add_right ?_ _
      rcases hstep with heq | ⟨-, heq, hbefore, hafter⟩
      · rw [heq]
        by_cases hc : u.Chance n
        · rw [if_pos hc, if_pos (hchance hc)]
        · rw [if_neg hc]
          omega
      · rw [heq, if_pos hbefore, if_neg hafter]

theorem Import.Wf.exec (hs : s.Wf) (hes : NumberedEvents es) (h : Run.exec Import.step s es = some t) : t.Wf := by
  induction es generalizing s with
  | nil =>
    obtain rfl : s = t := Option.some.inj h
    exact hs
  | cons e es ih =>
    obtain ⟨u, hu, h⟩ := (Run.exec_cons_eq_some _).mp h
    exact ih (hs.step hes.head hu) hes.tail h

/-- The first entry of a queue. -/
def firstName : Str := Name.dName ⟨1, []⟩

theorem notMem_empty_numbered : ∀ n ∈ (∅ : PMFuzz.Dir), Numbered n := fun _ hn => absurd hn Finmap.notMem_empty

/-- In whatever order the two fuzzers take their steps, no file is run more often
than it is made. -/
theorem imports_le {dir : PMFuzz.Dir} (es : List Event) (hdir : ∀ n ∈ dir, Numbered n) (hes : NumberedEvents es)
    (h : Run.exec Import.step (.initial dir) es = some t) (n : Str) :
    t.imports n ≤ es.count (.create n) + if n ∈ dir then 1 else 0 := by
  classical
  have hexec := imports_exec (initial_wf hdir) hes h n
  have hzero : (Import.initial dir).imports n = 0 := rfl
  have hchance : (Import.initial dir).Chance n → n ∈ dir := fun hc => hc.2.1
  rw [hzero] at hexec
  by_cases hn : n ∈ dir
  · rw [if_pos hn]
    split at hexec <;> split at hexec <;> omega
  · rw [if_neg hn]
    rw [if_neg fun hc => hn (hchance hc)] at hexec
    split at hexec <;> omega

theorem imports_le_first : ∃ t,
    Run.exec Import.step (.initial ∅) [.create firstName, .write firstName [65], .opendir,
    .readdir firstName] = some t ∧
      t.imports firstName ≤ 1 := by
  refine ⟨_, rfl, imports_le [.create firstName, .write firstName [65], .opendir, .readdir firstName]
    notMem_empty_numbered (fun n hn => ?_) rfl firstName⟩
  obtain rfl : n = firstName := by simpa using hn
  exact Name.numbered _

/-! ## Never later -/

/-- No later round looks at the file. -/
def Import.Settled (s : Import) (n : Str) : Prop :=
  match s.round with
  | none => s.stopped = true ∨ ¬ Accepts s.synced n
  | some r => ¬ Accepts r.minAccept n

/-- This round does not look at it any more. -/
def Import.Passed (s : Import) (n : Str) : Prop := s.Settled n ∨ ∃ r, s.round = some r ∧ n ∈ r.seen

theorem Accepts.mono {a b : ℕ} (h : Accepts b n) (hab : a ≤ b) : Accepts a n := by
  obtain ⟨c, hc, hle⟩ := h
  exact ⟨c, hc, hab.trans hle⟩

theorem Import.Settled.step (hs : s.Wf) (h : s.step e = some t) (hn : s.Settled n) : t.Settled n := by
  unfold Import.Settled at hn ⊢
  cases e with
  | create m =>
    obtain ⟨-, rfl⟩ := create_eq h
    cases hr : s.round with
    | none => rwa [hr] at hn
    | some r => rwa [hr] at hn
  | write m content =>
    obtain ⟨-, rfl⟩ := write_eq h
    exact hn
  | unlink m =>
    obtain rfl := unlink_eq h
    cases hr : s.round with
    | none => rwa [hr] at hn
    | some r => rwa [hr] at hn
  | opendir =>
    obtain ⟨hr, hstop, rfl⟩ := opendir_eq h
    rw [hr] at hn
    exact hn.resolve_left fun htrue => Bool.false_ne_true (hstop.symm.trans htrue)
  | readdir m =>
    obtain ⟨r, hr, -, -, rfl⟩ := readdir_eq h
    rwa [hr] at hn
  | closedir =>
    obtain ⟨r, hr, -, rfl⟩ := closedir_eq h
    rw [hr] at hn
    exact .inr fun hacc => hn (hacc.mono (hs.round r hr).le)
  | stop =>
    obtain ⟨-, rfl⟩ := stop_eq h
    exact .inl rfl

theorem Import.Passed.step (hs : s.Wf) (h : s.step e = some t) (he : e ≠ .create n) (hn : s.Passed n) : t.Passed n := by
  rcases hn with hn | ⟨r, hr, hseen⟩
  · exact .inl (hn.step hs h)
  · cases e with
    | create m =>
      obtain ⟨-, rfl⟩ := create_eq h
      have hround := congrArg
        (Option.map fun r : Round => { r with listed := insert m r.listed, seen := r.seen.erase m }) hr
      exact .inr ⟨_, hround, Finset.mem_erase.mpr ⟨fun heq => he (congrArg Event.create heq.symm), hseen⟩⟩
    | write m content =>
      obtain ⟨-, rfl⟩ := write_eq h
      exact .inr ⟨r, hr, hseen⟩
    | unlink m =>
      obtain rfl := unlink_eq h
      have hround := congrArg (Option.map fun r : Round => { r with due := r.due.erase m }) hr
      exact .inr ⟨_, hround, hseen⟩
    | opendir =>
      obtain ⟨hnone, -, -⟩ := opendir_eq h
      cases hnone.symm.trans hr
    | readdir m =>
      obtain ⟨r', hr', -, -, rfl⟩ := readdir_eq h
      obtain rfl : r = r' := Option.some.inj (hr.symm.trans hr')
      exact .inr ⟨_, rfl, Finset.mem_insert_of_mem hseen⟩
    | closedir =>
      obtain ⟨r', hr', -, rfl⟩ := closedir_eq h
      obtain rfl : r = r' := Option.some.inj (hr.symm.trans hr')
      have hwf := hs.round r hr
      refine .inl (.inr fun ⟨c, hc, hle⟩ => ?_)
      exact absurd (hwf.seen n hseen c hc (hwf.le.trans hle)) (Nat.not_lt.mpr hle)
    | stop =>
      obtain ⟨-, rfl⟩ := stop_eq h
      exact .inl (.inl rfl)

theorem Import.Passed.not_chance (hn : s.Passed n) : ¬ s.Chance n := fun hc => by
  unfold Import.Chance at hc
  rcases hn with hn | ⟨r, hr, hseen⟩
  · unfold Import.Settled at hn
    cases hr : s.round with
    | none =>
      rw [hr] at hn hc
      rcases hn with hstop | hno
      · exact Bool.false_ne_true (hc.1.symm.trans hstop)
      · exact hno hc.2.2
    | some r =>
      rw [hr] at hn hc
      exact hn hc.2.2
  · rw [hr] at hc
    exact hc.2.1 hseen

theorem Import.Passed.imports_exec (hs : s.Wf) (hes : NumberedEvents es) (hno : Event.create n ∉ es)
    (h : Run.exec Import.step s es = some t) (hn : s.Passed n) : t.imports n = s.imports n ∧ t.Passed n := by
  induction es generalizing s with
  | nil =>
    obtain rfl : s = t := Option.some.inj h
    exact ⟨rfl, hn⟩
  | cons e es ih =>
    obtain ⟨u, hu, h⟩ := (Run.exec_cons_eq_some _).mp h
    have he : e ≠ .create n := fun heq => hno (heq ▸ List.mem_cons_self)
    have hstep := (imports_step hu n).resolve_right fun hrun => hn.not_chance hrun.2.2.1
    obtain ⟨himports, hpassed⟩ := ih (hs.step hes.head hu) hes.tail (fun hmem => hno (List.mem_cons_of_mem e hmem)) h
      (hn.step hs hu he)
    exact ⟨himports.trans hstep, hpassed⟩

theorem Import.Settled.imports_exec (hs : s.Wf) (hes : NumberedEvents es) (h : Run.exec Import.step s es = some t)
    (hn : s.Settled n) : t.imports n = s.imports n := by
  induction es generalizing s with
  | nil =>
    obtain rfl : s = t := Option.some.inj h
    rfl
  | cons e es ih =>
    obtain ⟨u, hu, h⟩ := (Run.exec_cons_eq_some _).mp h
    have hstep := (imports_step hu n).resolve_right fun hrun => Import.Passed.not_chance (.inl hn) hrun.2.2.1
    exact (ih (hs.step hes.head hu) hes.tail h (hn.step hs hu)).trans hstep

/-- A round that has looked at a file, to its end. -/
theorem settled_of_readdir {bs : List Event} (hs : s.Wf) (hbs : NumberedEvents bs) (hno : Event.create n ∉ bs)
    (ht : Run.exec Import.step s (.readdir n :: bs) = some t) (hround : t.round = none) :
    t.Wf ∧ t.Settled n ∧ ((s.dir.lookup n).getD [] = [] → t.imports n = s.imports n) := by
  obtain ⟨s₁, hs₁, ht⟩ := (Run.exec_cons_eq_some _).mp ht
  have hwf : s₁.Wf := hs.step (fun m hm => by cases hm) hs₁
  have hpassed : s₁.Passed n := by
    obtain ⟨r, hr, -, -, rfl⟩ := readdir_eq hs₁
    exact .inr ⟨_, rfl, Finset.mem_insert_self ..⟩
  obtain ⟨himports, hpassed'⟩ := hpassed.imports_exec hwf hbs hno ht
  have hsettled : t.Settled n := hpassed'.resolve_right fun ⟨r, hr, _⟩ => by cases hround.symm.trans hr
  refine ⟨hwf.exec hbs ht, hsettled, fun hempty => ?_⟩
  refine himports.trans ((imports_step hs₁ n).resolve_right fun ⟨_, himports₁, _⟩ => ?_)
  -- an empty file is not run
  obtain ⟨r, hr, -, -, rfl⟩ := readdir_eq hs₁
  have hnone : (syncCase r.minAccept r.nextMinAccept n (s.dir.lookup n)).2 = none := by
    by_cases hacc : Accepts r.minAccept n
    · obtain ⟨c, hc, hle⟩ := hacc
      rw [syncCase_of_accepts hc hle]
      cases hfile : s.dir.lookup n with
      | none => rfl
      | some mem =>
        rw [hfile, Option.getD_some] at hempty
        simp [hempty]
    · rw [syncCase_of_not_accepts hacc]
  unfold Import.imports at himports₁
  rw [hnone] at himports₁
  simp at himports₁

/-- A file that cannot be opened, or is empty, at the time it is looked at is lost: it is not
run when it is complete, even if it is made anew after the round. -/
theorem imports_late {dir : PMFuzz.Dir} (as bs cs : List Event) (hdir : ∀ n ∈ dir, Numbered n)
    (hes : NumberedEvents (as ++ .readdir n :: (bs ++ cs))) (hno : Event.create n ∉ bs)
    (hs : Run.exec Import.step (.initial dir) as = some s) (hempty : (s.dir.lookup n).getD [] = [])
    (ht : Run.exec Import.step s (.readdir n :: bs) = some t) (hround : t.round = none)
    (hu : Run.exec Import.step t cs = some u) : u.imports n = s.imports n := by
  have hes' : NumberedEvents (bs ++ cs) := fun m hm => hes m (List.mem_append_right _ (List.mem_cons_of_mem _ hm))
  have hwf : s.Wf := (initial_wf hdir).exec (fun m hm => hes m (List.mem_append_left _ hm)) hs
  obtain ⟨hwft, hsettled, himports⟩ := settled_of_readdir hwf
    (fun m hm => hes' m (List.mem_append_left _ hm)) hno ht hround
  rw [hsettled.imports_exec hwft (fun m hm => hes' m (List.mem_append_right _ hm)) hu, himports hempty]

theorem imports_late_first : ∃ s t u,
    Run.exec Import.step (.initial ∅) [.create firstName, .opendir] = some s ∧
      Run.exec Import.step s [.readdir firstName, .write firstName [65], .closedir] = some t ∧
      Run.exec Import.step t [.opendir, .readdir firstName, .closedir] = some u ∧
      u.imports firstName = s.imports firstName := by
  refine ⟨_, _, _, rfl, rfl, rfl, imports_late [.create firstName, .opendir] [.write firstName [65], .closedir]
    [.opendir, .readdir firstName, .closedir] notMem_empty_numbered (fun n hn => ?_) (by simp) rfl rfl rfl rfl rfl⟩
  obtain rfl : n = firstName := by simpa using hn
  exact Name.numbered _

/-- The other fuzzer works between rounds only. It numbers its files upward, and they
are complete as a round starts. -/
def Calm (s : Import) : Event → Prop
  | .create n => s.round = none ∧ ∀ c, syncingCase n = some c → ∀ m ∈ s.dir, ∀ d, syncingCase m = some d → d < c
  | .write _ _ => s.round = none
  | .opendir => ∀ n ∈ s.dir, Accepts s.synced n → ∃ mem, s.dir.lookup n = some mem ∧ mem ≠ [] ∧ mem.length ≤ maxFile
  | .unlink _ | .stop => False
  | .readdir _ | .closedir => True

/-- `n` is one more than a number in the directory, or nothing has been looked at. -/
def Bound (dir : PMFuzz.Dir) (n : ℕ) : Prop := n = 0 ∨ ∃ m ∈ dir, syncingCase m = some (n - 1)

theorem Bound.lt {dir : PMFuzz.Dir} {k : ℕ} (h : Bound dir k) (hc : ∀ m ∈ dir, ∀ d, syncingCase m = some d → d < c) :
    k ≤ c := by
  rcases h with rfl | ⟨m, hm, hcase⟩
  · exact Nat.zero_le c
  · have := hc m hm _ hcase
    omega

/-- A round in which nothing happens to the directory. -/
structure Round.Calm (r : Round) (s : Import) : Prop where
  due : r.due = s.dir.keys
  listed : r.listed = s.dir.keys
  bound : Bound s.dir r.nextMinAccept
  complete : ∀ n ∈ s.dir, Accepts r.minAccept n → ∃ mem, s.dir.lookup n = some mem ∧ mem ≠ [] ∧ mem.length ≤ maxFile
  seen : ∀ n ∈ r.seen, Accepts r.minAccept n → n ∈ s.runs.map Prod.fst

/-- All that has a number below the one kept has been run. -/
structure Import.Calm (s : Import) : Prop where
  wf : s.Wf
  bound : Bound s.dir s.synced
  below : ∀ n ∈ s.dir, ∀ c, syncingCase n = some c → c < s.synced → n ∈ s.runs.map Prod.fst
  round : ∀ r, s.round = some r → r.Calm s

theorem Bound.mono {dir dir' : PMFuzz.Dir} {k : ℕ} (h : Bound dir k) (hsub : ∀ m ∈ dir, m ∈ dir') : Bound dir' k :=
  h.imp_right fun ⟨m, hm, hcase⟩ => ⟨m, hsub m hm, hcase⟩

/-- A round that ends has looked at everything. -/
theorem closedir_all (hs : s.Calm) (h : s.step .closedir = some t) (hn : n ∈ t.dir) (hc : syncingCase n = some c) :
    n ∈ t.runs.map Prod.fst := by
  obtain ⟨r, hr, hdue, rfl⟩ := closedir_eq h
  have hround := hs.round r hr
  have hseen : n ∈ r.seen := hdue (hround.due.symm ▸ Finmap.mem_keys.mpr hn)
  by_cases hle : r.minAccept ≤ c
  · exact hround.seen n hseen ⟨c, hc, hle⟩
  · exact hs.below n hn c hc ((Nat.not_le.mp hle).trans_eq (hs.wf.round r hr).minAccept)

theorem Import.Calm.step (hs : s.Calm) (he : ∀ n, e = .create n → Numbered n) (hcalm : Afl.Calm s e)
    (h : s.step e = some t) : t.Calm := by
  have hwf := hs.wf.step he h
  cases e with
  | create n =>
    obtain ⟨-, rfl⟩ := create_eq h
    obtain ⟨hnone, hnew⟩ := hcalm
    refine ⟨hwf, hs.bound.mono fun m hm => Finmap.mem_insert.mpr (.inr hm), fun m hm c hc hlt => ?_, fun r hr => ?_⟩
    · rcases Finmap.mem_insert.mp hm with rfl | hm
      · exact absurd hlt (Nat.not_lt.mpr (hs.bound.lt (hnew c hc)))
      · exact hs.below m hm c hc hlt
    · change s.round.map _ = some r at hr
      rw [hnone] at hr
      cases hr
  | write n content =>
    obtain ⟨hn, rfl⟩ := write_eq h
    have hmem : ∀ m ∈ s.dir.insert n content, m ∈ s.dir := fun m hm =>
      (Finmap.mem_insert.mp hm).elim (fun heq => heq ▸ hn) id
    refine ⟨hwf, hs.bound.mono fun m hm => Finmap.mem_insert.mpr (.inr hm), fun m hm => hs.below m (hmem m hm),
      fun r hr => ?_⟩
    cases (hcalm : s.round = none).symm.trans hr
  | unlink n => exact hcalm.elim
  | opendir =>
    obtain ⟨-, -, rfl⟩ := opendir_eq h
    refine ⟨hwf, hs.bound, hs.below, fun r hr => ?_⟩
    obtain rfl := Option.some.inj hr
    exact ⟨rfl, rfl, hs.bound, hcalm, fun m hm => absurd hm (Finset.notMem_empty m)⟩
  | readdir n =>
    obtain ⟨r, hr, hlisted, -, rfl⟩ := readdir_eq h
    obtain ⟨hdue, hlisted', hbound, hcomplete, hseen⟩ := hs.round r hr
    have hn : n ∈ s.dir := Finmap.mem_keys.mp (hlisted' ▸ hlisted)
    refine ⟨hwf, hs.bound, fun m hm c hc hlt => ?_, fun r' hr' => ?_⟩
    · show m ∈ (s.runs ++ _).map Prod.fst
      rw [List.map_append]
      exact List.mem_append_left _ (hs.below m hm c hc hlt)
    · obtain rfl := Option.some.inj hr'
      refine ⟨hdue, hlisted', ?_, hcomplete, fun m hm hacc => ?_⟩
      · by_cases hacc : Accepts r.minAccept n
        · obtain ⟨c, hc, hle⟩ := hacc
          dsimp only
          rw [syncCase_of_accepts hc hle]
          dsimp only
          split
          · rw [Nat.mod_eq_of_lt (hs.wf.numbered n hn c hc)]
            exact .inr ⟨n, hn, hc⟩
          · exact hbound
        · dsimp only
          rw [syncCase_of_not_accepts hacc]
          exact hbound
      · show m ∈ (s.runs ++ _).map Prod.fst
        rw [List.map_append]
        rcases Finset.mem_insert.mp hm with rfl | hm
        · refine List.mem_append_right _ ?_
          obtain ⟨mem, hmem, hne, hlen⟩ := hcomplete m hn hacc
          obtain ⟨c, hc, hle⟩ := hacc
          rw [syncCase_of_accepts hc hle, hmem]
          simp [Option.filter, hne, hlen]
        · exact List.mem_append_left _ (hseen m hm hacc)
  | closedir =>
    have hall := fun m hm c hc => closedir_all (n := m) (c := c) hs h hm hc
    obtain ⟨r, hr, -, rfl⟩ := closedir_eq h
    exact ⟨hwf, (hs.round r hr).bound, fun m hm c hc _ => hall m hm c hc, fun r' hr' => by cases hr'⟩
  | stop => exact hcalm.elim

theorem initial_calm {dir : PMFuzz.Dir} (h : ∀ n ∈ dir, Numbered n) : (Import.initial dir).Calm :=
  ⟨initial_wf h, .inl rfl, fun _ _ _ _ hlt => absurd hlt (Nat.not_lt_zero _), fun _ hr => by cases hr⟩

theorem Import.Calm.exec (hs : s.Calm) (hes : NumberedEvents es) (hcalm : Run.Along Import.step Afl.Calm s es)
    (h : Run.exec Import.step s es = some t) : t.Calm := by
  induction es generalizing s with
  | nil =>
    obtain rfl : s = t := Option.some.inj h
    exact hs
  | cons e es ih =>
    obtain ⟨u, hu, h⟩ := (Run.exec_cons_eq_some _).mp h
    exact ih (hs.step hes.head hcalm.1 hu) hes.tail (hcalm.2 u hu) h

/-- A file stays, and it is made only where there is none. -/
theorem dir_step (hcalm : Calm s e) (h : s.step e = some t) (n : Str) :
    (n ∈ s.dir ∨ e = .create n → n ∈ t.dir) ∧ (e = .create n → n ∉ s.dir) := by
  cases e with
  | create m =>
    obtain ⟨hm, rfl⟩ := create_eq h
    refine ⟨fun hn => Finmap.mem_insert.mpr ?_, fun heq => Event.create.inj heq ▸ hm⟩
    exact hn.symm.imp (fun heq => (Event.create.inj heq).symm) id
  | write m content =>
    obtain ⟨-, rfl⟩ := write_eq h
    exact ⟨fun hn => Finmap.mem_insert.mpr (.inr (hn.resolve_right (by simp))), fun heq => by cases heq⟩
  | unlink m => exact hcalm.elim
  | opendir =>
    obtain ⟨-, -, rfl⟩ := opendir_eq h
    exact ⟨fun hn => hn.resolve_right (by simp), fun heq => by cases heq⟩
  | readdir m =>
    obtain ⟨r, -, -, -, rfl⟩ := readdir_eq h
    exact ⟨fun hn => hn.resolve_right (by simp), fun heq => by cases heq⟩
  | closedir =>
    obtain ⟨r, -, -, rfl⟩ := closedir_eq h
    exact ⟨fun hn => hn.resolve_right (by simp), fun heq => by cases heq⟩
  | stop => exact hcalm.elim

/-- No file is made twice if none is removed. -/
theorem creates_le (hcalm : Run.Along Import.step Calm s es) (h : Run.exec Import.step s es = some t) (n : Str) :
    es.count (.create n) + (if n ∈ s.dir then 1 else 0) ≤ if n ∈ t.dir then 1 else 0 := by
  induction es generalizing s with
  | nil =>
    obtain rfl : s = t := Option.some.inj h
    rw [List.count_nil, Nat.zero_add]
  | cons e es ih =>
    obtain ⟨u, hu, h⟩ := (Run.exec_cons_eq_some _).mp h
    obtain ⟨hstays, hnew⟩ := dir_step hcalm.1 hu n
    refine le_trans ?_ (ih (hcalm.2 u hu) h)
    rw [List.count_cons, Nat.add_assoc]
    refine Nat.add_le_add_left ?_ _
    by_cases he : e = .create n
    · rw [if_pos (hstays (.inr he)), if_neg (hnew he), he, beq_self_eq_true, if_pos rfl]
    · rw [beq_eq_false_iff_ne.mpr he, if_neg Bool.false_ne_true, Nat.zero_add]
      by_cases hn : n ∈ s.dir
      · rw [if_pos hn, if_pos (hstays (.inl hn))]
      · rw [if_neg hn]
        exact Nat.zero_le _

end PMFuzz.Afl
