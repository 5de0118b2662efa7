import PMFuzz.Stage2.Launch

/-!
# The file of a timer

The public operations of a `PTimer` on its file, step by step. `_sync`
empties the file and then writes it, each operation calls it once or, for
`start_new`, three times, and `__init__` as well. The process may be
interrupted between any two steps, and the timer is then opened again.

`always_survives_iff` says when the timer that is opened is the one before or
the one after the operation that was interrupted.
-/

namespace PMFuzz.Stage2.TimerFile

open Launch Run

/-! ## The code -/

/-- A step on the file. -/
inductive FsOp
  /-- `open(self.timer_path, 'w')`. -/
  | truncate
  /-- `fobj.write(str(self.state))`, and the end of the `with`. -/
  | write (t : PTimer)

def FsOp.apply : FsOp → File PTimer
  | .truncate => .emptied
  | .write t => .holds t

/-- What a method does to the file, and `self.state` after it. -/
structure Effect where
  steps : List FsOp
  state : PTimer

/-- One method, then another. -/
def Effect.andThen (e : Effect) (method : PTimer → Effect) : Effect :=
  ⟨e.steps ++ (method e.state).steps, (method e.state).state⟩

/-- `_sync`. -/
def sync (state : PTimer) : Effect := ⟨[.truncate, .write state], state⟩

def set (length : ℚ) (state : PTimer) : Effect := sync { state with length := length }

/-- `start`, at the time `now`. -/
def start (now : ℚ) (state : PTimer) : Effect := sync { state with start := now }

def clear (_ : PTimer) : Effect := sync .fresh

/-- `start_new`; `start` is called at the time `now`. -/
def startNew (length now : ℚ) (state : PTimer) : Effect :=
  ((clear state).andThen (set length)).andThen (start now)

/-- A public operation. -/
inductive Op
  | set (length : ℚ)
  | start (now : {q : ℚ // 0 < q})
  | clear
  | startNew (length : ℚ) (now : {q : ℚ // 0 < q})
  /-- `PTimer(…)`. -/
  | reopen

/-- What it does to a timer; `PTimer(…)` has read this one. -/
def Op.effect : Op → PTimer → Effect
  | .set length => TimerFile.set length
  | .start now => TimerFile.start now
  | .clear => TimerFile.clear
  | .startNew length now => TimerFile.startNew length now
  | .reopen => sync

/-! ## Runs -/

/-- An operation that is going on. -/
structure Call where
  op : Op
  before : PTimer
  /-- The steps that are done. -/
  done : ℕ

def Call.effect (c : Call) : Effect := c.op.effect c.before

structure TimerState where
  file : File PTimer
  /-- `self.state` of the timer that is open. -/
  timer : Option PTimer
  call : Option Call
  /-- The timer before and after the operation that was interrupted last, if
  none was called since. This is no variable of the code. -/
  cut : Option (PTimer × PTimer)

/-- A file with a timer, or none. -/
def init (t : Option PTimer) : TimerState := ⟨t.elim .absent .holds, none, none, none⟩

inductive Action
  | call (op : Op)
  /-- The next step on the file. -/
  | next
  /-- The operation returns. -/
  | ret
  /-- The process is interrupted. -/
  | interrupt

/-- What an operation starts from: `read` raises on an empty file. -/
def TimerState.before (s : TimerState) : Op → Option PTimer
  | .reopen => readTimer s.file
  | _ => s.timer

def step (s : TimerState) : Action → Option TimerState
  | .call op =>
    match s.call with
    | some _ => none
    | none => (s.before op).map fun t => { s with call := some ⟨op, t, 0⟩, cut := none }
  | .next => do
    let c ← s.call
    let o ← c.effect.steps[c.done]?
    return { s with file := o.apply, call := some { c with done := c.done + 1 } }
  | .ret => do
    let c ← s.call
    if c.done = c.effect.steps.length then
      return { s with timer := some c.effect.state, call := none }
    else none
  | .interrupt =>
    match s.call, s.timer with
    | some c, _ => some { s with timer := none, call := none, cut := some (c.before, c.effect.state) }
    | none, some t => some { s with timer := none, cut := some (t, t) }
    | none, none => none

/-! ## Interruptions -/

/-- A new `PTimer` can be opened, and its state is `t`. -/
def Opens (s : TimerState) (t : PTimer) : Prop :=
  ∃ s', exec step s [.call .reopen, .next, .next, .ret] = some s' ∧ s'.timer = some t

/-- After an interruption a new `PTimer` can be opened, and is the one before
or the one after the operation. -/
def Survives (s : TimerState) : Prop :=
  ∀ before after, s.cut = some (before, after) → ∃ t, Opens s t ∧ (t = before ∨ t = after)

/-- No `_sync` has emptied the file and not written it; and `start_new` has
written no timer on its way, or only the one it started from. -/
def Call.Whole (c : Call) : Prop :=
  c.done % 2 = 0 ∧
    match c.op with
    | .startNew length _ => (c.done = 2 → c.before = .fresh) ∧ (c.done = 4 → c.before = ⟨0, length⟩)
    | _ => True

/-- The step interrupts no operation, or a whole one. -/
def Safe (s : TimerState) : Action → Prop
  | .interrupt => ∀ c, s.call = some c → c.Whole
  | _ => True

/-! ## The steps of an operation -/

/-- The timers that an operation writes. -/
def Op.writes : Op → PTimer → List PTimer
  | .startNew length now, _ => [.fresh, ⟨0, length⟩, ⟨now, length⟩]
  | op, t => [(op.effect t).state]

variable {s s' : TimerState} {op : Op} {c : Call} {t w : PTimer} {o : FsOp} {k : ℕ}

theorem steps_effect (op : Op) (t : PTimer) :
    (op.effect t).steps = (op.writes t).flatMap fun w => [.truncate, .write w] := by
  cases op <;> rfl

/-- The steps come in pairs. -/
theorem getElem?_steps (ws : List PTimer) (k : ℕ) :
    (ws.flatMap fun w => [FsOp.truncate, .write w])[k]? =
      ws[k / 2]?.map fun w => if k % 2 = 0 then .truncate else .write w := by
  induction ws generalizing k with
  | nil => rfl
  | cons w ws ih =>
    rcases k with _ | _ | k
    · rfl
    · rfl
    · have hdiv : (k + 2) / 2 = k / 2 + 1 := by omega
      have hmod : (k + 2) % 2 = k % 2 := by omega
      rw [hdiv, hmod, List.getElem?_cons_succ, ← ih k]
      rfl

/-- The file holds what the operation has written so far. -/
def Holds (c : Call) (f : File PTimer) : Prop :=
  if c.done % 2 = 1 then f = .emptied
  else if c.done = 0 then readTimer f = some c.before
  else ∃ w, (c.op.writes c.before)[c.done / 2 - 1]? = some w ∧ f = .holds w

theorem Holds.next (h : c.effect.steps[c.done]? = some o) :
    Holds { c with done := c.done + 1 } o.apply := by
  rw [Call.effect, steps_effect, getElem?_steps] at h
  obtain ⟨w, hw, rfl⟩ := Option.map_eq_some_iff.mp h
  unfold Holds
  by_cases hpar : c.done % 2 = 0
  · have hodd : (c.done + 1) % 2 = 1 := by omega
    rw [if_pos hpar, if_pos hodd]
    rfl
  · have heven : ¬ (c.done + 1) % 2 = 1 := by omega
    have hdiv : (c.done + 1) / 2 - 1 = c.done / 2 := by omega
    rw [if_neg hpar, if_neg heven, if_neg (Nat.succ_ne_zero c.done)]
    exact ⟨w, hdiv ▸ hw, rfl⟩

/-- After an even number of steps. -/
theorem Holds.written {f : File PTimer} (h : Holds c f) (hdone : c.done = 2 * (k + 1)) :
    ∃ w, (c.op.writes c.before)[k]? = some w ∧ f = .holds w := by
  have heven : ¬ c.done % 2 = 1 := by omega
  have hpos : c.done ≠ 0 := by omega
  have hk : c.done / 2 - 1 = k := by omega
  rw [Holds, if_neg heven, if_neg hpos, hk] at h
  exact h

/-- An operation that may return has written its timer. -/
theorem Holds.ret {f : File PTimer} (h : Holds c f) (hdone : c.done = c.effect.steps.length) :
    f = .holds c.effect.state := by
  obtain ⟨op, before, done⟩ := c
  cases op with
  | startNew length now =>
    obtain ⟨w, hw, rfl⟩ := h.written (k := 2) hdone
    cases hw
    rfl
  | set | start | clear | reopen =>
    obtain ⟨w, hw, rfl⟩ := h.written (k := 0) hdone
    cases hw
    rfl

/-- The timers that an operation writes on its way. -/
theorem whole_iff_of_written (hw : (op.writes t)[k]? = some w) :
    (Call.mk op t (2 * (k + 1))).Whole ↔ w = t ∨ w = (op.effect t).state := by
  have heven : 2 * (k + 1) % 2 = 0 := by omega
  rw [Call.Whole, and_iff_right heven]
  cases op with
  | startNew length now =>
    -- `start` has not come yet
    have hnow : ∀ l, (⟨0, l⟩ : PTimer) ≠ ⟨now, length⟩ := fun l heq => now.2.ne (PTimer.mk.inj heq).1
    match k with
    | 0 =>
      cases hw
      exact ⟨fun h => .inl (h.1 rfl).symm, fun h => ⟨fun _ => (h.resolve_right (hnow 0)).symm, nofun⟩⟩
    | 1 =>
      cases hw
      exact ⟨fun h => .inl (h.2 rfl).symm, fun h => ⟨nofun, fun _ => (h.resolve_right (hnow length)).symm⟩⟩
    | 2 =>
      cases hw
      exact iff_of_true ⟨nofun, nofun⟩ (.inr rfl)
    | k + 3 => cases hw
  | set | start | clear | reopen =>
    match k with
    | 0 =>
      cases hw
      exact iff_of_true trivial (.inr rfl)
    | k + 1 => cases hw

/-- The file has the timer before or the one after the operation exactly if
it is whole. -/
theorem Holds.whole_iff {f : File PTimer} (h : Holds c f) :
    c.Whole ↔ ∃ t, readTimer f = some t ∧ (t = c.before ∨ t = c.effect.state) := by
  unfold Holds at h
  split at h
  · rename_i hodd
    subst h
    refine iff_of_false (fun hw => ?_) fun ⟨t, ht, _⟩ => nomatch ht
    have heven := hw.1
    omega
  · rename_i hodd
    have heven : c.done % 2 = 0 := by omega
    split at h
    · rename_i hzero
      refine iff_of_true ⟨heven, ?_⟩ ⟨c.before, h, .inl rfl⟩
      split
      · exact ⟨fun h2 => by omega, fun h4 => by omega⟩
      · trivial
    · obtain ⟨w, hw, rfl⟩ := h
      have hdone : c.done = 2 * (c.done / 2 - 1 + 1) := by omega
      have hiff := whole_iff_of_written hw
      rw [← hdone] at hiff
      refine hiff.trans ⟨fun hor => ⟨w, rfl, hor⟩, fun ⟨t, ht, hor⟩ => ?_⟩
      cases ht
      exact hor

/-! ## The invariant -/

/-- The file can be read, and holds the timer that is open or what the
operation has written so far. -/
structure Inv (s : TimerState) : Prop where
  readable : s.call = none → ∃ t, readTimer s.file = some t
  timer : s.call = none → ∀ t, s.timer = some t → readTimer s.file = some t
  call : ∀ c, s.call = some c → Holds c s.file
  cut : ∀ before after, s.cut = some (before, after) → s.call = none ∧
    ∃ t, readTimer s.file = some t ∧ (t = before ∨ t = after)

theorem inv_init (t : Option PTimer) : Inv (init t) := by
  refine ⟨fun _ => ?_, fun _ _ => nofun, fun _ => nofun, fun _ _ => nofun⟩
  cases t with
  | none => exact ⟨_, rfl⟩
  | some t => exact ⟨t, rfl⟩

/-- A timer that is opened was read. -/
theorem Opens.read (h : Opens s t) (hcall : s.call = none) : readTimer s.file = some t := by
  obtain ⟨s', hs', ht⟩ := h
  obtain ⟨u, hu, hs'⟩ := (exec_cons_eq_some step).mp hs'
  rw [step, hcall] at hu
  obtain ⟨t', hread, rfl⟩ := Option.map_eq_some_iff.mp hu
  cases hs'
  cases ht
  exact hread

theorem opens_of_read (hread : readTimer s.file = some t) (hcall : s.call = none) : Opens s t := by
  have hopened : step s (.call .reopen) = some { s with call := some ⟨.reopen, t, 0⟩, cut := none } := by
    rw [step, hcall]
    show (readTimer s.file).map _ = _
    rw [hread]
    rfl
  exact ⟨⟨.holds t, some t, none, none⟩, (exec_cons_eq_some step).mpr ⟨_, hopened, rfl⟩, rfl⟩

theorem Inv.survives (hi : Inv s) : Survives s := by
  intro before after hcut
  obtain ⟨hcall, t, hread, hor⟩ := hi.cut before after hcut
  exact ⟨t, opens_of_read hread hcall, hor⟩

/-- An interruption that does no harm. -/
theorem Inv.interrupt (hi : Inv s) (hsafe : Safe s .interrupt) (hs : step s .interrupt = some s') : Inv s' := by
  unfold step at hs
  cases hcall : s.call with
  | some c =>
    simp only [hcall] at hs
    cases hs
    obtain ⟨t, hread, hor⟩ := (hi.call c hcall).whole_iff.mp (hsafe c hcall)
    refine ⟨fun _ => ⟨t, hread⟩, fun _ _ => nofun, fun _ => nofun, fun before after heq => ?_⟩
    cases heq
    exact ⟨rfl, t, hread, hor⟩
  | none =>
    cases htimer : s.timer with
    | none =>
      simp only [hcall, htimer] at hs
      cases hs
    | some t =>
      simp only [hcall, htimer] at hs
      cases hs
      have hread := hi.timer hcall t htimer
      refine ⟨fun _ => ⟨t, hread⟩, fun _ _ => nofun, fun c hc => ?_, fun before after heq => ?_⟩
      · cases hc
      · cases heq
        exact ⟨rfl, t, hread, .inl rfl⟩

theorem Inv.step {a : Action} (hi : Inv s) (hsafe : Safe s a) (hs : step s a = some s') : Inv s' := by
  cases a with
  | call op =>
    unfold TimerFile.step at hs
    cases hcall : s.call with
    | some c =>
      simp only [hcall] at hs
      cases hs
    | none =>
      simp only [hcall] at hs
      obtain ⟨t, ht, rfl⟩ := Option.map_eq_some_iff.mp hs
      have hread : readTimer s.file = some t := by
        cases op with
        | reopen => exact ht
        | set | start | clear | startNew => exact hi.timer hcall t ht
      refine ⟨nofun, nofun, fun c hc => ?_, fun _ _ => nofun⟩
      cases hc
      exact hread
  | next =>
    obtain ⟨c, hcall, hs⟩ := Option.bind_eq_some_iff.mp hs
    obtain ⟨o, ho, hs⟩ := Option.bind_eq_some_iff.mp hs
    cases hs
    refine ⟨nofun, nofun, fun c' hc => ?_, fun before after hcut => ?_⟩
    · cases hc
      exact Holds.next ho
    · cases (hi.cut before after hcut).1.symm.trans hcall
  | ret =>
    obtain ⟨c, hcall, hs⟩ := Option.bind_eq_some_iff.mp hs
    obtain ⟨hdone, hs⟩ := Option.ite_none_right_eq_some.mp hs
    cases hs
    have hfile := (hi.call c hcall).ret hdone
    have hread : readTimer s.file = some c.effect.state := by rw [hfile]; rfl
    refine ⟨fun _ => ⟨_, hread⟩, fun _ t ht => ?_, nofun, fun before after hcut => ?_⟩
    · cases ht
      exact hread
    · cases (hi.cut before after hcut).1.symm.trans hcall
  | interrupt => exact hi.interrupt hsafe hs

/-- Any other interruption does harm. -/
theorem Inv.breaks {a : Action} (hi : Inv s) (hnot : ¬ Safe s a) :
    ∃ s', TimerFile.step s a = some s' ∧ ¬ Survives s' := by
  cases a with
  | call _ | next | ret => exact absurd trivial hnot
  | interrupt =>
    obtain ⟨c, hc⟩ := not_forall.mp hnot
    obtain ⟨hcall, hwhole⟩ := Classical.not_imp.mp hc
    refine ⟨{ s with timer := none, call := none, cut := some (c.before, c.effect.state) }, ?_, fun hsurv => ?_⟩
    · unfold TimerFile.step
      simp only [hcall]
    · obtain ⟨t, hopens, hor⟩ := hsurv _ _ rfl
      exact hwhole ((hi.call c hcall).whole_iff.mpr ⟨t, hopens.read rfl, hor⟩)

/-- After every interruption the timer is the one before or the one after
exactly if only whole operations are interrupted. -/
theorem always_survives_iff (t : Option PTimer) (as : List Action) :
    Always step Survives (init t) as ↔ Along step Safe (init t) as :=
  always_iff_along step (fun hi => hi.survives) (fun hi hsafe hs => hi.step hsafe hs)
    (fun hi hnot => hi.breaks hnot) (inv_init t)

/-! ## An interruption -/

/-- A new timer is set, and the process is interrupted before the text is
written. -/
def cutSet : List Action := [.call .reopen, .next, .next, .ret, .call (.set 60), .next, .interrupt]

/-- No timer can be opened afterwards. -/
theorem not_always_survives_cutSet : ¬ Always step Survives (init none) cutSet := by
  intro h
  obtain ⟨t, hopens, -⟩ := h _ ⟨.emptied, none, none, some (⟨0, 0⟩, ⟨0, 60⟩)⟩ (List.prefix_refl _) rfl _ _ rfl
  exact nomatch hopens.read rfl

end PMFuzz.Stage2.TimerFile
