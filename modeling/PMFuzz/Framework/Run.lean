import Mathlib.Logic.Relation

/-!
# Runs of a transition system

A system is a partial step function on states: an action is either enabled
and leads to one state, or it is not. `exec` runs a list of actions, and
`exec_inv` carries an invariant along it from what one step preserves.
`Along` says that every step of a run meets a condition on the state before
it; `exec_inv_along` is the invariant rule for such runs. `Always` says that
a property holds in every state of a run; `always_iff_along` tells the steps
that break it.
-/

namespace PMFuzz.Run

variable {σ ι : Type*} (step : σ → ι → Option σ)

/-- The state a list of actions leads to, if each is enabled in turn. -/
def exec : σ → List ι → Option σ
  | s, [] => some s
  | s, a :: as => (step s a).bind fun t => exec t as

@[simp] theorem exec_nil (s : σ) : exec step s [] = some s := rfl

theorem exec_cons (s : σ) (a : ι) (as : List ι) :
    exec step s (a :: as) = (step s a).bind fun t => exec step t as := rfl

theorem exec_cons_eq_some {s t : σ} {a : ι} {as : List ι} :
    exec step s (a :: as) = some t ↔ ∃ u, step s a = some u ∧ exec step u as = some t := by
  rw [exec_cons, Option.bind_eq_some_iff]

theorem exec_append (s : σ) (as bs : List ι) :
    exec step s (as ++ bs) = (exec step s as).bind fun t => exec step t bs := by
  induction as generalizing s with
  | nil => rfl
  | cons a as ih =>
    rw [List.cons_append, exec_cons, exec_cons, Option.bind_assoc]
    exact congrArg _ (funext fun t => ih t)

/-- A run of actions that are all of one form. -/
theorem exec_map {κ : Type*} (f : κ → ι) (s : σ) (as : List κ) :
    exec step s (as.map f) = exec (fun s a => step s (f a)) s as := by
  induction as generalizing s with
  | nil => rfl
  | cons a as ih =>
    rw [List.map_cons, exec_cons, exec_cons]
    exact congrArg _ (funext fun t => ih t)

/-- What every step preserves, every run preserves. -/
theorem exec_inv {I : σ → Prop} (hI : ∀ {s a t}, I s → step s a = some t → I t)
    {s t : σ} {as : List ι} (hs : I s) (h : exec step s as = some t) : I t := by
  induction as generalizing s with
  | nil => cases h; exact hs
  | cons a as ih =>
    obtain ⟨u, hu, h⟩ := (exec_cons_eq_some step).mp h
    exact ih (hI hs hu) h

/-- Every step of the run from `s` meets the condition `C` on the state it
starts in and its action. -/
def Along (C : σ → ι → Prop) : σ → List ι → Prop
  | _, [] => True
  | s, a :: as => C s a ∧ ∀ t, step s a = some t → Along C t as

instance instDecidableAlong {C : σ → ι → Prop} [∀ s a, Decidable (C s a)] :
    ∀ s as, Decidable (Along step C s as)
  | _, [] => .isTrue trivial
  | s, a :: as =>
    match h : step s a with
    | none => decidable_of_iff (C s a)
      ⟨fun hc => ⟨hc, fun t ht => by rw [h] at ht; cases ht⟩, And.left⟩
    | some t =>
      have : Decidable (Along step C t as) := instDecidableAlong t as
      decidable_of_iff (C s a ∧ Along step C t as)
        ⟨fun hc => ⟨hc.1, fun u hu => by rw [h] at hu; cases hu; exact hc.2⟩,
          fun hc => ⟨hc.1, hc.2 t h⟩⟩

/-- What every step that meets `C` preserves, a run whose steps all meet `C`
preserves. -/
theorem exec_inv_along {I : σ → Prop} {C : σ → ι → Prop}
    (hI : ∀ {s a t}, I s → C s a → step s a = some t → I t)
    {s t : σ} {as : List ι} (hs : I s) (hc : Along step C s as)
    (h : exec step s as = some t) : I t := by
  induction as generalizing s with
  | nil => cases h; exact hs
  | cons a as ih =>
    obtain ⟨u, hu, h⟩ := (exec_cons_eq_some step).mp h
    exact ih (hI hs hc.1 hu) (hc.2 u hu) h

/-- Conditions that agree in every state a run may reach hold along the same
runs: `P` is what the actions of the run meet. -/
theorem along_congr {I : σ → Prop} {P : ι → Prop} {C C' : σ → ι → Prop}
    (hI : ∀ {s a t}, I s → P a → step s a = some t → I t)
    (hC : ∀ {s a}, I s → P a → (C s a ↔ C' s a)) {s : σ} {as : List ι} (hs : I s)
    (hP : ∀ a ∈ as, P a) : Along step C s as ↔ Along step C' s as := by
  induction as generalizing s with
  | nil => exact Iff.rfl
  | cons a as ih =>
    have ha := hP a List.mem_cons_self
    refine and_congr (hC hs ha) (forall_congr' fun t => imp_congr_right fun ht => ?_)
    exact ih (hI hs ha ht) fun b hb => hP b (List.mem_cons_of_mem _ hb)

/-- `P` holds in every state of the run from `s`. -/
def Always (P : σ → Prop) (s : σ) (as : List ι) : Prop :=
  ∀ bs t, bs <+: as → exec step s bs = some t → P t

theorem always_cons {P : σ → Prop} {s : σ} {a : ι} {as : List ι} :
    Always step P s (a :: as) ↔ P s ∧ ∀ t, step s a = some t → Always step P t as := by
  constructor
  · intro h
    refine ⟨h [] s List.nil_prefix rfl, fun t ht bs u hbs hu => ?_⟩
    exact h (a :: bs) u (List.cons_prefix_cons.mpr ⟨rfl, hbs⟩) ((exec_cons_eq_some step).mpr ⟨t, ht, hu⟩)
  · rintro ⟨hs, h⟩ bs u hbs hu
    cases bs with
    | nil => cases hu; exact hs
    | cons b bs =>
      obtain ⟨rfl, hpre⟩ := List.cons_prefix_cons.mp hbs
      obtain ⟨t, ht, hu⟩ := (exec_cons_eq_some step).mp hu
      exact h t ht bs u hpre hu

/-- Of a run that begins with the invariant `I`, all states have `P` exactly
if all steps meet `C`: these keep `I`, and any other breaks `P` at once. -/
theorem always_iff_along {I P : σ → Prop} {C : σ → ι → Prop} (hP : ∀ {s}, I s → P s)
    (hkeep : ∀ {s a t}, I s → C s a → step s a = some t → I t)
    (hbreak : ∀ {s a}, I s → ¬ C s a → ∃ t, step s a = some t ∧ ¬ P t) {s : σ} {as : List ι} (hs : I s) :
    Always step P s as ↔ Along step C s as := by
  induction as generalizing s with
  | nil =>
    refine iff_of_true (fun bs t hbs ht => ?_) trivial
    cases List.prefix_nil.mp hbs
    cases ht
    exact hP hs
  | cons a as ih =>
    rw [always_cons, and_iff_right (hP hs)]
    constructor
    · intro h
      have hc : C s a := Classical.byContradiction fun hc => by
        obtain ⟨t, ht, hbad⟩ := hbreak hs hc
        exact hbad (h t ht [] t List.nil_prefix rfl)
      exact ⟨hc, fun t ht => (ih (hkeep hs hc ht)).mp (h t ht)⟩
    · rintro ⟨hc, h⟩ t ht
      exact (ih (hkeep hs hc ht)).mpr (h t ht)

end PMFuzz.Run
