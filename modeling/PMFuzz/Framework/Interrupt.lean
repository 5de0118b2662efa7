import PMFuzz.Framework.Run
import Mathlib.Logic.Relation

/-!
# Programs that are interrupted

A program does operations on a store that outlives it. It may be interrupted
between any two of them, and is then started again on the store as it is.
`System` gives the program, `step` is the transition system of its runs.

`wp A Q p s l` says that `p`, from the store `s` and with the observations
`l` so far, has `A` at every point before it returns and `Q` when it does;
there is one rule for each construct. `exec_inv_wp` carries this over to
runs: what the program has at every point where it may be interrupted is what
it may assume when it is started again.
-/

namespace PMFuzz.Interrupt

open Run

variable {σ ω ρ ι α β : Type}

/-- A program with operations `ω` and observations `ρ`. -/
inductive Prog (ω ρ : Type) (α : Type)
  | ret (a : α)
  /-- It stops, as an exception does. -/
  | abort
  /-- An operation, and whether it succeeds. -/
  | op (o : ω) (k : Bool → Prog ω ρ α)
  /-- Operations of a kind, in any number and order. -/
  | work (allowed : ω → Bool) (k : Prog ω ρ α)
  /-- It observes the store. -/
  | observe (k : ρ → Prog ω ρ α)
  /-- It learns something that the store does not tell. -/
  | choose (k : Bool → Prog ω ρ α)

namespace Prog

def bind : Prog ω ρ α → (α → Prog ω ρ β) → Prog ω ρ β
  | ret a, f => f a
  | abort, _ => abort
  | op o k, f => op o fun b => (k b).bind f
  | work allowed k, f => work allowed (k.bind f)
  | observe k, f => observe fun r => (k r).bind f
  | choose k, f => choose fun b => (k b).bind f

instance : Monad (Prog ω ρ) where
  pure := ret
  bind := bind

def perform (o : ω) : Prog ω ρ Bool := op o ret

def busy (allowed : ω → Bool) : Prog ω ρ Unit := work allowed (ret ())

def look : Prog ω ρ ρ := observe ret

def ask : Prog ω ρ Bool := choose ret

/-- An exception stops the program. -/
def lift {ε : Type} : Except ε α → Prog ω ρ α
  | .ok a => ret a
  | .error _ => abort

end Prog

/-- What a program runs on. -/
structure Store (σ ω ρ : Type) where
  /-- An operation; `none` if it fails. -/
  apply : ω → σ → Option σ
  /-- An observation; `none` if it stops the program. -/
  observe : σ → Option ρ

/-- A program with the arguments `ι`. -/
structure System (σ ω ρ ι : Type) extends Store σ ω ρ where
  /-- What is left of the store when the program is started again. -/
  restart : σ → σ
  /-- What comes before the loop. -/
  main : ι → Prog ω ρ Unit
  /-- One turn of the loop. -/
  turn : ι → Prog ω ρ Unit

/-- A state of a run. -/
structure Machine (σ ω ρ ι : Type) where
  store : σ
  /-- The observations of the whole run, the latest first. -/
  seen : List ρ
  arg : ι
  /-- What is left of the turn. -/
  prog : Prog ω ρ Unit

/-- A step of a run. -/
inductive Action (ω ι : Type)
  /-- The next step of the program. -/
  | next
  | choose (b : Bool)
  | work (o : ω)
  | leave
  /-- The program is interrupted and started again. -/
  | interrupt (i : ι)

def Action.interrupts : Action ω ι → Bool
  | .interrupt _ => true
  | _ => false

namespace System

variable (S : System σ ω ρ ι)

/-- The machine that starts on a store. -/
def start (s : σ) (i : ι) : Machine σ ω ρ ι := ⟨S.restart s, [], i, S.main i⟩

def step (m : Machine σ ω ρ ι) : Action ω ι → Option (Machine σ ω ρ ι)
  | .next =>
    match m.prog with
    | .ret _ => some { m with prog := S.turn m.arg }
    | .op o k =>
      match S.apply o m.store with
      | some s => some { m with store := s, prog := k true }
      | none => some { m with prog := k false }
    | .observe k =>
      match S.observe m.store with
      | some r => some { m with seen := r :: m.seen, prog := k r }
      | none => some { m with prog := .abort }
    | _ => none
  | .choose b =>
    match m.prog with
    | .choose k => some { m with prog := k b }
    | _ => none
  | .work o =>
    match m.prog with
    | .work allowed _ =>
      if allowed o then (S.apply o m.store).map fun s => { m with store := s } else none
    | _ => none
  | .leave =>
    match m.prog with
    | .work _ k => some { m with prog := k }
    | _ => none
  | .interrupt i => some { m with store := S.restart m.store, arg := i, prog := S.main i }

end System

/-! ## Assertions -/

section Assertions

variable (S : Store σ ω ρ)

/-- Operations of a kind lead from one store to another. -/
def Store.Works (allowed : ω → Bool) : σ → σ → Prop :=
  Relation.ReflTransGen fun s s' => ∃ o, allowed o = true ∧ S.apply o s = some s'

/-- The program has `A` at every point, and `Q` when it returns. -/
def wp (A : σ → List ρ → Prop) (Q : α → σ → List ρ → Prop) : Prog ω ρ α → σ → List ρ → Prop
  | .ret a, s, l => Q a s l
  | .abort, s, l => A s l
  | .op o k, s, l => A s l ∧ (∀ s', S.apply o s = some s' → wp A Q (k true) s' l) ∧
    (S.apply o s = none → wp A Q (k false) s l)
  | .work allowed k, s, l => ∀ s', S.Works allowed s s' → A s' l ∧ wp A Q k s' l
  | .observe k, s, l => A s l ∧ ∀ r, S.observe s = some r → wp A Q (k r) s (r :: l)
  | .choose k, s, l => A s l ∧ ∀ b, wp A Q (k b) s l

end Assertions

variable {S : Store σ ω ρ} {A : σ → List ρ → Prop} {Q : α → σ → List ρ → Prop} {s : σ} {l : List ρ}

/-! ## Rules -/

/-- What a program has when it returns, the rest may assume. -/
theorem wp_bind {p : Prog ω ρ α} {f : α → Prog ω ρ β} {R : β → σ → List ρ → Prop}
    (h : wp S A (fun a => wp S A R (f a)) p s l) : wp S A R (p >>= f) s l := by
  show wp S A R (p.bind f) s l
  induction p generalizing s l with
  | ret a => exact h
  | abort => exact h
  | op o k ih => exact ⟨h.1, fun s' hs => ih true (h.2.1 s' hs), fun hs => ih false (h.2.2 hs)⟩
  | work allowed k ih => exact fun s' hs => ⟨(h s' hs).1, ih (h s' hs).2⟩
  | observe k ih => exact ⟨h.1, fun r hr => ih r (h.2 r hr)⟩
  | choose k ih => exact ⟨h.1, fun b => ih b (h.2 b)⟩

/-- A program that has more when it returns. -/
theorem wp_mono {p : Prog ω ρ α} {Q' : α → σ → List ρ → Prop} (hQ : ∀ a s l, Q a s l → Q' a s l)
    (h : wp S A Q p s l) : wp S A Q' p s l := by
  induction p generalizing s l with
  | ret a => exact hQ a s l h
  | abort => exact h
  | op o k ih => exact ⟨h.1, fun s' hs => ih true (h.2.1 s' hs), fun hs => ih false (h.2.2 hs)⟩
  | work allowed k ih => exact fun s' hs => ⟨(h s' hs).1, ih (h s' hs).2⟩
  | observe k ih => exact ⟨h.1, fun r hr => ih r (h.2 r hr)⟩
  | choose k ih => exact ⟨h.1, fun b => ih b (h.2 b)⟩

/-- At the point it has reached, a program has `A`. -/
theorem wp_point {p : Prog ω ρ α} (hQ : ∀ a s l, Q a s l → A s l) (h : wp S A Q p s l) : A s l := by
  cases p with
  | ret a => exact hQ a s l h
  | abort => exact h
  | op o k => exact h.1
  | work allowed k => exact (h s .refl).1
  | observe k => exact h.1
  | choose k => exact h.1

theorem wp_perform {o : ω} {Q : Bool → σ → List ρ → Prop} (hA : A s l)
    (hok : ∀ s', S.apply o s = some s' → Q true s' l) (hfail : S.apply o s = none → Q false s l) :
    wp S A Q (.perform o) s l := ⟨hA, hok, hfail⟩

/-- Work keeps what each of its operations keeps. -/
theorem wp_busy {allowed : ω → Bool} {Q : Unit → σ → List ρ → Prop} {I : σ → Prop} (hs : I s)
    (hI : ∀ o s s', allowed o = true → I s → S.apply o s = some s' → I s')
    (h : ∀ s', I s' → A s' l ∧ Q () s' l) : wp S A Q (.busy allowed) s l := by
  intro s' hworks
  apply h
  induction hworks with
  | refl => exact hs
  | tail _ hstep ih =>
    obtain ⟨o, ho, happly⟩ := hstep
    exact hI o _ _ ho ih happly

theorem wp_look {Q : ρ → σ → List ρ → Prop} (hA : A s l)
    (h : ∀ r, S.observe s = some r → Q r s (r :: l)) : wp S A Q .look s l := ⟨hA, h⟩

theorem wp_ask {Q : Bool → σ → List ρ → Prop} (hA : A s l) (h : ∀ b, Q b s l) :
    wp S A Q .ask s l := ⟨hA, h⟩

/-! ## Runs -/

section Runs

variable {S : System σ ω ρ ι} {Q : σ → List ρ → Prop} {m m' : Machine σ ω ρ ι} {C : σ → Prop}
  {a : Action ω ι} {as : List (Action ω ι)}

/-- The assertions of what is left of the program. -/
def Holds (S : System σ ω ρ ι) (A Q : σ → List ρ → Prop) (m : Machine σ ω ρ ι) : Prop :=
  wp S.toStore A (fun _ => Q) m.prog m.store m.seen

/-- A step that is not an interruption keeps the assertions, if each turn of
the loop has them. -/
theorem Holds.step (hturn : ∀ i s l, Q s l → wp S.toStore A (fun _ => Q) (S.turn i) s l)
    (h : Holds S A Q m) (ha : a.interrupts = false) (hs : S.step m a = some m') : Holds S A Q m' := by
  obtain ⟨store, seen, arg, prog⟩ := m
  cases a with
  | next =>
    cases prog with
    | ret u =>
      cases hs
      exact hturn arg store seen h
    | op o k =>
      unfold System.step at hs
      cases happly : S.apply o store with
      | some s' =>
        simp only [happly, Option.some.injEq] at hs
        subst hs
        exact h.2.1 s' happly
      | none =>
        simp only [happly, Option.some.injEq] at hs
        subst hs
        exact h.2.2 happly
    | observe k =>
      unfold System.step at hs
      cases hobs : S.observe store with
      | some r =>
        simp only [hobs, Option.some.injEq] at hs
        subst hs
        exact h.2 r hobs
      | none =>
        simp only [hobs, Option.some.injEq] at hs
        subst hs
        exact h.1
    | _ => cases hs
  | choose b =>
    cases prog with
    | choose k =>
      cases hs
      exact h.2 b
    | _ => cases hs
  | work o =>
    cases prog with
    | work allowed k =>
      obtain ⟨ho, hs⟩ := Option.ite_none_right_eq_some.mp hs
      obtain ⟨s', happly, rfl⟩ := Option.map_eq_some_iff.mp hs
      exact fun t ht => h t (.head ⟨o, ho, happly⟩ ht)
    | _ => cases hs
  | leave =>
    cases prog with
    | work allowed k =>
      cases hs
      exact (h store .refl).2
    | _ => cases hs
  | interrupt i => cases ha

/-- A run whose interruptions all come where `C` is true has `A` everywhere,
if the program has it from wherever it is then started again. -/
theorem exec_inv_wp (hQ : ∀ s l, Q s l → A s l)
    (hturn : ∀ i s l, Q s l → wp S.toStore A (fun _ => Q) (S.turn i) s l)
    (hmain : ∀ i s l, A s l → C s → wp S.toStore A (fun _ => Q) (S.main i) (S.restart s) l)
    (hm : Holds S A Q m) (hc : Along S.step (fun m a => a.interrupts = true → C m.store) m as)
    (h : exec S.step m as = some m') : A m'.store m'.seen := by
  have hpoint : ∀ {m}, Holds S A Q m → A m.store m.seen := fun hm => wp_point (fun _ => hQ) hm
  refine hpoint (exec_inv_along S.step (fun {m a t} hm hc hs => ?_) hm hc h)
  cases hint : a.interrupts with
  | false => exact hm.step hturn hint hs
  | true =>
    cases a with
    | interrupt i =>
      cases hs
      exact hmain i m.store m.seen (hpoint hm) (hc rfl)
    | _ => cases hint

end Runs

end PMFuzz.Interrupt
