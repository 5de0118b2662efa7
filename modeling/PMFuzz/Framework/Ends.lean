/-!
# Computations that may throw

`Ends E x P`: what `x` throws is in `E`, and what it returns is in `P`. The
rules follow the way such a computation is put together: `Ends.bind` for one
after the other, `Ends.foldlM` for a loop over a list, with an invariant that
knows what is left of it, `Ends.mono` and `Ends.imp` for a weaker conclusion,
`Ends.of_eq` for one whose value is known.
-/

namespace PMFuzz

variable {ε α β : Type} {E E' : ε → Prop} {P Q : α → Prop} {R : β → Prop} {x : Except ε α} {f : α → Except ε β}

/-- What a computation throws and returns. -/
def Ends (E : ε → Prop) (x : Except ε α) (P : α → Prop) : Prop :=
  match x with
  | .ok a => P a
  | .error e => E e

theorem Ends.ok {a : α} (h : P a) : Ends E (.ok a) P := h

theorem Ends.error {e : ε} (h : E e) : Ends E (.error e) P := h

theorem Ends.of_eq {a : α} (hx : x = .ok a) (h : P a) : Ends E x P := hx.symm ▸ h

theorem Ends.mono (h : Ends E x P) (hPQ : ∀ a, P a → Q a) : Ends E x Q := by
  cases x with
  | ok a => exact hPQ a h
  | error e => exact h

theorem Ends.imp (h : Ends E x P) (hE : ∀ e, E e → E' e) : Ends E' x P := by
  cases x with
  | ok a => exact h
  | error e => exact hE e h

theorem Ends.bind (h : Ends E x P) (hf : ∀ a, P a → Ends E (f a) R) : Ends E (x >>= f) R := by
  cases x with
  | ok a => exact hf a h
  | error e => exact h

/-- A loop over a list, by what one turn does to the invariant. -/
theorem Ends.foldlM {f : α → β → Except ε α} (I : List β → α → Prop)
    (hf : ∀ b bs a, I (b :: bs) a → Ends E (f a b) (I bs)) {bs : List β} {a : α} (h : I bs a) :
    Ends E (bs.foldlM f a) (I []) := by
  induction bs generalizing a with
  | nil => exact Ends.ok h
  | cons b bs ih =>
    rw [List.foldlM_cons]
    exact (hf b bs a h).bind fun a' ha' => ih ha'

/-- What it returns if it does. -/
theorem Ends.of_ok {a : α} (h : Ends E x P) (hx : x = .ok a) : P a := by
  subst hx
  exact h

/-- What it throws if it does. -/
theorem Ends.of_error {e : ε} (h : Ends E x P) (hx : x = .error e) : E e := by
  subst hx
  exact h

end PMFuzz
