import Mathlib.Computability.Language

/-!
# Regular expressions over character classes

Mathlib's `RegularExpression` has single characters as its letters. A pattern
such as `\d` or `.` stands for a class, so here a letter is a predicate. The
language of a pattern is Mathlib's, and `rmatch` decides it by derivatives
(`rmatch_iff`).

`search` is Python's `re.search` for a pattern between `^` and `$`, where
`$` also matches before a newline that ends the text.
-/

namespace PMFuzz

open scoped Computability

/-- Patterns over the alphabet `α`. -/
inductive Regex (α : Type)
  | empty
  | epsilon
  | char (p : α → Bool)
  | alt (r s : Regex α)
  | seq (r s : Regex α)
  | star (r : Regex α)

namespace Regex

variable {α : Type}

/-- The texts a pattern matches. -/
def lang : Regex α → Language α
  | empty => 0
  | epsilon => 1
  | char p => {x | ∃ a, p a = true ∧ x = [a]}
  | alt r s => r.lang + s.lang
  | seq r s => r.lang * s.lang
  | star r => r.lang∗

/-- The pattern matches the empty text. -/
def matchEpsilon : Regex α → Bool
  | empty => false
  | epsilon => true
  | char _ => false
  | alt r s => r.matchEpsilon || s.matchEpsilon
  | seq r s => r.matchEpsilon && s.matchEpsilon
  | star _ => true

/-- What is left to match after `a`. -/
def deriv : Regex α → α → Regex α
  | empty, _ => empty
  | epsilon, _ => empty
  | char p, a => if p a then epsilon else empty
  | alt r s, a => alt (r.deriv a) (s.deriv a)
  | seq r s, a =>
    if r.matchEpsilon then alt (seq (r.deriv a) s) (s.deriv a) else seq (r.deriv a) s
  | star r, a => seq (r.deriv a) (star r)

/-- The pattern matches the whole text. -/
def rmatch (r : Regex α) : List α → Bool
  | [] => r.matchEpsilon
  | a :: x => (r.deriv a).rmatch x

/-! ## Building patterns -/

/-- The text itself. -/
def text [DecidableEq α] : List α → Regex α
  | [] => epsilon
  | a :: x => seq (char (decide <| · = a)) (text x)

/-- One or more. -/
def plus (r : Regex α) : Regex α := seq r (star r)

theorem mem_lang_char {p : α → Bool} {x : List α} :
    x ∈ (char p).lang ↔ ∃ a, p a = true ∧ x = [a] := Iff.rfl

theorem mem_lang_seq {r s : Regex α} {x : List α} :
    x ∈ (seq r s).lang ↔ ∃ u ∈ r.lang, ∃ v ∈ s.lang, u ++ v = x := Language.mem_mul

theorem mem_lang_text [DecidableEq α] {x y : List α} : y ∈ (text x).lang ↔ y = x := by
  induction x generalizing y with
  | nil => exact Language.mem_one y
  | cons a x ih =>
    rw [text, mem_lang_seq]
    constructor
    · rintro ⟨u, ⟨b, hb, rfl⟩, v, hv, rfl⟩
      rw [ih] at hv
      rw [of_decide_eq_true hb, hv]
      rfl
    · rintro rfl
      exact ⟨[a], ⟨a, decide_eq_true rfl, rfl⟩, x, ih.mpr rfl, rfl⟩

/-! ## The matcher -/

theorem matchEpsilon_iff (r : Regex α) : r.matchEpsilon = true ↔ [] ∈ r.lang := by
  induction r with
  | empty => simp [matchEpsilon, lang, Language.notMem_zero]
  | epsilon => simp [matchEpsilon, lang, Language.mem_one]
  | char p => simp [matchEpsilon, mem_lang_char]
  | alt r s ihr ihs =>
    rw [matchEpsilon, lang, Language.mem_add, Bool.or_eq_true, ihr, ihs]
  | seq r s ihr ihs => simp [matchEpsilon, mem_lang_seq, ihr, ihs]
  | star r _ => simp [matchEpsilon, lang, Language.nil_mem_kstar]

/-- A word of `l∗` that is not empty starts with a word of `l` that is not
empty. -/
theorem cons_mem_kstar {l : Language α} {a : α} {x : List α} :
    a :: x ∈ l∗ ↔ ∃ u v, u ++ v = x ∧ a :: u ∈ l ∧ v ∈ l∗ := by
  constructor
  · intro h
    obtain ⟨L, hL, hmem⟩ := Language.mem_kstar_iff_exists_nonempty.mp h
    cases L with
    | nil => cases hL
    | cons w L =>
      obtain ⟨hw, hne⟩ := hmem w List.mem_cons_self
      cases w with
      | nil => exact absurd rfl hne
      | cons b u =>
        rw [List.flatten_cons, List.cons_append, List.cons.injEq] at hL
        obtain ⟨rfl, rfl⟩ := hL
        exact ⟨u, L.flatten, rfl, hw, Language.join_mem_kstar fun y hy =>
          (hmem y (List.mem_cons_of_mem _ hy)).1⟩
  · rintro ⟨u, v, rfl, hu, hv⟩
    obtain ⟨L, rfl, hL⟩ := Language.mem_kstar.mp hv
    refine Language.mem_kstar.mpr ⟨(a :: u) :: L, rfl, ?_⟩
    rintro y (_ | ⟨_, hy⟩)
    · exact hu
    · exact hL y hy

theorem mem_deriv (r : Regex α) (a : α) (x : List α) : x ∈ (r.deriv a).lang ↔ a :: x ∈ r.lang := by
  induction r generalizing x with
  | empty => exact Iff.rfl
  | epsilon => simp [deriv, lang, Language.notMem_zero, Language.mem_one]
  | char p =>
    rw [deriv, mem_lang_char]
    split
    · rename_i hp
      constructor
      · rintro rfl; exact ⟨a, hp, rfl⟩
      · rintro ⟨b, -, h⟩
        cases h
        exact Language.nil_mem_one
    · rename_i hp
      constructor
      · exact fun h => absurd h (Language.notMem_zero x)
      · rintro ⟨b, hb, h⟩
        cases h
        exact absurd hb hp
  | alt r s ihr ihs =>
    rw [deriv, lang, lang, Language.mem_add, Language.mem_add, ihr, ihs]
  | seq r s ihr ihs =>
    have hseq : x ∈ (seq (r.deriv a) s).lang ↔ ∃ u v, a :: u ∈ r.lang ∧ v ∈ s.lang ∧ u ++ v = x := by
      rw [mem_lang_seq]
      constructor
      · rintro ⟨u, hu, v, hv, rfl⟩; exact ⟨u, v, (ihr u).mp hu, hv, rfl⟩
      · rintro ⟨u, v, hu, hv, rfl⟩; exact ⟨u, (ihr u).mpr hu, v, hv, rfl⟩
    have hcons : a :: x ∈ (seq r s).lang ↔
        (∃ u v, a :: u ∈ r.lang ∧ v ∈ s.lang ∧ u ++ v = x) ∨ [] ∈ r.lang ∧ a :: x ∈ s.lang := by
      rw [mem_lang_seq]
      constructor
      · rintro ⟨u, hu, v, hv, huv⟩
        cases u with
        | nil => exact .inr ⟨hu, huv ▸ hv⟩
        | cons b u =>
          rw [List.cons_append, List.cons.injEq] at huv
          obtain ⟨rfl, rfl⟩ := huv
          exact .inl ⟨u, v, hu, hv, rfl⟩
      · rintro (⟨u, v, hu, hv, rfl⟩ | ⟨hu, hv⟩)
        · exact ⟨a :: u, hu, v, hv, rfl⟩
        · exact ⟨[], hu, a :: x, hv, rfl⟩
    rw [hcons, ← hseq, ← matchEpsilon_iff, deriv]
    split
    · rename_i he
      rw [lang, Language.mem_add, ihs]
      simp [he]
    · rename_i he
      simp [he]
  | star r ih =>
    rw [deriv, mem_lang_seq, lang, cons_mem_kstar]
    constructor
    · rintro ⟨u, hu, v, hv, rfl⟩; exact ⟨u, v, rfl, (ih u).mp hu, hv⟩
    · rintro ⟨u, v, rfl, hu, hv⟩; exact ⟨u, (ih u).mpr hu, v, hv, rfl⟩

theorem rmatch_iff (r : Regex α) (x : List α) : r.rmatch x = true ↔ x ∈ r.lang := by
  induction x generalizing r with
  | nil => exact r.matchEpsilon_iff
  | cons a x ih => rw [rmatch, ih, mem_deriv]

/-! ## Search -/

/-- `re.search('^' + r + '$', s) != None`. -/
def search (r : Regex Char) (s : List Char) : Bool :=
  r.rmatch s || (s.getLast? == some '\n' && r.rmatch s.dropLast)

theorem search_iff (r : Regex Char) (s : List Char) :
    r.search s = true ↔ ∃ x ∈ r.lang, s = x ∨ s = x ++ ['\n'] := by
  rw [search, Bool.or_eq_true, Bool.and_eq_true, beq_iff_eq, rmatch_iff, rmatch_iff,
    List.getLast?_eq_some_iff]
  constructor
  · rintro (h | ⟨⟨x, rfl⟩, h⟩)
    · exact ⟨s, h, .inl rfl⟩
    · rw [List.dropLast_concat] at h
      exact ⟨x, h, .inr rfl⟩
  · rintro ⟨x, h, rfl | rfl⟩
    · exact .inl h
    · exact .inr ⟨⟨x, rfl⟩, by rwa [List.dropLast_concat]⟩

end Regex

end PMFuzz
