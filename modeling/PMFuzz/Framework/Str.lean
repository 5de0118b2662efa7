import Mathlib.Data.Char
import Mathlib.Data.List.DropRight
import Mathlib.Data.List.Infix
import Mathlib.Data.List.Lex
import Mathlib.Data.List.Sort

/-!
# Python strings

The methods of `str` that the names of files are taken apart with. A string
is the list of its characters; `pat in s` is `pat <:+: s`.

`NoStart pat a s` says that no occurrence of `pat` in `a ++ s` starts in
`a`. Searching and replacing then pass over `a` (`NoStart.infix_iff`,
`NoStart.replace`).
-/

namespace PMFuzz

/-- A Python string. -/
abbrev Str := List Char

instance : LawfulBEq Str := inferInstance

namespace Str

/-- The alphabetical order does not depend on the order before. -/
theorem insertionSort_eq_of_perm (names names' : List Str) (h : names ≈ names') :
    names.insertionSort (· ≤ ·) = names'.insertionSort (· ≤ ·) :=
  (((List.perm_insertionSort _ _).trans h).trans (List.perm_insertionSort _ _).symm).eq_of_pairwise'
    (List.pairwise_insertionSort _ _) (List.pairwise_insertionSort _ _)

/-- `replace` for a pattern that is not empty, with `skip` characters of an
occurrence left to drop. -/
def replaceFrom (old new : Str) : ℕ → Str → Str
  | _, [] => []
  | skip + 1, _ :: s => replaceFrom old new skip s
  | 0, c :: s =>
    if old.isPrefixOf (c :: s) then new ++ replaceFrom old new (old.length - 1) s
    else c :: replaceFrom old new 0 s

/-- `s.replace(old, new)`. -/
def replace (s old new : Str) : Str :=
  if old = [] then new ++ s.flatMap (fun c => c :: new) else replaceFrom old new 0 s

/-- `s.endswith(suffix)`. -/
def endsWith (s suffix : Str) : Bool := suffix.isSuffixOf s

/-- The last character of a suffix is the last of all. -/
theorem getLast?_of_endsWith {s suffix : Str} (h : endsWith s suffix = true) (hne : suffix ≠ []) :
    s.getLast? = suffix.getLast? := by
  obtain ⟨p, rfl⟩ := List.isSuffixOf_iff_suffix.mp h
  exact List.getLast?_append_of_ne_nil p hne

/-- The ranges of white space. -/
def spaceRanges : List (ℕ × ℕ) :=
  [(0x09, 0x0d), (0x1c, 0x20), (0x85, 0x85), (0xa0, 0xa0), (0x1680, 0x1680), (0x2000, 0x200a),
    (0x2028, 0x2029), (0x202f, 0x202f), (0x205f, 0x205f), (0x3000, 0x3000)]

/-- `isspace`. -/
def isSpace (c : Char) : Bool := spaceRanges.any fun r => decide (r.1 ≤ c.toNat ∧ c.toNat ≤ r.2)

/-- `isspace` of C. -/
def isSpaceC (c : Char) : Bool := c = ' ' || (9 ≤ c.toNat && c.toNat ≤ 13)

theorem isDigit_bounds {c : Char} (h : c.isDigit = true) : 48 ≤ c.toNat ∧ c.toNat ≤ 57 := by
  unfold Char.isDigit at h
  rw [Bool.and_eq_true, decide_eq_true_eq, decide_eq_true_eq] at h
  exact ⟨UInt32.le_iff_toNat_le.mp h.1, UInt32.le_iff_toNat_le.mp h.2⟩

/-- A digit is no white space and no sign. -/
theorem isDigit_head {c : Char} (h : c.isDigit = true) : isSpaceC c = false ∧ c ≠ '-' ∧ c ≠ '+' := by
  have hd := isDigit_bounds h
  refine ⟨?_, ?_, ?_⟩
  · have hne : c ≠ ' ' := by
      rintro rfl
      exact absurd h (by decide)
    simp [isSpaceC, hne]
    omega
  · rintro rfl
    exact absurd h (by decide)
  · rintro rfl
    exact absurd h (by decide)

/-- `s.strip()`. -/
def strip (s : Str) : Str := (s.dropWhile isSpace).rdropWhile isSpace

/-- `s.split(sep)`. -/
def split (s : Str) (sep : Char) : List Str := s.splitOn sep

/-- Parts, with the delimiters between them. -/
def rejoin (parts : List Str) (delims : Str) : Str :=
  parts.headI ++ (delims.zip parts.tail).flatMap fun p => p.1 :: p.2

/-- Splitting and putting together again. -/
theorem rejoin_splitOnP (p : Char → Bool) (s extra : Str) :
    rejoin (s.splitOnP p) (s.filter p ++ extra) = s := by
  induction s with
  | nil => simp [rejoin]
  | cons x s ih =>
    obtain ⟨w, ws, hw⟩ := List.exists_cons_of_ne_nil (List.splitOnP_ne_nil p s)
    rw [hw] at ih
    rw [List.splitOnP_cons_eq_if_modifyHead, hw]
    cases hx : p x with
    | true =>
      rw [if_pos rfl, List.filter_cons_of_pos hx, rejoin]
      show x :: rejoin (w :: ws) (s.filter p ++ extra) = _
      rw [ih]
    | false =>
      have hno : ¬ p x = true := by rw [hx]; decide
      rw [if_neg (by decide), List.filter_cons_of_neg hno, rejoin]
      show x :: rejoin (w :: ws) (s.filter p ++ extra) = _
      rw [ih]

/-- Text without the separator goes on the last part. -/
theorem split_append {sep : Char} {r : Str} (h : sep ∉ r) (s : Str) :
    ∃ init last, split s sep = init ++ [last] ∧ split (s ++ r) sep = init ++ [last ++ r] := by
  induction s with
  | nil => exact ⟨[], [], rfl, List.splitOn_eq_singleton h⟩
  | cons x s ih =>
    obtain ⟨init, last, hs, hr⟩ := ih
    unfold split at hs hr ⊢
    rw [List.cons_append, List.splitOn_cons_eq_if_modifyHead, List.splitOn_cons_eq_if_modifyHead, hs, hr]
    by_cases hx : x == sep
    · rw [if_pos hx, if_pos hx]
      exact ⟨[] :: init, last, rfl, rfl⟩
    · rw [if_neg hx, if_neg hx]
      cases init with
      | nil => exact ⟨[], x :: last, rfl, rfl⟩
      | cons i init => exact ⟨(x :: i) :: init, last, rfl, rfl⟩

/-! ## Text that a search passes over -/

/-- No occurrence of `pat` in `a ++ s` starts in `a`. -/
def NoStart (pat a s : Str) : Prop := ∀ b c, a = b ++ c → c ≠ [] → ¬ pat <+: c ++ s

variable {pat a s new : Str}

theorem noStart_nil : NoStart pat [] s := fun b c h hc => by
  have := (List.append_eq_nil_iff.mp h.symm).2
  exact absurd this hc

theorem noStart_cons {x : Char} :
    NoStart pat (x :: a) s ↔ ¬ pat <+: x :: (a ++ s) ∧ NoStart pat a s := by
  constructor
  · intro h
    refine ⟨h [] (x :: a) rfl (List.cons_ne_nil _ _), fun b c hb hc => h (x :: b) c ?_ hc⟩
    rw [hb, List.cons_append]
  · rintro ⟨hx, ha⟩ b c hb hc
    cases b with
    | nil =>
      rw [List.nil_append] at hb
      rw [← hb]
      exact hx
    | cons y b =>
      rw [List.cons_append, List.cons.injEq] at hb
      exact ha b c hb.2 hc

theorem noStart_append {b : Str} :
    NoStart pat (a ++ b) s ↔ NoStart pat a (b ++ s) ∧ NoStart pat b s := by
  induction a with
  | nil => simp [noStart_nil]
  | cons x a ih => rw [List.cons_append, noStart_cons, noStart_cons, ih, List.append_assoc, and_assoc]

/-- The first character of the pattern does not occur. -/
theorem noStart_of_head {p : Char} (h : p ∉ a) : NoStart (p :: pat) a s := fun b c hb hc hpre => by
  obtain ⟨x, c, rfl⟩ := List.exists_cons_of_ne_nil hc
  obtain ⟨rfl, -⟩ := List.cons_prefix_cons.mp hpre
  exact h (by rw [hb]; simp)

/-- The second character of the pattern does not occur and does not come
next. -/
theorem noStart_of_second {p q : Char} (h : q ∉ a) (hs : s.head? ≠ some q) :
    NoStart (p :: q :: pat) a s := fun b c hb hc hpre => by
  obtain ⟨x, c, rfl⟩ := List.exists_cons_of_ne_nil hc
  obtain ⟨-, hpre⟩ := List.cons_prefix_cons.mp hpre
  cases c with
  | nil =>
    obtain ⟨r, hr⟩ := hpre
    have hr' : q :: pat ++ r = s := hr
    exact hs (by rw [← hr']; rfl)
  | cons y c =>
    obtain ⟨rfl, -⟩ := List.cons_prefix_cons.mp hpre
    exact h (by rw [hb]; simp)

theorem NoStart.infix_iff (h : NoStart pat a s) : pat <:+: a ++ s ↔ pat <:+: s := by
  induction a with
  | nil => rfl
  | cons x a ih =>
    obtain ⟨hx, ha⟩ := noStart_cons.mp h
    rw [List.cons_append, List.infix_cons_iff, ih ha]
    exact or_iff_right hx

theorem NoStart.replaceFrom (h : NoStart pat a s) :
    replaceFrom pat new 0 (a ++ s) = a ++ replaceFrom pat new 0 s := by
  induction a with
  | nil => rfl
  | cons x a ih =>
    obtain ⟨hx, ha⟩ := noStart_cons.mp h
    rw [List.cons_append, Str.replaceFrom, if_neg (by rw [List.isPrefixOf_iff_prefix]; exact hx),
      ih ha, List.cons_append]

theorem NoStart.replace (h : NoStart pat a s) (hpat : pat ≠ []) :
    replace (a ++ s) pat new = a ++ replace s pat new := by
  rw [Str.replace, if_neg hpat, Str.replace, if_neg hpat, h.replaceFrom]

/-- A pattern of which some character does not occur. -/
theorem not_infix_of_mem {p : Char} (hp : p ∈ pat) (h : p ∉ s) : ¬ pat <:+: s :=
  fun hin => h (hin.subset hp)

/-- Without an occurrence nothing is replaced. -/
theorem NoStart.replace_self (h : NoStart pat s []) (hpat : pat ≠ []) : Str.replace s pat new = s := by
  have : Str.replace (s ++ []) pat new = s ++ Str.replace [] pat new := h.replace hpat
  rw [List.append_nil] at this
  rw [this, Str.replace, if_neg hpat]
  exact List.append_nil s

theorem replace_of_not_infix (h : ¬ pat <:+: s) (hpat : pat ≠ []) : replace s pat new = s :=
  NoStart.replace_self (fun b c hb hc hpre =>
    h (hb ▸ (by rw [List.append_nil] at hpre; exact hpre.isInfix.trans (List.infix_append_right)))) hpat

/-- An occurrence right here. -/
theorem replace_append (hpat : pat ≠ []) : replace (pat ++ s) pat new = new ++ replace s pat new := by
  have hskip : ∀ (p s : Str), replaceFrom pat new p.length (p ++ s) = replaceFrom pat new 0 s := by
    intro p s
    induction p with
    | nil => rfl
    | cons c p ih => exact ih
  rw [replace, if_neg hpat, replace, if_neg hpat]
  obtain ⟨c, p, rfl⟩ := List.exists_cons_of_ne_nil hpat
  rw [List.cons_append, replaceFrom, if_pos (by
    rw [List.isPrefixOf_iff_prefix]; exact List.prefix_append (c :: p) s), List.length_cons,
    Nat.add_sub_cancel, hskip]

theorem length_replaceFrom_nil (pat : Str) (skip : ℕ) (s : Str) : (replaceFrom pat [] skip s).length ≤ s.length := by
  induction s generalizing skip with
  | nil => simp [replaceFrom]
  | cons c s ih =>
    cases skip with
    | succ skip => exact (ih skip).trans (Nat.le_succ _)
    | zero =>
      rw [replaceFrom]
      split
      · exact (ih _).trans (Nat.le_succ _)
      · exact Nat.succ_le_succ (ih 0)

/-- Where there is an occurrence, taking it out changes the text. -/
theorem replace_nil_ne (h : pat <:+: s) (hpat : pat ≠ []) : replace s pat [] ≠ s := by
  have hlt : (replaceFrom pat [] 0 s).length < s.length := by
    induction s with
    | nil => exact absurd (List.infix_nil.mp h) hpat
    | cons c s ih =>
      rw [replaceFrom]
      split
      · exact Nat.lt_succ_of_le (length_replaceFrom_nil pat _ s)
      · rename_i hno
        rw [List.isPrefixOf_iff_prefix] at hno
        exact Nat.succ_lt_succ (ih ((List.infix_cons_iff.mp h).resolve_left hno))
  rw [replace, if_neg hpat]
  exact fun heq => absurd (congrArg List.length heq) hlt.ne

end Str

end PMFuzz
