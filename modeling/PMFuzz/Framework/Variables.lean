import PMFuzz.Framework.Parts

/-!
# Substituting variables

A dictionary gives names their values, and the names are replaced one after
the other. If no name touches a value (`Apart`), this is one substitution for
all names (`subst_replaceAll`), after which no name is left
(`not_infix_replaceAll`).
-/

namespace PMFuzz.Str

/-- Replacing each name by its value, in order. -/
def replaceAll (d : List (Str × Str)) (s : Str) : Str := d.foldl (fun t e => replace t e.1 e.2) s

/-- `r` is `s` with values in the place of some names. -/
inductive Subst (d : List (Str × Str)) : Str → Str → Prop
  | text (s : Str) : Subst d s s
  | name {n v s r : Str} (u : Str) (h : (n, v) ∈ d) (hs : Subst d s r) :
    Subst d (u ++ (n ++ s)) (u ++ (v ++ r))

/-- No occurrence of `pat` reaches into `w`: it starts with a character that
`pat` lacks, and `pat` starts nowhere after that. -/
structure Apart (pat w : Str) : Prop where
  ne_nil : pat ≠ []
  cut : ∃ c w', w = c :: w' ∧ c ∉ pat ∧ ∀ p ∈ pat.head?, p ∉ w'

/-- No name touches a value. -/
def Separate (d : List (Str × Str)) : Prop := ∀ e ∈ d, ∀ e' ∈ d, Apart e.1 e'.2

variable {pat new a b s r u w n v : Str} {c : Char} {d : List (Str × Str)}

/-- Induction over the occurrences that `replace` finds. -/
theorem occurrence_induction {P : Str → Prop} (hpat : pat ≠ []) (none : ∀ s, ¬ pat <:+: s → P s)
    (first : ∀ a b, NoStart pat a (pat ++ b) → P b → P (a ++ (pat ++ b))) (s : Str) : P s := by
  induction hlen : s.length using Nat.strong_induction_on generalizing s with
  | _ k ih =>
    by_cases hin : pat <:+: s
    · obtain ⟨a, b, rfl, hno⟩ := exists_first hin hpat
      refine first a b hno (ih b.length ?_ b rfl)
      have := List.length_pos_of_ne_nil hpat
      rw [← hlen, List.length_append, List.length_append]
      omega
    · exact none s hin

/-! ## A character that is not in the pattern -/

theorem prefix_append_cons (hc : c ∉ pat) : pat <+: a ++ c :: s ↔ pat <+: a := by
  refine ⟨fun ⟨t, ht⟩ => ?_, fun h => h.trans (List.prefix_append a _)⟩
  rcases List.append_eq_append_iff.mp ht with ⟨x, rfl, -⟩ | ⟨x, rfl, hx⟩
  · exact List.prefix_append pat x
  · cases x with
    | nil => rw [List.append_nil]
    | cons y x =>
      obtain ⟨rfl, -⟩ := List.cons.inj hx
      exact absurd (List.mem_append_right a List.mem_cons_self) hc

theorem infix_append_cons (hpat : pat ≠ []) (hc : c ∉ pat) :
    pat <:+: a ++ c :: s ↔ pat <:+: a ∨ pat <:+: s := by
  induction a with
  | nil =>
    have hno : ¬ pat <+: c :: s := by rw [← List.nil_append (c :: s), prefix_append_cons hc]; simpa using hpat
    rw [List.nil_append, List.infix_cons_iff, List.infix_nil]
    simp [hno, hpat]
  | cons x a ih =>
    rw [List.cons_append, List.infix_cons_iff, ih, List.infix_cons_iff, ← List.cons_append,
      prefix_append_cons hc, or_assoc]

theorem replace_append_cons (hpat : pat ≠ []) (hc : c ∉ pat) (a s : Str) :
    replace (a ++ c :: s) pat new = replace a pat new ++ c :: replace s pat new := by
  induction a using occurrence_induction hpat with
  | none a hno =>
    have hpass : NoStart pat (a ++ [c]) s := by
      intro b e hb he hpre
      refine hno ?_
      -- an occurrence that starts in `a` and `c` ends before `c`
      rcases List.eq_nil_or_concat' e with rfl | ⟨e, x, rfl⟩
      · exact absurd rfl he
      · rw [← List.append_assoc] at hb
        obtain ⟨rfl, hx⟩ := List.append_inj' hb rfl
        obtain rfl := List.cons.inj hx |>.1
        rw [List.append_assoc, List.singleton_append, prefix_append_cons hc] at hpre
        exact hpre.isInfix.trans (List.suffix_append b e).isInfix
    rw [← List.singleton_append, ← List.append_assoc, hpass.replace hpat, replace_of_not_infix hno hpat,
      List.append_assoc, List.singleton_append]
  | first a b hno ih =>
    have hno' : NoStart pat a (pat ++ (b ++ c :: s)) :=
      noStart_append_self.mpr (noStart_append_self.mp hno)
    rw [List.append_assoc, List.append_assoc, hno'.replace_first hpat, ih, hno.replace_first hpat,
      List.append_assoc, List.append_assoc]

/-! ## One name -/

namespace Apart

theorem infix_iff (h : Apart pat w) : pat <:+: a ++ (w ++ s) ↔ pat <:+: a ∨ pat <:+: s := by
  obtain ⟨c, w, rfl, hc, hw⟩ := h.cut
  obtain ⟨p, pat, rfl⟩ := List.exists_cons_of_ne_nil h.ne_nil
  have hpass : NoStart (p :: pat) w s := noStart_of_head (hw p rfl)
  rw [List.cons_append, infix_append_cons h.ne_nil hc, hpass.infix_iff]

theorem replace_append (h : Apart pat w) (a s : Str) :
    replace (a ++ (w ++ s)) pat new = replace a pat new ++ (w ++ replace s pat new) := by
  obtain ⟨c, w, rfl, hc, hw⟩ := h.cut
  obtain ⟨p, pat, rfl⟩ := List.exists_cons_of_ne_nil h.ne_nil
  have hpass : NoStart (p :: pat) w s := noStart_of_head (hw p rfl)
  rw [List.cons_append, replace_append_cons h.ne_nil hc, hpass.replace h.ne_nil, List.cons_append]

end Apart

/-- Replacing brings back no name that was gone. -/
theorem not_infix_replace (hn : n ≠ []) (hpat : Apart pat v) (h : ¬ pat <:+: s) :
    ¬ pat <:+: replace s n v := by
  induction s using occurrence_induction hn with
  | none s hno => rwa [ replace_of_not_infix hno hn]
  | first a b hno ih =>
    rw [hno.replace_first hn, hpat.infix_iff]
    rintro (ha | hb)
    · exact h (ha.trans (List.prefix_append a _).isInfix)
    · refine ih (fun hin => h (hin.trans ?_)) hb
      exact ((List.suffix_append n b).trans (List.suffix_append a _)).isInfix

/-- The name that is replaced is gone. -/
theorem not_infix_replace_self (h : Apart n v) (s : Str) : ¬ n <:+: replace s n v := by
  induction s using occurrence_induction h.ne_nil with
  | none s hno => rwa [ replace_of_not_infix hno h.ne_nil]
  | first a b hno ih =>
    rw [hno.replace_first h.ne_nil, h.infix_iff]
    rintro (ha | hb)
    · obtain ⟨x, y, rfl⟩ := ha
      have hne : n ++ y ≠ [] := List.append_ne_nil_of_left_ne_nil h.ne_nil y
      refine hno x (n ++ y) (List.append_assoc x n y) hne ?_
      rw [List.append_assoc]
      exact List.prefix_append n _
    · exact ih hb

/-! ## The substitution -/

namespace Subst

/-- One more value. -/
theorem append {a a' s r : Str} (ha : Subst d a a') (h : (n, v) ∈ d) (hs : Subst d s r) :
    Subst d (a ++ (n ++ s)) (a' ++ (v ++ r)) := by
  induction ha with
  | text u => exact .name u h hs
  | @name n' v' b b' u h' _ ih =>
    have hname := Subst.name u h' ih
    simpa only [List.append_assoc] using hname

/-- Names in the text are replaced. -/
theorem replace (hd : Separate d) (h : (n, v) ∈ d) (hs : Subst d s r) :
    Subst d s (Str.replace r n v) := by
  have htext : ∀ u, Subst d u (Str.replace u n v) := by
    intro u
    induction u using occurrence_induction (hd _ h _ h).ne_nil with
    | none u hno =>
      rw [ replace_of_not_infix hno (hd _ h _ h).ne_nil]
      exact .text u
    | first a b hno ih =>
      rw [hno.replace_first (hd _ h _ h).ne_nil]
      exact .name a h ih
  induction hs with
  | text u => exact htext u
  | @name n' v' s r u h' _ ih =>
    rw [(hd _ h _ h').replace_append u r]
    exact (htext u).append h' ih

end Subst

/-! ## All names -/

/-- Replacing the names one after the other is a substitution. -/
theorem subst_replaceAll (hd : Separate d) (s : Str) : Subst d s (replaceAll d s) := by
  have hloop : ∀ l ⊆ d, ∀ r, Subst d s r → Subst d s (replaceAll l r) := by
    intro l
    induction l with
    | nil => exact fun _ r hr => hr
    | cons e l ih =>
      intro hl r hr
      obtain ⟨he, hl⟩ := List.cons_subset.mp hl
      exact ih hl _ (hr.replace hd he)
  exact hloop d (List.Subset.refl d) s (.text s)

/-- And leaves no name. -/
theorem not_infix_replaceAll (hd : Separate d) (s : Str) : ∀ e ∈ d, ¬ e.1 <:+: replaceAll d s := by
  have hkeep : ∀ l ⊆ d, ∀ r, ∀ e ∈ d, ¬ e.1 <:+: r → ¬ e.1 <:+: replaceAll l r := by
    intro l
    induction l with
    | nil => exact fun _ r e _ h => h
    | cons e' l ih =>
      intro hl r e he h
      obtain ⟨he', hl⟩ := List.cons_subset.mp hl
      exact ih hl _ e he (not_infix_replace (hd e' he' e' he').ne_nil (hd e he e' he') h)
  have hloop : ∀ l ⊆ d, ∀ r, ∀ e ∈ l, ¬ e.1 <:+: replaceAll l r := by
    intro l
    induction l with
    | nil => exact fun _ r e he => absurd he List.not_mem_nil
    | cons e' l ih =>
      intro hsub r e he
      obtain ⟨he', hl⟩ := List.cons_subset.mp hsub
      rcases List.mem_cons.mp he with rfl | he
      · exact hkeep l hl _ e he' (not_infix_replace_self (hd e he' e he') r)
      · exact ih hl _ e he
  exact hloop d (List.Subset.refl d) s

/-- Without a name nothing is replaced. -/
theorem replaceAll_of_not_infix (hne : ∀ e ∈ d, e.1 ≠ []) (h : ∀ e ∈ d, ¬ e.1 <:+: s) : replaceAll d s = s := by
  induction d with
  | nil => rfl
  | cons e d ih =>
    have hstep : replaceAll (e :: d) s = replaceAll d (Str.replace s e.1 e.2) := rfl
    rw [hstep, replace_of_not_infix (h e List.mem_cons_self) (hne e List.mem_cons_self)]
    exact ih (fun e' he' => hne e' (List.mem_cons_of_mem e he')) fun e' he' => h e' (List.mem_cons_of_mem e he')

end PMFuzz.Str
