import PMFuzz.Framework.Str

/-!
# The parts of a string

A pattern splits a string into parts. Replacing the pattern is joining the
parts with something else (`replace_eq_intercalate`), and what is put between
them can be replaced again if it occurs nowhere else (`replace_intercalate`,
`onlyBetween_of_replace`).
-/

namespace PMFuzz.Str

/-- `s.split(pat)` with `skip` characters of an occurrence left to drop. -/
def partsFrom (pat : Str) : ℕ → Str → List Str
  | _, [] => [[]]
  | skip + 1, _ :: s => partsFrom pat skip s
  | 0, c :: s =>
    if pat.isPrefixOf (c :: s) then [] :: partsFrom pat (pat.length - 1) s
    else (partsFrom pat 0 s).modifyHead (c :: ·)

/-- `s.split(pat)`. -/
def parts (s pat : Str) : List Str := partsFrom pat 0 s

/-- Joined with `pat`, the parts hold no other occurrence of it. -/
def OnlyBetween (pat : Str) : List Str → Prop
  | [] => True
  | [s] => ¬ pat <:+: s
  | s :: s' :: ss => NoStart pat s pat ∧ OnlyBetween pat (s' :: ss)

variable {pat new a b s v : Str} {c : Char}

/-! ## Joining the parts -/

theorem partsFrom_ne_nil (pat : Str) (skip : ℕ) (s : Str) : partsFrom pat skip s ≠ [] := by
  induction s generalizing skip with
  | nil => cases skip <;> exact List.cons_ne_nil _ _
  | cons c s ih =>
    cases skip with
    | succ skip => exact ih skip
    | zero =>
      rw [partsFrom]
      split
      · exact List.cons_ne_nil _ _
      · obtain ⟨p, ps, hp⟩ := List.exists_cons_of_ne_nil (ih 0)
        rw [hp]
        exact List.cons_ne_nil _ _

theorem replaceFrom_eq_intercalate (pat new : Str) (skip : ℕ) (s : Str) :
    replaceFrom pat new skip s = new.intercalate (partsFrom pat skip s) := by
  induction s generalizing skip with
  | nil => cases skip <;> rfl
  | cons c s ih =>
    cases skip with
    | succ skip => exact ih skip
    | zero =>
      rw [replaceFrom, partsFrom]
      split
      · rw [ih, List.intercalate_cons_of_ne_nil (partsFrom_ne_nil _ _ _), List.nil_append]
      · obtain ⟨p, ps, hp⟩ := List.exists_cons_of_ne_nil (partsFrom_ne_nil pat 0 s)
        rw [ih, hp, List.modifyHead_cons, List.intercalate_cons_cons_left]

theorem replace_eq_intercalate (hpat : pat ≠ []) (s new : Str) :
    replace s pat new = new.intercalate (parts s pat) := by
  rw [replace, if_neg hpat]
  exact replaceFrom_eq_intercalate pat new 0 s

/-- Replacing the pattern by itself. -/
theorem replace_self (s : Str) (hpat : pat ≠ []) : replace s pat pat = s := by
  have hfrom : ∀ (skip : ℕ) (s : Str), replaceFrom pat pat skip s = s.drop skip := by
    intro skip s
    induction s generalizing skip with
    | nil => cases skip <;> rfl
    | cons c s ih =>
      cases skip with
      | succ skip => exact ih skip
      | zero =>
        rw [replaceFrom]
        split
        · rename_i hpre
          obtain ⟨r, hr⟩ := List.isPrefixOf_iff_prefix.mp hpre
          have hlen : pat.length = pat.length - 1 + 1 :=
            (Nat.succ_pred (mt List.length_eq_zero_iff.mp hpat)).symm
          have hdrop : s.drop (pat.length - 1) = r := by
            rw [← List.drop_succ_cons (a := c), ← hlen, ← hr, List.drop_left]
          rw [ih, hdrop, hr]
          rfl
        · rw [ih]
          rfl
  rw [replace, if_neg hpat, hfrom]
  rfl

/-! ## The first occurrence -/

theorem exists_first (h : pat <:+: s) (hpat : pat ≠ []) :
    ∃ a b, s = a ++ (pat ++ b) ∧ NoStart pat a (pat ++ b) := by
  induction s with
  | nil => exact absurd (List.eq_nil_of_infix_nil h) hpat
  | cons c s ih =>
    by_cases hpre : pat <+: c :: s
    · obtain ⟨b, hb⟩ := hpre
      exact ⟨[], b, hb.symm, noStart_nil⟩
    · obtain ⟨a, b, rfl, hno⟩ := ih ((List.infix_cons_iff.mp h).resolve_left hpre)
      exact ⟨c :: a, b, rfl, noStart_cons.mpr ⟨hpre, hno⟩⟩

/-- Only the first occurrence and what follows it are replaced. -/
theorem NoStart.replace_first (h : NoStart pat a (pat ++ b)) (hpat : pat ≠ []) :
    Str.replace (a ++ (pat ++ b)) pat new = a ++ (new ++ Str.replace b pat new) := by
  rw [h.replace hpat, replace_append hpat]

/-- An occurrence that starts before `pat` ends before it ends. -/
theorem noStart_append_self : NoStart pat a (pat ++ v) ↔ NoStart pat a pat := by
  have hpre : ∀ c : Str, pat <+: c ++ (pat ++ v) ↔ pat <+: c ++ pat := by
    intro c
    rw [← List.append_assoc]
    refine ⟨fun h => ?_, fun h => h.trans (List.prefix_append _ _)⟩
    refine List.prefix_of_prefix_length_le h (List.prefix_append _ _) ?_
    rw [List.length_append]
    exact Nat.le_add_left _ _
  exact forall₂_congr fun b c => by rw [hpre]

theorem count_replaceFrom_le (hnew : c ∉ new) (skip : ℕ) (s : Str) :
    (replaceFrom pat new skip s).count c ≤ s.count c := by
  induction s generalizing skip with
  | nil => cases skip <;> exact Nat.le_refl _
  | cons x s ih =>
    have hcons : s.count c ≤ (x :: s).count c := List.count_le_count_cons
    cases skip with
    | succ skip => exact (ih skip).trans hcons
    | zero =>
      rw [replaceFrom]
      split
      · rw [List.count_append, List.count_eq_zero_of_not_mem hnew, Nat.zero_add]
        exact (ih _).trans hcons
      · rw [List.count_cons, List.count_cons]
        exact Nat.add_le_add_right (ih 0) _

/-- A character of the pattern that does not come back becomes rarer. -/
theorem count_replace_lt (h : pat <:+: s) (hc : c ∈ pat) (hnew : c ∉ new) :
    (replace s pat new).count c < s.count c := by
  have hpat : pat ≠ [] := List.ne_nil_of_mem hc
  obtain ⟨a, b, rfl, hno⟩ := exists_first h hpat
  have hrest : (replace b pat new).count c ≤ b.count c := by
    rw [replace, if_neg hpat]
    exact count_replaceFrom_le hnew 0 b
  have hpos := List.count_pos_iff.mpr hc
  rw [hno.replace_first hpat, List.count_append, List.count_append, List.count_append,
    List.count_append, List.count_eq_zero_of_not_mem hnew]
  omega

/-! ## Replacing twice -/

theorem replace_intercalate {ss : List Str} (hpat : pat ≠ []) (h : OnlyBetween pat ss) (new : Str) :
    replace (pat.intercalate ss) pat new = new.intercalate ss := by
  induction ss with
  | nil => rw [List.intercalate_nil, List.intercalate_nil, replace, if_neg hpat]; rfl
  | cons s ss ih =>
    cases ss with
    | nil =>
      rw [List.intercalate_singleton, List.intercalate_singleton]
      exact replace_of_not_infix h hpat
    | cons s' ss =>
      obtain ⟨hs, hss⟩ := h
      rw [List.intercalate_cons_cons, List.intercalate_cons_cons, List.append_assoc, List.append_assoc,
        (noStart_append_self.mpr hs).replace_first hpat, ih hss]

/-- The other way round one character tells, which `pat` does not start
with. -/
theorem onlyBetween_of_replace {ss : List Str} (hne : ss ≠ []) (hpat : pat ≠ []) (hc : pat.head? ≠ some c)
    (h : replace (pat.intercalate ss) pat [c] = List.intercalate [c] ss) : OnlyBetween pat ss := by
  induction ss with
  | nil => exact absurd rfl hne
  | cons s ss ih =>
    cases ss with
    | nil =>
      rw [List.intercalate_singleton, List.intercalate_singleton] at h
      intro hin
      obtain ⟨a, b, rfl, hno⟩ := exists_first hin hpat
      rw [hno.replace_first hpat] at h
      have hhead := congrArg List.head? (List.append_cancel_left h)
      rw [List.head?_append_of_ne_nil _ hpat] at hhead
      exact hc hhead.symm
    | cons s' ss =>
      rw [List.intercalate_cons_cons, List.intercalate_cons_cons, List.append_assoc, List.append_assoc] at h
      have hs : NoStart pat s (pat ++ pat.intercalate (s' :: ss)) := by
        obtain ⟨a, b, heq, hno⟩ := exists_first ⟨s, pat.intercalate (s' :: ss), List.append_assoc ..⟩ hpat
        rcases List.append_eq_append_iff.mp heq with ⟨x, rfl, hx⟩ | ⟨x, hx, hx'⟩
        · rw [hx]
          exact (noStart_append.mp hno).1
        · cases x with
          | nil =>
            rw [List.append_nil] at hx
            rw [hx, ← List.nil_append (pat ++ pat.intercalate (s' :: ss)), ← hx']
            exact hno
          | cons y x =>
            -- `c` is put where `pat` starts
            rw [heq, hno.replace_first hpat, hx, List.append_assoc] at h
            have hhead := congrArg List.head? (List.append_cancel_left h)
            have hstart := congrArg List.head? hx'
            rw [List.head?_append_of_ne_nil _ hpat] at hstart
            exact absurd (hstart.trans hhead.symm) hc
      rw [hs.replace_first hpat] at h
      have hrest := List.append_cancel_left (List.append_cancel_left h)
      exact ⟨noStart_append_self.mp hs, ih (List.cons_ne_nil _ _) hrest⟩

end PMFuzz.Str
