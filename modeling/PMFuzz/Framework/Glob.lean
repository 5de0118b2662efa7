import PMFuzz.Framework.Regex
import PMFuzz.Framework.Str
import Mathlib.Data.List.DropRight

/-!
# Paths and wildcards

A path is split at its last slash. `glob` is Python's for a pattern with
wildcards in its last part only: the files of that directory whose names
match, hidden ones only if the pattern asks for them.
-/

namespace PMFuzz.Glob

open Regex
open scoped Computability

/-- `path.basename`. -/
def basename (p : Str) : Str := p.rtakeWhile (· ≠ '/')

/-- `path.dirname`. -/
def dirname (p : Str) : Str :=
  let head := p.rdropWhile (· ≠ '/')
  if head.all (· = '/') then head else head.rdropWhile (· = '/')

/-- `path.join`, of two parts. -/
def join (d n : Str) : Str :=
  if n.head? = some '/' then n
  else if d = [] ∨ d.getLast? = some '/' then d ++ n else d ++ '/' :: n

/-- `fnmatch.translate`, of a pattern without `[`. -/
def translate : Str → Regex Char
  | [] => epsilon
  | c :: pat =>
    seq (if c = '*' then star (char fun _ => true) else if c = '?' then char fun _ => true
      else char (decide <| · = c)) (translate pat)

/-- `fnmatch.fnmatch`. -/
def fnmatch (name pat : Str) : Bool := (translate pat).rmatch name

/-- `_ishidden`. -/
def isHidden (name : Str) : Bool := name.head? == some '.'

/-- `glob.glob`, of the paths in `files`. -/
def glob (files : List Str) (pattern : Str) : List Str :=
  files.filter fun f => dirname f = dirname pattern && fnmatch (basename f) (basename pattern) &&
    (isHidden (basename pattern) || !isHidden (basename f))

variable {d n p s : Str}

theorem ne_slash_reverse (h : '/' ∉ n) : ∀ x ∈ n.reverse, decide (x ≠ '/') = true := by
  intro x hx
  refine decide_eq_true ?_
  rintro rfl
  exact h (List.mem_reverse.mp hx)

theorem basename_join (h : '/' ∉ n) : basename (d ++ '/' :: n) = n := by
  have hrev : (d ++ '/' :: n).reverse = n.reverse ++ '/' :: d.reverse := by simp
  rw [basename, List.rtakeWhile, hrev, List.takeWhile_append_of_pos (ne_slash_reverse h),
    List.takeWhile_cons_of_neg (by decide), List.append_nil, List.reverse_reverse]

theorem basename_of_notMem (h : '/' ∉ n) : basename n = n := by
  rw [basename, List.rtakeWhile_eq_self_iff]
  exact fun x hx => ne_slash_reverse h x (List.mem_reverse.mpr hx)

theorem dirname_join (h : '/' ∉ n) : dirname (d ++ '/' :: n) = dirname (d ++ ['/']) := by
  have hdrop : ∀ m : Str, '/' ∉ m →
      (d ++ '/' :: m).rdropWhile (fun x => decide (x ≠ '/')) = d ++ ['/'] := by
    intro m hm
    have hrev : (d ++ '/' :: m).reverse = m.reverse ++ '/' :: d.reverse := by simp
    rw [List.rdropWhile, hrev, List.dropWhile_append_of_pos (ne_slash_reverse hm),
      List.dropWhile_cons_of_neg (by decide)]
    simp
  rw [dirname, dirname, hdrop n h, hdrop [] List.not_mem_nil]

/-! ## Joined paths -/

theorem join_of_notMem (h : '/' ∉ n) :
    join d n = if d = [] ∨ d.getLast? = some '/' then d ++ n else d ++ '/' :: n :=
  if_neg fun hhead => h (List.mem_of_mem_head? hhead)

theorem join_inj {m : Str} (hm : '/' ∉ m) (hn : '/' ∉ n) : join d m = join d n ↔ m = n := by
  rw [join_of_notMem hm, join_of_notMem hn]
  split
  · exact List.append_right_inj d
  · rw [List.append_right_inj, List.cons_inj_right]

theorem basename_path (h : '/' ∉ n) : basename (join d n) = n := by
  rw [join_of_notMem h]
  split
  · rename_i hd
    rcases hd with rfl | hd
    · exact basename_of_notMem h
    · obtain ⟨e, rfl⟩ := List.getLast?_eq_some_iff.mp hd
      rw [List.append_assoc]
      exact basename_join h
  · exact basename_join h

theorem dirname_path (hd : d.getLast? ≠ some '/') (h : '/' ∉ n) : dirname (join d n) = d := by
  rw [join_of_notMem h]
  by_cases hnil : d = []
  · have hdrop : n.rdropWhile (fun x => decide (x ≠ '/')) = [] :=
      List.rdropWhile_eq_nil_iff.mpr fun x hx => ne_slash_reverse h x (List.mem_reverse.mpr hx)
    rw [if_pos (.inl hnil), hnil, List.nil_append, dirname, hdrop]
    rfl
  · have hor : ¬ (d = [] ∨ d.getLast? = some '/') := fun h => h.elim hnil hd
    obtain ⟨e, x, rfl⟩ := (List.eq_nil_or_concat' d).resolve_left hnil
    have hx : x ≠ '/' := fun hx => hd (by rw [hx, List.getLast?_append]; rfl)
    have hhead : (e ++ [x] ++ ['/']).rdropWhile (fun x => decide (x ≠ '/')) = e ++ [x] ++ ['/'] :=
      List.rdropWhile_concat_neg _ _ _ (by decide)
    have hall : ¬ (e ++ [x] ++ ['/']).all (· = '/') = true := fun hall =>
      hx (of_decide_eq_true (List.all_eq_true.mp hall x (by simp)))
    rw [if_neg hor, dirname_join h, dirname, hhead, if_neg hall,
      List.rdropWhile_concat_pos _ _ _ (by decide), List.rdropWhile_concat_neg _ _ _ (by simpa using hx)]

/-! ## Wildcards -/

/-- A star at the end matches any rest. -/
theorem fnmatch_star (hp : ∀ c ∈ p, c ≠ '*' ∧ c ≠ '?') :
    fnmatch n (p ++ ['*']) = true ↔ p <+: n := by
  rw [fnmatch, rmatch_iff]
  induction p generalizing n with
  | nil =>
    have hall : n ∈ (star (char fun _ : Char => true)).lang := by
      induction n with
      | nil => exact Language.nil_mem_kstar _
      | cons c n ih => exact cons_mem_kstar.mpr ⟨[], n, rfl, ⟨c, rfl, rfl⟩, ih⟩
    rw [List.nil_append, translate, if_pos rfl, translate, mem_lang_seq]
    exact ⟨fun _ => List.nil_prefix, fun _ => ⟨n, hall, [], Language.nil_mem_one, List.append_nil n⟩⟩
  | cons c p ih =>
    obtain ⟨hstar, hquest⟩ := hp c List.mem_cons_self
    have ih := fun m => @ih m fun x hx => hp x (List.mem_cons_of_mem c hx)
    rw [List.cons_append, translate, if_neg hstar, if_neg hquest, mem_lang_seq]
    constructor
    · rintro ⟨_, ⟨a, ha, rfl⟩, v, hv, rfl⟩
      obtain rfl := of_decide_eq_true ha
      exact List.cons_prefix_cons.mpr ⟨rfl, (ih v).mp hv⟩
    · rintro ⟨r, rfl⟩
      exact ⟨[c], ⟨c, decide_eq_true rfl, rfl⟩, p ++ r, (ih _).mpr (List.prefix_append p r), rfl⟩

/-- A pattern that ends in its only wildcard finds the names that go on from
it. -/
theorem glob_star {ns : List Str} (hp : ∀ c ∈ p, c ≠ '*' ∧ c ≠ '?' ∧ c ≠ '/') (hne : p ≠ [])
    (hns : ∀ n ∈ ns, '/' ∉ n) :
    glob (ns.map (d ++ '/' :: ·)) (d ++ '/' :: (p ++ ['*'])) =
      (ns.filter (p <+: ·)).map (d ++ '/' :: ·) := by
  have hpat : '/' ∉ p ++ ['*'] := fun h =>
    (List.mem_append.mp h).elim (fun h => (hp _ h).2.2 rfl) (by decide)
  rw [glob, List.filter_map]
  refine congrArg _ (List.filter_congr fun n hn => ?_)
  have hname := hns n hn
  have hmatch : fnmatch n (p ++ ['*']) = decide (p <+: n) :=
    Bool.eq_iff_iff.mpr ((fnmatch_star fun c hc => ⟨(hp c hc).1, (hp c hc).2.1⟩).trans
      decide_eq_true_iff.symm)
  show (dirname (d ++ '/' :: n) = dirname (d ++ '/' :: (p ++ ['*'])) &&
    fnmatch (basename (d ++ '/' :: n)) (basename (d ++ '/' :: (p ++ ['*']))) &&
    (isHidden (basename (d ++ '/' :: (p ++ ['*']))) || !isHidden (basename (d ++ '/' :: n)))) = _
  rw [dirname_join hname, dirname_join hpat, basename_join hname, basename_join hpat, hmatch]
  by_cases hpre : p <+: n
  · -- what goes on from the pattern is hidden only if the pattern is
    obtain ⟨r, rfl⟩ := hpre
    obtain ⟨c, p, rfl⟩ := List.exists_cons_of_ne_nil hne
    simp [isHidden]
  · simp [hpre]

/-- A pattern that ends in its only wildcard finds the file whose name goes
on from it. -/
theorem mem_glob_star {files : List Str} (hp : ∀ c ∈ p, c ≠ '*' ∧ c ≠ '?' ∧ c ≠ '/') (hs : '/' ∉ s)
    (hne : p ≠ []) :
    d ++ '/' :: (p ++ s) ∈ glob files (d ++ '/' :: (p ++ ['*'])) ↔ d ++ '/' :: (p ++ s) ∈ files := by
  have hslash : ∀ r, '/' ∉ r → '/' ∉ p ++ r := by
    intro r hr hmem
    rcases List.mem_append.mp hmem with hmem | hmem
    · exact (hp _ hmem).2.2 rfl
    · exact hr hmem
  have hname := hslash s hs
  have hpat := hslash ['*'] (by decide)
  have hmatch : fnmatch (p ++ s) (p ++ ['*']) = true :=
    (fnmatch_star fun c hc => ⟨(hp c hc).1, (hp c hc).2.1⟩).mpr (List.prefix_append p s)
  have hhidden : (isHidden (p ++ ['*']) || !isHidden (p ++ s)) = true := by
    obtain ⟨c, p, rfl⟩ := List.exists_cons_of_ne_nil hne
    exact Bool.or_not_self _
  rw [glob, List.mem_filter, dirname_join hname, dirname_join hpat, basename_join hname,
    basename_join hpat, hmatch, hhidden]
  simp

end PMFuzz.Glob
