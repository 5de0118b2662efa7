import PMFuzz.Config.Tree
import PMFuzz.Framework.Glob
import PMFuzz.Framework.Variables

/-!
# `Config.subs_path`

`subs_path` builds a new configuration with the variables of `base.yml`
substituted in its strings. What it does is `mapStr`, a map over the strings
(`ends_subsPath`), except that a list which is directly in a list is treated
like a mapping: its first element is used as an index.
-/

namespace PMFuzz.Config

open Str (replaceAll Subst Apart Separate)

variable {φ : Type}

/-! ## The code -/

/-- `translate`. -/
def translate (text : Str) (conversionDict : List (Str × Str)) : Str :=
  if text = [] then text else conversionDict.foldl (fun t e => Str.replace t e.1 e.2) text

section
variable (replDict : List (Str × Str))

mutual

/-- `subs_path` of a mapping. -/
def subsPath : Items φ → Except Raise (Items φ)
  | [] => .ok []
  | (key, val) :: cfgContent => do
    let val ← subsVal val
    return (key, val) :: (← subsPath cfgContent)

/-- What becomes of a value. -/
def subsVal : Tree φ → Except Raise (Tree φ)
  | .map items => do return .map (← subsPath items)
  | .list vals => do return .list (← subsSubvals vals)
  | .str s => .ok (.str (translate s replDict))
  | val => .ok val

/-- The loop over `subval`. -/
def subsSubvals : List (Tree φ) → Except Raise (List (Tree φ))
  | [] => .ok []
  | subval :: vals => do
    let subval ← subsSubval subval
    return subval :: (← subsSubvals vals)

def subsSubval : Tree φ → Except Raise (Tree φ)
  | .str s => .ok (.str (translate s replDict))
  | .map items => do return .map (← subsPath items)
  | .list vals => do return .list (← subsPathList vals)
  | subval => .ok subval

/-- `subs_path` of a list: the elements are indices into an empty list. -/
def subsPathList : List (Tree φ) → Except Raise (List (Tree φ))
  | [] => .ok []
  | .map items :: _ => do
    let _ ← subsPath items
    throw .typeError
  | .int _ :: _ | .bool _ :: _ => .error .indexError
  | _ :: _ => .error .typeError

end

end

/-- `constr_path_repl`. -/
def constrPathRepl (pmfuzzRoot : Str) : List (Str × Str) := [
  ("%ROOT%".toList, pmfuzzRoot),
  ("%BUILD%".toList, Glob.join pmfuzzRoot "build".toList),
  ("%LIB%".toList, Glob.join (Glob.join pmfuzzRoot "build".toList) "lib".toList),
  ("%BIN%".toList, Glob.join (Glob.join pmfuzzRoot "build".toList) "bin".toList)]

/-! ## The same shape -/

mutual

/-- `f` on every string. -/
def Tree.mapStr (f : Str → Str) : Tree φ → Tree φ
  | .str s => .str (f s)
  | .list vals => .list (mapStrVals f vals)
  | .map items => .map (mapStrItems f items)
  | val => val

def mapStrVals (f : Str → Str) : List (Tree φ) → List (Tree φ)
  | [] => []
  | val :: vals => val.mapStr f :: mapStrVals f vals

def mapStrItems (f : Str → Str) : Items φ → Items φ
  | [] => []
  | (key, val) :: items => (key, val.mapStr f) :: mapStrItems f items

end

/-- A list that is not empty, in a list. -/
abbrev FullListInList : Items φ → Prop := Nested (· ≠ [])

/-! ## What `subs_path` returns -/

/-- An error where `bad` holds, and otherwise `out`. -/
structure Ends {α : Type} (r : Except Raise α) (bad : Prop) (out : α) : Prop where
  error : bad → ∃ e, r = .error e
  ok : ¬ bad → r = .ok out

namespace Ends

variable {α β : Type} {r : Except Raise α} {bad bad' : Prop} {out : α}

theorem pure (out : α) (h : ¬ bad) : Ends (.ok out) bad out := ⟨fun hbad => absurd hbad h, fun _ => rfl⟩

theorem congr (h : Ends r bad out) (hb : bad' ↔ bad) : Ends r bad' out :=
  ⟨fun hbad => h.error (hb.mp hbad), fun hbad => h.ok (mt hb.mpr hbad)⟩

/-- One step after another. -/
theorem bind {f : α → Except Raise β} {out' : β} (h : Ends r bad out) (h' : Ends (f out) bad' out') :
    Ends (r >>= f) (bad ∨ bad') out' := by
  constructor
  · intro hbad
    by_cases hb : bad
    · obtain ⟨e, rfl⟩ := h.error hb
      exact ⟨e, rfl⟩
    · rw [h.ok hb]
      exact h'.error (hbad.resolve_left hb)
  · intro hbad
    rw [h.ok fun hb => hbad (.inl hb)]
    exact h'.ok fun hb => hbad (.inr hb)

theorem map (h : Ends r bad out) (f : α → β) : Ends (r >>= fun x => .ok (f x)) bad (f out) :=
  (h.bind (Ends.pure (f out) id)).congr (or_iff_left id).symm

end Ends

section
variable {replDict : List (Str × Str)} {val : Tree φ} {items : Items φ}

/-- A list is passed only if it is empty. -/
theorem ends_subsPathList (vals : List (Tree φ)) :
    Ends (subsPathList replDict vals) (vals ≠ []) (mapStrVals (translate · replDict) vals) := by
  refine ⟨fun hne => ?_, fun hnil => ?_⟩
  · obtain ⟨val, vals, rfl⟩ := List.exists_cons_of_ne_nil hne
    cases val with
    | map items =>
      rw [subsPathList]
      cases subsPath replDict items with
      | error e => exact ⟨e, rfl⟩
      | ok => exact ⟨.typeError, rfl⟩
    | int | bool => exact ⟨.indexError, rfl⟩
    | null | float | str | list => exact ⟨.typeError, rfl⟩
  · obtain rfl := not_not.mp hnil
    rfl

/-- An element of a list, and why it raises. -/
def BadSubval : Tree φ → Prop
  | .list vals => vals ≠ []
  | .map items => FullListInList items
  | _ => False

theorem ends_subsSubval (h : ∀ sub, val = .map sub →
      Ends (subsPath replDict sub) (FullListInList sub) (mapStrItems (translate · replDict) sub)) :
    Ends (subsSubval replDict val) (BadSubval val) (val.mapStr (translate · replDict)) := by
  cases val with
  | map sub => exact (h sub rfl).map Tree.map
  | list vals => exact (ends_subsPathList vals).map Tree.list
  | str | null | bool | int | float => exact Ends.pure _ id

theorem ends_subsSubvals {vals : List (Tree φ)} (h : ∀ sub, Tree.map sub ∈ vals →
      Ends (subsPath replDict sub) (FullListInList sub) (mapStrItems (translate · replDict) sub)) :
    Ends (subsSubvals replDict vals) (∃ val ∈ vals, BadSubval val) (mapStrVals (translate · replDict) vals) := by
  induction vals with
  | nil => exact Ends.pure _ (by simp)
  | cons val vals ih =>
    have hval := ends_subsSubval fun sub hsub => h sub (hsub ▸ List.mem_cons_self)
    have hvals := ih fun sub hin => h sub (List.mem_cons_of_mem val hin)
    refine (hval.bind (hvals.map _)).congr ?_
    simp

theorem exists_badSubval {key : Str} {vals : List (Tree φ)} :
    (∃ val ∈ vals, BadSubval val) ↔ FullListInList [(key, .list vals)] := by
  rw [FullListInList, nested_list]
  constructor
  · rintro ⟨val, hin, hbad⟩
    cases val with
    | list inner => exact .inl ⟨inner, hin, hbad⟩
    | map sub => exact .inr ⟨sub, hin, hbad⟩
    | str | null | bool | int | float => exact hbad.elim
  · rintro (⟨inner, hin, hbad⟩ | ⟨sub, hin, hbad⟩)
    · exact ⟨.list inner, hin, hbad⟩
    · exact ⟨.map sub, hin, hbad⟩

theorem ends_subsVal (key : Str) (h : ∀ key' sub, Below [(key, val)] key' sub →
      Ends (subsPath replDict sub) (FullListInList sub) (mapStrItems (translate · replDict) sub)) :
    Ends (subsVal replDict val) (FullListInList [(key, val)]) (val.mapStr (translate · replDict)) := by
  cases val with
  | map sub => exact ((h key sub (below_map.mpr ⟨rfl, rfl⟩)).map Tree.map).congr nested_map
  | list vals =>
    have hvals := ends_subsSubvals fun sub hin => h key sub (below_list.mpr ⟨rfl, hin⟩)
    exact (hvals.map Tree.list).congr exists_badSubval.symm
  | str | null | bool | int | float => exact Ends.pure _ (not_nested_scalar rfl)

/-- Every string is translated, unless a list in a list makes an error. -/
theorem ends_subsPath (items : Items φ) :
    Ends (subsPath replDict items) (FullListInList items) (mapStrItems (translate · replDict) items) := by
  induction items using Items.below_induction with
  | h items ih =>
    induction items with
    | nil => exact Ends.pure _ not_nested_nil
    | cons e items ih' =>
      obtain ⟨key, val⟩ := e
      have hval := ends_subsVal key fun key' sub h => ih key' sub (below_cons.mpr (.inl h))
      have hitems := ih' fun key' sub h => ih key' sub (below_cons.mpr (.inr h))
      exact (hval.bind (hitems.map _)).congr nested_cons

end

/-! ## Twice -/

section
variable {f : Str → Str} {bad : List (Tree φ) → Prop} {items sub : Items φ} {key : Str}

mutual

theorem Tree.mapStr_mapStr (hf : ∀ s, f (f s) = f s) : (t : Tree φ) → (t.mapStr f).mapStr f = t.mapStr f
  | .str s => congrArg Tree.str (hf s)
  | .list vals => congrArg Tree.list (mapStrVals_mapStrVals hf vals)
  | .map items => congrArg Tree.map (mapStrItems_mapStrItems hf items)
  | .null | .bool _ | .int _ | .float _ => rfl

theorem mapStrVals_mapStrVals (hf : ∀ s, f (f s) = f s) :
    (vals : List (Tree φ)) → mapStrVals f (mapStrVals f vals) = mapStrVals f vals
  | [] => rfl
  | val :: vals => congrArg₂ List.cons (val.mapStr_mapStr hf) (mapStrVals_mapStrVals hf vals)

theorem mapStrItems_mapStrItems (hf : ∀ s, f (f s) = f s) :
    (items : Items φ) → mapStrItems f (mapStrItems f items) = mapStrItems f items
  | [] => rfl
  | (key, val) :: items =>
    congrArg₂ (fun v l => (key, v) :: l) (val.mapStr_mapStr hf) (mapStrItems_mapStrItems hf items)

end

theorem mem_mapStrVals {val : Tree φ} {vals : List (Tree φ)} (h : val ∈ mapStrVals f vals) :
    ∃ val' ∈ vals, val'.mapStr f = val := by
  induction vals with
  | nil => cases h
  | cons val' vals ih =>
    rcases List.mem_cons.mp h with rfl | h
    · exact ⟨val', List.mem_cons_self, rfl⟩
    · obtain ⟨v, hv, hval⟩ := ih h
      exact ⟨v, List.mem_cons_of_mem _ hv, hval⟩

theorem mem_mapStrItems {val : Tree φ} (h : (key, val) ∈ mapStrItems f items) :
    ∃ val', (key, val') ∈ items ∧ val'.mapStr f = val := by
  induction items with
  | nil => cases h
  | cons e items ih =>
    rcases List.mem_cons.mp h with heq | h
    · cases heq
      exact ⟨e.2, List.mem_cons_self, rfl⟩
    · obtain ⟨v, hv, hval⟩ := ih h
      exact ⟨v, List.mem_cons_of_mem _ hv, hval⟩

theorem Tree.mapStr_eq_list {t : Tree φ} {vals : List (Tree φ)} (h : t.mapStr f = .list vals) :
    ∃ vals', t = .list vals' ∧ mapStrVals f vals' = vals := by
  cases t <;> cases h
  exact ⟨_, rfl, rfl⟩

theorem Tree.mapStr_eq_map {t : Tree φ} (h : t.mapStr f = .map sub) :
    ∃ sub', t = .map sub' ∧ mapStrItems f sub' = sub := by
  cases t <;> cases h
  exact ⟨_, rfl, rfl⟩

theorem below_mapStrItems (h : Below (mapStrItems f items) key sub) :
    ∃ sub', Below items key sub' ∧ mapStrItems f sub' = sub := by
  cases h with
  | map h =>
    obtain ⟨val, hval, hmap⟩ := mem_mapStrItems h
    obtain ⟨sub', rfl, hsub⟩ := Tree.mapStr_eq_map hmap
    exact ⟨sub', .map hval, hsub⟩
  | list h hin =>
    obtain ⟨val, hval, hlist⟩ := mem_mapStrItems h
    obtain ⟨vals, rfl, rfl⟩ := Tree.mapStr_eq_list hlist
    obtain ⟨t, ht, hmap⟩ := mem_mapStrVals hin
    obtain ⟨sub', rfl, hsub⟩ := Tree.mapStr_eq_map hmap
    exact ⟨sub', .list hval ht, hsub⟩

/-- No list in a list comes from the strings. -/
theorem fullListInList_of_mapStrItems (h : FullListInList (mapStrItems f items)) : FullListInList items := by
  generalize hitems : mapStrItems f items = items' at h
  induction h generalizing items with
  | here h hin hbad =>
    subst hitems
    obtain ⟨val, hval, hlist⟩ := mem_mapStrItems h
    obtain ⟨vals, rfl, rfl⟩ := Tree.mapStr_eq_list hlist
    obtain ⟨t, ht, hlist⟩ := mem_mapStrVals hin
    obtain ⟨inner, rfl, rfl⟩ := Tree.mapStr_eq_list hlist
    refine .here hval ht fun hnil => hbad ?_
    rw [hnil]
    rfl
  | deeper h _ ih =>
    subst hitems
    obtain ⟨sub', hb, hsub⟩ := below_mapStrItems h
    exact .deeper hb (ih hsub)

end

/-! ## The variables -/

/-- An absolute path without `%`. -/
structure Rooted (p : Str) : Prop where
  absolute : p.head? = some '/'
  clean : '%' ∉ p

theorem Rooted.join {p n : Str} (h : Rooted p) (hslash : '/' ∉ n) (hn : '%' ∉ n) : Rooted (Glob.join p n) := by
  obtain ⟨c, p, rfl⟩ := List.exists_cons_of_ne_nil (List.ne_nil_of_mem (List.mem_of_mem_head? h.absolute))
  rw [Glob.join_of_notMem hslash]
  split
  · exact ⟨h.absolute, by simpa [hn] using h.clean⟩
  · exact ⟨h.absolute, by simpa [hn] using h.clean⟩

/-- Where the repository is: `realpath` returned it. -/
structure InstallRoot where
  path : Str
  rooted : Rooted path

namespace InstallRoot

variable (root : InstallRoot) {e : Str × Str}

def replDict : List (Str × Str) := constrPathRepl root.path

theorem rooted_value (h : e ∈ root.replDict) : Rooted e.2 := by
  have hbuild : Rooted (Glob.join root.path "build".toList) := root.rooted.join (by decide) (by decide)
  have hlib : Rooted (Glob.join _ "lib".toList) := hbuild.join (by decide) (by decide)
  have hbin : Rooted (Glob.join _ "bin".toList) := hbuild.join (by decide) (by decide)
  rw [replDict, constrPathRepl] at h
  simp only [List.mem_cons, List.not_mem_nil, or_false] at h
  rcases h with rfl | rfl | rfl | rfl
  · exact root.rooted
  · exact hbuild
  · exact hlib
  · exact hbin

theorem name (h : e ∈ root.replDict) : e.1.head? = some '%' ∧ '/' ∉ e.1 := by
  rw [replDict, constrPathRepl] at h
  simp only [List.mem_cons, List.not_mem_nil, or_false] at h
  have hnames : ∀ n ∈ ["%ROOT%".toList, "%BUILD%".toList, "%LIB%".toList, "%BIN%".toList],
      n.head? = some '%' ∧ '/' ∉ n := by decide
  refine hnames e.1 ?_
  rcases h with rfl | rfl | rfl | rfl <;> simp

theorem separate : Separate root.replDict := by
  intro e he e' he'
  obtain ⟨hpercent, hslash⟩ := root.name he
  obtain ⟨habs, hclean⟩ := root.rooted_value he'
  obtain ⟨w, hw⟩ := List.head?_eq_some_iff.mp habs
  refine ⟨List.ne_nil_of_mem (List.mem_of_mem_head? hpercent), '/', w, hw, hslash, fun p hp => ?_⟩
  obtain rfl := Option.some.inj (hpercent.symm.trans hp)
  exact fun hin => hclean (hw ▸ List.mem_cons_of_mem _ hin)

theorem translate_eq (s : Str) : translate s root.replDict = replaceAll root.replDict s := by
  rw [translate]
  split
  · rename_i h
    subst h
    refine (Str.replaceAll_of_not_infix ?_ ?_).symm
    · exact fun e he => (root.separate e he e he).ne_nil
    · exact fun e he hin => (root.separate e he e he).ne_nil (List.infix_nil.mp hin)
  · rfl

theorem translate_translate (s : Str) :
    translate (translate s root.replDict) root.replDict = translate s root.replDict := by
  simp only [translate_eq]
  exact Str.replaceAll_of_not_infix (fun e he => (root.separate e he e he).ne_nil)
    (Str.not_infix_replaceAll root.separate s)

end InstallRoot

/-- `subs_path` substitutes the variables in every string until none is left,
changes nothing else, and would change nothing the second time. -/
def Substitutes (root : InstallRoot) (items : Items φ) : Prop :=
  ∃ f : Str → Str, (∀ s, Subst root.replDict s (f s) ∧ ∀ e ∈ root.replDict, ¬ e.1 <:+: f s) ∧
    subsPath root.replDict items = .ok (mapStrItems f items) ∧
    subsPath root.replDict (mapStrItems f items) = .ok (mapStrItems f items)

theorem substitutes_iff (root : InstallRoot) (items : Items φ) : Substitutes root items ↔ ¬ FullListInList items := by
  constructor
  · rintro ⟨f, -, hok, -⟩ hbad
    obtain ⟨e, he⟩ := (ends_subsPath items).error hbad
    rw [hok] at he
    cases he
  · intro h
    refine ⟨(translate · root.replDict), fun s => ?_, (ends_subsPath items).ok h, ?_⟩
    · simp only [root.translate_eq]
      exact ⟨Str.subst_replaceAll root.separate s, Str.not_infix_replaceAll root.separate s⟩
    · refine ((ends_subsPath _).ok (mt fullListInList_of_mapStrItems h)).trans ?_
      exact congrArg Except.ok (mapStrItems_mapStrItems root.translate_translate items)

/-- `/pmfuzz`. -/
def exampleRoot : InstallRoot := ⟨"/pmfuzz".toList, rfl, by decide⟩

/-- A list in a list: a `str` is no index. -/
theorem not_substitutes_nested :
    ¬ Substitutes exampleRoot [("a".toList, (.list [.list [.str "%ROOT%".toList]] : Tree Float))] := by
  rintro ⟨f, -, hok, -⟩
  cases hok

end PMFuzz.Config
