import PMFuzz.Framework.Str

/-!
# Configuration trees

What `json.loads` returns for a configuration file: the keys of a mapping are
strings and distinct. Floating-point numbers are left open.
-/

namespace PMFuzz.Config

inductive Tree (φ : Type)
  | null
  | bool (b : Bool)
  | int (n : ℤ)
  | float (x : φ)
  | str (s : Str)
  | list (vals : List (Tree φ))
  | map (items : List (Str × Tree φ))

/-- The items of a mapping. -/
abbrev Items (φ : Type) := List (Str × Tree φ)

/-- What a function on configurations raises. -/
inductive Raise
  /-- `abort`. -/
  | abort (msg : Str)
  | attributeError
  | indexError
  | typeError
  deriving DecidableEq

variable {φ : Type}

/-- Neither a mapping nor a list. -/
def Tree.isScalar : Tree φ → Bool
  | list _ | map _ => false
  | _ => true

/-- `sub` is a mapping right below the key, or in a list there. -/
inductive Below (items : Items φ) (key : Str) (sub : Items φ) : Prop
  | map (h : (key, Tree.map sub) ∈ items)
  | list {vals : List (Tree φ)} (h : (key, Tree.list vals) ∈ items) (hin : Tree.map sub ∈ vals)

/-- A list right below a key of the tree, or of a mapping in it, holds a list
that is `bad`. -/
inductive Nested (bad : List (Tree φ) → Prop) : Items φ → Prop
  | here {items : Items φ} {key : Str} {vals inner : List (Tree φ)} (h : (key, Tree.list vals) ∈ items)
    (hin : Tree.list inner ∈ vals) (hbad : bad inner) : Nested bad items
  | deeper {items sub : Items φ} {key : Str} (h : Below items key sub) (hs : Nested bad sub) :
    Nested bad items

/-- Induction over the mappings in a mapping. -/
theorem Items.below_induction {P : Items φ → Prop}
    (h : ∀ items, (∀ key sub, Below items key sub → P sub) → P items) (items : Items φ) : P items := by
  have hval : ∀ t : Tree φ, (∀ sub, t = .map sub → P sub) ∧
      ∀ vals sub, t = .list vals → Tree.map sub ∈ vals → P sub := by
    refine Tree.rec (motive_1 := fun t => (∀ sub, t = .map sub → P sub) ∧
        ∀ vals sub, t = .list vals → Tree.map sub ∈ vals → P sub)
      (motive_2 := fun vals => ∀ sub, Tree.map sub ∈ vals → P sub)
      (motive_3 := fun items => ∀ key sub, Below items key sub → P sub)
      (motive_4 := fun e => (∀ sub, e.2 = .map sub → P sub) ∧
        ∀ vals sub, e.2 = .list vals → Tree.map sub ∈ vals → P sub)
      ⟨nofun, nofun⟩ (fun _ => ⟨nofun, nofun⟩) (fun _ => ⟨nofun, nofun⟩) (fun _ => ⟨nofun, nofun⟩)
      (fun _ => ⟨nofun, nofun⟩) ?list ?map ?nil ?cons ?inil ?icons ?item
    case list =>
      refine fun vals ih => ⟨nofun, fun vals' sub heq hin => ?_⟩
      cases heq
      exact ih sub hin
    case map =>
      refine fun items ih => ⟨fun sub heq => ?_, nofun⟩
      cases heq
      exact h items ih
    case nil => exact fun sub hin => absurd hin List.not_mem_nil
    case cons =>
      intro t vals ht ih sub hin
      rcases List.mem_cons.mp hin with heq | hin
      · exact ht.1 sub heq.symm
      · exact ih sub hin
    case inil =>
      intro key sub hb
      cases hb with
      | map hin => exact absurd hin List.not_mem_nil
      | list hin _ => exact absurd hin List.not_mem_nil
    case icons =>
      intro e items he ih key sub hb
      cases hb with
      | map hin =>
        rcases List.mem_cons.mp hin with rfl | hin
        · exact he.1 sub rfl
        · exact ih key sub (.map hin)
      | list hin hsub =>
        rcases List.mem_cons.mp hin with rfl | hin
        · exact he.2 _ sub rfl hsub
        · exact ih key sub (.list hin hsub)
    case item => exact fun _ _ ht => ht
  exact (hval (.map items)).1 items rfl

/-! ## One item at a time -/

section
variable {items sub : Items φ} {e : Str × Tree φ} {key key' : Str} {val t : Tree φ} {vals : List (Tree φ)}
variable {bad : List (Tree φ) → Prop}

theorem below_nil : ¬ Below ([] : Items φ) key sub
  | .map h => absurd h List.not_mem_nil
  | .list h _ => absurd h List.not_mem_nil

theorem below_cons : Below (e :: items) key sub ↔ Below [e] key sub ∨ Below items key sub := by
  constructor
  · rintro (h | ⟨h, hin⟩) <;> rcases List.mem_cons.mp h with rfl | h
    · exact .inl (.map List.mem_cons_self)
    · exact .inr (.map h)
    · exact .inl (.list List.mem_cons_self hin)
    · exact .inr (.list h hin)
  · rintro ((h | ⟨h, hin⟩) | (h | ⟨h, hin⟩))
    · exact .map (List.mem_cons.mpr (.inl (List.mem_singleton.mp h)))
    · exact .list (List.mem_cons.mpr (.inl (List.mem_singleton.mp h))) hin
    · exact .map (List.mem_cons_of_mem e h)
    · exact .list (List.mem_cons_of_mem e h) hin

theorem below_scalar (h : val.isScalar = true) : ¬ Below [(key', val)] key sub := by
  rintro (h' | ⟨h', -⟩) <;> cases List.mem_singleton.mp h' <;> cases h

theorem below_map : Below [(key', .map items)] key sub ↔ key = key' ∧ sub = items := by
  constructor
  · rintro (h | ⟨h, -⟩) <;> cases List.mem_singleton.mp h
    exact ⟨rfl, rfl⟩
  · rintro ⟨rfl, rfl⟩
    exact .map (List.mem_singleton.mpr rfl)

theorem below_list : Below [(key', .list vals)] key sub ↔ key = key' ∧ Tree.map sub ∈ vals := by
  constructor
  · rintro (h | ⟨h, hin⟩) <;> cases List.mem_singleton.mp h
    exact ⟨rfl, hin⟩
  · rintro ⟨rfl, hin⟩
    exact .list (List.mem_singleton.mpr rfl) hin

theorem not_nested_nil : ¬ Nested bad ([] : Items φ)
  | .here h _ _ => absurd h List.not_mem_nil
  | .deeper h _ => below_nil h

theorem nested_cons : Nested bad (e :: items) ↔ Nested bad [e] ∨ Nested bad items := by
  constructor
  · rintro (⟨h, hin, hbad⟩ | ⟨h, hs⟩)
    · rcases List.mem_cons.mp h with rfl | h
      · exact .inl (.here List.mem_cons_self hin hbad)
      · exact .inr (.here h hin hbad)
    · exact (below_cons.mp h).imp (.deeper · hs) (.deeper · hs)
  · rintro ((⟨h, hin, hbad⟩ | ⟨h, hs⟩) | (⟨h, hin, hbad⟩ | ⟨h, hs⟩))
    · exact .here (List.mem_cons.mpr (.inl (List.mem_singleton.mp h))) hin hbad
    · exact .deeper (below_cons.mpr (.inl h)) hs
    · exact .here (List.mem_cons_of_mem e h) hin hbad
    · exact .deeper (below_cons.mpr (.inr h)) hs

theorem not_nested_scalar (h : val.isScalar = true) : ¬ Nested bad [(key, val)] := by
  rintro (⟨h', -, -⟩ | ⟨hb, -⟩)
  · cases List.mem_singleton.mp h'
    cases h
  · exact below_scalar h hb

theorem nested_map : Nested bad [(key, .map sub)] ↔ Nested bad sub := by
  constructor
  · rintro (⟨h, -, -⟩ | ⟨h, hs⟩)
    · cases List.mem_singleton.mp h
    · rwa [← (below_map.mp h).2]
  · exact fun h => .deeper (below_map.mpr ⟨rfl, rfl⟩) h

theorem nested_list : Nested bad [(key, .list vals)] ↔
    (∃ inner, Tree.list inner ∈ vals ∧ bad inner) ∨ ∃ sub, Tree.map sub ∈ vals ∧ Nested bad sub := by
  constructor
  · rintro (⟨h, hin, hbad⟩ | ⟨h, hs⟩)
    · cases List.mem_singleton.mp h
      exact .inl ⟨_, hin, hbad⟩
    · exact .inr ⟨_, (below_list.mp h).2, hs⟩
  · rintro (⟨inner, hin, hbad⟩ | ⟨sub, hin, hs⟩)
    · exact .here (List.mem_singleton.mpr rfl) hin hbad
    · exact .deeper (below_list.mpr ⟨rfl, hin⟩) hs

end

end PMFuzz.Config
