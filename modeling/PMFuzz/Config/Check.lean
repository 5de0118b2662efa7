import PMFuzz.Config.Tree

/-!
# `Config.check`

`_flatten` joins the keys above a scalar with `_`, and `check` looks for the
joined keys of `configs/base.yml`. Which keys those are is said by `Leads` and
`spell` (`gives_flatten`): a list without a mapping has none, so a
configuration without `lcov.options` passes, and two paths may have one.
`check_complete_iff` says in which configurations the joined keys tell whether
a default path is missing.
-/

namespace PMFuzz.Config

variable {φ : Type}

/-! ## The code -/

mutual

/-- The entries `_flatten` writes, in order. -/
def flatten : Items φ → Except Raise (Items φ)
  | [] => .ok []
  | (key, val) :: items => do
    let deeper ← flattenVal key val
    return deeper ++ (← flatten items)

/-- One turn of its loop: a mapping is a list of one. -/
def flattenVal (key : Str) : Tree φ → Except Raise (Items φ)
  | .map items => do return (← flatten items).map fun e => (key ++ '_' :: e.1, e.2)
  | .list vals => flattenVals key vals
  | val => .ok [(key, val)]

/-- The inner loop. A list has no `items`. -/
def flattenVals (key : Str) : List (Tree φ) → Except Raise (Items φ)
  | [] => .ok []
  | .map items :: vals => do
    let deeper ← flatten items
    return deeper.map (fun e => (key ++ '_' :: e.1, e.2)) ++ (← flattenVals key vals)
  | .list _ :: _ => .error .attributeError
  | _ :: vals => flattenVals key vals

end

/-- `Config.check`, with the flattening of the default configuration that the
constructor makes. -/
def check (defCfgContent parsedCfg : Items φ) (cfgF : Str) : Except Raise Unit := do
  let defCfgFlat ← flatten defCfgContent
  let cfgFlattened ← flatten parsedCfg
  if ∀ key ∈ defCfgFlat.map Prod.fst, key ∈ cfgFlattened.map Prod.fst then return ()
  else throw (.abort ("Invalid config ".toList ++ cfgF))

/-! ## Paths -/

/-- `val` is at the end of a path of nested keys. -/
inductive At : Items φ → List Str → Tree φ → Prop
  | here {items : Items φ} {key : Str} {val : Tree φ} (h : (key, val) ∈ items) : At items [key] val
  | deeper {items sub : Items φ} {key : Str} {path : List Str} {val : Tree φ}
    (h : (key, Tree.map sub) ∈ items) (hs : At sub path val) : At items (key :: path) val

/-- The path of nested keys is there. -/
def Occurs (items : Items φ) (path : List Str) : Prop := ∃ val, At items path val

/-- The path leads to a scalar, with mappings in lists passed too. -/
inductive Leads : Items φ → List Str → Prop
  | here {items : Items φ} {key : Str} {val : Tree φ} (h : (key, val) ∈ items) (hval : val.isScalar = true) :
    Leads items [key]
  | deeper {items sub : Items φ} {key : Str} {path : List Str} (h : Below items key sub)
    (hs : Leads sub path) : Leads items (key :: path)

/-- The joined keys. -/
def spell (path : List Str) : Str := ['_'].intercalate path

/-- Some scalar of the tree has the joined key. -/
def Spells (items : Items φ) (key : Str) : Prop := ∃ path, Leads items path ∧ spell path = key

/-- A list in a list. -/
abbrev ListInList : Items φ → Prop := Nested fun _ => True

section
variable {items sub : Items φ} {e : Str × Tree φ} {key k : Str} {val t : Tree φ} {vals : List (Tree φ)}
variable {path : List Str}

theorem Leads.ne_nil (h : Leads items path) : path ≠ [] := by
  cases h <;> exact List.cons_ne_nil _ _

theorem spell_singleton (key : Str) : spell [key] = key := List.intercalate_singleton

theorem spell_cons (h : path ≠ []) : spell (key :: path) = key ++ '_' :: spell path := by
  obtain ⟨key', path, rfl⟩ := List.exists_cons_of_ne_nil h
  rw [spell, List.intercalate_cons_cons, List.append_assoc, List.singleton_append]
  rfl

/-- Below a key, its joined keys are longer. -/
theorem spells_deeper {l : Items φ} (h : ∀ path, Leads l path ↔ ∃ path', path = key :: path' ∧ Leads sub path') :
    Spells l k ↔ ∃ k', Spells sub k' ∧ k = key ++ '_' :: k' := by
  constructor
  · rintro ⟨path, hl, rfl⟩
    obtain ⟨path', rfl, hl'⟩ := (h path).mp hl
    exact ⟨_, ⟨path', hl', rfl⟩, spell_cons hl'.ne_nil⟩
  · rintro ⟨_, ⟨path, hl, rfl⟩, rfl⟩
    exact ⟨key :: path, (h _).mpr ⟨path, rfl, hl⟩, spell_cons hl.ne_nil⟩

theorem not_spells_nil : ¬ Spells ([] : Items φ) k
  | ⟨_, .here h _, _⟩ => absurd h List.not_mem_nil
  | ⟨_, .deeper h _, _⟩ => below_nil h

theorem leads_cons : Leads (e :: items) path ↔ Leads [e] path ∨ Leads items path := by
  constructor
  · rintro (⟨h, hval⟩ | ⟨h, hs⟩)
    · rcases List.mem_cons.mp h with rfl | h
      · exact .inl (.here List.mem_cons_self hval)
      · exact .inr (.here h hval)
    · exact (below_cons.mp h).imp (.deeper · hs) (.deeper · hs)
  · rintro ((⟨h, hval⟩ | ⟨h, hs⟩) | (⟨h, hval⟩ | ⟨h, hs⟩))
    · exact .here (List.mem_cons.mpr (.inl (List.mem_singleton.mp h))) hval
    · exact .deeper (below_cons.mpr (.inl h)) hs
    · exact .here (List.mem_cons_of_mem e h) hval
    · exact .deeper (below_cons.mpr (.inr h)) hs

theorem spells_cons : Spells (e :: items) k ↔ Spells [e] k ∨ Spells items k := by
  constructor
  · rintro ⟨path, hl, hk⟩
    exact (leads_cons.mp hl).imp (⟨path, ·, hk⟩) (⟨path, ·, hk⟩)
  · rintro (⟨path, hl, hk⟩ | ⟨path, hl, hk⟩)
    · exact ⟨path, leads_cons.mpr (.inl hl), hk⟩
    · exact ⟨path, leads_cons.mpr (.inr hl), hk⟩

theorem spells_scalar (hval : val.isScalar = true) : Spells [(key, val)] k ↔ k = key := by
  constructor
  · rintro ⟨path, ⟨h, -⟩ | ⟨h, -⟩, rfl⟩
    · cases List.mem_singleton.mp h
      exact spell_singleton _
    · exact absurd h (below_scalar hval)
  · rintro rfl
    exact ⟨[k], .here (List.mem_singleton.mpr rfl) hval, spell_singleton k⟩

theorem spells_map : Spells [(key, .map sub)] k ↔ ∃ k', Spells sub k' ∧ k = key ++ '_' :: k' := by
  refine spells_deeper fun path => ⟨?_, ?_⟩
  · rintro (⟨h, hval⟩ | ⟨h, hs⟩)
    · cases List.mem_singleton.mp h
      cases hval
    · obtain ⟨rfl, rfl⟩ := below_map.mp h
      exact ⟨_, rfl, hs⟩
  · rintro ⟨path, rfl, hs⟩
    exact .deeper (below_map.mpr ⟨rfl, rfl⟩) hs

theorem spells_list : Spells [(key, .list vals)] k ↔ ∃ sub, Tree.map sub ∈ vals ∧ Spells [(key, .map sub)] k := by
  constructor
  · rintro ⟨path, ⟨h, hval⟩ | ⟨h, hs⟩, rfl⟩
    · cases List.mem_singleton.mp h
      cases hval
    · obtain ⟨rfl, hin⟩ := below_list.mp h
      exact ⟨_, hin, _, .deeper (below_map.mpr ⟨rfl, rfl⟩) hs, rfl⟩
  · rintro ⟨sub, hin, path, ⟨h, hval⟩ | ⟨h, hs⟩, rfl⟩
    · cases List.mem_singleton.mp h
      cases hval
    · obtain ⟨rfl, rfl⟩ := below_map.mp h
      exact ⟨_, .deeper (below_list.mpr ⟨rfl, hin⟩) hs, rfl⟩

end

/-! ## What `_flatten` returns -/

/-- An error where `bad` holds, and otherwise entries with these keys. -/
structure Gives (r : Except Raise (Items φ)) (bad : Prop) (keys : Str → Prop) : Prop where
  error : bad → r = .error .attributeError
  ok : ¬ bad → ∃ out, r = .ok out ∧ ∀ k, k ∈ out.map Prod.fst ↔ keys k

namespace Gives

variable {r r' : Except Raise (Items φ)} {bad bad' : Prop} {keys keys' : Str → Prop} {items : Items φ}

theorem congr (h : Gives r bad keys) (hb : bad' ↔ bad) (hk : ∀ k, keys' k ↔ keys k) : Gives r bad' keys' where
  error hbad := h.error (hb.mp hbad)
  ok hbad := by
    obtain ⟨out, hr, hout⟩ := h.ok (mt hb.mpr hbad)
    exact ⟨out, hr, fun k => (hout k).trans (hk k).symm⟩

theorem nil : Gives (.ok ([] : Items φ)) False fun _ => False := ⟨False.elim, fun _ => ⟨[], rfl, by simp⟩⟩

/-- One result after another. -/
theorem append (h : Gives r bad keys) (h' : Gives r' bad' keys') :
    Gives (do let deeper ← r; return deeper ++ (← r')) (bad ∨ bad') fun k => keys k ∨ keys' k := by
  constructor
  · intro hbad
    by_cases hb : bad
    · rw [h.error hb]
      rfl
    · obtain ⟨out, rfl, -⟩ := h.ok hb
      rw [h'.error (hbad.resolve_left hb)]
      rfl
  · intro hbad
    obtain ⟨out, rfl, hout⟩ := h.ok fun hb => hbad (.inl hb)
    obtain ⟨out', rfl, hout'⟩ := h'.ok fun hb => hbad (.inr hb)
    refine ⟨out ++ out', rfl, fun k => ?_⟩
    rw [List.map_append, List.mem_append, hout, hout']

/-- With a key before. -/
theorem map (h : Gives r bad keys) (key : Str) :
    Gives (do return (← r).map fun e => (key ++ '_' :: e.1, e.2)) bad
      fun k => ∃ k', keys k' ∧ k = key ++ '_' :: k' := by
  constructor
  · intro hbad
    rw [h.error hbad]
    rfl
  · intro hbad
    obtain ⟨out, rfl, hout⟩ := h.ok hbad
    refine ⟨_, rfl, fun k => ?_⟩
    simp only [← hout, List.mem_map, Prod.exists, Prod.mk.injEq, exists_and_right, exists_eq_right]
    grind

end Gives

/-- The inner loop, for mappings that are flattened right. -/
theorem gives_flattenVals (key : Str) (vals : List (Tree φ))
    (h : ∀ sub, Tree.map sub ∈ vals → Gives (flatten sub) (ListInList sub) (Spells sub)) :
    Gives (flattenVals key vals) (ListInList [(key, .list vals)]) (Spells [(key, .list vals)]) := by
  induction vals with
  | nil =>
    refine Gives.nil.congr ?_ ?_
    · simp [ListInList, nested_list]
    · simp [spells_list]
  | cons val vals ih =>
    have hih := ih fun sub hin => h sub (List.mem_cons_of_mem val hin)
    have hpass (hmap : ∀ sub, val ≠ .map sub) (hlist : ∀ inner, val ≠ .list inner) :
        Gives (flattenVals key vals) (ListInList [(key, .list (val :: vals))])
          (Spells [(key, .list (val :: vals))]) := by
      refine hih.congr ?_ ?_
      · simp [ListInList, nested_list, fun inner => (hlist inner).symm, fun sub => (hmap sub).symm]
      · simp [spells_list, fun sub => (hmap sub).symm]
    cases val with
    | map sub =>
      have hcons : flattenVals key (.map sub :: vals) = do
          let deeper ← (do return (← flatten sub).map fun e => (key ++ '_' :: e.1, e.2))
          return deeper ++ (← flattenVals key vals) := by
        rw [flattenVals]
        cases flatten sub <;> rfl
      rw [hcons]
      refine (((h sub List.mem_cons_self).map key).append hih).congr ?_ ?_
      · simp [ListInList, nested_list, or_and_right, exists_or, or_left_comm]
      · simp [spells_list, spells_map, or_and_right, exists_or]
    | list inner =>
      exact ⟨fun _ => rfl, fun hno => absurd (nested_list.mpr (.inl ⟨inner, List.mem_cons_self, trivial⟩)) hno⟩
    | null => exact hpass nofun nofun
    | bool => exact hpass nofun nofun
    | int => exact hpass nofun nofun
    | float => exact hpass nofun nofun
    | str => exact hpass nofun nofun

theorem gives_flattenVal (key : Str) (val : Tree φ)
    (h : ∀ key' sub, Below [(key, val)] key' sub → Gives (flatten sub) (ListInList sub) (Spells sub)) :
    Gives (flattenVal key val) (ListInList [(key, val)]) (Spells [(key, val)]) := by
  have hscalar (hval : val.isScalar = true) :
      Gives (.ok [(key, val)]) (ListInList [(key, val)]) (Spells [(key, val)]) := by
    refine ⟨fun hbad => absurd hbad (not_nested_scalar hval), fun _ => ⟨_, rfl, fun k => ?_⟩⟩
    rw [spells_scalar hval]
    simp
  cases val with
  | map sub =>
    refine ((h key sub (below_map.mpr ⟨rfl, rfl⟩)).map key).congr nested_map ?_
    exact fun _ => spells_map
  | list vals => exact gives_flattenVals key vals fun sub hin => h key sub (below_list.mpr ⟨rfl, hin⟩)
  | null => exact hscalar rfl
  | bool => exact hscalar rfl
  | int => exact hscalar rfl
  | float => exact hscalar rfl
  | str => exact hscalar rfl

/-- Lists in lists raise, and all else is flattened into the joined keys of
its scalars. -/
theorem gives_flatten (items : Items φ) : Gives (flatten items) (ListInList items) (Spells items) := by
  induction items using Items.below_induction with
  | h items ih =>
    induction items with
    | nil =>
      refine Gives.nil.congr ?_ ?_
      · exact iff_false_intro not_nested_nil
      · exact fun k => iff_false_intro not_spells_nil
    | cons e items ih' =>
      obtain ⟨key, val⟩ := e
      have hsub := fun key' sub h => ih key' sub (below_cons.mpr (.inl h))
      have hitems := ih' fun key' sub h => ih key' sub (below_cons.mpr (.inr h))
      refine (Gives.append (gives_flattenVal key val hsub) hitems).congr nested_cons fun _ => spells_cons

/-! ## What `check` accepts -/

theorem check_eq_ok_iff (defCfgContent parsedCfg : Items φ) (cfgF : Str) :
    check defCfgContent parsedCfg cfgF = .ok () ↔ ¬ ListInList defCfgContent ∧ ¬ ListInList parsedCfg ∧
      ∀ path, Leads defCfgContent path → Spells parsedCfg (spell path) := by
  have hdef := gives_flatten defCfgContent
  have hcfg := gives_flatten parsedCfg
  by_cases hd : ListInList defCfgContent
  · simp [check, hdef.error hd, hd, bind, Except.bind]
  by_cases hc : ListInList parsedCfg
  · obtain ⟨out, hout, -⟩ := hdef.ok hd
    simp [check, hout, hcfg.error hc, hc, bind, Except.bind]
  obtain ⟨defCfgFlat, hout, hkeys⟩ := hdef.ok hd
  obtain ⟨cfgFlattened, hout', hkeys'⟩ := hcfg.ok hc
  have hall : (∀ key ∈ defCfgFlat.map Prod.fst, key ∈ cfgFlattened.map Prod.fst) ↔
      ∀ path, Leads defCfgContent path → Spells parsedCfg (spell path) := by
    simp only [hkeys, hkeys']
    exact ⟨fun h path hp => h _ ⟨path, hp, rfl⟩, fun h key ⟨path, hp, heq⟩ => heq ▸ h path hp⟩
  simp only [check, hout, hout', bind, Except.bind, hd, hc, not_false_eq_true, true_and, ← hall]
  split
  · rename_i h
    exact ⟨fun _ => h, fun _ => rfl⟩
  · rename_i h
    exact ⟨nofun, fun h' => absurd h' h⟩

/-! ## What is missing -/

/-- Every default path is in the configuration. -/
def Complete (defCfgContent parsedCfg : Items φ) : Prop :=
  ∀ path, Occurs defCfgContent path → Occurs parsedCfg path

/-- The path of nested keys ends at a scalar. -/
def Plain (items : Items φ) (path : List Str) : Prop := ∃ val, At items path val ∧ val.isScalar = true

/-- No scalar is at the path or below it: it leads to a list, or to a mapping without scalars. -/
def Barren (items : Items φ) (path : List Str) : Prop :=
  Occurs items path ∧ ∀ path', ¬ Plain items (path ++ path')

section
variable {defCfgContent parsedCfg items : Items φ} {path path' : List Str} {val : Tree φ}

/-- A default scalar whose path is missing. -/
def Gone (defCfgContent parsedCfg : Items φ) (path : List Str) : Prop :=
  Plain defCfgContent path ∧ ¬ Occurs parsedCfg path

/-- A missing path without default scalars. -/
def Unseen (defCfgContent parsedCfg : Items φ) (path : List Str) : Prop :=
  Barren defCfgContent path ∧ ¬ Occurs parsedCfg path

/-- A default scalar that is no scalar in the configuration, and is not gone: a mapping or a list is in its
place, or it is in a list of mappings. -/
structure Displaced (defCfgContent parsedCfg : Items φ) (path : List Str) : Prop where
  leads : Leads defCfgContent path
  not_gone : ¬ Gone defCfgContent parsedCfg path
  not_leads : ¬ Leads parsedCfg path

theorem At.prefix (h : At items (path ++ path') val) (hne : path ≠ []) : Occurs items path := by
  induction path generalizing items with
  | nil => exact absurd rfl hne
  | cons key path ih =>
    cases path with
    | nil =>
      cases h with
      | here h => exact ⟨_, .here h⟩
      | deeper h _ => exact ⟨_, .here h⟩
    | cons key' path =>
      cases h with
      | deeper h hs =>
        obtain ⟨val', hval'⟩ := ih hs (List.cons_ne_nil _ _)
        exact ⟨val', .deeper h hval'⟩

theorem Occurs.ne_nil (h : Occurs items path) : path ≠ [] := by
  obtain ⟨val, hval⟩ := h
  cases hval <;> exact List.cons_ne_nil _ _

theorem Plain.leads (h : Plain items path) : Leads items path := by
  obtain ⟨val, hval, hscalar⟩ := h
  induction hval with
  | here h => exact .here h hscalar
  | deeper h _ ih => exact .deeper (.map h) (ih hscalar)

/-- Something is missing if a scalar is gone, or a path without scalars. -/
theorem complete_iff : Complete defCfgContent parsedCfg ↔
    (∀ path, ¬ Gone defCfgContent parsedCfg path) ∧ ∀ path, ¬ Unseen defCfgContent parsedCfg path := by
  constructor
  · refine fun h => ⟨fun path hgone => ?_, fun path hunseen => hunseen.2 (h path hunseen.1.1)⟩
    obtain ⟨⟨val, hval, -⟩, hno⟩ := hgone
    exact hno (h path ⟨val, hval⟩)
  · rintro ⟨hgone, hunseen⟩ path hp
    by_contra hno
    -- a scalar below it is gone, or there is none
    by_cases hplain : ∃ path', Plain defCfgContent (path ++ path')
    · obtain ⟨path', hplain⟩ := hplain
      refine hgone _ ⟨hplain, fun hocc => hno ?_⟩
      obtain ⟨val, hval⟩ := hocc
      exact hval.prefix hp.ne_nil
    · exact hunseen path ⟨⟨hp, fun path' h => hplain ⟨path', h⟩⟩, hno⟩

end

/-- When the joined keys tell whether a path is missing. -/
inductive Telling (defCfgContent parsedCfg : Items φ) : Prop
  /-- A scalar is gone, and no other one has its joined key. -/
  | gone {path : List Str} (h : Gone defCfgContent parsedCfg path) (hs : ¬ Spells parsedCfg (spell path))
  /-- Something is missing, and `_flatten` raises or a displaced scalar's joined key is not there. -/
  | missing {path : List Str} (h : Gone defCfgContent parsedCfg path ∨ Unseen defCfgContent parsedCfg path)
    (hs : ListInList defCfgContent ∨ ListInList parsedCfg ∨
      ∃ path, Displaced defCfgContent parsedCfg path ∧ ¬ Spells parsedCfg (spell path))
  /-- Nothing is missing, and nothing of this is so. -/
  | whole (hgone : ∀ path, ¬ Gone defCfgContent parsedCfg path)
    (hunseen : ∀ path, ¬ Unseen defCfgContent parsedCfg path)
    (hdef : ¬ ListInList defCfgContent) (hcfg : ¬ ListInList parsedCfg)
    (hs : ∀ path, Displaced defCfgContent parsedCfg path → Spells parsedCfg (spell path))

/-- `check` accepts the configurations with every default path if and only if
the joined keys tell them. -/
theorem check_complete_iff (defCfgContent parsedCfg : Items φ) (cfgF : Str) :
    (check defCfgContent parsedCfg cfgF = .ok () ↔ Complete defCfgContent parsedCfg) ↔
      Telling defCfgContent parsedCfg := by
  rw [check_eq_ok_iff, complete_iff]
  constructor
  · intro h
    by_cases hcomplete : (∀ path, ¬ Gone defCfgContent parsedCfg path) ∧ ∀ path, ¬ Unseen defCfgContent parsedCfg path
    · obtain ⟨hd, hc, hspell⟩ := h.mpr hcomplete
      exact .whole hcomplete.1 hcomplete.2 hd hc fun path hp => hspell path hp.leads
    · obtain ⟨path, hmissing⟩ : ∃ path, Gone defCfgContent parsedCfg path ∨ Unseen defCfgContent parsedCfg path := by
        by_contra hno
        refine hcomplete ⟨fun path hp => hno ⟨path, .inl hp⟩, fun path hp => hno ⟨path, .inr hp⟩⟩
      by_cases hlist : ListInList defCfgContent ∨ ListInList parsedCfg
      · exact .missing hmissing (hlist.imp_right .inl)
      · have hreject := mt h.mp hcomplete
        obtain ⟨hd, hc⟩ := not_or.mp hlist
        obtain ⟨path', hl, hs⟩ : ∃ path', Leads defCfgContent path' ∧ ¬ Spells parsedCfg (spell path') := by
          by_contra hno
          exact hreject ⟨hd, hc, fun path' hl => not_not.mp fun hs => hno ⟨path', hl, hs⟩⟩
        by_cases hgone : Gone defCfgContent parsedCfg path'
        · exact .gone hgone hs
        · exact .missing hmissing (.inr (.inr ⟨path', ⟨hl, hgone, fun hl' => hs ⟨path', hl', rfl⟩⟩, hs⟩))
  · rintro (⟨hgone, hs⟩ | ⟨hmissing, hs⟩ | ⟨hgone, hunseen, hd, hc, hs⟩)
    · refine iff_of_false (fun h => hs (h.2.2 _ hgone.1.leads)) fun h => h.1 _ hgone
    · refine iff_of_false ?_ fun h => hmissing.elim (h.1 _) (h.2 _)
      rintro ⟨hd, hc, hspell⟩
      rcases hs with hs | hs | ⟨path, hp, hs⟩
      · exact hd hs
      · exact hc hs
      · exact hs (hspell path hp.leads)
    · refine iff_of_true ⟨hd, hc, fun path hl => ?_⟩ ⟨hgone, hunseen⟩
      by_cases hl' : Leads parsedCfg path
      · exact ⟨path, hl', rfl⟩
      · exact hs path ⟨hl, hgone path, hl'⟩

/-! ## `base.yml` -/

/-- `base.yml` but for `lcov`. -/
def baseWithoutLcov : Items φ := [
  ("pmfuzz".toList, .map [
    ("force_resp".toList, .str "y".toList),
    ("progress_interval".toList, .int 1),
    ("progress_file".toList, .str "/tmp/long.log.stage-1".toList),
    ("bin_dir".toList, .str "%BIN%".toList),
    ("img_loc".toList, .str "/mnt/pmem0".toList),
    ("stage".toList, .map [
      ("1".toList, .map [("cores".toList, .int 30)]),
      ("2".toList, .map [
        ("enable".toList, .bool true),
        ("cores".toList, .int 10),
        ("tc_timeout".toList, .int 600)]),
      ("dedup".toList, .map [
        ("global".toList, .map [
          ("fdedup".toList, .bool false),
          ("minimize_tc".toList, .bool true),
          ("minimize_corpus".toList, .bool false)]),
        ("local".toList, .map [
          ("minimize_tc".toList, .bool true),
          ("minimize_corpus".toList, .bool true)])])]),
    ("failure_injection".toList, .map [
      ("enable".toList, .bool false),
      ("test_with".toList, .str "None".toList),
      ("img_gen_mode".toList, .map [
        ("dont_create_env".toList, .map [
          ("USE_FAKE_MMAP".toList, .str "1".toList),
          ("FI_MODE".toList, .str "IMG_GEN".toList),
          ("FAILURE_LIST".toList, .str "/dev/null".toList),
          ("PMFUZZ_DEBUG".toList, .str "1".toList),
          ("ENABLE_CNST_IMG".toList, .str "1".toList),
          ("LD_LIBRARY_PATH".toList, .str "/usr/local/lib64".toList)]),
        ("create_env".toList, .map [
          ("GEN_ALL_CS".toList, .str "1".toList),
          ("USE_FAKE_MMAP".toList, .str "0".toList),
          ("FI_MODE".toList, .str "IMG_GEN".toList),
          ("FAILURE_LIST".toList, .str "/dev/null".toList),
          ("PMFUZZ_DEBUG".toList, .str "1".toList),
          ("ENABLE_CNST_IMG".toList, .str "1".toList),
          ("LD_LIBRARY_PATH".toList, .str "/usr/local/lib64".toList)])])])]),
  ("target".toList, .map [
    ("env".toList, .map [("PMEM_IS_PMEM_FORCE".toList, .str "1".toList)]),
    ("cmd".toList, .str
      "%ROOT%/vendor/pmdk/src/examples/libpmemobj/map/mapcli hashmap_tx /mnt/tmpfs/__POOL_IMAGE__ 0".toList),
    ("persist_enable_env".toList, .str "USE_FAKE_MMAP=0".toList),
    ("persist_disable_env".toList, .str "USE_FAKE_MMAP=1".toList),
    ("tmout".toList, .str "150".toList),
    ("mlimit".toList, .str "1500".toList)]),
  ("afl".toList, .map [
    ("cpmap".toList, .str "%ROOT%/src/pmfuzz/tools/cp-map".toList),
    ("cmin".toList, .str "%ROOT%/src/pmfuzz/tools/pmfuzz-cmin".toList),
    ("prioritize_pm_path".toList, .map [
      ("enable".toList, .bool false),
      ("env".toList, .map [
        ("enable".toList, .str "DONT_PRIORITIZE_PM_PATH=0".toList),
        ("disable".toList, .str "DONT_PRIORITIZE_PM_PATH=1".toList)])])])]

/-- The scalars of `lcov`. -/
def lcovScalars : Items φ := [
  ("enable".toList, .bool true),
  ("empty_img".toList, .str "/mnt/pmem0/__empty_img__".toList)]

/-- And its lists. -/
def lcovLists : Items φ := [
  ("source_code_dirs".toList, .list [.str "%ROOT%/vendor/pmdk/src/".toList]),
  ("options".toList, .list [.str "--no-checksum".toList, .str "--ignore-errors".toList, .str "source".toList])]

def baseYml : Items φ := baseWithoutLcov ++ [("lcov".toList, .map (lcovScalars ++ lcovLists))]

/-- A configuration without the lists. -/
def withoutLists : Items φ := baseWithoutLcov ++ [("lcov".toList, .map lcovScalars)]

theorem check_withoutLists : check (baseYml : Items Float) withoutLists [] = .ok () := by decide +kernel

/-- It is accepted, and `lcov.options` is missing. -/
theorem not_complete_withoutLists :
    ¬ (check (baseYml : Items Float) withoutLists [] = .ok () ↔ Complete baseYml (withoutLists : Items Float)) := by
  intro h
  have hdef : Occurs (baseYml : Items Float) ["lcov".toList, "options".toList] := by
    have hlists : ("options".toList, _) ∈ (lcovLists : Items Float) := List.mem_cons_of_mem _ List.mem_cons_self
    have hlcov : ("lcov".toList, Tree.map (lcovScalars ++ lcovLists)) ∈ (baseYml : Items Float) :=
      List.mem_append_right _ List.mem_cons_self
    exact ⟨_, .deeper hlcov (.here (List.mem_append_right _ hlists))⟩
  obtain ⟨val, hval⟩ := h.mp check_withoutLists _ hdef
  cases hval with
  | deeper hlcov hoptions =>
    -- the first keys are not `lcov`
    simp only [withoutLists, baseWithoutLcov, List.cons_append, List.nil_append, List.mem_cons, Prod.mk.injEq,
      List.not_mem_nil, or_false] at hlcov
    rcases hlcov with ⟨hk, -⟩ | ⟨hk, -⟩ | ⟨hk, -⟩ | ⟨-, hlcov⟩
    · exact absurd hk (by decide)
    · exact absurd hk (by decide)
    · exact absurd hk (by decide)
    · cases hlcov
      cases hoptions with
      | here hmem =>
        rcases List.mem_cons.mp hmem with heq | hmem
        · exact absurd (Prod.mk.inj heq).1 (by decide)
        · exact absurd (Prod.mk.inj (List.mem_singleton.mp hmem)).1 (by decide)
      | deeper _ hs => cases hs

end PMFuzz.Config
