import PMFuzz.Names.Kinds
import PMFuzz.Names.Lineage

/-!
# Tags

A clean name is its tags `c₀ s₁ c₁ … sₙ cₙ` (`exists_tags`), and the
functions of `name_handler.py` are views of these: `get_testcase_parent`
drops the last one, `iter_cnt` counts the `,`, and `get_lineage` has the ids
after a `,`. `tags_views` says that they agree, for the names of every kind
but `.min.testcase`.
-/

namespace PMFuzz.Names

open Str

/-- What comes before a tag. -/
inductive Sep
  | comma
  | dot
  deriving DecidableEq

def Sep.char : Sep → Char
  | comma => ','
  | dot => '.'

/-- The digits of a tag. -/
abbrev Digits := {ds : Str // IsDigits ds}

/-- The tags of a clean name. -/
structure Tags where
  first : Digits
  rest : List (Sep × Digits)

namespace Tags

/-- The clean name. -/
def text (T : Tags) : Str :=
  T.rest.foldl (fun c tag => c ++ tag.1.char :: ("id=".toList ++ tag.2.1)) ("id=".toList ++ T.first.1)

/-- The tags without the last one. -/
def init (T : Tags) : Tags := ⟨T.first, T.rest.dropLast⟩

/-- The number of `,`. -/
def commas (T : Tags) : ℕ := T.rest.countP (·.1 = .comma)

variable {first : Digits} {rest : List (Sep × Digits)} {tag : Sep × Digits} {T : Tags}

theorem text_concat : text ⟨first, rest ++ [tag]⟩ =
    text ⟨first, rest⟩ ++ tag.1.char :: ("id=".toList ++ tag.2.1) := by
  simp [text]

theorem init_concat : init ⟨first, rest ++ [tag]⟩ = ⟨first, rest⟩ := by
  simp [init]

theorem commas_concat : commas ⟨first, rest ++ [tag]⟩ =
    if tag.1 = .comma then commas ⟨first, rest⟩ + 1 else commas ⟨first, rest⟩ := by
  simp only [commas, List.countP_append, List.countP_singleton, decide_eq_true_eq]
  split <;> rfl

/-- By adding tags at the end. -/
theorem concat_induction {P : Tags → Prop} (root : ∀ first, P ⟨first, []⟩)
    (concat : ∀ first rest tag, P ⟨first, rest⟩ → P ⟨first, rest ++ [tag]⟩) (T : Tags) : P T := by
  obtain ⟨first, rest⟩ := T
  induction rest using List.reverseRecOn with
  | nil => exact root first
  | append_singleton rest tag ih => exact concat first rest tag ih

theorem char_cases (s : Sep) : s.char = ',' ∨ s.char = '.' := by
  cases s
  · exact .inl rfl
  · exact .inr rfl

theorem isClean (T : Tags) : IsClean T.text := by
  induction T using concat_induction with
  | root first => exact .root first.2
  | concat first rest tag ih =>
    rw [text_concat]
    exact .child _ ih (char_cases tag.1) tag.2.2

theorem exists_tags {c : Str} (hc : IsClean c) : ∃ T : Tags, T.text = c := by
  induction hc with
  | root h => exact ⟨⟨⟨_, h⟩, []⟩, rfl⟩
  | child sep hc hsep h ih =>
    obtain ⟨T, rfl⟩ := ih
    rcases hsep with rfl | rfl
    · exact ⟨⟨T.first, T.rest ++ [(.comma, ⟨_, h⟩)]⟩, text_concat⟩
    · exact ⟨⟨T.first, T.rest ++ [(.dot, ⟨_, h⟩)]⟩, text_concat⟩

end Tags

/-! ## The parent -/

variable {k : FileKind} {c : Str} {T : Tags}

theorem FileKind.getExtension_name (hk : k ≠ .minTestcase) (hc : IsClean c) :
    getExtension (k.name c) = k.suffix := by
  have hbare : ∀ s : Str, s.head? = some '.' → getExtension s = s → getExtension ([] ++ (c ++ s)) = s :=
    fun s hs hext => (getExtension_clean hc hs).trans hext
  cases k with
  | testcase => exact hbare _ rfl (by decide)
  | minTestcase => exact absurd rfl hk
  | map => exact getExtension_testcase ("map_".toList ++ c)
  | pmMap => exact getExtension_testcase ("pm_map_".toList ++ c)
  | crashSite => exact hbare _ rfl (by decide)
  | crashCmprSite => exact hbare _ rfl (by decide)
  | pmPool => exact hbare _ rfl (by decide)
  | pmCmprPool => exact hbare _ rfl (by decide)

theorem FileKind.replace_name (hc : IsClean c) : replace (k.name c) k.suffix [] = k.pre ++ c := by
  obtain ⟨ext, hext⟩ : ∃ ext, k.suffix = '.' :: ext := by cases k <;> exact ⟨_, rfl⟩
  have hpre : NoStart k.suffix k.pre (c ++ k.suffix) := by
    rw [hext]
    refine noStart_of_head ?_
    cases k <;> decide
  have hforeign : TcName.foreign k.suffix = true := by cases k <;> decide
  have hself : replace k.suffix k.suffix [] = [] := by cases k <;> decide
  have hne : k.suffix ≠ [] := by rw [hext]; exact List.cons_ne_nil _ _
  rw [FileKind.name, hpre.replace hne, replace_clean hc hforeign (by rw [hext]; rfl), hself, List.append_nil]

/-- The prefix holds no delimiter. -/
theorem FileKind.isDelim_pre (k : FileKind) : ∀ x ∈ k.pre, isDelim x = false := by
  have hall : (k.pre.all fun x => !isDelim x) = true := by cases k <;> decide
  intro x hx
  simpa using List.all_eq_true.mp hall x hx

theorem getTestcaseParent_name (hk : k ≠ .minTestcase) (T : Tags) :
    getTestcaseParent (k.name T.text) = if T.rest = [] then [] else k.name T.init.text := by
  induction T using Tags.concat_induction with
  | root first =>
    rw [if_pos rfl]
    refine getTestcaseParent_none (FileKind.getExtension_name hk (Tags.isClean _)) ?_
    rw [FileKind.replace_name (Tags.isClean _)]
    intro x hx
    rcases List.mem_append.mp hx with hx | hx
    · exact k.isDelim_pre x hx
    · exact isDelim_tag first.2 x hx
  | concat first rest tag _ =>
    have hclean : replace (k.name (Tags.text ⟨first, rest ++ [tag]⟩)) k.suffix [] =
        (k.pre ++ Tags.text ⟨first, rest⟩) ++ tag.1.char :: ("id=".toList ++ tag.2.1) := by
      rw [FileKind.replace_name (Tags.isClean _), Tags.text_concat, List.append_assoc]
    have hsep : isDelim tag.1.char = true := by
      rcases Tags.char_cases tag.1 with h | h <;> rw [h] <;> decide
    rw [getTestcaseParent_of (FileKind.getExtension_name hk (Tags.isClean _)) hclean hsep
      (isDelim_tag tag.2.2), if_neg (by simp), Tags.init_concat, FileKind.name, List.append_assoc]

theorem FileKind.name_ne_nil (k : FileKind) (c : Str) : k.name c ≠ [] := by
  have hne : k.suffix ≠ [] := by cases k <;> decide
  simp [FileKind.name, hne]

/-- The parents of a name come to an end after its tags. -/
theorem iterate_getTestcaseParent (hk : k ≠ .minTestcase) (i : ℕ) (T : Tags) :
    getTestcaseParent^[i] (k.name T.text) = [] ↔ T.rest.length < i := by
  have hnil : ∀ i, getTestcaseParent^[i] [] = [] := fun i => Function.iterate_fixed (by decide) i
  induction i generalizing T with
  | zero =>
    rw [Function.iterate_zero, id_eq]
    exact ⟨fun h => absurd h (k.name_ne_nil _), fun h => absurd h (Nat.not_lt_zero _)⟩
  | succ i ih =>
    rw [Function.iterate_succ_apply, getTestcaseParent_name hk]
    by_cases hrest : T.rest = []
    · rw [if_pos hrest, hnil, hrest]
      simp
    · have hpos := List.length_pos_of_ne_nil hrest
      rw [if_neg hrest]
      refine (ih T.init).trans ?_
      rw [Tags.init, List.length_dropLast]
      omega

/-! ## The number of iterations and the lineage -/

theorem length_split (T : Tags) : (split T.text ',').length = T.commas + 1 := by
  induction T using Tags.concat_induction with
  | root first =>
    show (split ("id=".toList ++ first.1) ',').length = 1
    rw [split, List.splitOn_eq_singleton (comma_notMem_tag first.2), List.length_singleton]
  | concat first rest tag ih =>
    rw [Tags.text_concat, Tags.commas_concat]
    rcases tag with ⟨_ | _, ds⟩
    · show (split (Tags.text ⟨first, rest⟩ ++ ',' :: ("id=".toList ++ ds.1)) ',').length = _
      rw [split, List.splitOn_append_cons_self, List.splitOn_eq_singleton (comma_notMem_tag ds.2),
        List.length_append, ← split, ih]
      rfl
    · have hno : ',' ∉ '.' :: ("id=".toList ++ ds.1) := by
        rw [List.mem_cons, not_or]
        exact ⟨by decide, comma_notMem_tag ds.2⟩
      obtain ⟨front, last, hc, hsplit⟩ := split_append hno (Tags.text ⟨first, rest⟩)
      rw [hc] at ih
      show (split (Tags.text ⟨first, rest⟩ ++ '.' :: ("id=".toList ++ ds.1)) ',').length = _
      rw [hsplit]
      simpa using ih

theorem iterCnt_name (k : FileKind) (T : Tags) : iterCnt (k.name T.text) = .ok (T.commas + 1) := by
  have hcnt : (tcOf T.text T.isClean).ancestors = T.commas := by
    rw [TcName.ancestors, TcName.bare_eq rfl]
    exact (congrArg (· - 1) (length_split T)).trans (Nat.add_sub_cancel _ _)
  rw [iterCnt, ancestorCnt_of (getMetadataFiles_name k T.isClean), hcnt]
  rfl

theorem getLineage_name (k : FileKind) (hc : IsClean c) : getLineage (k.name c) = lineage c := by
  exact getLineage_eq (t := tcOf c hc) rfl (Glob.basename_of_notMem (slash_notMem_name k hc))
    (getMetadataFiles_name k hc)

/-- It has one id for each `,` and one before. -/
theorem length_lineage (T : Tags) : ∃ ids, lineage T.text = .ok ids ∧ ids.length = T.commas + 1 := by
  induction T using Tags.concat_induction with
  | root first => exact ⟨_, lineage_root first.2, rfl⟩
  | concat first rest tag ih =>
    obtain ⟨ids, hids, hlen⟩ := ih
    rw [Tags.text_concat, Tags.commas_concat]
    rcases tag with ⟨_ | _, ds⟩
    · refine ⟨ids ++ [decimal ds.1], ?_, ?_⟩
      · refine (lineage_comma ds.2 _).trans ?_
        rw [hids]
        rfl
      · rw [List.length_append, hlen]
        rfl
    · exact ⟨ids, (lineage_dot ds.2 _).trans hids, hlen⟩

/-- The name that a case of the queue gets, of a job on `c`. -/
theorem queue_child (hc : IsClean c) (id : Digits) {rest : Str} (hrest : rest = [] ∨ rest.head? = some ',') :
    ∃ child ids, cleanTcName ("id:".toList ++ id.1 ++ rest) = .ok child ∧
      getTestcaseParent (c ++ ',' :: child) = c ++ ".testcase".toList ∧
      getLineage (c ++ ".testcase".toList) = .ok ids ∧
      getLineage (c ++ ',' :: child) = .ok (ids ++ [decimal id.1]) := by
  obtain ⟨ids, hids⟩ := exists_lineage hc
  have hname : c ++ ',' :: ("id=".toList ++ id.1 ++ ".testcase".toList) =
      c ++ ',' :: ("id=".toList ++ id.1) ++ ".testcase".toList := by
    simp
  have hchild : IsClean (c ++ ',' :: ("id=".toList ++ id.1)) := .child ',' hc (.inl rfl) id.2
  refine ⟨_, ids, cleanTcName_queue id.2 hrest, ?_, ?_, ?_⟩
  · rw [hname, getTestcaseParent_child hc (.inl rfl) id.2]
  · exact (getLineage_name .testcase hc).trans hids
  · have hlineage := getLineage_name .testcase hchild
    rw [lineage_comma id.2, hids] at hlineage
    rw [hname]
    exact hlineage

/-- The views of a name agree. -/
theorem tags_views (hk : k ≠ .minTestcase) : (∀ c, IsClean c ↔ ∃ T : Tags, T.text = c) ∧ ∀ T : Tags,
    getTestcaseParent (k.name T.text) = (if T.rest = [] then [] else k.name T.init.text) ∧
    (∀ i, getTestcaseParent^[i] (k.name T.text) = [] ↔ T.rest.length < i) ∧
    iterCnt (k.name T.text) = .ok (T.commas + 1) ∧
    (∃ ids, getLineage (k.name T.text) = .ok ids ∧ ids.length = T.commas + 1) ∧
    (∀ rest tag, T.rest = rest ++ [tag] → ∃ n, iterCnt (getTestcaseParent (k.name T.text)) = .ok n ∧
      iterCnt (k.name T.text) = .ok (if tag.1 = .comma then n + 1 else n)) ∧
    ∀ (id : Digits) (rest : Str), rest = [] ∨ rest.head? = some ',' →
      ∃ child ids, cleanTcName ("id:".toList ++ id.1 ++ rest) = .ok child ∧
        getTestcaseParent (T.text ++ ',' :: child) = T.text ++ ".testcase".toList ∧
        getLineage (T.text ++ ".testcase".toList) = .ok ids ∧
        getLineage (T.text ++ ',' :: child) = .ok (ids ++ [decimal id.1]) := by
  refine ⟨fun c => ⟨Tags.exists_tags, fun ⟨T, h⟩ => h ▸ T.isClean⟩, fun T => ⟨getTestcaseParent_name hk T,
    fun i => iterate_getTestcaseParent hk i T, iterCnt_name k T, ?_, ?_,
    fun id rest hrest => queue_child T.isClean id hrest⟩⟩
  · rw [getLineage_name k T.isClean]
    exact length_lineage T
  · intro rest tag hrest
    obtain ⟨first, rest'⟩ := T
    subst hrest
    refine ⟨Tags.commas ⟨first, rest⟩ + 1, ?_, ?_⟩
    · rw [getTestcaseParent_name hk, if_neg (by simp), Tags.init_concat, iterCnt_name]
    · rw [iterCnt_name, Tags.commas_concat]
      split <;> rfl

/-- A map's name: its parent's parent is the map of `id=1`. -/
theorem tags_views_map :
    getTestcaseParent^[2] "map_id=1.id=2,id=3.testcase".toList = "map_id=1.testcase".toList ∧
      getTestcaseParent^[3] "map_id=1.id=2,id=3.testcase".toList = [] := by
  have h1 : IsDigits "1".toList := by decide
  have h2 : IsDigits "2".toList := by decide
  have h3 : IsDigits "3".toList := by decide
  have hmap : FileKind.map ≠ .minTestcase := by decide
  obtain ⟨-, hviews⟩ := tags_views hmap
  refine ⟨by decide, ?_⟩
  exact ((hviews ⟨⟨_, h1⟩, [(.dot, ⟨_, h2⟩), (.comma, ⟨_, h3⟩)]⟩).2.1 3).mpr (Nat.lt_succ_self 2)

end PMFuzz.Names
