import PMFuzz.Framework.Glob

/-!
# Normal paths

`os.path.normpath`. The last components of a path are those of its normal
form, if they are names (`split_normpath`).
-/

namespace PMFuzz.Glob

open Str

/-- One round of the loop of `normpath`. -/
def pushComp (initialSlashes : ℕ) (newComps : List Str) (comp : Str) : List Str :=
  if comp = [] ∨ comp = ".".toList then newComps
  else if comp ≠ "..".toList ∨ (initialSlashes = 0 ∧ newComps = []) ∨
      newComps.getLast? = some "..".toList then newComps ++ [comp]
  else newComps.dropLast

/-- `initial_slashes` of `normpath`. -/
def initialSlashes (path : Str) : ℕ :=
  if "//".toList.isPrefixOf path && !"///".toList.isPrefixOf path then 2
  else if "/".toList.isPrefixOf path then 1 else 0

/-- `os.path.normpath`. -/
def normpath (path : Str) : Str :=
  let comps := (split path '/').foldl (pushComp (initialSlashes path)) []
  let path := List.replicate (initialSlashes path) '/' ++ ['/'].intercalate comps
  if path = [] then ".".toList else path

/-- What stays as it is in a normal path. -/
structure IsName (n : Str) : Prop where
  ne_nil : n ≠ []
  ne_dot : n ≠ ".".toList
  ne_dots : n ≠ "..".toList
  slash : '/' ∉ n

variable {d n : Str} {ns comps : List Str} {k : ℕ}

/-- A part holds no separator. -/
theorem notMem_of_mem_split {s : Str} {sep : Char} : ∀ p ∈ split s sep, sep ∉ p := by
  induction s with
  | nil =>
    intro p hp
    rw [List.mem_singleton.mp hp]
    exact List.not_mem_nil
  | cons x s ih =>
    obtain ⟨w, ws, hw⟩ := List.exists_cons_of_ne_nil (List.splitOn_ne_nil sep s)
    unfold split at ih ⊢
    rw [hw] at ih
    rw [List.splitOn_cons_eq_if_modifyHead, hw]
    split
    · intro p hp
      rcases List.mem_cons.mp hp with rfl | hp
      · exact List.not_mem_nil
      · exact ih p hp
    · rename_i hx
      intro p hp
      rcases List.mem_cons.mp hp with rfl | hp
      · have hne : sep ≠ x := fun h => hx (by simp [h])
        exact List.not_mem_cons_of_ne_of_not_mem hne (ih w List.mem_cons_self)
      · exact ih p (List.mem_cons_of_mem w hp)

/-- A name that starts with no dot. -/
theorem isName_of_head {c : Char} (hhead : n.head? = some c) (hc : c ≠ '.') (hn : '/' ∉ n) : IsName n := by
  have hne : ∀ s : Str, s.head? ≠ some c → n ≠ s := by
    rintro s hs rfl
    exact hs hhead
  have hdot : some '.' ≠ some c := fun h => hc (Option.some.inj h).symm
  exact ⟨hne [] nofun, hne _ hdot, hne _ hdot, hn⟩

/-! ## The loop -/

theorem pushComp_name (h : IsName n) (k : ℕ) (comps : List Str) :
    pushComp k comps n = comps ++ [n] := by
  rw [pushComp, if_neg (not_or.mpr ⟨h.ne_nil, h.ne_dot⟩), if_pos (.inl h.ne_dots)]

theorem foldl_pushComp_names (h : ∀ n ∈ ns, IsName n) :
    ns.foldl (pushComp k) comps = comps ++ ns := by
  induction ns generalizing comps with
  | nil => exact (List.append_nil comps).symm
  | cons n ns ih =>
    rw [List.foldl_cons, pushComp_name (h n List.mem_cons_self),
      ih fun m hm => h m (List.mem_cons_of_mem n hm), List.append_assoc, List.singleton_append]

theorem foldl_pushComp_subset : ns.foldl (pushComp k) comps ⊆ comps ++ ns := by
  induction ns generalizing comps with
  | nil => rw [List.append_nil]; exact List.Subset.refl comps
  | cons n ns ih =>
    have hstep : pushComp k comps n ⊆ comps ++ [n] := by
      unfold pushComp
      split
      · exact List.subset_append_left comps [n]
      · split
        · exact List.Subset.refl _
        · exact List.subset_append_of_subset_left [n] (List.dropLast_subset comps)
    intro m hm
    have hm := ih hm
    rw [← List.singleton_append, ← List.append_assoc, List.mem_append]
    exact (List.mem_append.mp hm).imp_left fun hm => hstep hm

/-! ## The normal path -/

theorem split_slashes (k : ℕ) (s : Str) :
    split (List.replicate k '/' ++ s) '/' = List.replicate k [] ++ split s '/' := by
  induction k with
  | zero => rfl
  | succ k ih =>
    unfold split at ih ⊢
    rw [List.replicate_succ, List.cons_append, List.splitOn_cons_eq_if_modifyHead, if_pos (beq_self_eq_true '/'), ih]
    rfl

/-- The last components, if they are names. -/
theorem split_normpath (hns : ∀ n ∈ ns, IsName n) (hne : ns ≠ []) (d : Str) :
    ∃ pre, split (normpath (d ++ '/' :: ['/'].intercalate ns)) '/' = pre ++ ns := by
  have hsplit : split (d ++ '/' :: ['/'].intercalate ns) '/' = split d '/' ++ ns := by
    unfold split
    rw [List.splitOn_append_cons_self, List.splitOn_intercalate '/' (fun n hn => (hns n hn).slash) hne]
  unfold normpath
  rw [hsplit]
  generalize initialSlashes (d ++ '/' :: ['/'].intercalate ns) = k
  simp only [List.foldl_append, foldl_pushComp_names hns]
  generalize hcomps : (split d '/').foldl (pushComp k) [] = comps
  have hslash : ∀ n ∈ comps ++ ns, '/' ∉ n := by
    intro n hn
    rcases List.mem_append.mp hn with hn | hn
    · rw [← hcomps] at hn
      exact notMem_of_mem_split n (foldl_pushComp_subset hn)
    · exact (hns n hn).slash
  have hparts : split (['/'].intercalate (comps ++ ns)) '/' = comps ++ ns :=
    List.splitOn_intercalate '/' hslash (List.append_ne_nil_of_right_ne_nil comps hne)
  have hpath : List.replicate k '/' ++ ['/'].intercalate (comps ++ ns) ≠ [] := by
    intro hnil
    obtain ⟨n, hn⟩ := List.exists_mem_of_ne_nil ns hne
    rw [(List.append_eq_nil_iff.mp hnil).2] at hparts
    have hmem : n ∈ comps ++ ns := List.mem_append_right comps hn
    rw [← hparts] at hmem
    exact (hns n hn).ne_nil (List.mem_singleton.mp hmem)
  rw [if_neg hpath, split_slashes, hparts, ← List.append_assoc]
  exact ⟨_, rfl⟩

example : normpath "//a/./b/../../..//c".toList = "//c".toList := by decide

end PMFuzz.Glob
