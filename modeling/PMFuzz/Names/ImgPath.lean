import PMFuzz.Framework.Glob
import PMFuzz.Framework.Parts

/-!
# The image's path in the target's command

`PM_IMG_MRK` in the command of the target stands for the path of its image.
`set_img_name` puts a path into the first token with the marker.
`set_img_path` has it put a dummy path there, and replaces the dummy path
wherever it finds it. `run_afl` replaces the marker itself, in all tokens.

The two agree, whatever the path, if the command has one token with the
marker and the dummy path is nowhere but where the marker was
(`substituted_iff`).
-/

namespace PMFuzz.Names

open Str Glob

/-- `PM_IMG_MRK`. -/
def pmImgMrk : Str := "__POOL_IMAGE__".toList

/-- `set_img_name`. -/
def setImgName (tgtcmd : List Str) (newImgName imgLoc : Str) : Str × List Str :=
  match tgtcmd with
  | [] => ([], [])
  | token :: rest =>
    if pmImgMrk <:+: token then
      let imgPath := join imgLoc newImgName
      -- the other tokens are left: `break`
      (imgPath, replace token pmImgMrk imgPath :: rest)
    else
      let (imgPath, rest) := setImgName rest newImgName imgLoc
      (imgPath, token :: rest)

/-- `set_img_path`. -/
def setImgPath (tgtcmd : List Str) (newImgPath imgLoc : Str) : Str × List Str :=
  let (imgPath, tgtcmdLoc) := setImgName tgtcmd "DUMMY_NAME".toList imgLoc
  (newImgPath, tgtcmdLoc.map fun token =>
    if imgPath <:+: token then replace token imgPath newImgPath else token)

/-- The substitution of `run_afl`. -/
def runAflCmd (tgtcmd : List Str) (imgname : Str) : List Str :=
  tgtcmd.map fun token => if pmImgMrk <:+: token then replace token pmImgMrk imgname else token

/-- Some token holds the marker. -/
def HasMarker (tgtcmd : List Str) : Prop := ∃ token ∈ tgtcmd, pmImgMrk <:+: token

/-- `set_img_path` replaces the marker, or says that there is none. -/
def Substituted (tgtcmd : List Str) (p imgLoc : Str) : Prop :=
  (HasMarker tgtcmd → setImgPath tgtcmd p imgLoc = (p, runAflCmd tgtcmd p)) ∧
    (¬ HasMarker tgtcmd → setImgPath tgtcmd p imgLoc = ([], tgtcmd))

/-- The path that stands in for the image's. -/
def dummyPath (imgLoc : Str) : Str := join imgLoc "DUMMY_NAME".toList

/-- One token holds the marker, and the dummy path occurs in it only in the
place of the marker, and in no other token. -/
def OneToken (tgtcmd : List Str) (imgLoc : Str) : Prop :=
  ∃ pre token post, tgtcmd = pre ++ token :: post ∧ pmImgMrk <:+: token ∧
    OnlyBetween (dummyPath imgLoc) (parts token pmImgMrk) ∧
    ∀ t ∈ pre ++ post, ¬ pmImgMrk <:+: t ∧ ¬ dummyPath imgLoc <:+: t

variable {tgtcmd pre post : List Str} {token t p imgLoc name pat new : Str}

/-! ## The loops -/

theorem setImgName_append (hpre : ∀ t ∈ pre, ¬ pmImgMrk <:+: t) (htoken : pmImgMrk <:+: token) :
    setImgName (pre ++ token :: post) name imgLoc =
      (join imgLoc name, pre ++ replace token pmImgMrk (join imgLoc name) :: post) := by
  induction pre with
  | nil => exact if_pos htoken
  | cons t pre ih =>
    rw [List.cons_append, setImgName, if_neg (hpre t List.mem_cons_self),
      ih fun u hu => hpre u (List.mem_cons_of_mem t hu)]
    rfl

theorem setImgName_of_not_hasMarker (h : ¬ HasMarker tgtcmd) : setImgName tgtcmd name imgLoc = ([], tgtcmd) := by
  induction tgtcmd with
  | nil => rfl
  | cons t tgtcmd ih =>
    have ht : ¬ pmImgMrk <:+: t := fun hin => h ⟨t, List.mem_cons_self, hin⟩
    rw [setImgName, if_neg ht, ih fun ⟨u, hu, hin⟩ => h ⟨u, List.mem_cons_of_mem t hu, hin⟩]

/-- Replacing what is not there does nothing. -/
theorem ite_replace (hpat : pat ≠ []) : (if pat <:+: t then replace t pat new else t) = replace t pat new := by
  split
  · rfl
  · rename_i h
    exact Eq.symm <| replace_of_not_infix h hpat

theorem mem_dummyPath (imgLoc : Str) : 'D' ∈ dummyPath imgLoc := by
  have hname : 'D' ∈ "DUMMY_NAME".toList := by decide
  rw [dummyPath, join, if_neg (by decide)]
  split
  · exact List.mem_append_right _ hname
  · exact List.mem_append_right _ (List.mem_cons_of_mem _ hname)

theorem dummyPath_ne_nil (imgLoc : Str) : dummyPath imgLoc ≠ [] := List.ne_nil_of_mem (mem_dummyPath imgLoc)

theorem pmImgMrk_ne_nil : pmImgMrk ≠ [] := by decide

theorem runAflCmd_eq (tgtcmd : List Str) (p : Str) : runAflCmd tgtcmd p = tgtcmd.map (replace · pmImgMrk p) :=
  List.map_congr_left fun _ _ => ite_replace pmImgMrk_ne_nil

theorem setImgPath_append (hpre : ∀ t ∈ pre, ¬ pmImgMrk <:+: t) (htoken : pmImgMrk <:+: token) :
    setImgPath (pre ++ token :: post) p imgLoc = (p, (pre ++ replace token pmImgMrk (dummyPath imgLoc) ::
      post).map (replace · (dummyPath imgLoc) p)) := by
  rw [setImgPath, setImgName_append hpre htoken]
  exact congrArg (p, ·) (List.map_congr_left fun _ _ => ite_replace (dummyPath_ne_nil imgLoc))

/-- The first token with the marker. -/
theorem HasMarker.exists_first (h : HasMarker tgtcmd) : ∃ pre token post, tgtcmd = pre ++ token :: post ∧
    pmImgMrk <:+: token ∧ ∀ t ∈ pre, ¬ pmImgMrk <:+: t := by
  induction tgtcmd with
  | nil => exact absurd h (by rintro ⟨t, ht, -⟩; exact List.not_mem_nil ht)
  | cons t tgtcmd ih =>
    by_cases ht : pmImgMrk <:+: t
    · exact ⟨[], t, tgtcmd, rfl, ht, fun u hu => absurd hu List.not_mem_nil⟩
    · obtain ⟨u, hu, hin⟩ := h
      have htail : HasMarker tgtcmd :=
        ⟨u, (List.mem_cons.mp hu).resolve_left fun heq => ht (heq ▸ hin), hin⟩
      obtain ⟨pre, token, post, rfl, htoken, hpre⟩ := ih htail
      refine ⟨t :: pre, token, post, rfl, htoken, fun u hu => ?_⟩
      rcases List.mem_cons.mp hu with rfl | hu
      · exact ht
      · exact hpre u hu

/-! ## One token -/

/-- The token with the marker, for every path. -/
theorem replace_dummyPath_iff : (∀ p, replace (replace token pmImgMrk (dummyPath imgLoc)) (dummyPath imgLoc) p =
    replace token pmImgMrk p) ↔ OnlyBetween (dummyPath imgLoc) (parts token pmImgMrk) := by
  have hD := dummyPath_ne_nil imgLoc
  have hparts : ∀ p, replace token pmImgMrk p = p.intercalate (parts token pmImgMrk) := fun p =>
    replace_eq_intercalate pmImgMrk_ne_nil token p
  constructor
  · intro h
    obtain ⟨c, hc⟩ : ∃ c, (dummyPath imgLoc).head? ≠ some c := by
      by_cases hx : (dummyPath imgLoc).head? = some 'x'
      · exact ⟨'y', by rw [hx]; decide⟩
      · exact ⟨'x', hx⟩
    have hp := h [c]
    rw [hparts, hparts] at hp
    exact onlyBetween_of_replace (partsFrom_ne_nil _ _ _) hD hc hp
  · intro h p
    rw [hparts, hparts, replace_intercalate hD h]

/-- Another token, for every path. -/
theorem replace_other_iff : (∀ p, replace t (dummyPath imgLoc) p = replace t pmImgMrk p) ↔
    ¬ pmImgMrk <:+: t ∧ ¬ dummyPath imgLoc <:+: t := by
  constructor
  · intro h
    -- the marker for a path: no `D` may go
    have hdummy : ¬ dummyPath imgLoc <:+: t := by
      intro hin
      have hlt : (replace t (dummyPath imgLoc) pmImgMrk).count 'D' < t.count 'D' :=
        count_replace_lt hin (mem_dummyPath imgLoc) (by decide)
      rw [h, replace_self t pmImgMrk_ne_nil] at hlt
      exact Nat.lt_irrefl _ hlt
    refine ⟨fun hin => ?_, hdummy⟩
    have hlt : (replace t pmImgMrk []).count 'P' < t.count 'P' := count_replace_lt hin (by decide) (by decide)
    rw [← h, replace_of_not_infix hdummy (dummyPath_ne_nil imgLoc)] at hlt
    exact Nat.lt_irrefl _ hlt
  · rintro ⟨hmrk, hdummy⟩ p
    have hleft : replace t (dummyPath imgLoc) p = t := replace_of_not_infix hdummy (dummyPath_ne_nil imgLoc)
    have hright : replace t pmImgMrk p = t := replace_of_not_infix hmrk pmImgMrk_ne_nil
    rw [hleft, hright]

/-! ## The command -/

theorem OneToken.substituted (h : OneToken tgtcmd imgLoc) (p : Str) : Substituted tgtcmd p imgLoc := by
  obtain ⟨pre, token, post, rfl, htoken, hbetween, hother⟩ := h
  have hmarker : HasMarker (pre ++ token :: post) :=
    ⟨token, List.mem_append_right _ List.mem_cons_self, htoken⟩
  refine ⟨fun _ => ?_, fun hno => absurd hmarker hno⟩
  have hrest : ∀ l : List Str, (∀ t ∈ l, t ∈ pre ++ post) →
      l.map (replace · (dummyPath imgLoc) p) = l.map (replace · pmImgMrk p) := fun l hl =>
    List.map_congr_left fun t ht => replace_other_iff.mpr (hother t (hl t ht)) p
  rw [setImgPath_append (fun t ht => (hother t (List.mem_append_left _ ht)).1) htoken, runAflCmd_eq,
    List.map_append, List.map_append, List.map_cons, List.map_cons, replace_dummyPath_iff.mpr hbetween p,
    hrest pre fun t ht => List.mem_append_left _ ht, hrest post fun t ht => List.mem_append_right _ ht]

theorem oneToken_of_substituted (hmarker : HasMarker tgtcmd) (h : ∀ p, Substituted tgtcmd p imgLoc) :
    OneToken tgtcmd imgLoc := by
  obtain ⟨pre, token, post, rfl, htoken, hpre⟩ := hmarker.exists_first
  -- token by token
  have hall : ∀ p, (∀ t ∈ pre, replace t (dummyPath imgLoc) p = replace t pmImgMrk p) ∧
      replace (replace token pmImgMrk (dummyPath imgLoc)) (dummyPath imgLoc) p = replace token pmImgMrk p ∧
      ∀ t ∈ post, replace t (dummyPath imgLoc) p = replace t pmImgMrk p := by
    intro p
    have hp := (h p).1 hmarker
    rw [setImgPath_append hpre htoken, runAflCmd_eq, List.map_append, List.map_append] at hp
    have hcmd := List.append_inj (congrArg Prod.snd hp) (by rw [List.length_map, List.length_map])
    obtain ⟨htoken', hpost⟩ := List.cons.inj hcmd.2
    exact ⟨List.map_inj_left.mp hcmd.1, htoken', List.map_inj_left.mp hpost⟩
  refine ⟨pre, token, post, rfl, htoken, replace_dummyPath_iff.mp fun p => (hall p).2.1, fun t ht => ?_⟩
  rcases List.mem_append.mp ht with ht | ht
  · exact replace_other_iff.mp fun p => (hall p).1 t ht
  · exact replace_other_iff.mp fun p => (hall p).2.2 t ht

/-- Without a marker the path is returned all the same, and comes between
all characters. -/
theorem substituted_of_not_hasMarker (h : ¬ HasMarker tgtcmd) : Substituted tgtcmd p imgLoc ↔ p = [] := by
  have hpath : setImgPath tgtcmd p imgLoc = (p, tgtcmd.map (replace · [] p)) := by
    rw [setImgPath, setImgName_of_not_hasMarker h]
    exact congrArg (p, ·) (List.map_congr_left fun _ _ => if_pos (List.nil_infix))
  constructor
  · intro hs
    exact congrArg Prod.fst (hpath.symm.trans (hs.2 h))
  · rintro rfl
    refine ⟨fun hmarker => absurd hmarker h, fun _ => ?_⟩
    have hsame : ∀ t : Str, replace t [] [] = t := by
      intro t
      rw [replace, if_pos rfl, List.nil_append]
      exact List.flatMap_singleton' t
    rw [hpath]
    exact congrArg ([], ·) ((List.map_congr_left fun t _ => hsame t).trans (List.map_id _))

/-- `set_img_path` is right for every path if and only if one token holds the
marker; without a marker it is right only for the empty path. -/
theorem substituted_iff (tgtcmd : List Str) (imgLoc : Str) :
    ((∀ p, Substituted tgtcmd p imgLoc) ↔ OneToken tgtcmd imgLoc) ∧
      ∀ p, ¬ HasMarker tgtcmd ∧ Substituted tgtcmd p imgLoc ↔ ¬ HasMarker tgtcmd ∧ p = [] := by
  refine ⟨⟨fun h => ?_, OneToken.substituted⟩, fun p => and_congr_right substituted_of_not_hasMarker⟩
  by_cases hmarker : HasMarker tgtcmd
  · exact oneToken_of_substituted hmarker h
  · exact absurd ((substituted_of_not_hasMarker hmarker).mp (h ['x'])) (List.cons_ne_nil _ _)

/-- A command that names the image twice. -/
def twoTokens : List Str :=
  ["mapcli".toList, "__POOL_IMAGE__".toList, "--log=__POOL_IMAGE__.log".toList]

/-- The second token keeps the marker. -/
theorem setImgPath_twoTokens : ¬ ∀ tgtcmd p imgLoc, Substituted tgtcmd p imgLoc := by
  intro h
  have hmarker : HasMarker twoTokens := ⟨"__POOL_IMAGE__".toList, by decide, by decide⟩
  have hcmd := (h twoTokens "/mnt/pmem0/img".toList "/mnt/pmem0".toList).1 hmarker
  exact absurd (congrArg Prod.snd hcmd) (by decide +kernel)

end PMFuzz.Names
