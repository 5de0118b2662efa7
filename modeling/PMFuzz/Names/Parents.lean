import PMFuzz.Framework.Dir
import PMFuzz.Names.Metadata

/-!
# Parents

The functions of `name_handler.py` on the parent of a testcase: its name is
the testcase's without the last tag, its image an image of a testcase or of
a crash site.

The names PMFuzz makes end in a tag of their kind: a testcase's is a single
tag or ends in one after a `,` (`IsTcClean`), a crash site's in one after a
`.` (`IsSiteClean`). No name is of both kinds (`IsTcClean.not_isSiteClean`).
-/

namespace PMFuzz.Names

open Str

/-- `clean_tc_name`. -/
def cleanTcName (tcName : Str) : Except Stop Str :=
  match (split (split tcName ',').headI ':')[1]? with
  | none => .error .indexError
  | some id => .ok ("id=".toList ++ id ++ ".testcase".toList)

/-- `EXT_LIST`. -/
def extList : List Str :=
  ["testcase".toList, "hash".toList, "crash_site.tar.gz".toList, "crash_site".toList,
    "pm_pool.tar.gz".toList, "pm_pool".toList]

/-- `get_extension`. -/
def getExtension (testcase : Str) : Str :=
  match extList.find? fun ext => decide (ext <:+: testcase) with
  | some ext => '.' :: ext
  | none => []

/-- What separates tags. -/
def isDelim (c : Char) : Bool := c = ',' || c = '.'

/-- `get_testcase_parent`. -/
def getTestcaseParent (testcase : Str) : Str :=
  let ext := getExtension testcase
  let cleanName := replace testcase ext []
  let ids := cleanName.splitOnP isDelim
  if 1 < ids.length then rejoin ids.dropLast (cleanName.filter isDelim) ++ ext else []

/-- `VALID_GET_VALS`. -/
inductive Get
  | exists
  | complete
  | cs
  deriving DecidableEq

/-- `get_parent_img`, in the directory `dir` with the name `dirname`. -/
def getParentImg (testcasepath dirname : Str) (dir : Dir) (get : Get) (isparent : Bool) :
    Except Stop Str := do
  let cleanname := (← getMetadataFiles testcasepath).testcase
  let basename := if isparent then cleanname else getTestcaseParent cleanname
  let csname := (← getMetadataFiles basename).crashCmprSite
  let completename := (← getMetadataFiles basename).pmCmprPool
  let checkPathCs := dirname ++ '/' :: csname
  let checkPathComplete := dirname ++ '/' :: completename
  match get with
  | .exists =>
    if csname ∈ dir ∧ completename ∈ dir then
      .error (.abort ("Both images cannot exists: ".toList ++ checkPathCs ++ " and ".toList ++
        checkPathComplete))
    else if csname ∈ dir then return checkPathCs
    else if completename ∈ dir then return checkPathComplete
    else .error (.abort ("Unable to find any image for ".toList ++ basename ++ " in ".toList ++ dirname))
  | .cs => return checkPathCs
  | .complete => return checkPathComplete

/-! ## The two kinds of names -/

/-- The clean name of a testcase. -/
inductive IsTcClean : Str → Prop
  | root {ds : Str} (h : IsDigits ds) : IsTcClean ("id=".toList ++ ds)
  | child {c ds : Str} (hc : IsClean c) (h : IsDigits ds) : IsTcClean (c ++ ',' :: ("id=".toList ++ ds))

/-- The clean name of a crash site. -/
inductive IsSiteClean : Str → Prop
  | child {c ds : Str} (hc : IsClean c) (h : IsDigits ds) :
    IsSiteClean (c ++ '.' :: ("id=".toList ++ ds))

variable {c d ds u v : Str}

theorem IsTcClean.isClean (h : IsTcClean c) : IsClean c := by
  cases h with
  | root h => exact .root h
  | child hc h => exact .child ',' hc (.inl rfl) h

theorem IsSiteClean.isClean (h : IsSiteClean c) : IsClean c := by
  cases h with
  | child hc h => exact .child '.' hc (.inr rfl) h

theorem isSiteClean_iff : IsSiteClean c ↔
    ∃ p ds, IsClean p ∧ IsDigits ds ∧ c = p ++ '.' :: ("id=".toList ++ ds) := by
  constructor
  · rintro ⟨hc, h⟩; exact ⟨_, _, hc, h, rfl⟩
  · rintro ⟨p, ds, hc, h, rfl⟩; exact ⟨hc, h⟩

theorem isTcClean_iff : IsTcClean c ↔ ∃ ds, IsDigits ds ∧ (c = "id=".toList ++ ds ∨
    ∃ p, IsClean p ∧ c = p ++ ',' :: ("id=".toList ++ ds)) := by
  constructor
  · rintro (h | ⟨hc, h⟩)
    · exact ⟨_, h, .inl rfl⟩
    · exact ⟨_, h, .inr ⟨_, hc, rfl⟩⟩
  · rintro ⟨ds, h, rfl | ⟨p, hc, rfl⟩⟩
    · exact .root h
    · exact .child hc h

/-- A tag holds no delimiter. -/
theorem isDelim_tag (h : IsDigits ds) : ∀ x ∈ "id=".toList ++ ds, isDelim x = false := by
  intro x hx
  rcases List.mem_append.mp hx with hx | hx
  · have hid : "id=".toList.all (!isDelim ·) = true := by decide
    simpa using List.all_eq_true.mp hid x hx
  · have hd := h.digit x hx
    have hcomma : isDigit ',' = false := by decide
    have hdot : isDigit '.' = false := by decide
    rw [isDelim, Bool.or_eq_false_iff, decide_eq_false_iff_not, decide_eq_false_iff_not]
    constructor
    · rintro rfl; rw [hcomma] at hd; cases hd
    · rintro rfl; rw [hdot] at hd; cases hd

/-- What comes before and after the last delimiter. -/
theorem last_delim {x y : Char} (hx : isDelim x = true) (hy : isDelim y = true)
    (hu : ∀ z ∈ u, isDelim z = false) (hv : ∀ z ∈ v, isDelim z = false)
    (h : c ++ x :: u = d ++ y :: v) : c = d ∧ x = y ∧ u = v := by
  rcases List.append_eq_append_iff.mp h with ⟨w, rfl, hw⟩ | ⟨w, rfl, hw⟩
  · cases w with
    | nil =>
      obtain ⟨rfl, rfl⟩ := List.cons.inj hw
      exact ⟨by simp, rfl, rfl⟩
    | cons z w =>
      obtain ⟨-, rfl⟩ := List.cons.inj hw
      have := hu y (by simp)
      rw [hy] at this; cases this
  · cases w with
    | nil =>
      obtain ⟨rfl, rfl⟩ := List.cons.inj hw
      exact ⟨by simp, rfl, rfl⟩
    | cons z w =>
      obtain ⟨-, rfl⟩ := List.cons.inj hw
      have := hv x (by simp)
      rw [hx] at this; cases this

theorem IsTcClean.not_isSiteClean (h : IsTcClean c) : ¬ IsSiteClean c := by
  intro hs
  obtain ⟨p, es, -, hes, hc⟩ := isSiteClean_iff.mp hs
  obtain ⟨ds, hds, rfl | ⟨q, -, rfl⟩⟩ := isTcClean_iff.mp h
  · have := isDelim_tag hds '.' (by rw [hc]; simp)
    exact absurd this (by decide)
  · obtain ⟨-, hsep, -⟩ := last_delim (by decide) (by decide) (isDelim_tag hds) (isDelim_tag hes) hc
    exact absurd hsep (by decide)

/-! ## The functions on these names -/

theorem getExtension_testcase (c : Str) : getExtension (c ++ ".testcase".toList) =
    ".testcase".toList := by
  have hin : "testcase".toList <:+: c ++ ".testcase".toList := ⟨c ++ ['.'], [], by simp⟩
  have hfind : extList.find? (fun ext => decide (ext <:+: c ++ ".testcase".toList)) =
      some "testcase".toList := List.find?_cons_of_pos (decide_eq_true hin)
  rw [getExtension, hfind]
  rfl

theorem replace_testcase_clean (hc : IsClean c) :
    replace (c ++ ".testcase".toList) ".testcase".toList [] = c := by
  have := TcName.replace_testcase (t := ⟨c, hc, false⟩)
  simpa [TcName.testcase, TcName.bare, TcName.nl] using this

/-- What comes after the clean name decides on the extension. -/
theorem getExtension_clean (hc : IsClean c) {s : Str} (hs : s.head? = some '.') :
    getExtension (c ++ s) = getExtension s := by
  have hin : ∀ ext ∈ extList, decide (ext <:+: c ++ s) = decide (ext <:+: s) := by
    intro ext hext
    have hforeign : extList.all TcName.foreign = true := by decide
    exact decide_eq_decide.mpr
      (TcName.infix_iff ⟨c, hc, false⟩ (List.all_eq_true.mp hforeign ext hext) hs)
  have hfind : ∀ l : List Str, (∀ ext ∈ l, decide (ext <:+: c ++ s) = decide (ext <:+: s)) →
      l.find? (fun ext => decide (ext <:+: c ++ s)) = l.find? fun ext => decide (ext <:+: s) := by
    intro l hl
    induction l with
    | nil => rfl
    | cons ext l ih =>
      obtain ⟨hhead, htail⟩ := List.forall_mem_cons.mp hl
      rw [List.find?_cons, List.find?_cons, hhead, ih htail]
  rw [getExtension, getExtension, hfind extList hin]

theorem replace_clean (hc : IsClean c) {pat new s : Str} (hpat : TcName.foreign pat = true)
    (hs : s.head? = some '.') : replace (c ++ s) pat new = c ++ replace s pat new := by
  have h : NoStart pat c s := TcName.noStart (t := ⟨c, hc, false⟩) hpat hs
  refine h.replace ?_
  rintro rfl
  cases hpat

/-- The parent is what comes before the last delimiter. -/
theorem getTestcaseParent_of {n ext tag : Str} {sep : Char} (hext : getExtension n = ext)
    (hclean : replace n ext [] = c ++ sep :: tag) (hsep : isDelim sep = true)
    (htag : ∀ x ∈ tag, isDelim x = false) : getTestcaseParent n = c ++ ext := by
  have hsplit : (c ++ sep :: tag).splitOnP isDelim = c.splitOnP isDelim ++ [tag] := by
    rw [List.splitOnP_append_cons c _ hsep, List.splitOnP_eq_singleton htag]
  have hlen : 1 < (c.splitOnP isDelim ++ [tag]).length := by
    have := List.length_pos_of_ne_nil (List.splitOnP_ne_nil isDelim c)
    rw [List.length_append, List.length_singleton]
    omega
  simp only [getTestcaseParent, hext, hclean, hsplit]
  rw [if_pos hlen, List.dropLast_concat, List.filter_append, rejoin_splitOnP]

/-- Without a delimiter there is none. -/
theorem getTestcaseParent_none {n ext : Str} (hext : getExtension n = ext)
    (htag : ∀ x ∈ replace n ext [], isDelim x = false) : getTestcaseParent n = [] := by
  simp only [getTestcaseParent, hext, List.splitOnP_eq_singleton htag, List.length_singleton, lt_irrefl,
    if_false]

theorem getTestcaseParent_ext (hc : IsClean c) {sep : Char} (hsep : sep = ',' ∨ sep = '.')
    (h : IsDigits ds) {ext : Str} (hdot : ext.head? = some '.') (hforeign : TcName.foreign ext = true)
    (hext : getExtension ext = ext) (hrep : replace ext ext [] = []) :
    getTestcaseParent (c ++ sep :: ("id=".toList ++ ds) ++ ext) = c ++ ext := by
  have hclean : IsClean (c ++ sep :: ("id=".toList ++ ds)) := .child sep hc hsep h
  have hdelim : isDelim sep = true := by rcases hsep with rfl | rfl <;> decide
  refine getTestcaseParent_of ?_ ?_ hdelim (isDelim_tag h)
  · rw [getExtension_clean hclean hdot, hext]
  · rw [replace_clean hclean hforeign hdot, hrep, List.append_nil]

theorem getTestcaseParent_child (hc : IsClean c) {sep : Char} (hsep : sep = ',' ∨ sep = '.')
    (h : IsDigits ds) :
    getTestcaseParent (c ++ sep :: ("id=".toList ++ ds) ++ ".testcase".toList) =
      c ++ ".testcase".toList :=
  getTestcaseParent_ext hc hsep h rfl (by decide) (by decide) (by decide)

theorem getTestcaseParent_crashCmprSite (hc : IsClean c) {sep : Char} (hsep : sep = ',' ∨ sep = '.')
    (h : IsDigits ds) :
    getTestcaseParent (c ++ sep :: ("id=".toList ++ ds) ++ ".crash_site.tar.gz".toList) =
      c ++ ".crash_site.tar.gz".toList :=
  getTestcaseParent_ext hc hsep h rfl (by decide) (by decide) (by decide)

theorem getTestcaseParent_root (h : IsDigits ds) :
    getTestcaseParent ("id=".toList ++ ds ++ ".testcase".toList) = [] := by
  refine getTestcaseParent_none (getExtension_testcase _) ?_
  rw [replace_testcase_clean (.root h)]
  exact isDelim_tag h

/-- The name of a queue's case, and the testcase it becomes. -/
theorem cleanTcName_queue (h : IsDigits ds) {rest : Str} (hrest : rest = [] ∨ rest.head? = some ',') :
    cleanTcName ("id:".toList ++ ds ++ rest) = .ok ("id=".toList ++ ds ++ ".testcase".toList) := by
  have hnot : ∀ x, isDigit x = false → x ∉ ds := fun x hx hmem => by
    rw [h.digit x hmem] at hx; cases hx
  have hcomma : ',' ∉ "id:".toList ++ ds := fun hmem => by
    rcases List.mem_append.mp hmem with hmem | hmem
    · exact absurd hmem (by decide)
    · exact hnot ',' (by decide) hmem
  have hfirst : (split ("id:".toList ++ ds ++ rest) ',').headI = "id:".toList ++ ds := by
    unfold split
    rcases hrest with rfl | hrest
    · rw [List.append_nil, List.splitOn_eq_singleton hcomma]
      rfl
    · obtain ⟨tl, rfl⟩ := List.head?_eq_some_iff.mp hrest
      rw [List.splitOn_append_cons_self, List.splitOn_eq_singleton hcomma]
      rfl
  have hsecond : split ("id:".toList ++ ds) ':' = ["id".toList, ds] := by
    show ("id".toList ++ ':' :: ds).splitOn ':' = _
    rw [List.splitOn_append_cons_self, List.splitOn_eq_singleton (hnot ':' (by decide))]
    rfl
  rw [cleanTcName, hfirst, hsecond]
  rfl

/-- `get_parent_img`, of the parent itself. -/
theorem getParentImg_exists (hc : IsClean c) (dirname : Str) (dir : Dir) :
    getParentImg (c ++ ".testcase".toList) dirname dir .exists true =
      if c ++ ".crash_site.tar.gz".toList ∈ dir ∧ c ++ ".pm_pool.tar.gz".toList ∈ dir then
        .error (.abort ("Both images cannot exists: ".toList ++
          (dirname ++ '/' :: (c ++ ".crash_site.tar.gz".toList)) ++ " and ".toList ++
          (dirname ++ '/' :: (c ++ ".pm_pool.tar.gz".toList))))
      else if c ++ ".crash_site.tar.gz".toList ∈ dir then
        .ok (dirname ++ '/' :: (c ++ ".crash_site.tar.gz".toList))
      else if c ++ ".pm_pool.tar.gz".toList ∈ dir then
        .ok (dirname ++ '/' :: (c ++ ".pm_pool.tar.gz".toList))
      else .error (.abort ("Unable to find any image for ".toList ++ (c ++ ".testcase".toList) ++
        " in ".toList ++ dirname)) := by
  have hmeta := getMetadataFiles_clean hc
  have hbare : (TcName.mk c hc false).bare = c := TcName.bare_eq rfl
  have htc : (TcName.mk c hc false).metadata.testcase = c ++ ".testcase".toList := TcName.testcase_eq rfl
  have hcs : (TcName.mk c hc false).metadata.crashCmprSite = c ++ ".crash_site.tar.gz".toList := by
    rw [TcName.metadata, hbare]
  have himg : (TcName.mk c hc false).metadata.pmCmprPool = c ++ ".pm_pool.tar.gz".toList := by
    rw [TcName.metadata, hbare]
  unfold getParentImg
  rw [hmeta]
  simp only [bind, Except.bind, if_true, htc, hmeta, hcs, himg, pure, Except.pure]

end PMFuzz.Names
