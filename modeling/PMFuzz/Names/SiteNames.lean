import PMFuzz.Names.CrashImages

/-!
# The names of crash sites

* `names_agree`: the functions that write and read a failure image agree on its
  name, and no two images share an archive;
* `compressNewCrashSites_images`, `processNewCrashSites_images`: what the stages
  make of all images of a testcase;
* `leadsBack_iff`: whose crash sites lead back to the testcase.
-/

namespace PMFuzz.Names

open Str Glob
open Libpmfuzz (Env imageName stripTcName strstr format06d asInt)

namespace CrashImage

/-! ## Distinct images have distinct archives -/

theorem stem_inj {x y : CrashImage} (h : x.stem = y.stem) : x.parent = y.parent ∧ x.child = y.child := by
  obtain ⟨xp, ⟨c, hc⟩, xf⟩ := x
  obtain ⟨yp, ⟨d, hd⟩, yf⟩ := y
  -- a single tag holds no dot
  have hroot : ∀ {p ds es : Str}, IsDigits ds → "id=".toList ++ ds ≠ p ++ '.' :: ("id=".toList ++ es) := by
    intro p ds es hds h
    exact absurd (isDelim_tag hds '.' (by rw [h]; simp)) (by decide)
  cases xp with
  | none =>
    cases yp with
    | none =>
      obtain rfl := List.append_cancel_left h
      exact ⟨rfl, rfl⟩
    | some q => exact absurd h (hroot hc)
  | some p =>
    cases yp with
    | none => exact absurd h.symm (hroot hd)
    | some q =>
      obtain ⟨hpq, -, htag⟩ := last_delim (by decide) (by decide) (isDelim_tag hc) (isDelim_tag hd) h
      obtain rfl := List.append_cancel_left htag
      exact ⟨congrArg some (Subtype.ext hpq), rfl⟩

theorem site_inj {x y : CrashImage} (h : x.site = y.site) : x = y := by
  obtain ⟨hstem, -, htag⟩ := last_delim (by decide) (by decide) (isDelim_tag x.isDigits_idText)
    (isDelim_tag y.isDigits_idText) (congrArg TcName.clean h)
  obtain ⟨hparent, hchild⟩ := stem_inj hstem
  have hid : x.failure.1.toNat = y.failure.1.toNat := by
    rw [← ofDigitChars_format06d x.failure.1.toNat, ← ofDigitChars_format06d y.failure.1.toNat,
      ← idText_eq, ← idText_eq, List.append_cancel_left htag]
  have hfailure : x.failure = y.failure := Subtype.ext (UInt32.toNat_inj.mp hid)
  cases x
  cases y
  cases hparent
  cases hchild
  cases hfailure
  rfl

/-- The archive of the image in `img_dir`, without `select_ids`. -/
def archive (env : Env) (x : CrashImage) (r : TempName) (pid : ℕ) : Except Stop (Option Str) := do
  let img ← x.image env r pid
  let files ← x.siteFiles [] img
  return files.map SiteFiles.archive

theorem archive_eq (env : Env) (x : CrashImage) (r : TempName) (pid : ℕ) :
    x.archive env r pid = .ok (some x.site.metadata.crashCmprSite) := by
  obtain ⟨img, h⟩ := handled env x r pid
  obtain ⟨use, hfiles, huse⟩ := h.files []
  rw [archive, h.image]
  show (x.siteFiles [] img >>= fun files => Except.ok (files.map SiteFiles.archive)) = _
  rw [hfiles, huse rfl]
  rfl

/-- The writer of a failure image and the readers agree on its name, and no
two images share an archive. -/
theorem names_agree (env : Env) (x : CrashImage) (r : TempName) (pid : ℕ) :
    (∃ img, x.Handled env r pid img ∧
      Collectible x.site x.site.metadata.crashSite x.site.siteFiles) ∧
    ∀ env' y r' pid', x.archive env r pid = y.archive env' r' pid' ↔ x = y := by
  obtain ⟨img, himg⟩ := handled env x r pid
  refine ⟨⟨img, himg, TcName.collectible rfl⟩, fun env' y r' pid' => ⟨fun h => ?_, fun h => ?_⟩⟩
  · rw [archive_eq, archive_eq, TcName.crashCmprSite_eq rfl, TcName.crashCmprSite_eq rfl] at h
    have hclean : x.site.clean = y.site.clean :=
      List.append_cancel_right (Option.some.inj (Except.ok.inj h))
    exact site_inj (TcName.ext hclean rfl)
  · rw [archive_eq, archive_eq, h]

/-! ## All images of a testcase -/

/-- The glob finds all of them. -/
theorem glob_images {env : Env} {r : TempName} {pid : ℕ} {xs : List CrashImage} {imgs : List Str}
    {pattern : Str} (himgs : List.Forall₂ (fun x img => x.image env r pid = .ok img) xs imgs)
    (hpattern : ∀ x ∈ xs, x.pattern r pid = .ok pattern) : glob imgs pattern = imgs := by
  refine List.filter_eq_self.mpr fun img himg => ?_
  obtain ⟨x, hx, himage⟩ : ∃ x ∈ xs, x.image env r pid = .ok img := by
    clear hpattern
    induction himgs with
    | nil => cases himg
    | cons h _ ih =>
      rcases List.mem_cons.mp himg with rfl | himg
      · exact ⟨_, List.mem_cons_self, h⟩
      · obtain ⟨x, hx, himage⟩ := ih himg
        exact ⟨x, List.mem_cons_of_mem _ hx, himage⟩
  obtain ⟨img', hhandled⟩ := handled env x r pid
  obtain rfl := Except.ok.inj (himage.symm.trans hhandled.image)
  obtain ⟨pattern', hpattern', hfound⟩ := hhandled.found
  obtain rfl := Except.ok.inj ((hpattern x hx).symm.trans hpattern')
  exact (List.mem_filter.mp ((hfound imgs).mpr himg)).2

/-- A stage makes the crash sites of the images it finds. -/
theorem mapM_siteFiles {env : Env} {r : TempName} {pid : ℕ} {xs : List CrashImage} {imgs : List Str}
    (himgs : List.Forall₂ (fun x img => x.image env r pid = .ok img) xs imgs) :
    List.Forall₂ (fun x img => x.siteFiles [] img = .ok (some x.site.siteFiles)) xs imgs := by
  refine himgs.imp fun x img himg => ?_
  obtain ⟨img', hhandled⟩ := handled env x r pid
  obtain rfl := Except.ok.inj (himg.symm.trans hhandled.image)
  obtain ⟨use, hfiles, huse⟩ := hhandled.files []
  rw [hfiles, huse rfl]
  rfl

theorem compressNewCrashSites_images {env : Env} {r : TempName} {xs : List CrashImage}
    {imgs : List Str} {child : {ds : Str // IsDigits ds}}
    (himgs : List.Forall₂ (fun x img => x.image env r 0 = .ok img) xs imgs)
    (hxs : ∀ x ∈ xs, x.parent = none ∧ x.child = child) :
    Stage1.compressNewCrashSites imgs (Stage1.tmpImg r) ("id=".toList ++ child.1 ++ ".testcase".toList) =
      .ok (xs.map fun x => x.site.siteFiles) := by
  have hpattern : ∀ x ∈ xs, x.pattern r 0 = .ok (Stage1.crashImgsPattern (Stage1.tmpImg r)
      ("id=".toList ++ child.1 ++ ".testcase".toList)) := by
    intro x hx
    obtain ⟨hparent, rfl⟩ := hxs x hx
    simp only [pattern, tcName, hparent]
    rfl
  have hfiles := (List.forall₂_and_left _ _).mpr ⟨hxs, mapM_siteFiles himgs⟩
  rw [Stage1.compressNewCrashSites, glob_images himgs hpattern, Fold.mapM_eq_ok,
    List.forall₂_map_right_iff]
  refine .flip (hfiles.imp fun x img hx => ?_)
  obtain ⟨⟨hparent, -⟩, h⟩ := hx
  simp only [siteFiles, hparent] at h
  cases hs : Stage1.siteFiles img with
  | error e => rw [hs] at h; cases h
  | ok files => rw [hs] at h; cases h; exact hs

theorem processNewCrashSites_images {env : Env} {r : TempName} {pid : ℕ} {xs : List CrashImage}
    {imgs : List Str} {child : {ds : Str // IsDigits ds}} {p : {c : Str // IsClean c}} {parentImg : Str}
    (himgs : List.Forall₂ (fun x img => x.image env r pid = .ok img) xs imgs)
    (hxs : ∀ x ∈ xs, x.parent = some p ∧ x.child = child)
    (hparent : Stage2.parentImgUniq r (p.1 ++ ".testcase".toList) pid = .ok parentImg) :
    Stage2.processNewCrashSites [] imgs parentImg ("id=".toList ++ child.1 ++ ".testcase".toList) =
      .ok (xs.map fun x => x.site.siteFiles) := by
  have hpattern : ∀ x ∈ xs, x.pattern r pid = .ok (Stage2.crashImgsPattern parentImg
      ("id=".toList ++ child.1 ++ ".testcase".toList)) := by
    intro x hx
    obtain ⟨hparent', rfl⟩ := hxs x hx
    simp only [pattern, tcName, hparent', hparent]
    rfl
  have hsites : imgs.mapM (Stage2.siteFiles []) = .ok (xs.map fun x => some x.site.siteFiles) := by
    have hfiles := (List.forall₂_and_left _ _).mpr ⟨hxs, mapM_siteFiles himgs⟩
    rw [Fold.mapM_eq_ok, List.forall₂_map_right_iff]
    refine .flip (hfiles.imp fun x img hx => ?_)
    obtain ⟨⟨hparent, -⟩, h⟩ := hx
    simp only [siteFiles, hparent] at h
    exact h
  rw [Stage2.processNewCrashSites, glob_images himgs hpattern, hsites]
  have hmap : (xs.map fun x => some x.site.siteFiles).reduceOption = xs.map fun x => x.site.siteFiles :=
    List.filterMap_map.trans (congrFun List.filterMap_eq_map' xs)
  exact congrArg Except.ok hmap

/-! ## Back to the testcase -/

/-- The name of the testcase that dumped the image. -/
def testcase (x : CrashImage) : Str :=
  match x.parent with
  | none => "id=".toList ++ x.child.1
  | some p => p.1 ++ ',' :: ("id=".toList ++ x.child.1)

/-- The collected crash site's name leads back to the testcase. -/
def LeadsBack (env : Env) (x : CrashImage) (r : TempName) (pid : ℕ) : Prop :=
  ∃ name, x.archive env r pid = .ok (some name) ∧
    getTestcaseParent name = x.testcase ++ ".crash_site.tar.gz".toList ∧
    getLineage name = getLineage (x.testcase ++ ".testcase".toList)

theorem getTestcaseParent_archive (x : CrashImage) :
    getTestcaseParent x.site.metadata.crashCmprSite = x.stem ++ ".crash_site.tar.gz".toList := by
  rw [TcName.crashCmprSite_eq rfl]
  exact getTestcaseParent_crashCmprSite (isClean_stem x) (.inr rfl) x.isDigits_idText

/-- The `,` before the child's id has become a `.`. -/
theorem LeadsBack.parent {env : Env} {x : CrashImage} {r : TempName} {pid : ℕ}
    (h : x.LeadsBack env r pid) : x.parent = none := by
  obtain ⟨name, hname, hparent, -⟩ := h
  obtain rfl := Option.some.inj (Except.ok.inj ((archive_eq env x r pid).symm.trans hname))
  rw [getTestcaseParent_archive] at hparent
  have hstem : x.stem = x.testcase := List.append_cancel_right hparent
  cases hx : x.parent with
  | none => rfl
  | some p =>
    simp only [stem, testcase, hx] at hstem
    have := (List.cons.inj (List.append_cancel_left hstem)).1
    exact absurd this (by decide)

/-- Only a crash site of stage 1 leads back to its testcase. -/
theorem leadsBack_iff (env : Env) (x : CrashImage) (r : TempName) (pid : ℕ) :
    x.LeadsBack env r pid ↔ x.parent = none := by
  refine ⟨LeadsBack.parent, fun hx => ?_⟩
  have hstem : x.stem = x.testcase := by simp only [stem, testcase, hx]
  refine ⟨_, archive_eq env x r pid, by rw [getTestcaseParent_archive, hstem], ?_⟩
  have htc : IsClean x.testcase := hstem ▸ isClean_stem x
  have hsite : getLineage x.site.metadata.crashCmprSite = lineage x.site.clean := by
    refine getLineage_eq rfl (basename_of_notMem ?_) (getMetadataFiles_crashCmprSite x.site rfl)
    rw [TcName.crashCmprSite_eq rfl, List.mem_append, not_or]
    exact ⟨x.site.isClean.notMem (by decide), by decide⟩
  have hroot : getLineage (x.testcase ++ ".testcase".toList) = lineage x.testcase := by
    refine getLineage_eq (t := ⟨x.testcase, htc, false⟩) rfl (basename_of_notMem ?_) ?_
    · rw [List.mem_append, not_or]
      exact ⟨htc.notMem (by decide), by decide⟩
    · have h := getMetadataFiles_testcase ⟨x.testcase, htc, false⟩
      simpa [TcName.testcase, TcName.nl] using h
  rw [hsite, hroot, ← hstem]
  exact lineage_dot x.isDigits_idText x.stem

/-- A failure image of the second testcase found on `id=000002`. -/
def childImage : CrashImage where
  parent := some ⟨"id=000002".toList, .root (by decide : IsDigits "000002".toList)⟩
  child := ⟨"000003".toList, by decide⟩
  failure := ⟨11, by decide⟩

/-- An environment without any of the variables. -/
def plainEnv : Env where
  enablePmPath := false
  unfocussedMode := false
  fiMode := none
  failureList := false
  writable := false
  fiImgSuffix := none
  genAllCs := false
  imgCreatFinj := false
  saves _ := true

def plainTemp : TempName where
  chars := List.replicate 8 'a'
  length := rfl
  mem c hc := by
    rw [List.eq_of_mem_replicate hc]
    decide

theorem childImage_lost : ¬ childImage.LeadsBack plainEnv plainTemp 7 :=
  fun h => absurd h.parent (by decide)

end CrashImage

end PMFuzz.Names
