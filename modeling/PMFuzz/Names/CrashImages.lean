import PMFuzz.Names.CrashSites

/-!
# One failure image

`CrashImage.Handled` says what becomes of an image: the library names it, the
glob of the stage finds it, and the stage keeps the files of the crash site. It
holds in both stages (`CrashImage.handled`).
-/

namespace PMFuzz.Names

open Str Glob
open Libpmfuzz (Env imageName stripTcName strstr format06d asInt)

variable {a b s t c ds : Str}

/-! ## From the library to the database -/

/-- The name a crash site is collected under. -/
theorem isClean_stem (x : CrashImage) : IsClean x.stem := by
  obtain ⟨parent, c, id⟩ := x
  cases parent with
  | none => exact .root c.2
  | some p => exact .child '.' p.2 (.inr rfl) c.2

namespace CrashImage

/-- The text of the failure id. -/
def idText (x : CrashImage) : Str := format06d (asInt x.failure.1)

theorem idText_eq (x : CrashImage) : x.idText = format06d (x.failure.1.toNat : ℕ) := by
  rw [idText, Libpmfuzz.asInt_eq x.failure.2]

theorem isDigits_idText (x : CrashImage) : IsDigits x.idText := by
  rw [idText_eq]
  exact isDigits_format06d _

/-- The crash site. -/
def site (x : CrashImage) : TcName :=
  ⟨x.stem ++ '.' :: ("id=".toList ++ x.idText), .child '.' (isClean_stem x) (.inr rfl) x.isDigits_idText,
    false⟩

theorem fiImgSuffix_eq (x : CrashImage) : fiImgSuffix x.cleanName = "id=".toList ++ x.child.1 :=
  replace_testcase_clean (.root x.child.2)

/-- The name from the image's stem, and the pattern that finds it. -/
theorem imageName_eq (env : Env) (x : CrashImage) {stem ext : Str}
    (hpool : NoStart ".pm_pool".toList stem ext) (hsite : NoStart ".crash_site".toList stem ext)
    (hext : ext = ".pm_pool".toList ∨ ext = ".crash_site".toList) :
    imageName { env with fiImgSuffix := some (fiImgSuffix x.cleanName) } (stem ++ ext) x.failure.1 =
      stem ++ '.' :: ("id=".toList ++ x.child.1 ++ '.' :: ("id=".toList ++ x.idText ++
        ".crash_site".toList)) := by
  rw [imageName, stripTcName_append hpool hsite hext, Option.getD_some, fiImgSuffix_eq, idText]
  simp

/-- What follows the stem of the image. -/
def rest (x : CrashImage) : Str :=
  "id=".toList ++ x.child.1 ++ '.' :: ("id=".toList ++ x.idText ++ ".crash_site".toList)

theorem rest_notMem (x : CrashImage) {z : Char} (hz : ¬ cleanChar z) (hsite : z ∉ ".crash_site".toList) :
    z ∉ x.rest := by
  have hclean : IsClean ("id=".toList ++ x.child.1 ++ '.' :: ("id=".toList ++ x.idText)) :=
    .child '.' (.root x.child.2) (.inr rfl) x.isDigits_idText
  have hrest : x.rest = "id=".toList ++ x.child.1 ++ '.' :: ("id=".toList ++ x.idText) ++
      ".crash_site".toList := by simp [rest]
  rw [hrest, List.mem_append, not_or]
  exact ⟨hclean.notMem hz, hsite⟩

/-- The stage's glob finds the image. -/
theorem mem_glob_image (x : CrashImage) {d b : Str} (hb : ∀ z ∈ b, z ≠ '*' ∧ z ≠ '?' ∧ z ≠ '/')
    (fs : List Str) :
    d ++ '/' :: (b ++ '.' :: x.rest) ∈
        glob fs (d ++ '/' :: b ++ '.' :: ("id=".toList ++ x.child.1) ++ ".*".toList) ↔
      d ++ '/' :: (b ++ '.' :: x.rest) ∈ fs := by
  have hp : ∀ z ∈ b ++ '.' :: ("id=".toList ++ x.child.1) ++ ".".toList,
      z ≠ '*' ∧ z ≠ '?' ∧ z ≠ '/' := by
    have hclean : ∀ z, cleanChar z → z ≠ '*' ∧ z ≠ '?' ∧ z ≠ '/' := by
      intro z hz
      refine ⟨?_, ?_, ?_⟩ <;> intro h <;> rw [h] at hz <;> exact absurd hz (by decide)
    intro z hz
    simp only [List.mem_append, List.mem_cons] at hz
    rcases hz with (hz | rfl | hz) | hz
    · exact hb z hz
    · exact hclean _ (by decide)
    · exact hclean z ((IsClean.root x.child.2).chars z (List.mem_append.mpr hz))
    · obtain rfl : z = '.' := List.mem_singleton.mp hz
      exact hclean _ (by decide)
  have hslash : '/' ∉ "id=".toList ++ x.idText ++ ".crash_site".toList := by
    have := x.rest_notMem (z := '/') (by decide) (by decide)
    simp only [rest, List.mem_append, List.mem_cons, not_or] at this ⊢
    exact ⟨this.2.2.1, this.2.2.2⟩
  have h := @mem_glob_star d _ _ fs hp hslash (by simp)
  simpa [rest] using h

end CrashImage

/-- A crash site's files. -/
def TcName.siteFiles (t : TcName) : SiteFiles :=
  ⟨t.metadata.crashCmprSite, t.metadata.crashSite ++ ".hash".toList⟩

/-- The functions that read `img_dir` take `name` and `files` for those of
the crash site `t`, and find its hash. -/
structure Collectible (t : TcName) (name : Str) (files : SiteFiles) : Prop where
  isCrashSite : isCrashSite name = true
  isCmprCrashSite : isCmprCrashSite files.archive = true
  metadata : getMetadataFiles files.archive = .ok t.metadata
  isHashF : isHashF files.hash = true
  key : hashKey files.hash = lookupKey files.archive

theorem TcName.crashSite_eq {t : TcName} (h : t.newline = false) :
    t.metadata.crashSite = t.clean ++ ".crash_site".toList := by
  rw [metadata, bare_eq h]

theorem TcName.slash_notMem_crashSite {t : TcName} (h : t.newline = false) :
    '/' ∉ t.metadata.crashSite := by
  rw [TcName.crashSite_eq h, List.mem_append, not_or]
  exact ⟨t.isClean.notMem (by decide), by decide⟩

theorem TcName.crashCmprSite_eq {t : TcName} (h : t.newline = false) :
    t.metadata.crashCmprSite = t.clean ++ ".crash_site.tar.gz".toList := by
  rw [metadata, bare_eq h]

theorem TcName.siteFiles_eq (t : TcName) : t.siteFiles =
    ⟨t.metadata.crashSite ++ ".tar.gz".toList, t.metadata.crashSite ++ ".hash".toList⟩ := by
  simp [siteFiles, metadata]

theorem TcName.collectible {t : TcName} (h : t.newline = false) :
    Collectible t t.metadata.crashSite t.siteFiles where
  isCrashSite := isCrashSite_iff.mpr ⟨t, by simp [TcName.crashSite_eq h, TcName.nl, h]⟩
  isCmprCrashSite := isCmprCrashSite_iff.mpr ⟨t, '.', '.', by decide, by decide, by
    simp [TcName.siteFiles, TcName.crashCmprSite_eq h, TcName.nl, h]⟩
  metadata := getMetadataFiles_crashCmprSite t h
  isHashF := List.isSuffixOf_iff_suffix.mpr (List.suffix_append _ _)
  key := by
    have hhash : replace ".crash_site.hash".toList ".hash".toList [] = ".crash_site".toList := by decide
    have htar : replace ".crash_site.tar.gz".toList ".tar.gz".toList [] = ".crash_site".toList := by
      decide
    have hname : (TcName.siteFiles t).hash = t.clean ++ ".crash_site.hash".toList := by
      simp [TcName.siteFiles, TcName.crashSite_eq h]
    rw [hashKey, lookupKey, hname, TcName.siteFiles, TcName.crashCmprSite_eq h,
      replace_clean t.isClean (by decide) rfl, replace_clean t.isClean (by decide) rfl, hhash, htar]

/-- `should_use_cs` decides on a crash site. -/
theorem shouldUseCs_crashSite {t : TcName} (h : t.newline = false) {d : Str} (hd : '.' ∉ d)
    (selectIds : List ℤ) : ∃ use, shouldUseCs selectIds (d ++ '/' :: t.metadata.crashSite) = .ok use ∧
      (selectIds = [] → use = true) := by
  by_cases hids : selectIds = []
  · exact ⟨true, if_pos hids, fun _ => rfl⟩
  · obtain ⟨ids, hlineage⟩ := exists_lineage t.isClean
    have hids' := getLineage_eq h (basename_join (d := d) (TcName.slash_notMem_crashSite h))
      (getMetadataFiles_crashSite t h)
    have hno : ¬ "pm_pool.tar.gz".toList <:+: d ++ '/' :: t.metadata.crashSite := by
      intro hin
      have htar : ".tar.gz".toList <:+: (d ++ ['/']) ++ (t.clean ++ ".crash_site".toList) := by
        rw [TcName.crashSite_eq h] at hin
        rw [List.append_cons] at hin
        exact List.IsInfix.trans ⟨"pm_pool".toList, [], rfl⟩ hin
      have hdir : NoStart ".tar.gz".toList (d ++ ['/']) (t.clean ++ ".crash_site".toList) :=
        noStart_of_head (p := '.') (by simpa using hd)
      have hname := (t.infix_iff (by decide) rfl).mp (hdir.infix_iff.mp htar)
      exact absurd hname (by decide)
    refine ⟨ids.all fun id => (id : ℤ) ∈ selectIds, ?_, fun hnil => absurd hnil hids⟩
    rw [shouldUseCs, replace_of_not_infix hno (by decide), shouldUseTc, if_neg hids, hids', hlineage]
    rfl

/-- What `tempfile` adds holds none of the characters names are cut at. -/
theorem TempName.notMem (r : TempName) {z : Char} (hz : z ∉ tempChars) : z ∉ r.chars :=
  fun h => hz (r.mem z h)

namespace CrashImage

/-- The library names the image `img`, the stage's glob finds it and the
stage makes the crash site `x.site` of it. -/
structure Handled (env : Env) (x : CrashImage) (r : TempName) (pid : ℕ) (img : Str) : Prop where
  image : x.image env r pid = .ok img
  found : ∃ pattern, x.pattern r pid = .ok pattern ∧ ∀ fs, img ∈ glob fs pattern ↔ img ∈ fs
  name : x.siteName img = .ok x.site.metadata.crashSite
  files : ∀ selectIds, ∃ use, x.siteFiles selectIds img =
    .ok (if use then some x.site.siteFiles else none) ∧ (selectIds = [] → use = true)

theorem site_crashSite (x : CrashImage) : x.site.metadata.crashSite =
    x.stem ++ '.' :: ("id=".toList ++ x.idText ++ ".crash_site".toList) := by
  rw [TcName.crashSite_eq rfl]
  simp [site]

theorem handled_stage1 (env : Env) (x : CrashImage) (hx : x.parent = none) (r : TempName) (pid : ℕ) :
    ∃ img, x.Handled env r pid img := by
  set b := "pmfuzz-tmp-img-".toList ++ r.chars with hb
  have hchars : ∀ z, z ∉ tempChars → z ∉ "pmfuzz-tmp-img-".toList → z ∉ b := fun z hz hl => by
    rw [hb, List.mem_append, not_or]
    exact ⟨hl, r.notMem hz⟩
  have hdir : ∀ z, z ∉ imgLoc → z ≠ '/' → z ∉ b → z ∉ imgLoc ++ '/' :: b := fun z h1 h2 h3 => by
    rw [List.mem_append, List.mem_cons, not_or, not_or]
    exact ⟨h1, h2, h3⟩
  have hdot : '.' ∉ imgLoc ++ '/' :: b :=
    hdir '.' (by decide) (by decide) (hchars '.' (by decide) (by decide))
  have htmp : Stage1.tmpImg r = imgLoc ++ '/' :: b ++ ".pm_pool".toList := by
    simp [Stage1.tmpImg, hb]
  have hname : Stage1.crashImgName (imgLoc ++ '/' :: (b ++ '.' :: x.rest)) = .ok x.rest := by
    have hslash : '/' ∉ b ++ '.' :: x.rest := by
      rw [List.mem_append, List.mem_cons, not_or, not_or]
      exact ⟨hchars '/' (by decide) (by decide), by decide, x.rest_notMem (by decide) (by decide)⟩
    have hno : '<' ∉ imgLoc ++ '/' :: (b ++ '.' :: x.rest) := by
      simp only [List.mem_append, List.mem_cons, not_or]
      exact ⟨by decide, by decide, hchars '<' (by decide) (by decide), by decide,
        x.rest_notMem (by decide) (by decide)⟩
    have hidx : (b ++ '.' :: x.rest).idxOf? '.' = some b.length := by
      have hb : b.idxOf? '.' = none :=
        List.idxOf?_eq_none_iff.mpr (hchars '.' (by decide) (by decide))
      rw [List.idxOf?] at hb ⊢
      rw [List.findIdx?_append, hb, List.findIdx?_cons]
      simp
    simp only [Stage1.crashImgName, removePid_of_notMem hno, basename_join hslash, hidx]
    rw [List.append_cons, List.drop_left' (by simp)]
  have hrest : x.rest = x.site.metadata.crashSite := by
    rw [site_crashSite]
    simp [stem, hx, rest]
  refine ⟨imgLoc ++ '/' :: (b ++ '.' :: x.rest), ?_, ?_, ?_, fun selectIds => ⟨true, ?_, fun _ => rfl⟩⟩
  · rw [image, tcName, hx]
    show Except.ok _ = _
    rw [htmp, imageName_eq env x (noStart_of_head hdot) (noStart_of_head hdot) (.inl rfl)]
    simp [rest]
  · refine ⟨imgLoc ++ '/' :: b ++ '.' :: ("id=".toList ++ x.child.1) ++ ".*".toList, ?_,
      x.mem_glob_image fun z hz => ?_⟩
    · have hstem : replace (imgLoc ++ '/' :: b ++ ".pm_pool".toList) ".pm_pool".toList [] =
          imgLoc ++ '/' :: b ++ replace ".pm_pool".toList ".pm_pool".toList [] :=
        (noStart_of_head hdot).replace (by decide)
      rw [pattern, tcName, hx]
      show Except.ok _ = _
      rw [htmp, Stage1.crashImgsPattern, hstem, cleanName, replace_testcase_clean (.root x.child.2)]
      simp [replace, replaceFrom]
    · refine ⟨?_, ?_, ?_⟩ <;> rintro rfl <;> exact hchars _ (by decide) (by decide) hz
  · rw [siteName, hx, ← hrest]
    exact hname
  · rw [siteFiles, hx]
    show some <$> Stage1.siteFiles _ = _
    rw [Stage1.siteFiles, hname, hrest, TcName.siteFiles_eq]
    rfl

/-- The directory that the second stage makes for an image. -/
def genDir (r : TempName) : Str := imgLoc ++ '/' :: ("pmfuzz-cs-gen-st2-".toList ++ r.chars)

/-- The tag of a process. -/
def tagOf (pid : ℕ) : Str := "<pid=".toList ++ Nat.toDigits 10 pid ++ ">".toList

-- by name: Lean takes seconds to make the equation of `tagOf`
theorem tagOf_eq (pid : ℕ) : tagOf pid = "<pid=".toList ++ (Nat.toDigits 10 pid ++ ">".toList) :=
  List.append_assoc _ _ _

theorem notMem_genDir {r : TempName} {z : Char} (hloc : z ∉ imgLoc) (hslash : z ≠ '/')
    (hstem : z ∉ "pmfuzz-cs-gen-st2-".toList) (htemp : z ∉ tempChars) : z ∉ genDir r := by
  simp only [genDir, List.mem_append, List.mem_cons, not_or]
  exact ⟨hloc, hslash, hstem, r.notMem htemp⟩

theorem dot_notMem_genDir (r : TempName) : '.' ∉ genDir r :=
  notMem_genDir (by decide) (by decide) (by decide) (by decide)

theorem notMem_tagOf {pid : ℕ} {z : Char} (htext : z ∉ "<pid=>".toList) (hdigit : isDigit z = false) :
    z ∉ tagOf pid := by
  simp only [tagOf_eq, List.mem_append, not_or]
  refine ⟨fun h => htext ?_, fun h => ?_, fun h => htext ?_⟩
  · exact List.mem_append_left ['>'] h
  · rw [(isDigits_toDigits pid).digit z h] at hdigit
    cases hdigit
  · exact List.mem_append_right "<pid=".toList h

/-- No extension starts in the stem of the parent's copy. -/
theorem noStart_parentImg {c : Str} (hc : IsClean c) (r : TempName) (pid : ℕ) {q : Char} (pat : Str)
    (hq : ¬ cleanChar q) (hne : q ≠ '<') :
    NoStart ('.' :: q :: pat) (genDir r ++ '/' :: (c ++ tagOf pid)) ".crash_site".toList := by
  rw [List.append_cons]
  refine noStart_append.mpr ⟨noStart_of_head ?_, noStart_append.mpr
    ⟨noStart_of_second (hc.notMem hq) ?_, noStart_of_head ?_⟩⟩
  · rw [List.mem_append, not_or]
    exact ⟨dot_notMem_genDir r, by decide⟩
  · rw [tagOf_eq, List.append_assoc]
    exact fun h => hne (Option.some.inj h).symm
  · exact notMem_tagOf (by decide) (by decide)

theorem parentImgUniq_eq {c : Str} (hc : IsClean c) (r : TempName) (pid : ℕ) :
    Stage2.parentImgUniq r (c ++ ".testcase".toList) pid =
      .ok (genDir r ++ '/' :: (c ++ tagOf pid) ++ ".crash_site".toList) := by
  rw [Stage2.parentImgUniq, Stage2.parentImgNameUniq, getMetadataFiles_clean hc]
  show Except.ok (genDir r ++ '/' :: (c ++ [] ++ tagOf pid ++ ".crash_site".toList)) = _
  simp

/-- Without the tag, the name is the crash site's. -/
theorem removePid_image (x : CrashImage) {c : Str} (hc : IsClean c) (r : TempName) (pid : ℕ) :
    removePid (genDir r ++ '/' :: (c ++ tagOf pid ++ '.' :: x.rest)) =
      genDir r ++ '/' :: (c ++ '.' :: x.rest) := by
  have hleft : '<' ∉ genDir r ++ '/' :: c := by
    rw [List.mem_append, List.mem_cons, not_or, not_or]
    exact ⟨notMem_genDir (by decide) (by decide) (by decide) (by decide), by decide,
      hc.notMem (by decide)⟩
  have hright : '<' ∉ '.' :: x.rest := by
    rw [List.mem_cons, not_or]
    exact ⟨by decide, x.rest_notMem (by decide) (by decide)⟩
  simpa [tagOf_eq] using removePid_tag hleft hright (isDigits_toDigits pid)

theorem handled_stage2 (env : Env) (x : CrashImage) {p : {c : Str // IsClean c}}
    (hx : x.parent = some p) (r : TempName) (pid : ℕ) : ∃ img, x.Handled env r pid img := by
  have hparent := parentImgUniq_eq p.2 r pid
  have hsite : x.site.metadata.crashSite = p.1 ++ '.' :: x.rest := by
    rw [site_crashSite]
    simp [stem, hx, rest]
  have hclean := x.removePid_image p.2 r pid
  rw [← hsite] at hclean
  have hslash : '/' ∉ x.site.metadata.crashSite := TcName.slash_notMem_crashSite rfl
  refine ⟨genDir r ++ '/' :: (p.1 ++ tagOf pid ++ '.' :: x.rest), ?_, ?_, ?_, fun selectIds => ?_⟩
  · rw [image, tcName, hx]
    simp only [hparent]
    show Except.ok _ = _
    rw [imageName_eq env x (noStart_parentImg p.2 r pid _ (by decide) (by decide))
      (noStart_parentImg p.2 r pid _ (by decide) (by decide)) (.inr rfl)]
    simp [rest]
  · refine ⟨genDir r ++ '/' :: (p.1 ++ tagOf pid) ++ '.' :: ("id=".toList ++ x.child.1) ++ ".*".toList,
      ?_, x.mem_glob_image fun z hz => ?_⟩
    · have hstem : replace (genDir r ++ '/' :: (p.1 ++ tagOf pid) ++ ".crash_site".toList)
          ".crash_site".toList [] = genDir r ++ '/' :: (p.1 ++ tagOf pid) ++
            replace ".crash_site".toList ".crash_site".toList [] :=
        (noStart_parentImg p.2 r pid _ (by decide) (by decide)).replace (by decide)
      rw [pattern, tcName, hx]
      simp only [hparent]
      show Except.ok _ = _
      rw [Stage2.crashImgsPattern, hstem, cleanName, replace_testcase_clean (.root x.child.2)]
      simp [replace, replaceFrom]
    · have hno : ∀ z, ¬ cleanChar z → z ∉ "<pid=>".toList → isDigit z = false → z ∉ p.1 ++ tagOf pid :=
        fun z h1 h2 h3 => by
          rw [List.mem_append, not_or]
          exact ⟨p.2.notMem h1, notMem_tagOf h2 h3⟩
      refine ⟨?_, ?_, ?_⟩ <;> rintro rfl <;>
        exact hno _ (by decide) (by decide) (by decide) hz
  · rw [siteName, hx]
    simp only [hclean, basename_join hslash]
  · obtain ⟨use, huse, hnil⟩ := shouldUseCs_crashSite (t := x.site) rfl (dot_notMem_genDir r) selectIds
    refine ⟨use, ?_, hnil⟩
    have harchive : basename (genDir r ++ '/' :: x.site.metadata.crashSite ++ ".tar.gz".toList) =
        x.site.metadata.crashSite ++ ".tar.gz".toList := by
      rw [List.append_assoc, List.cons_append, basename_join]
      rw [List.mem_append, not_or]
      exact ⟨hslash, by decide⟩
    rw [siteFiles, hx]
    simp only [Stage2.siteFiles, hclean, huse, basename_join hslash, harchive, ← TcName.siteFiles_eq]
    cases use <;> rfl

theorem handled (env : Env) (x : CrashImage) (r : TempName) (pid : ℕ) :
    ∃ img, x.Handled env r pid img := by
  cases hx : x.parent with
  | none => exact handled_stage1 env x hx r pid
  | some p => exact handled_stage2 env x hx r pid

end CrashImage

end PMFuzz.Names
