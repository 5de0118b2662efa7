import PMFuzz.Libpmfuzz.FailureInjection
import PMFuzz.Names.Lineage

/-!
# Crash sites

The names of failure images. The library names an image after the image the
testcase ran on, `FI_IMG_SUFFIX` and the failure id. Both stages find the
images with a glob; stage 2 takes the tag of its process off the name,
stage 1 the random prefix, and the image is archived in `img_dir` under what
is left. `CrashImage` says which failure of which testcase an image is of.

`img_loc` is that of `base.yml`. What `tempfile` adds to a name is eight
characters of its own alphabet.
-/

namespace PMFuzz.Names

open Str Glob
open Libpmfuzz (Env imageName stripTcName strstr format06d asInt)

/-- `pmfuzz.img_loc`. -/
def imgLoc : Str := "/mnt/pmem0".toList

/-- The characters `tempfile` chooses from. -/
def tempChars : Str := "abcdefghijklmnopqrstuvwxyz0123456789_".toList

/-- What `tempfile` adds to a name. -/
structure TempName where
  chars : Str
  length : chars.length = 8
  mem : ∀ c ∈ chars, c ∈ tempChars

/-- The length of `<pid=\d+>` at the head of `s`. -/
def pidTag (s : Str) : Option ℕ :=
  if "<pid=".toList.isPrefixOf s then
    let ds := (s.drop 5).takeWhile isDigit
    if ds ≠ [] ∧ (s.drop (5 + ds.length)).head? = some '>' then some (ds.length + 6) else none
  else none

/-- `re.sub(r"<pid=\d+>", "", s)`, with `skip` characters of a match left to
drop. -/
def removePidFrom : ℕ → Str → Str
  | _, [] => []
  | skip + 1, _ :: s => removePidFrom skip s
  | 0, c :: s =>
    match pidTag (c :: s) with
    | some n => removePidFrom (n - 1) s
    | none => c :: removePidFrom 0 s

/-- `re.sub(r"<pid=\d+>", "", s)`. -/
def removePid (s : Str) : Str := removePidFrom 0 s

/-- `FI_IMG_SUFFIX`. -/
def fiImgSuffix (cleanName : Str) : Str := replace cleanName ".testcase".toList []

/-- The files of a crash site in `img_dir`: the archive, and its hash. -/
structure SiteFiles where
  archive : Str
  hash : Str

/-- `is_hash_f`. -/
def isHashF (filename : Str) : Bool := endsWith filename ".hash".toList

/-- `hash_k` of `add_cs_hash_lcl`. -/
def hashKey (fname : Str) : Str := replace fname ".hash".toList []

/-- The key that `deduplicate_crash_sites_lcl` looks up. -/
def lookupKey (fileName : Str) : Str := replace fileName ".tar.gz".toList []

namespace Stage1

/-- `tmp_img` of `TempEmptyImage`. -/
def tmpImg (r : TempName) : Str :=
  imgLoc ++ '/' :: ("pmfuzz-tmp-img-".toList ++ r.chars ++ ".pm_pool".toList)

/-- `crash_imgs_pattern`. -/
def crashImgsPattern (parentImg cleanName : Str) : Str :=
  replace parentImg ".pm_pool".toList [] ++ '.' :: replace cleanName ".testcase".toList [] ++
    ".*".toList

/-- `crash_img_name`: without what comes before the first dot. -/
def crashImgName (img : Str) : Except Stop Str :=
  let name := basename (removePid img)
  match name.idxOf? '.' with
  | none => .error .valueError
  | some i => .ok (name.drop (i + 1))

/-- `compress_new_crash_site` and `get_hash`, the names. -/
def siteFiles (img : Str) : Except Stop SiteFiles := do
  let name ← crashImgName img
  return ⟨name ++ ".tar.gz".toList, name ++ ".hash".toList⟩

/-- `compress_new_crash_sites`. -/
def compressNewCrashSites (fs : List Str) (parentImg cleanName : Str) : Except Stop (List SiteFiles) :=
  (glob fs (crashImgsPattern parentImg cleanName)).mapM siteFiles

end Stage1

namespace Stage2

/-- `parent_img_name_uniq`. -/
def parentImgNameUniq (parentName : Str) (pid : ℕ) : Except Stop Str := do
  let m ← getMetadataFiles parentName
  return m.clean ++ ("<pid=".toList ++ Nat.toDigits 10 pid ++ ">".toList) ++ ".crash_site".toList

/-- `parent_img_uniq`. -/
def parentImgUniq (r : TempName) (parentName : Str) (pid : ℕ) : Except Stop Str := do
  let name ← parentImgNameUniq parentName pid
  return imgLoc ++ '/' :: ("pmfuzz-cs-gen-st2-".toList ++ r.chars) ++ '/' :: name

/-- `crash_imgs_pattern`. -/
def crashImgsPattern (parentImg cleanName : Str) : Str :=
  replace parentImg ".crash_site".toList [] ++ '.' :: replace cleanName ".testcase".toList [] ++
    ".*".toList

/-- The loop body of `process_new_crash_sites`, the names. -/
def siteFiles (selectIds : List ℤ) (img : Str) : Except Stop (Option SiteFiles) := do
  let cleanImg := removePid img
  if ← shouldUseCs selectIds cleanImg then
    return some ⟨basename (cleanImg ++ ".tar.gz".toList), basename cleanImg ++ ".hash".toList⟩
  else return none

/-- `process_new_crash_sites`. -/
def processNewCrashSites (selectIds : List ℤ) (fs : List Str) (parentImg cleanName : Str) :
    Except Stop (List SiteFiles) := do
  let sites ← (glob fs (crashImgsPattern parentImg cleanName)).mapM (siteFiles selectIds)
  return sites.reduceOption

end Stage2

/-- A failure image. -/
structure CrashImage where
  /-- The name of the image that the testcase ran on, in stage 2. -/
  parent : Option {c : Str // IsClean c}
  /-- The id of the testcase. -/
  child : {ds : Str // IsDigits ds}
  /-- The failure id, one that `%06d` prints without a sign. -/
  failure : {id : UInt32 // id.toNat < 2 ^ 31}

namespace CrashImage

/-- `clean_name`. -/
def cleanName (x : CrashImage) : Str := "id=".toList ++ x.child.1 ++ ".testcase".toList

/-- The image the testcase runs on. -/
def tcName (x : CrashImage) (r : TempName) (pid : ℕ) : Except Stop Str :=
  match x.parent with
  | none => .ok (Stage1.tmpImg r)
  | some p => Stage2.parentImgUniq r (p.1 ++ ".testcase".toList) pid

/-- The image's name. -/
def image (env : Env) (x : CrashImage) (r : TempName) (pid : ℕ) : Except Stop Str := do
  let tcName ← x.tcName r pid
  return imageName { env with fiImgSuffix := some (fiImgSuffix x.cleanName) } tcName x.failure.1

/-- The pattern of the stage's glob. -/
def pattern (x : CrashImage) (r : TempName) (pid : ℕ) : Except Stop Str := do
  let tcName ← x.tcName r pid
  match x.parent with
  | none => return Stage1.crashImgsPattern tcName x.cleanName
  | some _ => return Stage2.crashImgsPattern tcName x.cleanName

/-- What the stage calls the image. -/
def siteName (x : CrashImage) (img : Str) : Except Stop Str :=
  match x.parent with
  | none => Stage1.crashImgName img
  | some _ => .ok (basename (removePid img))

/-- What the stage keeps of the image. -/
def siteFiles (x : CrashImage) (selectIds : List ℤ) (img : Str) : Except Stop (Option SiteFiles) :=
  match x.parent with
  | none => some <$> Stage1.siteFiles img
  | some _ => Stage2.siteFiles selectIds img

/-- The name before the failure id. -/
def stem (x : CrashImage) : Str :=
  match x.parent with
  | none => "id=".toList ++ x.child.1
  | some p => p.1 ++ '.' :: ("id=".toList ++ x.child.1)

end CrashImage

variable {a b s t c ds : Str}

/-! ## Digits -/

theorem isDigit_of_ascii {c : Char} (h : c.isDigit = true) : isDigit c = true := by
  rw [isDigit, List.any_eq_true]
  refine ⟨0x30, by decide, decide_eq_true ?_⟩
  simp only [Char.isDigit, Bool.and_eq_true, decide_eq_true_eq, UInt32.le_iff_toNat_le] at h
  have h1 : 48 ≤ c.toNat := h.1
  have h2 : c.toNat ≤ 57 := h.2
  omega

theorem isDigits_toDigits (n : ℕ) : IsDigits (Nat.toDigits 10 n) :=
  ⟨Nat.toDigits_ne_nil, fun _ hx =>
    isDigit_of_ascii (Nat.isDigit_of_mem_toDigits (by decide) (by decide) hx)⟩

theorem format06d_natCast (n : ℕ) : format06d n =
    List.replicate (6 - (Nat.toDigits 10 n).length) '0' ++ Nat.toDigits 10 n := by
  rw [format06d, if_neg (by omega), Int.natAbs_natCast]

theorem isDigits_format06d (n : ℕ) : IsDigits (format06d n) := by
  have hds := isDigits_toDigits n
  rw [format06d_natCast]
  refine ⟨List.append_ne_nil_of_right_ne_nil _ hds.ne_nil, fun x hx => ?_⟩
  rcases List.mem_append.mp hx with hx | hx
  · rw [(List.mem_replicate.mp hx).2]
    decide
  · exact hds.digit x hx

/-- The padded id is read back as the id. -/
theorem ofDigitChars_format06d (n : ℕ) : Nat.ofDigitChars 10 (format06d n) 0 = n := by
  rw [format06d_natCast, Nat.ofDigitChars_append, Nat.ofDigitChars_replicate_zero, Nat.mul_zero,
    Nat.ofDigitChars_ten_toDigits]

/-! ## The library's name -/

theorem strstr_append {pat : Str} (h : NoStart pat a s) :
    strstr pat (a ++ s) = (strstr pat s).map (· + a.length) := by
  induction a with
  | nil => simp
  | cons x a ih =>
    obtain ⟨hx, ha⟩ := noStart_cons.mp h
    rw [List.cons_append, strstr, if_neg (by rw [List.isPrefixOf_iff_prefix]; exact hx), ih ha,
      Option.map_map]
    rfl

/-- The extension is cut off. -/
theorem stripTcName_append (hpool : NoStart ".pm_pool".toList a s)
    (hsite : NoStart ".crash_site".toList a s) (hs : s = ".pm_pool".toList ∨ s = ".crash_site".toList) :
    stripTcName (a ++ s) = a := by
  have hlen : a.length ≤ (a ++ s).length := by rw [List.length_append]; omega
  rw [stripTcName, strstr_append hpool, strstr_append hsite]
  rcases hs with rfl | rfl
  · rw [show strstr ".pm_pool".toList ".pm_pool".toList = some 0 from rfl,
      show strstr ".crash_site".toList ".pm_pool".toList = none from rfl]
    simp
  · rw [show strstr ".pm_pool".toList ".crash_site".toList = none from rfl,
      show strstr ".crash_site".toList ".crash_site".toList = some 0 from rfl]
    simp

/-! ## The tag of the process -/

theorem removePidFrom_append (h : '<' ∉ a) : removePidFrom 0 (a ++ s) = a ++ removePidFrom 0 s := by
  induction a with
  | nil => rfl
  | cons x a ih =>
    obtain ⟨hx, ha⟩ := not_or.mp (List.mem_cons.not.mp h)
    have hno : pidTag (x :: (a ++ s)) = none := by
      rw [pidTag, if_neg]
      rw [List.isPrefixOf_iff_prefix]
      exact fun hpre => hx (List.cons_prefix_cons.mp hpre).1
    rw [List.cons_append, removePidFrom, hno]
    show x :: removePidFrom 0 (a ++ s) = _
    rw [ih ha, List.cons_append]

theorem removePidFrom_skip (a s : Str) : removePidFrom a.length (a ++ s) = removePidFrom 0 s := by
  induction a with
  | nil => rfl
  | cons x a ih => exact ih

theorem removePid_of_notMem (h : '<' ∉ a) : removePid a = a := by
  have := removePidFrom_append (s := []) h
  rw [List.append_nil] at this
  rw [removePid, this]
  exact List.append_nil a

/-- A tag is taken off. -/
theorem removePid_tag (ha : '<' ∉ a) (hb : '<' ∉ b) (h : IsDigits ds) :
    removePid (a ++ ("<pid=".toList ++ ds ++ ">".toList) ++ b) = a ++ b := by
  have htake : (ds ++ '>' :: b).takeWhile isDigit = ds := by
    rw [List.takeWhile_append_of_pos h.digit, List.takeWhile_cons_of_neg (by decide), List.append_nil]
  have htag : pidTag ('<' :: ("pid=".toList ++ ds ++ '>' :: b)) = some (ds.length + 6) := by
    have hdrop : ('<' :: ("pid=".toList ++ ds ++ '>' :: b)).drop 5 = ds ++ '>' :: b := rfl
    have hrest : ('<' :: ("pid=".toList ++ ds ++ '>' :: b)).drop (5 + ds.length) = '>' :: b := by
      rw [← List.drop_drop, hdrop, List.drop_left]
    have hpre : "<pid=".toList.isPrefixOf ('<' :: ("pid=".toList ++ ds ++ '>' :: b)) = true := rfl
    rw [pidTag, if_pos hpre]
    simp only [hdrop, htake, hrest]
    exact if_pos ⟨h.ne_nil, rfl⟩
  have hskip := removePidFrom_skip ("pid=".toList ++ ds ++ ">".toList) b
  have hlen : ("pid=".toList ++ ds ++ ">".toList).length = ds.length + 5 := by
    simp only [List.length_append]
    show 4 + ds.length + 1 = _
    omega
  rw [hlen] at hskip
  have hassoc : a ++ ("<pid=".toList ++ ds ++ ">".toList) ++ b =
      a ++ '<' :: ("pid=".toList ++ ds ++ '>' :: b) := by simp
  have hstep : removePidFrom 0 ('<' :: ("pid=".toList ++ ds ++ '>' :: b)) = b := by
    rw [removePidFrom, htag]
    show removePidFrom (ds.length + 5) ("pid=".toList ++ ds ++ '>' :: b) = b
    rw [show "pid=".toList ++ ds ++ '>' :: b = "pid=".toList ++ ds ++ ">".toList ++ b by simp, hskip]
    exact removePid_of_notMem hb
  rw [hassoc, removePid, removePidFrom_append ha, hstep]

end PMFuzz.Names
