import PMFuzz.Framework.Normpath
import PMFuzz.Names.CrashSites
import PMFuzz.Names.ImgPath
import PMFuzz.Pipeline.Parents

/-!
# Starting the target for failure injection

`tc_gen_crash_sites` of both stages, up to the call of `exec_shell` in
`run_failure_inj` that starts the target. The second stage passes its
`verbose` where `run_failure_inj` takes `create`, so with verbose output the
target gets the environment that is meant for the creation of an image
(`tcGenCrashSites_eq`). The two executions agree if the two environments do
(`sameStart_iff`).

What verbose output prints is left out.
-/

namespace PMFuzz.FailureInj

open Names Str Glob Pipeline Stage2

/-- The variables of an environment. -/
abbrev Environment := Finmap fun _ : Str => Str

/-- What failure injection reads of the configuration. -/
structure Config where
  /-- `target.env` -/
  env : Environment
  /-- `pmfuzz.failure_injection.img_gen_mode.create_env` -/
  createEnv : Environment
  /-- `pmfuzz.failure_injection.img_gen_mode.dont_create_env` -/
  dontCreateEnv : Environment
  /-- `tgtcmd` -/
  tgtcmd : List Str
  /-- `pmfuzz.img_loc` -/
  imgLoc : Str

/-- What `exec_shell` gets, and the image that the command names. -/
structure Start where
  cmd : List Str
  env : Environment
  stdin : Bytes
  img : Option Bytes
  deriving DecidableEq

/-! ## `failureinjection.py` -/

/-- `get_failure_inj_env`. -/
def getFailureInjEnv (cfg : Config) (create : Bool) : Environment :=
  if create then cfg.createEnv ∪ cfg.env else cfg.dontCreateEnv ∪ cfg.env

/-- `gen_failure_inj_cmd`. -/
def genFailureInjCmd (cfg : Config) (tgtcmd : List Str) (imgpath : Str) (create : Bool) :
    Environment × List Str :=
  (getFailureInjEnv cfg create, (setImgPath tgtcmd imgpath cfg.imgLoc).2)

/-- `run_failure_inj`, with the files at `imgpath` and `testcase_f`. -/
def runFailureInj (cfg : Config) (imgpath : Str) (img : Option Bytes) (testcaseF : Str)
    (testcase : Option Bytes) (cleanName : Str) (create : Bool) : Except Stop Start :=
  if !create && img.isNone then
    .error (.abort ("Image path ".toList ++ imgpath ++ " does not exist".toList))
  else
    let (env, cmd) := genFailureInjCmd cfg cfg.tgtcmd imgpath create
    let env := Finmap.insert "FI_IMG_SUFFIX".toList (fiImgSuffix cleanName) env
    match testcase with
    | none => .error (.fileNotFound testcaseF)
    | some stdin => .ok ⟨cmd, env, stdin, img⟩

/-! ## The stages -/

/-- `tc_gen_crash_sites` of the first stage, with the file that `gen_img`
leaves at `tmp_img`. -/
def tcGenCrashSitesStage1 (cfg : Config) (tmpImg : Str) (img : Option Bytes) (rawTcname : Str)
    (testcase : Option Bytes) : Except Stop Start := do
  let cleanName ← cleanTcName (basename rawTcname)
  runFailureInj cfg tmpImg img rawTcname testcase cleanName false

/-- What the second stage finds. -/
structure Files where
  /-- `dedup_dir_gbl`, and its files. -/
  dedupDirGbl : Str
  gbl : Dir
  /-- What `mkdtemp` returns. -/
  pmDir : Str
  pid : ℕ
  /-- The files in an archive. -/
  extract : Bytes → Dir
  /-- The queue files, by their paths. -/
  queue : Str → Option Bytes

/-- `parent_name`. -/
def parentName (rawTcname : Str) : Except Stop Str :=
  let tcComponents := split (normpath rawTcname) '/'
  match tcComponents.reverse[3]? with
  | none => .error .indexError
  | some c => .ok (c ++ ".testcase".toList)

/-- `parent_img_name`. -/
def parentImgName (parentName parentCmprImg : Str) : Except Stop Str := do
  let m ← getMetadataFiles parentName
  return if endsWith parentCmprImg "pm_pool.tar.gz".toList then m.pmPool
    else if endsWith parentCmprImg "crash_site.tar.gz".toList then m.crashSite else []

/-- `tc_gen_crash_sites` of the second stage. -/
def tcGenCrashSites (cfg : Config) (fs : Files) (verbose : Bool) (rawTcname : Str) :
    Except Stop Start := do
  let cleanName ← cleanTcName (basename rawTcname)
  let parentName ← parentName rawTcname
  let parentCmprImg ← getParentImg parentName fs.dedupDirGbl fs.gbl .exists true
  let parentImgName ← parentImgName parentName parentCmprImg
  let parentImgUniq := join fs.pmDir (← Names.Stage2.parentImgNameUniq parentName fs.pid)
  -- `decompress` into the new directory, and `copypreserve`
  let archive := fs.gbl.lookup (parentCmprImg.drop (fs.dedupDirGbl.length + 1))
  match archive.bind fun archive => (fs.extract archive).lookup parentImgName with
  | none => .error (.fileNotFound (join fs.pmDir parentImgName))
  | some img =>
    -- the sixth argument, which `run_failure_inj` takes as `create`
    runFailureInj cfg parentImgUniq (some img) rawTcname (fs.queue rawTcname) cleanName verbose

/-! ## Two executions -/

/-- What the image of a job is called. -/
def imgExt : Kind → Str
  | .tc => ".pm_pool".toList
  | .cs => ".crash_site".toList

/-- A file in the queue of a job, whose image is in `@dedup`. -/
structure Entry (fs : Files) where
  job : Str
  isClean : IsClean job
  kind : Kind
  archive : Bytes
  mem_gbl : fs.gbl.lookup (job ++ archiveExt kind) = some archive
  notMem_gbl : job ++ archiveExt kind.other ∉ fs.gbl
  img : Bytes
  /-- The archive is that of the job's image. -/
  mem_archive : (fs.extract archive).lookup (job ++ imgExt kind) = some img
  /-- `afl_dir` -/
  aflDir : Str
  case : QueueCase
  slash : '/' ∉ case.rest
  testcase : Bytes
  mem_queue : fs.queue (aflDir ++ '/' :: (job ++ "/master_fuzzer/queue/".toList ++ case.name)) =
    some testcase

/-- The variable that the names of failure images are made with. -/
def suffixVar : Str := "FI_IMG_SUFFIX".toList

namespace Entry

variable {fs : Files} (e : Entry fs)

/-- The path of the file. -/
def rawTcname : Str := e.aflDir ++ '/' :: (e.job ++ "/master_fuzzer/queue/".toList ++ e.case.name)

/-- The image that the target runs on. -/
def imgPath : Str :=
  join fs.pmDir (e.job ++ ("<pid=".toList ++ Nat.toDigits 10 fs.pid ++ ">".toList) ++ ".crash_site".toList)

/-- The value of `FI_IMG_SUFFIX`. -/
def suffix : Str := "id=".toList ++ e.case.id

end Entry

/-- Verbose or not, the second stage starts the target with one command, and
with the environment without a new image. -/
def SameStart (cfg : Config) (fs : Files) (e : Entry fs) : Prop :=
  ∃ cmd, ∀ verbose, ∃ s, tcGenCrashSites cfg fs verbose e.rawTcname = .ok s ∧ s.cmd = cmd ∧
    s.env = Finmap.insert suffixVar e.suffix (cfg.dontCreateEnv ∪ cfg.env)

/-- The two modes differ in no variable but the one that is set for the
failure images. -/
def ModesAgree (cfg : Config) : Prop :=
  ∀ v, v ≠ suffixVar → (cfg.createEnv ∪ cfg.env).lookup v = (cfg.dontCreateEnv ∪ cfg.env).lookup v

variable {cfg : Config} {fs : Files} {e : Entry fs}

/-! ## The names -/

namespace Entry

theorem isName_job : IsName e.job := by
  obtain ⟨s, hs⟩ := e.isClean.head
  exact isName_of_head (c := 'i') (by rw [hs]; rfl) (by decide) (e.isClean.notMem (by decide))

theorem slash_notMem_name : '/' ∉ e.case.name := by
  rw [QueueCase.name, List.mem_append, List.mem_append]
  rintro ((hmem | hmem) | hmem)
  · exact absurd hmem (by decide)
  · exact absurd (e.case.digits.digit '/' hmem) (by decide)
  · exact e.slash hmem

theorem isName_name : IsName e.case.name :=
  isName_of_head (c := 'i') rfl (by decide) e.slash_notMem_name

theorem rawTcname_eq : e.rawTcname = e.aflDir ++ '/' :: ['/'].intercalate
    [e.job, "master_fuzzer".toList, "queue".toList, e.case.name] := by
  simp [rawTcname, List.intercalate_cons_cons]

theorem basename_rawTcname : basename e.rawTcname = e.case.name := by
  have hassoc : e.rawTcname =
      (e.aflDir ++ '/' :: (e.job ++ "/master_fuzzer/queue".toList)) ++ '/' :: e.case.name := by
    simp [rawTcname]
  rw [hassoc, basename_join e.slash_notMem_name]

/-- The fourth component from the end is the job's directory. -/
theorem parentName_rawTcname : parentName e.rawTcname = .ok (e.job ++ ".testcase".toList) := by
  have hnames : ∀ n ∈ [e.job, "master_fuzzer".toList, "queue".toList, e.case.name], IsName n := by
    intro n hn
    simp only [List.mem_cons, List.not_mem_nil, or_false] at hn
    rcases hn with rfl | rfl | rfl | rfl
    · exact e.isName_job
    · exact isName_of_head (c := 'm') rfl (by decide) (by decide)
    · exact isName_of_head (c := 'q') rfl (by decide) (by decide)
    · exact e.isName_name
  obtain ⟨pre, hsplit⟩ := split_normpath hnames (List.cons_ne_nil _ _) e.aflDir
  unfold parentName
  rw [e.rawTcname_eq, hsplit]
  simp only [List.reverse_append]
  rfl

theorem parentImgName_job : parentImgName (e.job ++ ".testcase".toList)
    (fs.dedupDirGbl ++ '/' :: (e.job ++ archiveExt e.kind)) = .ok (e.job ++ imgExt e.kind) := by
  have hbare : (TcName.mk e.job e.isClean false).bare = e.job := TcName.bare_eq rfl
  have hpool : (TcName.mk e.job e.isClean false).metadata.pmPool = e.job ++ ".pm_pool".toList := by
    rw [TcName.metadata, hbare]
  have hsite : (TcName.mk e.job e.isClean false).metadata.crashSite = e.job ++ ".crash_site".toList := by
    rw [TcName.metadata, hbare]
  have hends : ∀ ext, ext <:+ fs.dedupDirGbl ++ '/' :: (e.job ++ '.' :: ext) := fun ext =>
    ⟨fs.dedupDirGbl ++ '/' :: (e.job ++ ['.']), by simp⟩
  unfold parentImgName
  rw [getMetadataFiles_clean e.isClean]
  simp only [bind, Except.bind, pure, Except.pure, hpool, hsite]
  cases e.kind with
  | tc =>
    have hpath : endsWith (fs.dedupDirGbl ++ '/' :: (e.job ++ archiveExt .tc)) "pm_pool.tar.gz".toList = true :=
      List.isSuffixOf_iff_suffix.mpr (hends _)
    rw [if_pos hpath]
    rfl
  | cs =>
    have hpath : endsWith (fs.dedupDirGbl ++ '/' :: (e.job ++ archiveExt .cs)) "crash_site.tar.gz".toList =
        true := List.isSuffixOf_iff_suffix.mpr (hends _)
    have hno : ¬ endsWith (fs.dedupDirGbl ++ '/' :: (e.job ++ archiveExt .cs)) "pm_pool.tar.gz".toList =
        true := fun h => by
      have := List.suffix_of_suffix_length_le (List.isSuffixOf_iff_suffix.mp h) (hends "crash_site.tar.gz".toList)
        (by decide)
      exact absurd this (by decide)
    rw [if_neg hno, if_pos hpath]
    rfl

theorem fiImgSuffix_name : fiImgSuffix e.case.root.testcase = e.suffix := by
  have htc : e.case.root.testcase = "id=".toList ++ e.case.id ++ ".testcase".toList := by
    simp [QueueCase.root, TcName.root, TcName.testcase, TcName.nl]
  rw [fiImgSuffix, htc]
  exact replace_testcase_clean (.root e.case.digits)

theorem parentImgNameUniq_job : Names.Stage2.parentImgNameUniq (e.job ++ ".testcase".toList) fs.pid =
    .ok (e.job ++ ("<pid=".toList ++ Nat.toDigits 10 fs.pid ++ ">".toList) ++ ".crash_site".toList) := by
  have hbare : (TcName.mk e.job e.isClean false).metadata.clean = e.job := TcName.bare_eq rfl
  rw [Names.Stage2.parentImgNameUniq, getMetadataFiles_clean e.isClean]
  simp only [bind, Except.bind, pure, Except.pure, hbare]

end Entry

/-! ## The executions -/

theorem runFailureInj_some (cfg : Config) (imgpath testcaseF cleanName : Str) (img testcase : Bytes)
    (create : Bool) : runFailureInj cfg imgpath (some img) testcaseF (some testcase) cleanName create = .ok {
      cmd := (setImgPath cfg.tgtcmd imgpath cfg.imgLoc).2
      env := Finmap.insert suffixVar (fiImgSuffix cleanName) (getFailureInjEnv cfg create)
      stdin := testcase
      img := some img } := by
  unfold runFailureInj
  rw [if_neg (by simp)]
  rfl

/-- The stage's verbosity selects the environment. -/
theorem tcGenCrashSites_eq (cfg : Config) (e : Entry fs) (verbose : Bool) :
    tcGenCrashSites cfg fs verbose e.rawTcname = .ok {
      cmd := (setImgPath cfg.tgtcmd e.imgPath cfg.imgLoc).2
      env := Finmap.insert suffixVar e.suffix (getFailureInjEnv cfg verbose)
      stdin := e.testcase
      img := some e.img } := by
  have hdrop : (fs.dedupDirGbl ++ '/' :: (e.job ++ archiveExt e.kind)).drop (fs.dedupDirGbl.length + 1) =
      e.job ++ archiveExt e.kind := by simp
  have hqueue : fs.queue e.rawTcname = some e.testcase := e.mem_queue
  have himg : (fs.gbl.lookup ((fs.dedupDirGbl ++ '/' :: (e.job ++ archiveExt e.kind)).drop
      (fs.dedupDirGbl.length + 1))).bind
        (fun archive => (fs.extract archive).lookup (e.job ++ imgExt e.kind)) = some e.img := by
    rw [hdrop, e.mem_gbl]
    exact e.mem_archive
  unfold tcGenCrashSites
  rw [e.basename_rawTcname, e.case.cleanTcName, e.parentName_rawTcname]
  simp only [bind, Except.bind, getParentImg_archive e.isClean (Finmap.mem_of_lookup_eq_some e.mem_gbl)
    e.notMem_gbl, e.parentImgName_job, e.parentImgNameUniq_job, himg, hqueue, runFailureInj_some,
    e.fiImgSuffix_name]
  rfl

/-- The first stage starts the target in the environment without a new
image. -/
theorem tcGenCrashSitesStage1_eq (cfg : Config) (e : Entry fs) (tmpImg : Str) (img : Bytes) :
    tcGenCrashSitesStage1 cfg tmpImg (some img) e.rawTcname (some e.testcase) = .ok {
      cmd := (setImgPath cfg.tgtcmd tmpImg cfg.imgLoc).2
      env := Finmap.insert suffixVar e.suffix (cfg.dontCreateEnv ∪ cfg.env)
      stdin := e.testcase
      img := some img } := by
  unfold tcGenCrashSitesStage1
  rw [e.basename_rawTcname, e.case.cleanTcName]
  simp only [bind, Except.bind, runFailureInj_some, e.fiImgSuffix_name]
  rfl

theorem insert_env_eq_iff (suffix : Str) : Finmap.insert suffixVar suffix (cfg.createEnv ∪ cfg.env) =
    Finmap.insert suffixVar suffix (cfg.dontCreateEnv ∪ cfg.env) ↔ ModesAgree cfg := by
  constructor
  · intro h v hv
    have := congrArg (Finmap.lookup v) h
    rwa [Finmap.lookup_insert_of_ne _ hv, Finmap.lookup_insert_of_ne _ hv] at this
  · intro h
    refine Finmap.ext_lookup fun v => ?_
    by_cases hv : v = suffixVar
    · rw [hv, Finmap.lookup_insert, Finmap.lookup_insert]
    · rw [Finmap.lookup_insert_of_ne _ hv, Finmap.lookup_insert_of_ne _ hv, h v hv]

/-- The verbose execution shows how the modes differ. -/
theorem SameStart.modesAgree (h : SameStart cfg fs e) : ModesAgree cfg := by
  obtain ⟨cmd, h⟩ := h
  obtain ⟨s, hs, -, henv⟩ := h true
  rw [tcGenCrashSites_eq, Except.ok.injEq] at hs
  rw [← hs] at henv
  exact (insert_env_eq_iff e.suffix).mp henv

/-- The second stage starts the target as the first does, whatever is
printed, if and only if the two modes agree. -/
theorem sameStart_iff (cfg : Config) (e : Entry fs) : SameStart cfg fs e ↔ ModesAgree cfg := by
  refine ⟨SameStart.modesAgree, fun h => ⟨_, fun verbose => ⟨_, tcGenCrashSites_eq cfg e verbose, rfl, ?_⟩⟩⟩
  cases verbose with
  | false => rfl
  | true => exact (insert_env_eq_iff e.suffix).mpr h

/-! ## `base.yml` -/

/-- `base.yml`, of an installation in `/pmfuzz`. -/
def baseConfig : Config where
  env := [⟨"PMEM_IS_PMEM_FORCE".toList, "1".toList⟩].toFinmap
  createEnv := [⟨"GEN_ALL_CS".toList, "1".toList⟩, ⟨"USE_FAKE_MMAP".toList, "0".toList⟩,
    ⟨"FI_MODE".toList, "IMG_GEN".toList⟩, ⟨"FAILURE_LIST".toList, "/dev/null".toList⟩,
    ⟨"PMFUZZ_DEBUG".toList, "1".toList⟩, ⟨"ENABLE_CNST_IMG".toList, "1".toList⟩,
    ⟨"LD_LIBRARY_PATH".toList, "/usr/local/lib64".toList⟩].toFinmap
  dontCreateEnv := [⟨"USE_FAKE_MMAP".toList, "1".toList⟩, ⟨"FI_MODE".toList, "IMG_GEN".toList⟩,
    ⟨"FAILURE_LIST".toList, "/dev/null".toList⟩, ⟨"PMFUZZ_DEBUG".toList, "1".toList⟩,
    ⟨"ENABLE_CNST_IMG".toList, "1".toList⟩, ⟨"LD_LIBRARY_PATH".toList, "/usr/local/lib64".toList⟩].toFinmap
  tgtcmd := ["/pmfuzz/vendor/pmdk/src/examples/libpmemobj/map/mapcli".toList, "hashmap_tx".toList,
    "/mnt/tmpfs/__POOL_IMAGE__".toList, "0".toList]
  imgLoc := imgLoc

/-- The path of a case that AFL found on the first testcase. -/
def casePath : Str := "out/stage=2,iter=1/.afl-results/id=1/master_fuzzer/queue/id:3,src:000000".toList

/-- Archives that hold a pool. -/
def caseFiles : Files where
  dedupDirGbl := "out/@dedup".toList
  gbl := [⟨"id=1.pm_pool.tar.gz".toList, [1]⟩].toFinmap
  pmDir := "/mnt/pmem0/pmfuzz-cs-gen-st2-abcdefgh".toList
  pid := 7
  extract b := [⟨"id=1.pm_pool".toList, b⟩].toFinmap
  queue p := if p = casePath then some [3] else none

def caseEntry : Entry caseFiles where
  job := "id=1".toList
  isClean := isClean_first
  kind := .tc
  archive := [1]
  mem_gbl := by decide
  notMem_gbl := by decide
  img := [1]
  mem_archive := by decide
  aflDir := "out/stage=2,iter=1/.afl-results".toList
  case := caseOf "3".toList isDigits_3 [0, 3] [3] none
  slash := by decide
  testcase := [3]
  mem_queue := by decide

/-- With it, `GEN_ALL_CS` is set in one execution only. -/
theorem not_sameStart_base : ¬ SameStart baseConfig caseFiles caseEntry := fun h => by
  have := h.modesAgree "GEN_ALL_CS".toList (by decide)
  exact absurd this (by decide)

end PMFuzz.FailureInj
