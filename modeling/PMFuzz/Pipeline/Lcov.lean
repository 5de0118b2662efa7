import PMFuzz.Names.Kinds
import PMFuzz.Names.Lineage
import PMFuzz.Pipeline.Archives
import PMFuzz.Pipeline.FailureInj

/-!
# Coverage runs

`Lcov.run` over the directories that `run_lcov` passes. `execute_tcs` runs the
target on each testcase with the pool of its parent; a testcase whose parent is
a crash site has none (`executeTc_iff`). What is in both directories is run
twice (`replaysAll_iff`).

`pmfuzz-cov` installs no handler of `SIGUSR1`: `abort` prints and returns.
-/

namespace PMFuzz.Pipeline

open Names Str Glob Dedup Stage2 Run
open FailureInj (Environment)

/-! ## The code -/

/-- How a coverage run ends early. -/
inductive LcovStop
  | stop (s : Stop)
  /-- `CalledProcessError`, of `tar`. -/
  | calledProcess

/-- A run of the target. -/
structure LcovRun where
  testcase : Str
  stdin : Bytes
  cmd : List Str
  env : Environment
  /-- The path of the image. -/
  image : Str
  /-- What was decompressed to it. -/
  decompressed : Option Bytes

/-- What a coverage run reads of the configuration. -/
structure LcovCfg where
  /-- `target.env` -/
  env : Environment
  /-- `target.persist_disable_env` -/
  persistDisableEnv : Str
  /-- `tgtcmd` -/
  tgtcmd : List Str
  /-- `pmfuzz.img_loc` -/
  imgLoc : Str
  /-- `lcov.empty_img`, and the file that it names. -/
  emptyImg : Str
  emptyFile : Option Bytes

/-- `get_env`, with `persist=False`. -/
def getEnv (cfg : LcovCfg) : Except Stop Environment :=
  match split cfg.persistDisableEnv '=' with
  | key :: value :: _ => .ok (Finmap.insert key value cfg.env)
  | _ => .error .indexError

/-- `run_tgt`, of a testcase of the directory. -/
def runTgt (cfg : LcovCfg) (dir : Dir) (tc img : Str) (decompressed : Option Bytes) : Except Stop LcovRun := do
  let env ← getEnv cfg
  let cmd := (setImgPath cfg.tgtcmd img cfg.imgLoc).2
  let stdin ← Dedup.read dir tc
  return ⟨tc, stdin, cmd, env, img, decompressed⟩

/-- `get_metadata_files`, where `abort` returns. -/
def metadataFiles (testcase : Str) : Metadata :=
  (Metadata.ofName (testcaseOf (basename testcase))).inDir (dirname testcase)

/-- `decompress`. -/
def decompress (tgt : Target) (file : Option Bytes) : Except LcovStop Bytes :=
  match file.bind tgt.decompress with
  | some image => .ok image
  | none => .error .calledProcess

/-- The image for a testcase, and the file that it names. -/
def lcovImg (p : Paths) (cfg : LcovCfg) (gbl : Dir) (tc : Str) : Str × Option Bytes :=
  let ancestorCnt := (split (metadataFiles tc).clean ',').length - 1
  if 0 < ancestorCnt then
    let parent := getTestcaseParent tc
    let img := join (join (dirname p.dedupDirGbl) "@dedup".toList) (metadataFiles parent).pmCmprPool
    -- a path in `@dedup`, whether or not it is listed
    (img, gbl.lookup (basename img))
  else (cfg.emptyImg, cfg.emptyFile)

/-- The path of an image that is decompressed. -/
def decompressedPath (img : Str) : Str := join "/mnt/pmem0/".toList (basename (metadataFiles img).pmPool)

/-- One round of the loop of `execute_tcs`. -/
def executeTc (tgt : Target) (p : Paths) (cfg : LcovCfg) (gbl : Dir) (tc : Dir × Str) : Except LcovStop LcovRun :=
  let (img, file) := lcovImg p cfg gbl tc.2
  if endsWith img ".tar.gz".toList then do
    let image ← decompress tgt file
    (runTgt cfg tc.1 tc.2 (decompressedPath img) (some image)).mapError .stop
  else (runTgt cfg tc.1 tc.2 img none).mapError .stop

/-- The testcases of a directory, as listed. -/
def testcasesOf (os : Os Place) (tcDir : Place × Dir) : List (Dir × Str) :=
  ((os.listdir tcDir.1 tcDir.2).filter (isTc · false)).map (tcDir.2, ·)

/-- `execute_tcs`. -/
def executeTcs (tgt : Target) (p : Paths) (cfg : LcovCfg) (os : Os Place) (gbl : Dir) (tcDir : Place × Dir) :
    Except LcovStop (List LcovRun) :=
  (testcasesOf os tcDir).mapM (executeTc tgt p cfg gbl)

/-- The `tc_dirs` of `run_lcov`. -/
def tcDirs (stage : ℕ) (s : State) : List (Place × Dir) :=
  if stage = 2 then [(.gbl, s.gbl), (.tc, s.tcDir)] else [(.gbl, s.gbl)]

/-- `run`. -/
def lcovRun (tgt : Target) (p : Paths) (cfg : LcovCfg) (os : Os Place) (stage : ℕ) (s : State) :
    Except LcovStop (List LcovRun) :=
  ((tcDirs stage s).mapM (executeTcs tgt p cfg os s.gbl)).map List.flatten

/-! ## What it is for -/

/-- Where `tar` leaves an image: its archive has `.tar.gz` after its name. -/
def unpacked (img : Str) : Str :=
  if endsWith img ".tar.gz".toList then "/mnt/pmem0/".toList ++ (basename img).rdrop ".tar.gz".toList.length else img

/-- The target runs on an image, which is decompressed if it is an archive. -/
structure RunsOn (tgt : Target) (cfg : LcovCfg) (img : Str) (file : Option Bytes) (r : LcovRun) : Prop where
  image : r.image = unpacked img
  decompressed : if endsWith img ".tar.gz".toList then ∃ image, file.bind tgt.decompress = some image ∧
    r.decompressed = some image else r.decompressed = none
  marker : HasMarker cfg.tgtcmd
  cmd : r.cmd = runAflCmd cfg.tgtcmd r.image

/-- The run of a testcase: on the empty image, or on the image of its parent in
`@dedup`, of either kind. -/
structure Replayed (tgt : Target) (cfg : LcovCfg) (gbl dir : Dir) (tc : Str) (r : LcovRun) : Prop where
  testcase : r.testcase = tc
  stdin : dir.lookup tc = some r.stdin
  image : (getTestcaseParent tc = [] ∧ RunsOn tgt cfg cfg.emptyImg cfg.emptyFile r) ∨
    ∃ parent k, getTestcaseParent tc = parent ++ ".testcase".toList ∧ parent ++ archiveExt k ∈ gbl ∧
      RunsOn tgt cfg (parent ++ archiveExt k) (gbl.lookup (parent ++ archiveExt k)) r

/-- Each testcase of the directories has exactly one run. -/
def ReplaysAll (tgt : Target) (p : Paths) (cfg : LcovCfg) (os : Os Place) (stage : ℕ) (s : State) : Prop :=
  ∃ runs, lcovRun tgt p cfg os stage s = .ok runs ∧
    ∀ tcDir ∈ tcDirs stage s, ∀ t : TcName, t.testcase ∈ tcDir.2 →
      (runs.map LcovRun.testcase).count t.testcase = 1 ∧
        ∀ r ∈ runs, r.testcase = t.testcase → Replayed tgt cfg s.gbl tcDir.2 t.testcase r

/-- The testcases of the directories. -/
def lcovTestcases (os : Os Place) (stage : ℕ) (s : State) : List (Dir × Str) :=
  (tcDirs stage s).flatMap (testcasesOf os)

/-- The command of the target gets the path of the image for the marker. -/
def Named (cfg : LcovCfg) (img : Str) : Prop :=
  HasMarker cfg.tgtcmd ∧ (setImgPath cfg.tgtcmd img cfg.imgLoc).2 = runAflCmd cfg.tgtcmd img

/-- If the image is an archive, it is one of the file that is looked for. -/
def Unpacks (tgt : Target) (img : Str) (file : Option Bytes) : Prop :=
  endsWith img ".tar.gz".toList = true →
    (∃ image, file.bind tgt.decompress = some image) ∧ decompressedPath img = unpacked img

/-- No parent is a crash site. -/
structure Replayable (tgt : Target) (cfg : LcovCfg) (gbl : Dir) (tc : Str) : Prop where
  env : '=' ∈ cfg.persistDisableEnv
  root : getTestcaseParent tc = [] → Unpacks tgt cfg.emptyImg cfg.emptyFile ∧ Named cfg (unpacked cfg.emptyImg)
  parent : ∀ parent, getTestcaseParent tc = parent ++ ".testcase".toList →
    parent ++ ".crash_site.tar.gz".toList ∉ gbl ∧ Named cfg ("/mnt/pmem0/".toList ++ (parent ++ ".pm_pool".toList))

variable {tgt : Target} {p : Paths} {cfg : LcovCfg} {os : Os Place} {stage : ℕ} {s : State} {gbl dir : Dir}
  {tc : Dir × Str} {t : TcName} {k : Kind} {job ds img : Str} {file : Option Bytes} {r : LcovRun} {ops : List Op}

/-! ## One testcase -/

theorem getEnv_isOk : (∃ env, getEnv cfg = .ok env) ↔ '=' ∈ cfg.persistDisableEnv := by
  constructor
  · rintro ⟨env, h⟩
    by_contra hno
    rw [getEnv, split, List.splitOn_eq_singleton hno] at h
    cases h
  · intro h
    obtain ⟨key, value, hsplit⟩ := List.append_of_mem h
    obtain ⟨a, as, hkey⟩ := List.exists_cons_of_ne_nil (List.splitOn_ne_nil '=' key)
    obtain ⟨b, bs, hvalue⟩ := List.exists_cons_of_ne_nil (List.splitOn_ne_nil '=' value)
    rw [getEnv, split, hsplit, List.splitOn_append_cons_self, hkey, hvalue]
    cases as <;> exact ⟨_, rfl⟩

/-- What `run_tgt` starts. -/
theorem runTgt_eq_ok {decompressed : Option Bytes} {name : Str} : runTgt cfg dir name img decompressed = .ok r ↔
    ∃ env stdin, getEnv cfg = .ok env ∧ dir.lookup name = some stdin ∧
      r = ⟨name, stdin, (setImgPath cfg.tgtcmd img cfg.imgLoc).2, env, img, decompressed⟩ := by
  have hread : ∀ stdin, Dedup.read dir name = .ok stdin ↔ dir.lookup name = some stdin := by
    intro stdin
    unfold Dedup.read
    cases dir.lookup name <;> simp
  unfold runTgt
  simp only [Fold.bind_eq_ok, hread]
  constructor
  · rintro ⟨env, henv, stdin, hstdin, hr⟩
    cases hr
    exact ⟨env, stdin, henv, hstdin, rfl⟩
  · rintro ⟨env, stdin, henv, hstdin, rfl⟩
    exact ⟨env, henv, stdin, hstdin, rfl⟩

theorem mapError_eq_ok {ε ε' α : Type} {f : ε → ε'} {x : Except ε α} {a : α} :
    x.mapError f = .ok a ↔ x = .ok a := by
  cases x <;> simp [Except.mapError]

theorem decompress_eq_ok {image : Bytes} :
    decompress tgt file = .ok image ↔ file.bind tgt.decompress = some image := by
  unfold decompress
  cases file.bind tgt.decompress <;> simp

/-- The run of a testcase. -/
theorem executeTc_eq_ok (himg : lcovImg p cfg gbl tc.2 = (img, file)) : executeTc tgt p cfg gbl tc = .ok r ↔
    if endsWith img ".tar.gz".toList then ∃ image, file.bind tgt.decompress = some image ∧
      runTgt cfg tc.1 tc.2 (decompressedPath img) (some image) = .ok r
    else runTgt cfg tc.1 tc.2 img none = .ok r := by
  unfold executeTc
  rw [himg]
  dsimp only
  split
  · simp only [Fold.bind_eq_ok, decompress_eq_ok, mapError_eq_ok]
  · exact mapError_eq_ok

theorem executeTc_testcase (hrun : executeTc tgt p cfg gbl tc = .ok r) :
    r.testcase = tc.2 ∧ tc.1.lookup tc.2 = some r.stdin := by
  obtain ⟨⟨img, file⟩, himg⟩ : ∃ x, lcovImg p cfg gbl tc.2 = x := ⟨_, rfl⟩
  rw [executeTc_eq_ok himg] at hrun
  split at hrun
  · obtain ⟨image, -, hrun⟩ := hrun
    obtain ⟨env, stdin, -, hstdin, rfl⟩ := runTgt_eq_ok.mp hrun
    exact ⟨rfl, hstdin⟩
  · obtain ⟨env, stdin, -, hstdin, rfl⟩ := runTgt_eq_ok.mp hrun
    exact ⟨rfl, hstdin⟩

/-- With the marker in one token, whatever the image. -/
theorem named_of_oneToken (h : OneToken cfg.tgtcmd cfg.imgLoc) (img : Str) : Named cfg img := by
  obtain ⟨pre, token, post, hcmd, htoken, -⟩ := id h
  have hmarker : HasMarker cfg.tgtcmd := ⟨token, hcmd ▸ List.mem_append_right pre List.mem_cons_self, htoken⟩
  exact ⟨hmarker, congrArg Prod.snd ((h.substituted img).1 hmarker)⟩

/-- The target runs on the image that is chosen, if this can be decompressed
and the command names it. -/
theorem executeTc_runsOn {name : Str} (hmem : name ∈ dir) (himg : lcovImg p cfg gbl name = (img, file)) :
    (∃ r, executeTc tgt p cfg gbl (dir, name) = .ok r ∧ RunsOn tgt cfg img file r) ↔
      '=' ∈ cfg.persistDisableEnv ∧ Unpacks tgt img file ∧ Named cfg (unpacked img) := by
  have hrun : ∀ r, executeTc tgt p cfg gbl (dir, name) = .ok r ↔ _ := fun r => executeTc_eq_ok himg
  simp only [hrun]
  obtain ⟨stdin, hstdin⟩ := Finmap.mem_iff.mp hmem
  rw [← getEnv_isOk]
  by_cases harchive : endsWith img ".tar.gz".toList = true
  · simp only [harchive, if_true]
    constructor
    · rintro ⟨r, ⟨image, himage, hrun⟩, hr⟩
      obtain ⟨env, _, henv, -, rfl⟩ := runTgt_eq_ok.mp hrun
      have hpath : decompressedPath img = unpacked img := hr.image
      have hcmd : (setImgPath cfg.tgtcmd (decompressedPath img) cfg.imgLoc).2 = runAflCmd cfg.tgtcmd _ := hr.cmd
      exact ⟨⟨env, henv⟩, fun _ => ⟨⟨image, himage⟩, hpath⟩, hr.marker, hpath ▸ hcmd⟩
    · rintro ⟨⟨env, henv⟩, hunpacks, hmarker, hcmd⟩
      obtain ⟨⟨image, himage⟩, hpath⟩ := hunpacks harchive
      refine ⟨_, ⟨image, himage, runTgt_eq_ok.mpr ⟨env, stdin, henv, hstdin, rfl⟩⟩, hpath, ?_, hmarker, ?_⟩
      · rw [if_pos harchive]
        exact ⟨image, himage, rfl⟩
      · show (setImgPath cfg.tgtcmd (decompressedPath img) cfg.imgLoc).2 = runAflCmd cfg.tgtcmd (decompressedPath img)
        rw [hpath, hcmd]
  · have hpath : unpacked img = img := if_neg harchive
    simp only [harchive, hpath]
    constructor
    · rintro ⟨r, hrun, hr⟩
      obtain ⟨env, _, henv, -, rfl⟩ := runTgt_eq_ok.mp hrun
      exact ⟨⟨env, henv⟩, fun h => absurd h harchive, hr.marker, hr.cmd⟩
    · rintro ⟨⟨env, henv⟩, -, hmarker, hcmd⟩
      refine ⟨_, runTgt_eq_ok.mpr ⟨env, stdin, henv, hstdin, rfl⟩, hpath.symm, ?_, hmarker, hcmd⟩
      rw [if_neg harchive]

/-! ## The image of a testcase -/

theorem join_nil (n : Str) : join [] n = n := by
  unfold join
  split
  · rfl
  · exact if_pos (.inl rfl)

/-- Where `abort` is not called. -/
theorem ofName_eq {n : Str} {m : Metadata} (h : getMetadataFiles n = .ok m) : Metadata.ofName (testcaseOf n) = m := by
  unfold getMetadataFiles metadataFilesOf at h
  dsimp only at h
  split at h
  · exact Except.ok.inj h
  · cases h

theorem metadataFiles_eq {n : Str} {m : Metadata} (hn : '/' ∉ n) (h : getMetadataFiles n = .ok m) :
    metadataFiles n = m := by
  have hdir : dirname n = [] := by
    have h := dirname_path (d := []) (by simp) hn
    rwa [join_nil] at h
  rw [metadataFiles, basename_of_notMem hn, ofName_eq h, hdir]
  simp only [Metadata.inDir, join_nil]

theorem slash_notMem_archive (hjob : IsClean job) (k : Kind) : '/' ∉ job ++ archiveExt k := by
  cases k with
  | tc => exact slash_notMem_name .pmCmprPool hjob
  | cs => exact slash_notMem_name .crashCmprSite hjob

theorem lcov_ancestorCnt (hnl : t.newline = false) :
    (split (metadataFiles t.testcase).clean ',').length - 1 = t.ancestors := by
  have hname : '/' ∉ t.testcase := by
    rw [TcName.testcase_eq hnl]
    exact slash_notMem_name .testcase t.isClean
  rw [metadataFiles_eq hname (getMetadataFiles_testcase t)]
  rfl

theorem ancestors_root (hnl : t.newline = false) (hds : IsDigits ds) (ht : t.clean = "id=".toList ++ ds) :
    t.ancestors = 0 := by
  rw [TcName.ancestors, TcName.bare_eq hnl, ht, split, List.splitOn_eq_singleton (comma_notMem_tag hds)]
  rfl

theorem ancestors_child (hnl : t.newline = false) (ht : t.clean = job ++ ',' :: ("id=".toList ++ ds)) :
    0 < t.ancestors := by
  have hjob := List.length_pos_of_ne_nil (List.splitOn_ne_nil ',' job)
  have hid := List.length_pos_of_ne_nil (List.splitOn_ne_nil ',' ("id=".toList ++ ds))
  rw [TcName.ancestors, TcName.bare_eq hnl, ht, split, List.splitOn_append_cons_self, List.length_append]
  omega

/-- A testcase of the first stage. -/
theorem lcovImg_root (hnl : t.newline = false) (hds : IsDigits ds) (ht : t.clean = "id=".toList ++ ds) :
    lcovImg p cfg gbl t.testcase = (cfg.emptyImg, cfg.emptyFile) := by
  rw [lcovImg, lcov_ancestorCnt hnl, ancestors_root hnl hds ht]
  rfl

/-- A testcase that a job left: the pool is looked for, whatever the job ran on. -/
theorem lcovImg_child (hnl : t.newline = false) (hjob : IsClean job) (hds : IsDigits ds)
    (ht : t.clean = job ++ ',' :: ("id=".toList ++ ds)) : lcovImg p cfg gbl t.testcase =
      (join (join (dirname p.dedupDirGbl) "@dedup".toList) (job ++ archiveExt .tc),
        gbl.lookup (job ++ archiveExt .tc)) := by
  have hparent : getTestcaseParent t.testcase = job ++ ".testcase".toList := by
    rw [TcName.testcase_eq hnl, ht, getTestcaseParent_child hjob (.inl rfl) hds]
  have hmeta : metadataFiles (job ++ ".testcase".toList) = (tcOf job hjob).metadata :=
    metadataFiles_eq (slash_notMem_name .testcase hjob) (getMetadataFiles_clean hjob)
  have himg : (metadataFiles (job ++ ".testcase".toList)).pmCmprPool = job ++ archiveExt .tc :=
    (congrArg Metadata.pmCmprPool hmeta).trans (FileKind.pmCmprPool.entry_metadata hjob)
  rw [lcovImg, lcov_ancestorCnt hnl]
  dsimp only
  rw [if_pos (ancestors_child hnl ht), hparent, himg, basename_path (slash_notMem_archive hjob .tc)]

theorem suffix_join (d n : Str) : n <:+ join d n := by
  unfold join
  split
  · exact List.suffix_rfl
  · split
    · exact List.suffix_append d n
    · exact (List.suffix_cons '/' n).trans (List.suffix_append d _)

theorem endsWith_path (d : Str) (k : Kind) (job : Str) :
    endsWith (join d (job ++ archiveExt k)) ".tar.gz".toList = true := by
  rw [endsWith, List.isSuffixOf_iff_suffix]
  exact (List.isSuffixOf_iff_suffix.mp (endsWith_archiveExt k job)).trans (suffix_join _ _)

theorem unpacked_path (d : Str) (hjob : IsClean job) (k : Kind) :
    unpacked (join d (job ++ archiveExt k)) = unpacked (job ++ archiveExt k) := by
  rw [unpacked, unpacked, if_pos (endsWith_path d k job), if_pos (endsWith_archiveExt k job),
    basename_path (slash_notMem_archive hjob k), basename_of_notMem (slash_notMem_archive hjob k)]

/-- The directory of an archive does not matter. -/
theorem runsOn_path (d : Str) (hjob : IsClean job) (k : Kind) :
    RunsOn tgt cfg (join d (job ++ archiveExt k)) file r ↔ RunsOn tgt cfg (job ++ archiveExt k) file r := by
  have hpath := unpacked_path d hjob k
  have hend := (endsWith_path d k job).trans (endsWith_archiveExt k job).symm
  constructor
  · exact fun h => ⟨hpath ▸ h.image, hend ▸ h.decompressed, h.marker, h.cmd⟩
  · exact fun h => ⟨hpath ▸ h.image, hend ▸ h.decompressed, h.marker, h.cmd⟩

theorem unpacked_pool (hjob : IsClean job) :
    unpacked (job ++ archiveExt .tc) = "/mnt/pmem0/".toList ++ (job ++ ".pm_pool".toList) := by
  have hsplit : job ++ archiveExt .tc = (job ++ ".pm_pool".toList) ++ ".tar.gz".toList := by simp
  rw [unpacked, if_pos (endsWith_archiveExt .tc job), basename_of_notMem (slash_notMem_archive hjob .tc), hsplit,
    List.rdrop, List.length_append, Nat.add_sub_cancel, List.take_left]

/-- The pool of a job is unpacked to where it is looked for. -/
theorem decompressedPath_pool (d : Str) (hjob : IsClean job) :
    decompressedPath (join d (job ++ archiveExt .tc)) = "/mnt/pmem0/".toList ++ (job ++ ".pm_pool".toList) := by
  have hslash : '/' ∉ job ++ ".pm_pool".toList := slash_notMem_name .pmPool hjob
  have hmeta : getMetadataFiles (job ++ archiveExt .tc) = .ok (tcOf job hjob).metadata :=
    getMetadataFiles_name .pmCmprPool hjob
  have hpool : (tcOf job hjob).metadata.pmPool = job ++ ".pm_pool".toList := FileKind.pmPool.entry_metadata hjob
  rw [decompressedPath, metadataFiles, basename_path (slash_notMem_archive hjob .tc), ofName_eq hmeta]
  show join _ (basename (join _ (tcOf job hjob).metadata.pmPool)) = _
  rw [hpool, basename_path hslash, join_of_notMem hslash, if_pos (.inr rfl)]

/-! ## Its run -/

/-- A testcase of the first stage runs on the empty image. -/
theorem executeTc_root (hmem : t.testcase ∈ dir) (hnl : t.newline = false) (hds : IsDigits ds)
    (ht : t.clean = "id=".toList ++ ds) :
    (∃ r, executeTc tgt p cfg gbl (dir, t.testcase) = .ok r ∧ Replayed tgt cfg gbl dir t.testcase r) ↔
      '=' ∈ cfg.persistDisableEnv ∧ Unpacks tgt cfg.emptyImg cfg.emptyFile ∧ Named cfg (unpacked cfg.emptyImg) := by
  have hparent : getTestcaseParent t.testcase = [] := by rw [TcName.testcase_eq hnl, ht, getTestcaseParent_root hds]
  rw [← executeTc_runsOn hmem (lcovImg_root (p := p) hnl hds ht)]
  refine exists_congr fun r => and_congr_right fun hrun => ?_
  obtain ⟨htc, hstdin⟩ := executeTc_testcase hrun
  constructor
  · intro h
    rcases h.image with ⟨-, hr⟩ | ⟨parent, k, hchild, -⟩
    · exact hr
    · exact absurd (hparent.symm.trans hchild) (by simp)
  · exact fun hr => ⟨htc, hstdin, .inl ⟨hparent, hr⟩⟩

/-- A testcase that a job on a testcase left runs on its image. -/
theorem executeTc_pool {image : Bytes} (hmem : t.testcase ∈ dir) (hnl : t.newline = false) (hjob : IsClean job)
    (hds : IsDigits ds) (ht : t.clean = job ++ ',' :: ("id=".toList ++ ds))
    (hb : gbl.lookup (job ++ archiveExt .tc) = some (tgt.compress image)) (hother : job ++ archiveExt .cs ∉ gbl) :
    (∃ r, executeTc tgt p cfg gbl (dir, t.testcase) = .ok r ∧ Replayed tgt cfg gbl dir t.testcase r) ↔
      '=' ∈ cfg.persistDisableEnv ∧ Named cfg ("/mnt/pmem0/".toList ++ (job ++ ".pm_pool".toList)) := by
  have hparent : getTestcaseParent t.testcase = job ++ ".testcase".toList := by
    rw [TcName.testcase_eq hnl, ht, getTestcaseParent_child hjob (.inl rfl) hds]
  obtain ⟨dedup, hdedup⟩ : ∃ d, join (dirname p.dedupDirGbl) "@dedup".toList = d := ⟨_, rfl⟩
  have himg : lcovImg p cfg gbl t.testcase = (join dedup (job ++ archiveExt .tc), some (tgt.compress image)) := by
    rw [lcovImg_child hnl hjob hds ht, hdedup, hb]
  have hpath : unpacked (join dedup (job ++ archiveExt .tc)) = "/mnt/pmem0/".toList ++ (job ++ ".pm_pool".toList) := by
    rw [unpacked_path dedup hjob, unpacked_pool hjob]
  have hunpacks : Unpacks tgt (join dedup (job ++ archiveExt .tc)) (some (tgt.compress image)) := fun _ =>
    ⟨⟨image, tgt.decompress_compress image⟩, (decompressedPath_pool dedup hjob).trans hpath.symm⟩
  rw [← and_iff_right (b := Named cfg _) hunpacks, ← hpath, ← executeTc_runsOn hmem himg]
  refine exists_congr fun r => and_congr_right fun hrun => ?_
  obtain ⟨htc, hstdin⟩ := executeTc_testcase hrun
  rw [runsOn_path dedup hjob]
  constructor
  · intro h
    rcases h.image with ⟨hroot, -⟩ | ⟨parent, k, hchild, hin, hr⟩
    · exact absurd (hparent.symm.trans hroot) (by simp)
    · obtain rfl := List.append_cancel_right (hparent.symm.trans hchild)
      cases k with
      | tc => exact hb ▸ hr
      | cs => exact absurd hin hother
  · exact fun hr => ⟨htc, hstdin, .inr ⟨job, .tc, hparent, Finmap.mem_of_lookup_eq_some hb, hb.symm ▸ hr⟩⟩

/-- One that a job on a crash site left has no image: `tar` fails. -/
theorem executeTc_site (hnl : t.newline = false) (hjob : IsClean job) (hds : IsDigits ds)
    (ht : t.clean = job ++ ',' :: ("id=".toList ++ ds)) (hno : job ++ archiveExt .tc ∉ gbl) :
    executeTc tgt p cfg gbl (dir, t.testcase) = .error .calledProcess := by
  have himg : lcovImg p cfg gbl t.testcase =
      (join (join (dirname p.dedupDirGbl) "@dedup".toList) (job ++ archiveExt .tc), none) := by
    rw [lcovImg_child hnl hjob hds ht, Finmap.lookup_eq_none.mpr hno]
  unfold executeTc
  rw [himg]
  dsimp only
  rw [if_pos (endsWith_path _ .tc job)]
  rfl

/-- A testcase of a run is replayed exactly if its parent is no crash site. -/
theorem executeTc_iff (hmem : t.testcase ∈ dir) (hmade : Made gbl t) (hs : StoreOk gbl)
    (harchives : Archives tgt gbl) :
    (∃ r, executeTc tgt p cfg gbl (dir, t.testcase) = .ok r ∧ Replayed tgt cfg gbl dir t.testcase r) ↔
      Replayable tgt cfg gbl t.testcase := by
  have hname := TcName.testcase_eq hmade.newline
  rcases hmade.origin with ⟨ds, hds, ht⟩ | ⟨k, job, ds, himg, hds, ht⟩
  · have hparent : getTestcaseParent t.testcase = [] := by rw [hname, ht, getTestcaseParent_root hds]
    rw [executeTc_root hmem hmade.newline hds ht]
    refine ⟨fun h => ⟨h.1, fun _ => h.2, fun parent hp => ?_⟩, fun h => ⟨h.env, h.root hparent⟩⟩
    exact absurd (hparent.symm.trans hp) (by simp)
  · have hclean := himg.isJob.isClean
    have hparent : getTestcaseParent t.testcase = job ++ ".testcase".toList := by
      rw [hname, ht, getTestcaseParent_child hclean (.inl rfl) hds]
    cases k with
    | tc =>
      obtain ⟨b, hb⟩ := Finmap.mem_iff.mp himg.mem
      obtain ⟨image, rfl⟩ := harchives _ b hb (endsWith_archiveExt .tc job)
      have hother : job ++ archiveExt .cs ∉ gbl := himg.unique hs
      rw [executeTc_pool hmem hmade.newline hclean hds ht hb hother]
      refine ⟨fun h => ⟨h.1, fun hroot => ?_, fun parent hp => ?_⟩, fun h => ⟨h.env, (h.parent job hparent).2⟩⟩
      · exact absurd (hparent.symm.trans hroot) (by simp)
      · rw [← List.append_cancel_right (hparent.symm.trans hp)]
        exact ⟨hother, h.2⟩
    | cs =>
      refine iff_of_false ?_ fun h => (h.parent job hparent).1 himg.mem
      rintro ⟨r, hrun, -⟩
      cases (executeTc_site hmade.newline hclean hds ht (himg.unique hs)).symm.trans hrun

/-! ## The whole run -/

theorem lcovRun_eq_ok {runs : List LcovRun} : lcovRun tgt p cfg os stage s = .ok runs ↔
    List.Forall₂ (fun tc r => executeTc tgt p cfg s.gbl tc = .ok r) (lcovTestcases os stage s) runs := by
  rw [← Fold.mapM_eq_ok, lcovTestcases, Fold.mapM_flatMap]
  rfl

theorem mem_testcasesOf {tcDir : Place × Dir} :
    tc ∈ testcasesOf os tcDir ↔ ∃ t : TcName, t.testcase ∈ tcDir.2 ∧ tc = (tcDir.2, t.testcase) := by
  simp only [testcasesOf, List.mem_map, List.mem_filter, os.mem_listdir]
  constructor
  · rintro ⟨n, ⟨hn, htc⟩, rfl⟩
    obtain ⟨t, rfl⟩ := isTc_iff.mp htc
    exact ⟨t, hn, rfl⟩
  · rintro ⟨t, hn, rfl⟩
    exact ⟨t.testcase, ⟨hn, isTc_iff.mpr ⟨t, rfl⟩⟩, rfl⟩

theorem mem_lcovTestcases : tc ∈ lcovTestcases os stage s ↔
    ∃ tcDir ∈ tcDirs stage s, ∃ t : TcName, t.testcase ∈ tcDir.2 ∧ tc = (tcDir.2, t.testcase) := by
  simp only [lcovTestcases, List.mem_flatMap, mem_testcasesOf]

theorem nodup_testcasesOf (os : Os Place) (tcDir : Place × Dir) : ((testcasesOf os tcDir).map Prod.snd).Nodup := by
  rw [testcasesOf, List.map_map]
  exact ((os.nodup _ _).filter _).map fun _ _ => id

theorem mem_tcDirs {tcDir : Place × Dir} :
    tcDir ∈ tcDirs stage s ↔ tcDir = (.gbl, s.gbl) ∨ stage = 2 ∧ tcDir = (.tc, s.tcDir) := by
  unfold tcDirs
  split <;> simp [*]

/-- No testcase is in two of the directories. -/
theorem tcDir_unique (honce : stage = 2 → ∀ t : TcName, t.testcase ∈ s.gbl → t.testcase ∉ s.tcDir)
    {d d' : Place × Dir} (hd : d ∈ tcDirs stage s) (hd' : d' ∈ tcDirs stage s) (ht : t.testcase ∈ d.2)
    (ht' : t.testcase ∈ d'.2) : d = d' := by
  rcases mem_tcDirs.mp hd with rfl | ⟨hstage, rfl⟩ <;> rcases mem_tcDirs.mp hd' with rfl | ⟨hstage', rfl⟩
  · rfl
  · exact absurd ht' (honce hstage' t ht)
  · exact absurd ht (honce hstage t ht')
  · rfl

theorem nodup_lcovTestcases (os : Os Place)
    (honce : stage = 2 → ∀ t : TcName, t.testcase ∈ s.gbl → t.testcase ∉ s.tcDir) :
    ((lcovTestcases os stage s).map Prod.snd).Nodup := by
  rw [lcovTestcases, tcDirs]
  split
  · rename_i hstage
    rw [List.flatMap_cons, List.flatMap_cons, List.flatMap_nil, List.append_nil, List.map_append, List.nodup_append']
    refine ⟨nodup_testcasesOf os _, nodup_testcasesOf os _, List.disjoint_left.mpr fun n hn hn' => ?_⟩
    obtain ⟨_, htc, rfl⟩ := List.mem_map.mp hn
    obtain ⟨_, htc', heq⟩ := List.mem_map.mp hn'
    obtain ⟨t, ht, rfl⟩ := mem_testcasesOf.mp htc
    obtain ⟨u, hu, rfl⟩ := mem_testcasesOf.mp htc'
    obtain rfl := TcName.testcase_inj.mp heq
    exact honce hstage u ht hu
  · rw [List.flatMap_cons, List.flatMap_nil, List.append_nil]
    exact nodup_testcasesOf os _

/-- In both directories it is listed twice. -/
theorem count_lcovTestcases (os : Os Place) (hstage : stage = 2) (ht : t.testcase ∈ s.gbl)
    (ht' : t.testcase ∈ s.tcDir) :
    1 < ((lcovTestcases os stage s).map Prod.snd).count t.testcase := by
  have hin : ∀ tcDir : Place × Dir, t.testcase ∈ tcDir.2 →
      ((testcasesOf os tcDir).map Prod.snd).count t.testcase = 1 := fun tcDir h =>
    List.count_eq_one_of_mem (nodup_testcasesOf os tcDir)
      (List.mem_map.mpr ⟨(tcDir.2, t.testcase), mem_testcasesOf.mpr ⟨t, h, rfl⟩, rfl⟩)
  rw [lcovTestcases, tcDirs, if_pos hstage, List.flatMap_cons, List.flatMap_cons, List.flatMap_nil, List.append_nil,
    List.map_append, List.count_append, hin _ ht, hin _ ht']
  decide

theorem lcovRun_testcases {runs : List LcovRun} (hrun : lcovRun tgt p cfg os stage s = .ok runs) :
    runs.map LcovRun.testcase = (lcovTestcases os stage s).map Prod.snd := by
  have hnames := (lcovRun_eq_ok.mp hrun).imp fun tc r h => (executeTc_testcase h).1.symm
  have heq : List.Forall₂ Eq ((lcovTestcases os stage s).map Prod.snd) (runs.map LcovRun.testcase) :=
    List.forall₂_map_left_iff.mpr (List.forall₂_map_right_iff.mpr hnames)
  exact (List.forall₂_eq_eq_eq ▸ heq).symm

/-- In every state that a run of the pipeline leaves. -/
theorem replaysAll_iff (h : exec (step p) init (ops.map (Op.archived tgt)) = some s) :
    ReplaysAll tgt p cfg os stage s ↔
      (∀ tcDir ∈ tcDirs stage s, ∀ t : TcName, t.testcase ∈ tcDir.2 → Replayable tgt cfg s.gbl t.testcase) ∧
        (stage = 2 → ∀ t : TcName, t.testcase ∈ s.gbl → t.testcase ∉ s.tcDir) := by
  obtain ⟨hi, hv⟩ := archiveInv_exec h
  have hiff : ∀ tcDir ∈ tcDirs stage s, ∀ t : TcName, t.testcase ∈ tcDir.2 →
      ((∃ r, executeTc tgt p cfg s.gbl (tcDir.2, t.testcase) = .ok r ∧
        Replayed tgt cfg s.gbl tcDir.2 t.testcase r) ↔ Replayable tgt cfg s.gbl t.testcase) := by
    intro tcDir hdir t ht
    refine executeTc_iff ht ?_ hi.store hv.store
    rcases mem_tcDirs.mp hdir with rfl | ⟨-, rfl⟩
    · exact (hi.store.testcase t ht).1
    · exact hi.iteration.testcase t ht
  constructor
  · rintro ⟨runs, hrun, hall⟩
    constructor
    · intro tcDir hdir t ht
      obtain ⟨r, hr, htc⟩ := (Fold.mem_of_forall₂ (lcovRun_eq_ok.mp hrun)).1 (tcDir.2, t.testcase)
        (mem_lcovTestcases.mpr ⟨tcDir, hdir, t, ht, rfl⟩)
      exact (hiff tcDir hdir t ht).mp ⟨r, htc, (hall tcDir hdir t ht).2 r hr (executeTc_testcase htc).1⟩
    · intro hstage t ht ht'
      have hcount := (hall (.gbl, s.gbl) (mem_tcDirs.mpr (.inl rfl)) t ht).1
      rw [lcovRun_testcases hrun] at hcount
      exact absurd hcount (count_lcovTestcases os hstage ht ht').ne'
  · rintro ⟨hall, honce⟩
    have hruns : ∀ tc ∈ lcovTestcases os stage s, ∃ r, executeTc tgt p cfg s.gbl tc = .ok r ∧
        Replayed tgt cfg s.gbl tc.1 tc.2 r := by
      intro tc htc
      obtain ⟨tcDir, hdir, t, ht, rfl⟩ := mem_lcovTestcases.mp htc
      exact (hiff tcDir hdir t ht).mpr (hall tcDir hdir t ht)
    obtain ⟨runs, hruns⟩ := Fold.exists_forall₂.mpr hruns
    have hrun : lcovRun tgt p cfg os stage s = .ok runs := lcovRun_eq_ok.mpr (hruns.imp fun _ _ => And.left)
    refine ⟨runs, hrun, fun tcDir hdir t ht => ⟨?_, fun r hr hname => ?_⟩⟩
    · rw [lcovRun_testcases hrun]
      exact List.count_eq_one_of_mem (nodup_lcovTestcases os honce)
        (List.mem_map.mpr ⟨_, mem_lcovTestcases.mpr ⟨tcDir, hdir, t, ht, rfl⟩, rfl⟩)
    · obtain ⟨tc, htc, hexec, hr⟩ := (Fold.mem_of_forall₂ hruns).2 r hr
      obtain ⟨tcDir', hdir', u, hu, rfl⟩ := mem_lcovTestcases.mp htc
      obtain rfl := TcName.testcase_inj.mp ((executeTc_testcase hexec).1.symm.trans hname)
      rwa [tcDir_unique honce hdir' hdir hu ht] at hr

/-! ### Runs with a job of each kind -/

/-- The settings of `base.yml`, and a target. -/
def baseCfg : LcovCfg where
  env := ∅
  persistDisableEnv := "USE_FAKE_MMAP=1".toList
  tgtcmd := ["mapcli".toList, "__POOL_IMAGE__".toList]
  imgLoc := "/mnt/pmem0/".toList
  emptyImg := "/mnt/pmem0/__empty_img__".toList
  emptyFile := none

/-- The job of the first iteration on the testcase is terminated. -/
def testcaseJob : List Op :=
  let os := Os.sorted Place 0
  [.collectStage1 [firstCase], .updateGlobalStage1 os, .updateLocal os, .run .tc "id=1.testcase".toList] ++
  terminateTestcase os (fun _ => none) true "id=1.testcase".toList [caseOf "2".toList isDigits_2 [0, 2] [2] none]

theorem baseCfg_oneToken : OneToken baseCfg.tgtcmd baseCfg.imgLoc := by
  have hlast : ¬ dummyPath baseCfg.imgLoc <:+: [] := by decide
  exact ⟨["mapcli".toList], "__POOL_IMAGE__".toList, [], rfl, by decide, ⟨noStart_nil, hlast⟩, by decide⟩

/-- What it left runs on the pool of `id=1`. -/
theorem replaysAll_iff_testcaseJob : ∃ s, exec (step dirNames) init (testcaseJob.map (Op.archived .logging)) = some s ∧
    testcaseChild.testcase ∈ s.tcDir ∧ ReplaysAll .logging dirNames baseCfg (Os.sorted Place 0) 2 s := by
  have hrun : (exec (step dirNames) init (testcaseJob.map (Op.archived .logging))).map (fun s =>
      decide (testcaseChild.testcase ∈ s.tcDir ∧ "id=1.crash_site.tar.gz".toList ∉ s.gbl ∧
        (lcovTestcases (Os.sorted Place 0) 2 s).map Prod.snd =
          [firstTestcase.testcase, testcaseChild.testcase])) = some true := by decide +kernel
  obtain ⟨s, h, hs⟩ := Option.map_eq_some_iff.mp hrun
  obtain ⟨hin, hsite, htcs⟩ := of_decide_eq_true hs
  have hroot : getTestcaseParent firstTestcase.testcase = [] := by decide +kernel
  have hchild : getTestcaseParent testcaseChild.testcase = "id=1".toList ++ ".testcase".toList := by decide +kernel
  have hempty : Unpacks .logging baseCfg.emptyImg baseCfg.emptyFile := fun harchive => absurd harchive (by decide)
  have hnamed := named_of_oneToken baseCfg_oneToken
  refine ⟨s, h, hin, (replaysAll_iff h).mpr ⟨fun tcDir hdir t ht => ⟨by decide, fun _ => ⟨hempty, hnamed _⟩,
    fun parent hp => ⟨?_, hnamed _⟩⟩, fun hstage t ht ht' => ?_⟩⟩
  · have hmem : t.testcase ∈ (lcovTestcases (Os.sorted Place 0) 2 s).map Prod.snd :=
      List.mem_map.mpr ⟨_, mem_lcovTestcases.mpr ⟨tcDir, hdir, t, ht, rfl⟩, rfl⟩
    rw [htcs] at hmem
    rcases List.mem_pair.mp hmem with ht | ht <;> rw [ht] at hp
    · exact absurd (hroot.symm.trans hp) (by simp)
    · rw [← List.append_cancel_right (hchild.symm.trans hp)]
      exact hsite
  · have hcount := count_lcovTestcases (Os.sorted Place 0) hstage ht ht'
    have hnodup : [firstTestcase.testcase, testcaseChild.testcase].Nodup := by decide +kernel
    rw [htcs] at hcount
    exact absurd hcount (List.nodup_iff_count_le_one.mp hnodup _).not_gt

/-- With the job on the crash site too, its testcase has no image. -/
theorem not_replaysAll_bothJobs : ∃ s, exec (step dirNames) init (bothJobs.map (Op.archived .logging)) = some s ∧
    siteChild.testcase ∈ s.tcDir ∧ ¬ ReplaysAll .logging dirNames baseCfg (Os.sorted Place 0) 2 s := by
  have hrun : (exec (step dirNames) init (bothJobs.map (Op.archived .logging))).map (fun s =>
      decide (siteChild.testcase ∈ s.tcDir ∧ "id=1.id=5".toList ++ archiveExt .tc ∉ s.gbl)) = some true := by
    decide +kernel
  obtain ⟨s, h, hs⟩ := Option.map_eq_some_iff.mp hrun
  obtain ⟨hin, hno⟩ := of_decide_eq_true hs
  refine ⟨s, h, hin, ?_⟩
  rintro ⟨runs, hrun, -⟩
  obtain ⟨r, -, hr⟩ := (Fold.mem_of_forall₂ (lcovRun_eq_ok.mp hrun)).1 (s.tcDir, siteChild.testcase)
    (mem_lcovTestcases.mpr ⟨(.tc, s.tcDir), mem_tcDirs.mpr (.inr ⟨rfl, rfl⟩), siteChild, hin, rfl⟩)
  cases (executeTc_site rfl isClean_site isDigits_3 rfl hno).symm.trans hr

end PMFuzz.Pipeline
