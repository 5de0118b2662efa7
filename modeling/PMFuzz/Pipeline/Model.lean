import PMFuzz.Dedup.Sync
import PMFuzz.Stage2.Schedule

/-!
# The pipeline

`pmfuzz.py` as a transition system: the first stage collects the queue of
its fuzzer, and each iteration of the second runs jobs on what `@dedup` holds
and collects their queues. A step is a call of one function that returns;
their order is left open, but for the jobs of an iteration. A job's timer is
started once, and its pid file is removed when it is terminated.

A queue is the list of its cases as listed. Verbose output, the state file
and the check of crash sites for bugs are left out.
-/

namespace PMFuzz.Pipeline

open Names Str Dedup Stage2

/-- A failure image that the target saves: its failure id, and the archive
it is compressed to. -/
structure CrashImage where
  id : Str
  digits : IsDigits id
  content : Bytes

/-- A file that AFL leaves in a queue: `id:<digits>`, and what follows from
a `,` on. -/
structure QueueCase where
  id : Str
  digits : IsDigits id
  rest : Str
  rest_ok : rest = [] ∨ rest.head? = some ','
  testcase : Bytes
  map : Option Bytes
  pmMap : Option Bytes
  /-- The archive of the image that the target leaves. -/
  img : Bytes
  /-- The failure images that are to be used, if failures are injected. -/
  crashImages : Option (List CrashImage)

def QueueCase.name (q : QueueCase) : Str := "id:".toList ++ q.id ++ q.rest

/-- The directories that messages name. -/
structure Paths where
  dedupDirGbl : Str
  oTcDir : Str

/-! ## Collecting a case -/

/-- `gen_img`, of an image with the archive `img`. -/
def genImg (img : Bytes) (testcase : Str) (imgDir : Dir) : Except Stop Dir := do
  let imgName := (← getMetadataFiles testcase).pmPool
  let dest := (← getMetadataFiles imgName).pmCmprPool
  return Finmap.insert dest img imgDir

/-- `copypreserve` of a map that need not be there. -/
def copyMap (name : Str) (map : Option Bytes) (tcDir : Dir) : Dir :=
  match map with
  | some b => Finmap.insert name b tcDir
  | none => tcDir

/-- The archives of failure images. -/
def compressCrashSites (stem : Str) (images : List CrashImage) (imgDir : Dir) : Dir :=
  images.foldl (fun imgDir c => Finmap.insert
    (stem ++ ".id=".toList ++ c.id ++ ".crash_site".toList ++ ".tar.gz".toList) c.content imgDir) imgDir

/-- `_collect_map`. -/
def collectMap (p : Paths) (q : QueueCase) (cleanName : Str) (tcDir : Dir) : Except Stop Dir :=
  match q.map with
  | none => .error (.abort ("Cannot find ".toList ++ p.oTcDir ++ "/map_".toList ++
      replace q.name ".testcase".toList []))
  | some b => .ok (copyMap ("pm_map_".toList ++ cleanName) q.pmMap
      (Finmap.insert ("map_".toList ++ cleanName) b tcDir))

/-- `collect_tc` of the first stage, with its `tc_gen_crash_sites`: `dirs`
are `tc_dir` and `img_dir`. -/
def collectTcStage1 (p : Paths) (q : QueueCase) (cleanName : Str) (dirs : Dir × Dir) :
    Except Stop (Dir × Dir) := do
  let tcDir ← collectMap p q cleanName (Finmap.insert cleanName q.testcase dirs.1)
  let imgDir ← genImg q.img cleanName dirs.2
  match q.crashImages with
  | none => return (tcDir, imgDir)
  | some images =>
    return (tcDir, compressCrashSites (replace cleanName ".testcase".toList []) images imgDir)

/-- `collect_tc` of the second stage. -/
def collectTc (q : QueueCase) (cleanName : Str) (dirs : Dir × Dir) : Except Stop (Dir × Dir) := do
  let tcDir := Finmap.insert cleanName q.testcase dirs.1
  let tcDir := copyMap ("map_".toList ++ cleanName) q.map tcDir
  let tcDir := copyMap ("pm_map_".toList ++ cleanName) q.pmMap tcDir
  let imgDir ← genImg q.img cleanName dirs.2
  return (tcDir, imgDir)

/-- `tc_gen_crash_sites` of the second stage, for a case of the job. -/
def tcGenCrashSites (p : Paths) (gbl : Dir) (job : Str) (q : QueueCase) (images : List CrashImage)
    (imgDir : Dir) : Except Stop Dir := do
  let cleanName ← cleanTcName q.name
  let parentName := job ++ ".testcase".toList
  let _ ← getParentImg parentName p.dedupDirGbl gbl .exists true
  let parentImgNameUniq := (← getMetadataFiles parentName).clean
  return compressCrashSites (parentImgNameUniq ++ '.' :: replace cleanName ".testcase".toList [])
    images imgDir

/-! ## Collecting a queue -/

/-- One round of `collect_results` of the first stage: `foundCases` is listed
before the loop. -/
def collectResultsStage1 (p : Paths) (foundCases : Dir) (dirs : Dir × Dir) (q : QueueCase) :
    Except Stop (Dir × Dir) := do
  let cleanName ← cleanTcName q.name
  if cleanName ∉ foundCases then collectTcStage1 p q cleanName dirs else return dirs

/-- One round of `collect_results` of the second stage, for a case of a
job. -/
def collectResults (foundCases : Dir) (dirs : Dir × Dir) (entry : Str × QueueCase) :
    Except Stop (Dir × Dir) := do
  let cleanName := entry.1 ++ ',' :: (← cleanTcName entry.2.name)
  if cleanName ∉ foundCases then collectTc entry.2 cleanName dirs else return dirs

/-- `exp_img_path`, of a job of the kind. -/
def expImgPath (p : Paths) (gbl : Dir) (job : Str) : Kind → Except Stop Str
  | .tc => .ok (p.dedupDirGbl ++ '/' :: (job ++ ".pm_pool.tar.gz".toList))
  | .cs => getParentImg (job ++ ".testcase".toList) p.dedupDirGbl gbl .exists true

/-- The check before each case of the queue. -/
def sanityCheck (p : Paths) (gbl : Dir) (k : Kind) (job : Str) : Except Stop Unit := do
  let path ← expImgPath p gbl job k
  -- `isfile` of a path in `@dedup`
  if path.drop (p.dedupDirGbl.length + 1) ∈ gbl then return ()
  else .error (.abort ("Sanity check: Compressed image ".toList ++ path ++
    " should exist, but is missing.".toList))

/-- One round of the loop of `_terminate_testcase` and `_terminate_cs`. -/
def terminateCase (p : Paths) (gbl : Dir) (k : Kind) (job : Str) (dirs : Dir × Dir) (q : QueueCase) :
    Except Stop (Dir × Dir) := do
  sanityCheck p gbl k job
  let cleanName := job ++ ',' :: (← cleanTcName q.name)
  let dirs ← collectTc q cleanName dirs
  match q.crashImages with
  | none => return dirs
  | some images => return (dirs.1, ← tcGenCrashSites p gbl job q images dirs.2)

/-- The loop, and `clean_up_uncmpr_lcl` after it. -/
def terminateJob (p : Paths) (gbl : Dir) (k : Kind) (job : Str) (os : Os Place)
    (queue : List QueueCase) (dirs : Dir × Dir) : Except Stop (Dir × Dir) := do
  let dirs ← queue.foldlM (terminateCase p gbl k job) dirs
  return (dirs.1, cleanUpUncmprLcl os dirs.2)

/-! ## The system -/

/-- Where a job of the iteration is. -/
inductive JobState
  /-- Its timer is new. -/
  | new
  /-- It has a pid file. -/
  | running
  /-- It has a timer and no pid file. -/
  | terminated
  deriving DecidableEq

structure State where
  /-- `@dedup`. -/
  gbl : Dir
  /-- `tc_dir` and `img_dir` of the first stage. -/
  tcDir1 : Dir
  imgDir1 : Dir
  iterId : ℕ
  /-- `tc_dir`, `img_dir` and `@dedup_sync` of the iteration. -/
  tcDir : Dir
  imgDir : Dir
  loc : Dir
  jobs : Str → JobState

/-- An empty result directory. -/
def init : State where
  gbl := ∅
  tcDir1 := ∅
  imgDir1 := ∅
  iterId := 1
  tcDir := ∅
  imgDir := ∅
  loc := ∅
  jobs _ := .new

/-- The files of `@dedup_sync` that jobs of the kind run on. -/
def checker : Kind → Str → Bool
  | .tc => (isTc · true)
  | .cs => isCmprCrashSite

/-- `testcasename` and `csname`. -/
def jobName : Kind → Str → Str
  | .tc => testcaseName
  | .cs => csName

/-- `_deduplicate_lcl`. -/
def deduplicateLcl (os : Os Place) (db : Str → Option Bytes) (fdedup minTc minCorpus : Bool)
    (s : State) : Except Stop State := do
  let imgDir ← (if fdedup then deduplicateCrashSitesLcl os db s.imgDir else .ok s.imgDir)
  if minTc then .error (.abort "Unimplemented".toList)
  else if minCorpus then
    let (tcDir, gbl) ← minimizeCorpusLcl os s.loc s.tcDir s.gbl
    return { s with imgDir := imgDir, tcDir := tcDir, gbl := gbl }
  else return { s with imgDir := imgDir }

/-- A call of a function, and what it gets. -/
inductive Op
  /-- `collect` of the first stage. -/
  | collectStage1 (queue : List QueueCase)
  /-- `update_global` of the first stage. -/
  | updateGlobalStage1 (os : Os Place)
  | updateLocal (os : Os Place)
  /-- `start_new`, then `_run_testcase` or `_run_cs`. -/
  | run (k : Kind) (file : Str)
  /-- `_terminate_testcase`, or `_terminate_cs`, up to the deduplication. -/
  | terminate (k : Kind) (file : Str) (os : Os Place) (queue : List QueueCase)
  /-- The `DedupEngine` pass of `_terminate_cs`. -/
  | dedupEngine (os : Os Place)
  /-- `Dedup.run` with `gbl=False`, which both end with. -/
  | deduplicateLcl (os : Os Place) (db : Str → Option Bytes) (fdedup minTc minCorpus : Bool)
  /-- `collect` of the second stage, with which the iteration terminates. -/
  | collect (queues : List (Str × QueueCase))
  /-- `update_global`, with which `Dedup.run` with `gbl=True` starts. -/
  | updateGlobal (os : Os Place)
  /-- `_deduplicate_gbl`. -/
  | deduplicateGbl (os : Os Place) (fdedupCfg : Str) (fdedup minTc minCorpus : Bool)
  /-- `clear`, and the directories of the next iteration. -/
  | clear

/-- `_terminate_testcase`, with the setting `minimize_corpus`. -/
def terminateTestcase (os : Os Place) (db : Str → Option Bytes) (minimizeCorpus : Bool) (file : Str)
    (queue : List QueueCase) : List Op :=
  [.terminate .tc file os queue, .deduplicateLcl os db true false minimizeCorpus]

/-- `_terminate_cs`. -/
def terminateCs (os : Os Place) (db : Str → Option Bytes) (minimizeCorpus : Bool) (file : Str)
    (queue : List QueueCase) : List Op :=
  [.terminate .cs file os queue, .dedupEngine os, .deduplicateLcl os db true false minimizeCorpus]

/-- The state after a call that returns. -/
def step (p : Paths) (s : State) : Op → Option State
  | .collectStage1 queue =>
    (queue.foldlM (collectResultsStage1 p s.tcDir1) (s.tcDir1, s.imgDir1)).toOption.map fun dirs =>
      { s with tcDir1 := dirs.1, imgDir1 := dirs.2 }
  | .updateGlobalStage1 os =>
    (updateGlobal os s.tcDir1 s.imgDir1 s.gbl).toOption.map fun gbl => { s with gbl := gbl }
  | .updateLocal os =>
    (updateLocal os s.iterId s.gbl s.loc).toOption.map fun loc => { s with loc := loc }
  | .run k file =>
    if file ∈ s.loc ∧ checker k file ∧ s.jobs (jobName k file) = .new then
      some { s with jobs := Function.update s.jobs (jobName k file) .running }
    else none
  | .terminate k file os queue =>
    if file ∈ s.loc ∧ checker k file ∧ s.jobs (jobName k file) = .running then
      (terminateJob p s.gbl k (jobName k file) os queue (s.tcDir, s.imgDir)).toOption.map fun dirs =>
        { s with
          tcDir := dirs.1
          imgDir := dirs.2
          jobs := Function.update s.jobs (jobName k file) .terminated }
    else none
  | .dedupEngine os =>
    (DedupEngine.run os.time isMap s.tcDir (os.listdir .tc s.tcDir)).toOption.map fun tcDir =>
      { s with tcDir := tcDir }
  | .deduplicateLcl os db fdedup minTc minCorpus =>
    (deduplicateLcl os db fdedup minTc minCorpus s).toOption
  | .collect queues =>
    -- only jobs that were started have a directory
    if ∀ e ∈ queues, s.jobs e.1 ≠ .new then
      (queues.foldlM (collectResults s.tcDir) (s.tcDir, s.imgDir)).toOption.map fun dirs =>
        -- and none of them is terminated after this
        { s with
          tcDir := dirs.1
          imgDir := dirs.2
          jobs := fun job => if s.jobs job = .new then .new else .terminated }
    else none
  | .updateGlobal os =>
    (updateGlobal os s.tcDir s.imgDir s.gbl).toOption.map fun gbl => { s with gbl := gbl }
  | .deduplicateGbl os fdedupCfg fdedup minTc minCorpus =>
    (deduplicateGbl os fdedupCfg fdedup minTc minCorpus s.gbl).toOption.map fun gbl =>
      { s with gbl := gbl }
  | .clear => some { s with
      iterId := s.iterId + 1, tcDir := ∅, imgDir := ∅, loc := ∅, jobs := fun _ => .new }

end PMFuzz.Pipeline
