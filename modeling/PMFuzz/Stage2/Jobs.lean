import PMFuzz.Dedup.Cmin
import PMFuzz.Names.Lineage
import Mathlib.Algebra.Order.Ring.Rat

/-!
# The jobs of a stage-2 iteration

The timers of `ptimer.py`, the lists of `@dedup_sync` that `stage2.py` walks,
and `completed`. A job is named by the testcase or the crash site it runs,
and its timer and its AFL directory by that name.

`completed_iff` and `mem_jobs` say what `completed` and `resume` look at.
-/

namespace PMFuzz.Stage2

open Names Str Dedup

/-! ## Timers -/

/-- The state of a `PTimer`; times are in seconds. -/
structure PTimer where
  start : ℚ
  length : ℚ
  deriving DecidableEq

namespace PTimer

/-- A timer without a file. -/
def fresh : PTimer := ⟨0, 0⟩

/-- `start_new`, at the time `now`. -/
def startNew (length now : ℚ) : PTimer := ⟨now, length⟩

/-- `is_new`. -/
def isNew (t : PTimer) : Bool := t.start = 0

/-- `expired`, at the time `now`. -/
def expired (t : PTimer) (now : ℚ) : Bool := t.length < now - t.start

end PTimer

/-- The timers of `@dedup_sync`, by `name_prefix`. A timer is `fresh` if it
has no file, and a `PTimer` that finds none writes just that. -/
abbrev Timers := Str → PTimer

/-! ## The lists of jobs -/

/-- What `stage2.py` reads of the configuration, and its `cores`.
`pmfuzz-fuzz` takes no fewer than one. -/
structure Config where
  cores : ℕ
  cores_pos : 1 ≤ cores
  /-- `pmfuzz.failure_injection.enable` -/
  finjEnabled : Bool
  /-- `pmfuzz.stage.2.select_ids` -/
  selectIds : Option (List ℤ)
  /-- `pmfuzz.stage.2.tc_timeout` -/
  tcTimeout : ℚ

/-- The ids of `select_ids`, none if it is not set. -/
def Config.ids (cfg : Config) : List ℤ := cfg.selectIds.getD []

/-- `local_dedup_list`. -/
def localDedupList (os : Os Place) (loc : Dir) : List (Str × Option Str) :=
  ((os.listdir .loc loc).filter (isTc · true)).map fun filepath =>
    let imgpath := replace filepath ".testcase".toList ".pm_pool".toList
    (filepath, if imgpath ∈ loc then some imgpath else none)

/-- `local_dedup_list_st2`. -/
def localDedupListSt2 (os : Os Place) (cfg : Config) (loc : Dir) :
    Except Stop (List (Str × Option Str)) :=
  (localDedupList os loc).filterM fun entry => shouldUseTc cfg.ids entry.1

/-- `local_dedup_list_cs_st2`. -/
def localDedupListCsSt2 (os : Os Place) (cfg : Config) (loc : Dir) : Except Stop (List Str) :=
  (os.listdir .loc loc).filterM fun filepath =>
    if isCmprCrashSite filepath then shouldUseCs cfg.ids filepath else .ok false

/-- `testcasename`. -/
def testcaseName (testcasepath : Str) : Str := replace testcasepath ".testcase".toList []

/-- `csname`. -/
def csName (cspath : Str) : Str := replace cspath ".crash_site.tar.gz".toList []

/-- `completed`, at the time `now`. -/
def completed (os : Os Place) (loc : Dir) (timers : Timers) (now : ℚ) : Bool :=
  (localDedupList os loc).all fun entry =>
    let ptimer := timers (testcaseName entry.1)
    !(ptimer.isNew || !ptimer.expired now)

/-! ## What they hold -/

/-- The timer of a job was started and has expired. -/
def Finished (timers : Timers) (now : ℚ) (job : Str) : Prop :=
  (timers job).isNew = false ∧ (timers job).expired now = true

instance (timers : Timers) (now : ℚ) (job : Str) : Decidable (Finished timers now job) :=
  inferInstanceAs (Decidable (_ ∧ _))

/-- The jobs for testcases and for crash sites that `resume` may start. It
makes both lists first, for its count of the running jobs. -/
def jobLists (os : Os Place) (cfg : Config) (loc : Dir) : List Str × List Str :=
  match localDedupListSt2 os cfg loc, localDedupListCsSt2 os cfg loc with
  | .ok tcs, .ok css =>
    (tcs.map fun entry => testcaseName entry.1, if cfg.finjEnabled then css.map csName else [])
  | _, _ => ([], [])

variable {os : Os Place} {cfg : Config} {loc : Dir} {timers : Timers} {now : ℚ}

theorem completed_iff : completed os loc timers now = true ↔
    ∀ n ∈ loc, isTc n true = true → Finished timers now (testcaseName n) := by
  unfold completed localDedupList Finished
  simp only [List.all_map, List.all_eq_true, List.mem_filter, os.mem_listdir, Function.comp_apply,
    Bool.not_or, Bool.not_not, Bool.and_eq_true, Bool.not_eq_true', and_imp]

/-- The testcases of `resume` are among those of `completed`. -/
theorem mem_jobLists_fst {job : Str} (h : job ∈ (jobLists os cfg loc).1) :
    ∃ n ∈ loc, isTc n true = true ∧ job = testcaseName n := by
  unfold jobLists at h
  split at h
  · rename_i tcs css htcs hcss
    obtain ⟨e, he, rfl⟩ := List.mem_map.mp h
    obtain ⟨hmem, -⟩ := (Fold.mem_filterM htcs).mp he
    obtain ⟨n, hn, rfl⟩ := List.mem_map.mp hmem
    obtain ⟨hn, htc⟩ := List.mem_filter.mp hn
    exact ⟨n, os.mem_listdir.mp hn, htc, rfl⟩
  · exact absurd h List.not_mem_nil

end PMFuzz.Stage2
