import PMFuzz.Dedup.FileDedup
import PMFuzz.Stage2.Jobs

/-!
# Completion and the schedule

`completed` looks at the testcases that `select_ids` leaves out as well, and
not at the crash sites. `completionMatches_iff` says when that is the same as
looking at the jobs.
-/

namespace PMFuzz.Stage2

open Names Dedup

variable {os : Os Place} {loc : Dir} {timers : Timers} {now : ℚ}

/-- The iteration is reported completed when the jobs are finished, and only
then. -/
def CompletionMatches (os os' : Os Place) (cfg : Config) (loc : Dir) (timers : Timers) (now : ℚ) :
    Prop :=
  completed os loc timers now = true ↔
    ∀ job ∈ (jobLists os' cfg loc).1 ++ (jobLists os' cfg loc).2, Finished timers now job

/-- The testcases that are never started are finished. -/
def LeftOutFinished (os : Os Place) (cfg : Config) (loc : Dir) (timers : Timers) (now : ℚ) : Prop :=
  ∀ n ∈ loc, isTc n true = true → testcaseName n ∉ (jobLists os cfg loc).1 →
    Finished timers now (testcaseName n)

theorem completed_iff_leftOut (os' : Os Place) (cfg : Config) : completed os loc timers now = true ↔
    (∀ job ∈ (jobLists os' cfg loc).1, Finished timers now job) ∧
      LeftOutFinished os' cfg loc timers now := by
  rw [completed_iff]
  constructor
  · refine fun h => ⟨fun job hjob => ?_, fun n hn htc _ => h n hn htc⟩
    obtain ⟨n, hn, htc, rfl⟩ := mem_jobLists_fst hjob
    exact h n hn htc
  · intro ⟨hjobs, hleft⟩ n hn htc
    by_cases hjob : testcaseName n ∈ (jobLists os' cfg loc).1
    · exact hjobs _ hjob
    · exact hleft n hn htc hjob

/-- Completion matches the schedule exactly when some job for a testcase is
not finished, or the testcases left out are finished just as the jobs for
crash sites are. -/
theorem completionMatches_iff (os os' : Os Place) (cfg : Config) (loc : Dir) (timers : Timers)
    (now : ℚ) : CompletionMatches os os' cfg loc timers now ↔
      (∃ job ∈ (jobLists os' cfg loc).1, ¬ Finished timers now job) ∨
      (LeftOutFinished os' cfg loc timers now ↔
        ∀ job ∈ (jobLists os' cfg loc).2, Finished timers now job) := by
  unfold CompletionMatches
  rw [completed_iff_leftOut os' cfg, List.forall_mem_append]
  by_cases h : ∀ job ∈ (jobLists os' cfg loc).1, Finished timers now job
  · have hno : ¬ ∃ job ∈ (jobLists os' cfg loc).1, ¬ Finished timers now job := by
      simpa using h
    rw [and_iff_right h, and_iff_right h, or_iff_right hno]
  · have hex : ∃ job ∈ (jobLists os' cfg loc).1, ¬ Finished timers now job := by
      simpa using h
    simp only [h, hex, false_and, true_or]

/-! ## Two iterations -/

/-- A crash site of the first testcase, and its job. -/
def site1 : Str := "id=1.id=7.crash_site.tar.gz".toList

/-- Only the first testcase was started. -/
def firstStarted : Timers := Function.update (fun _ => .fresh) "id=1".toList ⟨100, 60⟩

/-- An iteration is reported completed before its crash site is started, and
one is never reported completed for a testcase that it is not to start. -/
theorem completed_misses_jobs :
    ¬ CompletionMatches (Os.sorted Place 0) (Os.sorted Place 0) ⟨2, by decide, true, none, 60⟩
      [⟨tc1.testcase, [1]⟩, ⟨site1, [2]⟩].toFinmap firstStarted 200 ∧
    ¬ CompletionMatches (Os.sorted Place 0) (Os.sorted Place 0) ⟨2, by decide, false, some [1], 60⟩
      [⟨tc1.testcase, [1]⟩, ⟨tc2.testcase, [2]⟩].toFinmap firstStarted 200 := by
  constructor
  · intro h
    have := h.mp (by decide +kernel) "id=1.id=7".toList (by decide +kernel)
    exact absurd this.1 (by decide)
  · intro h
    have := h.mpr (by decide +kernel)
    exact absurd this (by decide +kernel)

end PMFuzz.Stage2
