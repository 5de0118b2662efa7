import PMFuzz.Pipeline.Parents

/-!
# What local deduplication removes comes back

`collect_results` copies each case of the queues whose name is not in
`tc_dir` when it starts. AFL keeps every case in its queue, and a case that
was collected when its job was terminated and then removed by local
deduplication is not in `tc_dir` either.

* `collect_testcase`, `updateGlobal_testcase`: the testcases after the two
  steps that end an iteration;
* `exec_testcase`: where the testcases of an iteration come from;
* `collect_keeps_iff`: a removed testcase stays away exactly if no queue
  lists a case of it, and comes back if the queues are kept;
* `removed_child_returns`: runs in which one comes back.
-/

namespace PMFuzz.Pipeline

open Names Str Dedup Stage2 Run

/-- `clean_name` of `collect_results`. -/
def caseName (entry : Str × QueueCase) : Str := entry.1 ++ ',' :: entry.2.root.testcase

/-- The call is one of the passes of local deduplication. -/
def Op.deduplicatesLocal : Op → Bool
  | .dedupEngine _ | .deduplicateLcl .. => true
  | _ => false

/-- The call comes between the start of an iteration and its end. -/
def Op.inIteration : Op → Bool
  | .updateLocal _ | .run .. | .terminate .. | .dedupEngine _ | .deduplicateLcl .. => true
  | _ => false

/-- In the run `ops` from `s`, local deduplication removes the testcase. -/
def Removed (p : Paths) (s : State) (ops : List Op) (t : TcName) : Prop :=
  ∃ before op after s₁ s₂, ops = before ++ op :: after ∧ op.deduplicatesLocal = true ∧
    exec (step p) s before = some s₁ ∧ step p s₁ op = some s₂ ∧
    t.testcase ∈ s₁.tcDir ∧ t.testcase ∉ s₂.tcDir

variable {p : Paths} {s s' s₁ s₂ s₃ : State} {ops : List Op} {op : Op} {t : TcName} {q : QueueCase}
  {queues : List (Str × QueueCase)} {os : Os Place} {dirs dirs' : Dir × Dir} {job n : Str}

/-! ## Testcases collected -/

/-- Collecting a case adds its testcase. -/
theorem collectTc_testcase (h : collectTc q n dirs = .ok dirs') :
    t.testcase ∈ dirs'.1 ↔ t.testcase ∈ dirs.1 ∨ t.testcase = n := by
  obtain ⟨imgDir, -, h⟩ := Fold.bind_eq_ok.mp h
  cases h
  -- a testcase's name does not start as a map's
  have hmap : ∀ x : Str, t.testcase ≠ "map_".toList ++ x := fun x hx => by
    have := t.head?_testcase
    rw [hx] at this
    cases this
  have hpmMap : ∀ x : Str, t.testcase ≠ "pm_map_".toList ++ x := fun x hx => by
    have := t.head?_testcase
    rw [hx] at this
    cases this
  show t.testcase ∈ copyMap _ q.pmMap (copyMap _ q.map _) ↔ _
  rw [← Finmap.lookup_isSome, lookup_copyMap (hpmMap n), lookup_copyMap (hmap n), Finmap.lookup_isSome,
    Finmap.mem_insert, or_comm]

/-- One round of `collect_results`. -/
theorem collectResults_testcase {foundCases : Dir} {e : Str × QueueCase}
    (h : collectResults foundCases dirs e = .ok dirs') :
    t.testcase ∈ dirs'.1 ↔ t.testcase ∈ dirs.1 ∨ caseName e ∉ foundCases ∧ caseName e = t.testcase := by
  rcases collectResults_cases h with ⟨hnot, h⟩ | ⟨hfound, rfl⟩
  · rw [collectTc_testcase h]
    exact or_congr_right ⟨fun heq => ⟨hnot, heq.symm⟩, fun heq => heq.2.symm⟩
  · exact (or_iff_left fun hnot => hnot.1 hfound).symm

/-- The testcases after `collect_results`. -/
theorem collect_testcase (h : step p s (.collect queues) = some s') :
    t.testcase ∈ s'.tcDir ↔ t.testcase ∈ s.tcDir ∨ ∃ e ∈ queues, caseName e = t.testcase := by
  obtain ⟨-, h⟩ := Option.ite_none_right_eq_some.mp h
  obtain ⟨dirs, hd, rfl⟩ := Fold.toOption_map_eq_some.mp h
  have hloop : ∀ (l : List (Str × QueueCase)) (dirs dirs' : Dir × Dir),
      l.foldlM (collectResults s.tcDir) dirs = .ok dirs' →
      (t.testcase ∈ dirs'.1 ↔ t.testcase ∈ dirs.1 ∨
        ∃ e ∈ l, caseName e ∉ s.tcDir ∧ caseName e = t.testcase) := by
    intro l
    induction l with
    | nil =>
      intro dirs dirs' h
      cases Fold.foldlM_nil_eq_ok.mp h
      simp
    | cons e l ih =>
      intro dirs dirs' h
      obtain ⟨u, hu, h⟩ := Fold.foldlM_cons_eq_ok.mp h
      rw [ih u dirs' h, collectResults_testcase hu, or_assoc, List.exists_mem_cons_iff]
  show t.testcase ∈ dirs.1 ↔ _
  rw [hloop queues _ _ hd]
  refine ⟨fun h => h.imp_right fun ⟨e, he, _, heq⟩ => ⟨e, he, heq⟩, fun h => ?_⟩
  by_cases hin : t.testcase ∈ s.tcDir
  · exact .inl hin
  · obtain ⟨e, he, heq⟩ := h.resolve_left hin
    exact .inr ⟨e, he, heq ▸ hin, heq⟩

/-- The testcases after `update_global`. -/
theorem updateGlobal_testcase (h : step p s (.updateGlobal os) = some s') :
    t.testcase ∈ s'.gbl ↔ t.testcase ∈ s.gbl ∨ t.testcase ∈ s.tcDir ∧ t.metadata.deleted ∉ s.gbl := by
  obtain ⟨gbl, hg, rfl⟩ := Fold.toOption_map_eq_some.mp h
  have hfam : t.testcase ∈ t.family := by simp [TcName.family]
  show t.testcase ∈ gbl ↔ _
  rw [(updateGlobal_ok hg).mem]
  constructor
  · rintro (h | ⟨u, hu, hn⟩ | ⟨hs, -⟩)
    · exact .inl h
    · cases TcName.eq_of_mem_family hfam hn.mem_family
      exact .inr ⟨hu.mem, hu.not_deleted⟩
    · exact absurd hfam (cmprCrashSite_notMem_family hs t)
  · rintro (h | ⟨hin, hdel⟩)
    · exact .inl h
    · by_cases hg : t.testcase ∈ s.gbl
      · exact .inl hg
      · exact .inr (.inl ⟨t, ⟨hin, hg, hdel⟩, .inl rfl⟩)

/-! ## Where the testcases of an iteration come from -/

/-- One round of the loop of a job. -/
theorem terminateCase_testcase {gbl : Dir} {k : Kind} (h : terminateCase p gbl k job dirs q = .ok dirs') :
    t.testcase ∈ dirs'.1 ↔ t.testcase ∈ dirs.1 ∨ caseName (job, q) = t.testcase := by
  obtain ⟨d, hd, hrest⟩ := terminateCase_cases h
  have hcase : t.testcase ∈ d.1 ↔ t.testcase ∈ dirs.1 ∨ caseName (job, q) = t.testcase :=
    (collectTc_testcase hd).trans (or_congr_right eq_comm)
  rw [← hcase]
  rcases hrest with rfl | ⟨_, _, -, -, rfl⟩
  · exact Iff.rfl
  · exact Iff.rfl

/-- A step of an iteration adds the cases of a job's queue. -/
theorem step_testcase (hop : op.inIteration = true) (h : step p s op = some s')
    (ht : t.testcase ∈ s'.tcDir) : t.testcase ∈ s.tcDir ∨
      ∃ k file os queue, op = .terminate k file os queue ∧
        ∃ q ∈ queue, caseName (jobName k file, q) = t.testcase := by
  cases op with
  | updateLocal os =>
    obtain ⟨loc, -, rfl⟩ := Fold.toOption_map_eq_some.mp h
    exact .inl ht
  | run k file =>
    obtain ⟨-, h⟩ := Option.ite_none_right_eq_some.mp h
    cases h
    exact .inl ht
  | terminate k file os queue =>
    obtain ⟨-, h⟩ := Option.ite_none_right_eq_some.mp h
    obtain ⟨dirs, hd, rfl⟩ := Fold.toOption_map_eq_some.mp h
    obtain ⟨d, hqueue, h⟩ := Fold.bind_eq_ok.mp hd
    cases h
    have hloop := Fold.foldlM_inv (P := fun d : Dir × Dir => t.testcase ∈ d.1 → t.testcase ∈ s.tcDir ∨
        ∃ q ∈ queue, caseName (jobName k file, q) = t.testcase)
      (fun q hq d d' hin hround ht => ((terminateCase_testcase hround).mp ht).elim hin
        fun heq => .inr ⟨q, hq, heq⟩) .inl hqueue ht
    exact hloop.imp_right fun hq => ⟨k, file, os, queue, rfl, hq⟩
  | dedupEngine os =>
    obtain ⟨tcDir, hrun, rfl⟩ := Fold.toOption_map_eq_some.mp h
    exact .inl ((mapEngine_whole hrun).testcase_mem ht)
  | deduplicateLcl os db fdedup minTc minCorpus =>
    obtain ⟨imgDir, -, rfl | ⟨-, tcDir, gbl, hrun, rfl⟩⟩ :=
      deduplicateLcl_ok (Fold.toOption_eq_some.mp h)
    · exact .inl ht
    · exact .inl ((minimizeLcl_ok hrun).1.testcase_mem ht)
  | _ => cases hop

/-- Every testcase of an iteration is a case of a job that was terminated in
it. -/
theorem exec_testcase (hops : ∀ op ∈ ops, op.inIteration = true) (h : exec (step p) s ops = some s')
    (ht : t.testcase ∈ s'.tcDir) : t.testcase ∈ s.tcDir ∨
      ∃ k file os queue, .terminate k file os queue ∈ ops ∧
        ∃ q ∈ queue, caseName (jobName k file, q) = t.testcase := by
  induction ops generalizing s with
  | nil =>
    cases h
    exact .inl ht
  | cons op ops ih =>
    obtain ⟨hop, hops⟩ := List.forall_mem_cons.mp hops
    obtain ⟨u, hu, h⟩ := (exec_cons_eq_some (step p)).mp h
    rcases ih hops h with hin | ⟨k, file, os, queue, hmem, hq⟩
    · rcases step_testcase hop hu hin with hin | ⟨k, file, os, queue, rfl, hq⟩
      · exact .inl hin
      · exact .inr ⟨k, file, os, queue, List.mem_cons_self, hq⟩
    · exact .inr ⟨k, file, os, queue, List.mem_cons_of_mem op hmem, hq⟩

/-- AFL keeps what a job's queue held when it was terminated. -/
def QueuesKept (ops : List Op) (queues : List (Str × QueueCase)) : Prop :=
  ∀ k file os queue, .terminate k file os queue ∈ ops → ∀ q ∈ queue, (jobName k file, q) ∈ queues

/-- A testcase that local deduplication removed in an iteration is neither
copied back nor added to `@dedup` exactly if no queue lists a case of it; if
the queues are kept, it comes back. -/
theorem collect_keeps_iff (hops : ∀ op ∈ ops, op.inIteration = true)
    (hstart : ∀ t : TcName, t.testcase ∉ s.tcDir) (hrun : exec (step p) s ops = some s₁)
    (hcollect : step p s₁ (.collect queues) = some s₂)
    (hglobal : step p s₂ (.updateGlobal os) = some s₃) (ht : Removed p s ops t) :
    (t.testcase ∉ s₁.tcDir →
      (t.testcase ∉ s₂.tcDir ∧ (t.testcase ∈ s₃.gbl → t.testcase ∈ s₂.gbl) ↔
        ∀ e ∈ queues, caseName e ≠ t.testcase)) ∧
    (QueuesKept ops queues → t.testcase ∈ s₂.tcDir) := by
  rw [updateGlobal_testcase hglobal, collect_testcase hcollect]
  refine ⟨fun hgone => ⟨fun ⟨hnot, _⟩ e he heq => hnot (.inr ⟨e, he, heq⟩), fun hno => ?_⟩,
    fun hkept => .inr ?_⟩
  · have hnot : ¬ (t.testcase ∈ s₁.tcDir ∨ ∃ e ∈ queues, caseName e = t.testcase) := by
      intro h
      obtain ⟨e, he, heq⟩ := h.resolve_left hgone
      exact hno e he heq
    exact ⟨hnot, fun h => h.resolve_right fun h => hnot h.1⟩
  · obtain ⟨before, op, after, u, v, rfl, -, hbefore, -, hin, -⟩ := ht
    have hops' : ∀ op ∈ before, op.inIteration = true := fun o ho =>
      hops o (List.mem_append_left _ ho)
    obtain ⟨k, file, os, queue, hmem, q, hq, heq⟩ :=
      (exec_testcase hops' hbefore hin).resolve_left (hstart t)
    exact ⟨_, hkept k file os queue (List.mem_append_left _ hmem) q hq, heq⟩

/-! ## Runs -/

/-- The iteration `before ++ op :: after` from `start` removes `t` with `op`,
and what comes of it with the queues `queues`. -/
def removalOf (start before : List Op) (op : Op) (after : List Op) (queues : List (Str × QueueCase))
    (t : TcName) : Option (List Bool) :=
  (exec (step dirNames) init start).bind fun s => (exec (step dirNames) s before).bind fun u =>
    (step dirNames u op).bind fun v => (exec (step dirNames) v after).bind fun s₁ =>
      (step dirNames s₁ (.collect queues)).bind fun s₂ =>
        (step dirNames s₂ (.updateGlobal (Os.sorted Place 0))).map fun s₃ =>
          [s.tcDir.keys = ∅, t.testcase ∈ u.tcDir, t.testcase ∈ v.tcDir, t.testcase ∈ s₁.tcDir,
            t.testcase ∈ s₂.tcDir, t.testcase ∈ s₂.gbl, t.testcase ∈ s₃.gbl]

theorem removalOf_eq_some {start before after : List Op} {b₁ b₂ b₃ : Bool}
    (hop : op.deduplicatesLocal = true)
    (h : removalOf start before op after queues t = some [true, true, false, false, b₁, b₂, b₃]) :
    ∃ s s₁ s₂ s₃, exec (step dirNames) init start = some s ∧ (∀ t : TcName, t.testcase ∉ s.tcDir) ∧
      exec (step dirNames) s (before ++ op :: after) = some s₁ ∧
      step dirNames s₁ (.collect queues) = some s₂ ∧
      step dirNames s₂ (.updateGlobal (Os.sorted Place 0)) = some s₃ ∧
      Removed dirNames s (before ++ op :: after) t ∧ t.testcase ∉ s₁.tcDir ∧
      decide (t.testcase ∈ s₂.tcDir) = b₁ ∧ decide (t.testcase ∈ s₂.gbl) = b₂ ∧
      decide (t.testcase ∈ s₃.gbl) = b₃ := by
  obtain ⟨s, hs, h⟩ := Option.bind_eq_some_iff.mp h
  obtain ⟨u, hu, h⟩ := Option.bind_eq_some_iff.mp h
  obtain ⟨v, hv, h⟩ := Option.bind_eq_some_iff.mp h
  obtain ⟨s₁, hs₁, h⟩ := Option.bind_eq_some_iff.mp h
  obtain ⟨s₂, hs₂, h⟩ := Option.bind_eq_some_iff.mp h
  obtain ⟨s₃, hs₃, h⟩ := Option.map_eq_some_iff.mp h
  simp only [List.cons.injEq, decide_eq_true_eq, decide_eq_false_iff_not, and_true] at h
  obtain ⟨hempty, hin, hout, hgone, h₁, h₂, h₃⟩ := h
  have hrun : exec (step dirNames) s (before ++ op :: after) = some s₁ := by
    rw [exec_append, hu]
    exact (exec_cons_eq_some (step dirNames)).mpr ⟨v, hv, hs₁⟩
  refine ⟨s, s₁, s₂, s₃, hs, fun t ht => ?_, hrun, hs₂, hs₃,
    ⟨before, op, after, u, v, rfl, hop, hu, hv, hin, hout⟩, hgone, h₁, h₂, h₃⟩
  have := Finmap.mem_keys.mpr ht
  rw [hempty] at this
  cases this

/-- The first stage finds one case, with a failure image. -/
def firstRoot : List Op := [.collectStage1 [firstCase], .updateGlobalStage1 (Os.sorted Place 0)]

/-- The queue of the job on its image: two cases with one PM map. -/
def twinCases : List QueueCase :=
  [caseOf "2".toList isDigits_2 [0, 2] [9] none, caseOf "3".toList isDigits_3 [0, 3] [9] none]

/-- The queue of the job on its crash site: two cases with one exec map. -/
def siteTwinCases : List QueueCase :=
  [caseOf "3".toList isDigits_3 [0, 3] [3] none, caseOf "4".toList isDigits_4 [0, 3] [4] none]

/-- The jobs are started. -/
def started : List Op :=
  [.updateLocal (Os.sorted Place 0), .run .tc "id=1.testcase".toList,
    .run .cs "id=1.id=5.crash_site.tar.gz".toList]

/-- The case of the job on the testcase that `minimize_corpus_lcl` drops. -/
def twin : TcName := (caseOf "3".toList isDigits_3 [0, 3] [9] none).child isClean_first

/-- The case of the job on the crash site that the engine deletes. -/
def siteTwin : TcName := (caseOf "4".toList isDigits_4 [0, 3] [4] none).child isClean_site

/-- `minimize_corpus_lcl` of `_terminate_testcase`. -/
def minimize : Op := .deduplicateLcl (Os.sorted Place 0) (fun _ => none) true false true

/-- The job on the testcase is terminated. -/
def twinRun : List Op :=
  started ++ [.terminate .tc "id=1.testcase".toList (Os.sorted Place 0) twinCases]

/-- The job on the crash site is terminated. -/
def siteTwinRun : List Op :=
  started ++ [.terminate .cs "id=1.id=5.crash_site.tar.gz".toList (Os.sorted Place 0) siteTwinCases]

/-- The queues without the case that was removed. -/
def otherCases : List (Str × QueueCase) :=
  [("id=1".toList, caseOf "2".toList isDigits_2 [0, 2] [9] none),
    ("id=1.id=5".toList, caseOf "3".toList isDigits_3 [0, 3] [3] none)]

theorem collect_keeps_iff_otherCases : ∃ s s₁ s₂ s₃, exec (step dirNames) init firstRoot = some s ∧
    exec (step dirNames) s (twinRun ++ [minimize]) = some s₁ ∧
    step dirNames s₁ (.collect otherCases) = some s₂ ∧
    step dirNames s₂ (.updateGlobal (Os.sorted Place 0)) = some s₃ ∧
    Removed dirNames s (twinRun ++ [minimize]) twin ∧
    twin.testcase ∉ s₂.tcDir ∧ (twin.testcase ∈ s₃.gbl → twin.testcase ∈ s₂.gbl) := by
  obtain ⟨s, s₁, s₂, s₃, hs, hstart, hrun, hcollect, hglobal, ht, hgone, -⟩ :=
    removalOf_eq_some rfl (by decide +kernel : removalOf firstRoot twinRun minimize [] otherCases twin =
      some [true, true, false, false, false, false, false])
  have hops : ∀ op ∈ twinRun ++ [minimize], op.inIteration = true := List.all_eq_true.mp rfl
  exact ⟨s, s₁, s₂, s₃, hs, hrun, hcollect, hglobal, ht,
    ((collect_keeps_iff hops hstart hrun hcollect hglobal ht).1 hgone).mpr (by decide)⟩

/-- An iteration removes the testcase and `collect_results` copies it back,
from where it gets into `@dedup`. -/
def Returns (ops : List Op) (queues : List (Str × QueueCase)) (t : TcName) : Prop :=
  ∃ s s₁ s₂ s₃, exec (step dirNames) init firstRoot = some s ∧
    exec (step dirNames) s ops = some s₁ ∧ step dirNames s₁ (.collect queues) = some s₂ ∧
    step dirNames s₂ (.updateGlobal (Os.sorted Place 0)) = some s₃ ∧ Removed dirNames s ops t ∧
    t.testcase ∉ s₁.tcDir ∧ t.testcase ∈ s₂.tcDir ∧ t.testcase ∉ s₂.gbl ∧ t.testcase ∈ s₃.gbl

theorem returns_of {before after : List Op} (hop : op.deduplicatesLocal = true)
    (h : removalOf firstRoot before op after queues t = some [true, true, false, false, true, false, true]) :
    Returns (before ++ op :: after) queues t := by
  obtain ⟨s, s₁, s₂, s₃, hs, -, hrun, hcollect, hglobal, ht, hgone, hback, hnew, hadded⟩ :=
    removalOf_eq_some hop h
  exact ⟨s, s₁, s₂, s₃, hs, hrun, hcollect, hglobal, ht, hgone, of_decide_eq_true hback,
    of_decide_eq_false hnew, of_decide_eq_true hadded⟩

/-- A case that `minimize_corpus_lcl` drops comes back, and one that the
engine deletes. -/
theorem removed_child_returns :
    Returns (twinRun ++ [minimize]) (twinCases.map fun q => ("id=1".toList, q)) twin ∧
    Returns (siteTwinRun ++ [.dedupEngine (Os.sorted Place 0), minimize])
      (siteTwinCases.map fun q => ("id=1.id=5".toList, q)) siteTwin :=
  ⟨returns_of rfl (by decide +kernel), returns_of rfl (by decide +kernel)⟩

end PMFuzz.Pipeline
