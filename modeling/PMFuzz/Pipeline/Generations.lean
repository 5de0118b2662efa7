import PMFuzz.Dedup.UpdateLocal
import PMFuzz.Pipeline.Coverage
import PMFuzz.Pipeline.Orphans

/-!
# Generations

`update_local` of iteration `k` selects the testcases with `iter_cnt` `k`,
which counts the `,` of a name. A testcase found by a job has one more than
the job (`ChildOf.iterCnt`). Jobs on testcases have `iter_cnt` `k`
(`GenInv`); the crash sites of `@dedup` are run whatever theirs is.
`scheduled_iff` says which testcases the next iteration gets.
-/

namespace PMFuzz.Pipeline

open Names Str Dedup Stage2 Run

/-- The testcase is an input of an iteration with this `@dedup_sync`. -/
def IsInput (os : Os Place) (cfg : Config) (loc : Dir) (t : TcName) : Prop :=
  ∃ inputs, localDedupListSt2 os cfg loc = .ok inputs ∧ t.testcase ∈ inputs.map Prod.fst

/-- Iteration `k + 1`, which is at `u`, gets the testcase: `update_local` copies it, and it is one of
the inputs then. -/
structure Scheduled (p : Paths) (os : Os Place) (cfg : Config) (k : ℕ) (u : State) (t : TcName) : Prop where
  generation : iterCnt t.testcase = .ok (k + 1)
  copied : ∃ u', step p u (.updateLocal os) = some u' ∧ t.testcase ∈ u'.loc ∧ IsInput os cfg u'.loc t

/-- The testcases of an iteration are of its generation. -/
structure GenInv (s : State) : Prop where
  synced : ∀ t : TcName, t.testcase ∈ s.loc → iterCnt t.testcase = .ok s.iterId
  jobs : ∀ job, s.jobs job ≠ .new → IsTcClean job →
    iterCnt (job ++ ".testcase".toList) = .ok s.iterId

variable {p : Paths} {s s' : State} {op : Op} {ops : List Op} {os : Os Place} {t : TcName} {job n : Str}
  {gbl loc : Dir}

/-- A child is one generation after its parent. -/
theorem ChildOf.iterCnt (h : ChildOf job t) : ∃ n, iterCnt (job ++ ".testcase".toList) = .ok n ∧
    iterCnt t.testcase = .ok (n + 1) := by
  obtain ⟨q, hjob, rfl⟩ := h
  have hparent : (TcName.mk job hjob false).testcase = job ++ ".testcase".toList := TcName.testcase_eq rfl
  have hbare : (TcName.mk job hjob false).bare = job := TcName.bare_eq rfl
  have hchild : (q.child hjob).bare = job ++ ',' :: ("id=".toList ++ q.id) := TcName.bare_eq rfl
  have hpos := List.length_pos_of_ne_nil (List.splitOn_ne_nil ',' job)
  have hsplit : split (job ++ ',' :: ("id=".toList ++ q.id)) ',' =
      split job ',' ++ ["id=".toList ++ q.id] := by
    rw [split, List.splitOn_append_cons_self, List.splitOn_eq_singleton (comma_notMem_tag q.digits)]
    rfl
  refine ⟨_, by rw [← hparent, iterCnt_testcase], ?_⟩
  rw [iterCnt_testcase, TcName.ancestors, TcName.ancestors, hchild, hbare, hsplit, List.length_append]
  show Except.ok ((split job ',').length + 1 - 1 + 1) = Except.ok ((split job ',').length - 1 + 1 + 1)
  have hlen : 0 < (split job ',').length := hpos
  congr 1
  omega

/-- `update_local` replaces nothing in the names of `@dedup_sync`. -/
theorem SyncOk.replace_min (h : SyncOk gbl loc) (hn : n ∈ loc) : replace n ".min".toList [] = n := by
  refine replace_of_not_infix (fun hin => ?_) (by decide)
  have hno : ∀ t : TcName, ¬ ".min".toList <:+: t.testcase := fun t =>
    t.not_infix_testcase (by decide) (by decide) (by decide)
  rcases h n hn with ⟨t, hmade, -, hfam⟩ | ⟨hsite, -⟩
  · simp only [TcName.family, List.mem_cons, List.not_mem_nil, or_false] at hfam
    rcases hfam with rfl | rfl | rfl | rfl
    · exact hno t hin
    · have hstart : NoStart ".min".toList "map_".toList t.testcase := noStart_of_head (p := '.') (by decide)
      exact hno t (hstart.infix_iff.mp hin)
    · have hstart : NoStart ".min".toList "pm_map_".toList t.testcase :=
        noStart_of_head (p := '.') (by decide)
      exact hno t (hstart.infix_iff.mp hin)
    · rw [TcName.image, TcName.nl, hmade.newline] at hin
      exact absurd ((t.infix_iff (by decide) rfl).mp hin) (by decide)
  · obtain ⟨c, hc, rfl⟩ := hsite
    exact absurd ((TcName.infix_iff ⟨c, hc.isClean, false⟩ (by decide) rfl).mp hin) (by decide)

/-! ## Steps -/

theorem genInv_init : GenInv init where
  synced _ ht := absurd ht Finmap.notMem_empty
  jobs _ h := absurd rfl h

theorem gen_step (hi : Inv s) (hg : GenInv s) (h : step p s op = some s') : GenInv s' := by
  cases op with
  | collectStage1 queue =>
    obtain ⟨dirs, -, rfl⟩ := Fold.toOption_map_eq_some.mp h
    exact ⟨hg.synced, hg.jobs⟩
  | updateGlobalStage1 os =>
    obtain ⟨gbl, -, rfl⟩ := Fold.toOption_map_eq_some.mp h
    exact ⟨hg.synced, hg.jobs⟩
  | updateLocal os =>
    obtain ⟨loc, hl, rfl⟩ := Fold.toOption_map_eq_some.mp h
    refine ⟨fun t ht => ?_, hg.jobs⟩
    rcases (updateLocal_testcase hl fun n => hi.synced.replace_min).mp ht with
      ht | ⟨-, hgen⟩
    · exact hg.synced t ht
    · exact hgen
  | run k file =>
    obtain ⟨⟨hin, hch, -⟩, h⟩ := Option.ite_none_right_eq_some.mp h
    cases h
    refine ⟨hg.synced, fun job hjob htc => ?_⟩
    by_cases hne : job = jobName k file
    · -- the new job is on a testcase of `@dedup_sync`
      have hk : k = .tc := (hi.synced.jobImage hin hch).isJob.unique (show IsJob .tc _ from hne ▸ htc)
      subst hk
      obtain ⟨t, hmade, -, hfile, hname⟩ := hi.synced.testcaseJob hin hch
      rw [hne, hname, ← TcName.testcase_eq hmade.newline]
      exact hg.synced t (hfile ▸ hin)
    · change Function.update s.jobs (jobName k file) _ job ≠ .new at hjob
      rw [Function.update_of_ne hne] at hjob
      exact hg.jobs job hjob htc
  | terminate k file os queue =>
    obtain ⟨⟨-, -, hrun⟩, h⟩ := Option.ite_none_right_eq_some.mp h
    obtain ⟨dirs, -, rfl⟩ := Fold.toOption_map_eq_some.mp h
    refine ⟨hg.synced, fun job hjob htc => hg.jobs job ?_ htc⟩
    by_cases hne : job = jobName k file
    · rw [hne, hrun]
      decide
    · change Function.update s.jobs (jobName k file) _ job ≠ .new at hjob
      rwa [Function.update_of_ne hne] at hjob
  | dedupEngine os =>
    obtain ⟨tcDir, -, rfl⟩ := Fold.toOption_map_eq_some.mp h
    exact ⟨hg.synced, hg.jobs⟩
  | deduplicateLcl os db fdedup minTc minCorpus =>
    obtain ⟨imgDir, -, rfl | ⟨-, tcDir, gbl, -, rfl⟩⟩ :=
      deduplicateLcl_ok (Fold.toOption_eq_some.mp h) <;> exact ⟨hg.synced, hg.jobs⟩
  | collect queues =>
    obtain ⟨-, h⟩ := Option.ite_none_right_eq_some.mp h
    obtain ⟨dirs, -, rfl⟩ := Fold.toOption_map_eq_some.mp h
    exact ⟨hg.synced, fun job hjob => hg.jobs job fun hnew => hjob (if_pos hnew)⟩
  | updateGlobal os =>
    obtain ⟨gbl, -, rfl⟩ := Fold.toOption_map_eq_some.mp h
    exact ⟨hg.synced, hg.jobs⟩
  | deduplicateGbl os fdedupCfg fdedup minTc minCorpus =>
    obtain ⟨gbl, -, rfl⟩ := Fold.toOption_map_eq_some.mp h
    exact ⟨hg.synced, hg.jobs⟩
  | clear =>
    cases h
    exact ⟨fun _ ht => absurd ht Finmap.notMem_empty, fun _ h => absurd rfl h⟩

theorem genInv_exec (h : exec (step p) init ops = some s) : Inv s ∧ GenInv s :=
  exec_inv (step p) (I := fun s => Inv s ∧ GenInv s)
    (fun hi hs => ⟨(inv_step hi.1 hs).1, gen_step hi.1 hi.2 hs⟩) ⟨inv_init, genInv_init⟩ h

/-! ## The next iteration -/

/-- `should_use_tc` decides on the testcases of `@dedup_sync`. -/
theorem SyncOk.exists_shouldUseTc (h : SyncOk gbl loc) (hn : n ∈ loc) (htc : isTc n true = true)
    (selectIds : List ℤ) : ∃ use, shouldUseTc selectIds n = .ok use := by
  obtain ⟨t, hmade, -, rfl, -⟩ := h.testcaseJob hn htc
  obtain ⟨ids, hids⟩ := exists_lineage t.isClean
  have hbase : Glob.basename t.testcase = t.testcase :=
    Glob.basename_of_notMem (notMem_testcase (by decide) (by decide) (by decide))
  unfold shouldUseTc
  split
  · exact ⟨true, rfl⟩
  · rw [getLineage_eq hmade.newline hbase (getMetadataFiles_testcase t), hids]
    exact ⟨_, rfl⟩

/-- A testcase there is an input if it is selected. -/
theorem SyncOk.isInput_iff (h : SyncOk gbl loc) {cfg : Config} (ht : t.testcase ∈ loc) :
    IsInput os cfg loc t ↔ shouldUseTc cfg.ids t.testcase = .ok true := by
  have hlist : ∀ e, e ∈ localDedupList os loc ↔ ∃ n ∈ loc, isTc n true = true ∧
      (n, if replace n ".testcase".toList ".pm_pool".toList ∈ loc then
        some (replace n ".testcase".toList ".pm_pool".toList) else none) = e := by
    intro e
    simp only [localDedupList, List.mem_map, List.mem_filter, os.mem_listdir, and_assoc]
  have hin : ∃ e ∈ localDedupList os loc, e.1 = t.testcase :=
    ⟨_, (hlist _).mpr ⟨_, ht, isTc_all t, rfl⟩, rfl⟩
  obtain ⟨inputs, hinputs⟩ : ∃ inputs, localDedupListSt2 os cfg loc = .ok inputs := by
    refine Fold.exists_filterM fun e he => ?_
    obtain ⟨n, hn, htc, rfl⟩ := (hlist e).mp he
    exact h.exists_shouldUseTc hn htc cfg.ids
  constructor
  · rintro ⟨inputs', hinputs', hmem⟩
    obtain ⟨e, he, heq⟩ := List.mem_map.mp hmem
    rw [← heq]
    exact ((Fold.mem_filterM hinputs').mp he).2
  · intro huse
    obtain ⟨e, he, heq⟩ := hin
    exact ⟨inputs, hinputs, List.mem_map.mpr ⟨e, (Fold.mem_filterM hinputs).mpr ⟨he, heq ▸ huse⟩, heq⟩⟩

/-- In its iteration a testcase of `@dedup` is copied, exactly if those to be copied have exec maps. -/
theorem scheduled_iff_of_iterCnt (hi : Inv s) {k : ℕ} (hk : s.iterId = k + 1) (hin : t.testcase ∈ s.gbl)
    (hcnt : iterCnt t.testcase = .ok (k + 1)) (cfg : Config) :
    Scheduled p os cfg k s t ↔ (∀ v, Due s.iterId s.gbl s.loc v → v.metadata.map ∈ s.gbl) ∧
      shouldUseTc cfg.ids t.testcase = .ok true := by
  have hmin := fun n => hi.synced.replace_min (n := n)
  have hinv : ∀ {s'}, step p s (.updateLocal os) = some s' → SyncOk s'.gbl s'.loc := fun hs => (inv_step hi hs).1.synced
  constructor
  · rintro ⟨-, s', hs, ht, hinput⟩
    have huse := ((hinv hs).isInput_iff ht).mp hinput
    obtain ⟨loc, hl, rfl⟩ := Fold.toOption_map_eq_some.mp hs
    exact ⟨fun v hv => updateLocal_map hl hmin hv.mem hv.generation hv.notMem, huse⟩
  · rintro ⟨hmaps, huse⟩
    obtain ⟨loc, hl⟩ : ∃ loc, updateLocal os s.iterId s.gbl s.loc = .ok loc := by
      refine updateLocal_total fun v hv hgen hno => ⟨?_, hmaps v ⟨hv, hgen, hno⟩⟩
      obtain ⟨hmade, himg⟩ := hi.store.testcase v hv
      exact v.image_eq hmade.newline ▸ himg
    have hs : step p s (.updateLocal os) = some { s with loc := loc } := Fold.toOption_map_eq_some.mpr ⟨loc, hl, rfl⟩
    have ht : t.testcase ∈ loc := (updateLocal_testcase hl hmin).mpr (.inr ⟨hin, hk ▸ hcnt⟩)
    exact ⟨hcnt, _, hs, ht, ((hinv hs).isInput_iff ht).mpr huse⟩

/-- A testcase that `update_global` adds, and that is still there in the next iteration, is an input of it
exactly if the job that found it ran on the image of a testcase or on a crash site of the iteration's
generation, what is to be copied has exec maps, and it is selected. -/
theorem scheduled_iff {s u : State} {ops ops' : List Op} {os' : Os Place} (h : exec (step p) init ops = some s)
    (hs : step p s (.updateGlobal os) = some s') (ht : t.testcase ∈ s'.gbl) (hnew : t.testcase ∉ s.gbl)
    (hu : exec (step p) s' ops' = some u) (hk : u.iterId = s.iterId + 1) (hin : t.testcase ∈ u.gbl) (cfg : Config) :
    Scheduled p os' cfg s.iterId u t ↔
      (∃ job, ChildOf job t ∧ (IsTcClean job ∨ iterCnt (job ++ ".testcase".toList) = .ok s.iterId)) ∧
      (∀ v, Due u.iterId u.gbl u.loc v → v.metadata.map ∈ u.gbl) ∧ shouldUseTc cfg.ids t.testcase = .ok true := by
  have hfound := ((updateGlobal_testcase hs).mp ht).resolve_left hnew
  obtain ⟨job, hjob, hterm⟩ := (coverInv_exec h).2.collected t hfound.1
  obtain ⟨n, hparent, hchild⟩ := hjob.iterCnt
  have hrun : exec (step p) init (ops ++ .updateGlobal os :: ops') = some u := by
    rw [exec_append, h]
    exact (exec_cons_eq_some (step p)).mpr ⟨s', hs, hu⟩
  have hlast : iterCnt t.testcase = .ok (s.iterId + 1) → (Scheduled p os' cfg s.iterId u t ↔
      (∀ v, Due u.iterId u.gbl u.loc v → v.metadata.map ∈ u.gbl) ∧ shouldUseTc cfg.ids t.testcase = .ok true) :=
    fun hcnt => scheduled_iff_of_iterCnt (inv_exec hrun) hk hin hcnt cfg
  constructor
  · intro hsched
    have hn : n + 1 = s.iterId + 1 := Except.ok.inj (hchild.symm.trans hsched.generation)
    exact ⟨⟨job, hjob, .inr (by rw [hparent, Nat.succ.inj hn])⟩, (hlast hsched.generation).mp hsched⟩
  · rintro ⟨⟨job', hjob', hgen⟩, hrest⟩
    cases hjob.unique hjob'
    have hcnt : iterCnt (job ++ ".testcase".toList) = .ok s.iterId := by
      rcases hgen with htc | hgen
      · exact (genInv_exec h).2.jobs job (by rw [hterm]; decide) htc
      · exact hgen
    exact (hlast (by rw [hchild, Except.ok.inj (hparent.symm.trans hcnt)])).mpr hrest

/-! ## Runs -/

/-- `update_global` after `before` adds the testcase in iteration `k`. -/
def AddedBy (before : List Op) (k : ℕ) (t : TcName) (s s' : State) : Prop :=
  exec (step dirNames) init before = some s ∧
    step dirNames s (.updateGlobal (Os.sorted Place 0)) = some s' ∧
    s.iterId = k ∧ t.testcase ∉ s.gbl ∧ t.testcase ∈ s'.gbl

theorem addedBy_of {before : List Op} {k : ℕ} (h : ((exec (step dirNames) init before).bind fun s =>
      (step dirNames s (.updateGlobal (Os.sorted Place 0))).map fun s' =>
        decide (s.iterId = k ∧ t.testcase ∉ s.gbl ∧ t.testcase ∈ s'.gbl)) = some true) :
    ∃ s s', AddedBy before k t s s' := by
  obtain ⟨s, hs, h⟩ := Option.bind_eq_some_iff.mp h
  obtain ⟨s', hs', h⟩ := Option.map_eq_some_iff.mp h
  exact ⟨s, s', hs, hs', of_decide_eq_true h⟩

/-- Every testcase of the store has its exec map. -/
def EachHasMap (gbl : Dir) : Prop :=
  ∀ n ∈ (Os.sorted Place 0).listdir .gbl gbl, isTc n false = true → "map_".toList ++ n ∈ gbl

instance (gbl : Dir) : Decidable (EachHasMap gbl) := inferInstanceAs (Decidable (∀ n ∈ _, _))

/-- A configuration that selects the ids 1 and 3. -/
def selecting : Config := ⟨2, by decide, true, some [1, 3], 600⟩

/-- The child of a crash site of the first stage, found in the first
iteration. -/
theorem scheduled_iff_siteChild : ∃ s s' u, AddedBy bothJobs 1 siteChild s s' ∧
    exec (step dirNames) s' [.clear] = some u ∧ Scheduled dirNames (Os.sorted Place 0) selecting 1 u siteChild := by
  have hrun : ((exec (step dirNames) init bothJobs).bind fun s =>
      (step dirNames s (.updateGlobal (Os.sorted Place 0))).map fun s' =>
        decide ((s.iterId = 1 ∧ siteChild.testcase ∉ s.gbl ∧ siteChild.testcase ∈ s'.gbl) ∧
          s'.iterId = 1 ∧ EachHasMap s'.gbl)) = some true := by decide +kernel
  obtain ⟨s, hs, hrun⟩ := Option.bind_eq_some_iff.mp hrun
  obtain ⟨s', hs', hrun⟩ := Option.map_eq_some_iff.mp hrun
  obtain ⟨⟨hk, hnew, hin⟩, hk', hmaps⟩ := of_decide_eq_true hrun
  have hu : exec (step dirNames) s' [.clear] = some _ := rfl
  have hnext : s'.iterId + 1 = s.iterId + 1 := by rw [hk, hk']
  refine ⟨s, s', _, ⟨hs, hs', hk, hnew, hin⟩, hu, ?_⟩
  suffices h : Scheduled dirNames (Os.sorted Place 0) selecting s.iterId _ siteChild by rwa [hk] at h
  refine (scheduled_iff hs hs' hin hnew hu hnext hin selecting).mpr
    ⟨⟨_, ⟨_, isClean_site, rfl⟩, .inr ?_⟩, fun v hv => ?_, by decide +kernel⟩
  · rw [hk]
    decide
  · exact hmaps _ ((Os.sorted Place 0).mem_listdir.mpr hv.mem) (isTc_testcase v)

/-- The crash site is run again in the second iteration. -/
def siteAgain : List Op :=
  twoIterations ++ terminateCs (Os.sorted Place 0) (fun _ => none) true
    "id=1.id=5.crash_site.tar.gz".toList [plainCase "4".toList isDigits_4 [0, 4] [7]]

/-- What it finds then. -/
def lateChild : TcName := (plainCase "4".toList isDigits_4 [0, 4] [7]).child isClean_site

/-- The child of that crash site, found in the second iteration: no later one
gets it. -/
theorem lateChild_unscheduled : ∃ s s', AddedBy siteAgain 2 lateChild s s' ∧
    iterCnt lateChild.testcase = .ok 2 ∧ (∀ os cfg u, ¬ Scheduled dirNames os cfg 2 u lateChild) ∧
    ∀ ops u, exec (step dirNames) s' ops = some u → 2 < u.iterId → lateChild.testcase ∉ u.loc := by
  have hcnt : iterCnt lateChild.testcase = .ok 2 := by decide
  obtain ⟨s, s', hadd⟩ := @addedBy_of lateChild siteAgain 2 (by decide +kernel)
  refine ⟨s, s', hadd, hcnt, fun os cfg u hsched => ?_, fun ops u hu hk hin => ?_⟩
  · cases hcnt.symm.trans hsched.generation
  · have hrun : exec (step dirNames) init (siteAgain ++ (.updateGlobal (Os.sorted Place 0) :: ops)) =
        some u := by
      rw [exec_append, hadd.1]
      exact (exec_cons_eq_some (step dirNames)).mpr ⟨s', hadd.2.1, hu⟩
    have hgen := (genInv_exec hrun).2.synced lateChild hin
    have : u.iterId = 2 := Except.ok.inj (hgen.symm.trans hcnt)
    omega

end PMFuzz.Pipeline
