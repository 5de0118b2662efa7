import PMFuzz.Pipeline.Parents

/-!
# PM coverage

The contents of PM maps that an iteration holds (`Held`), and which steps keep
them:

* `minimizeLcl_held`: `minimize_corpus_lcl` keeps a content on which
  `@dedup_sync` and `tc_dir` agree with `@dedup` (`Agrees`);
* `engine_ok`: the engine's pass of `_terminate_cs` keeps, of the testcases
  with one exec map, one with the fewest ancestors, and the others give way
  to it (`GivesWay`);
* `cover_step`: what each step keeps, and `pm_coverage`: in every state of a
  run;
* `coverage_lost`: runs in which a content goes.

What carries them is `Inv` and `CoverInv`: maps of `tc_dir` are beside their
testcase, and a PM map of `@dedup_sync` is the one of `@dedup` as long as the
testcase is there.
-/

namespace PMFuzz.Pipeline

open Names Str Dedup Stage2 Run

/-- A testcase of `@dedup` or of `tc_dir` has a PM map with the content
`b`. -/
def Held (s : State) (b : Bytes) : Prop :=
  ∃ t, HasMap .pmMap s.gbl b t ∨ HasMap .pmMap s.tcDir b t

/-- The testcase `t` has the exec map of another one, which has the fewest
ancestors of all that have it and is kept. -/
def GivesWay (tcDir tcDir' : Dir) (t : TcName) : Prop :=
  ∃ u c, u ≠ t ∧ HasMap .map tcDir c t ∧ HasMap .map tcDir c u ∧
    (∀ n ∈ buriedFiles u, tcDir'.lookup n = tcDir.lookup n) ∧
    ∀ v, HasMap .map tcDir c v → u.ancestors ≤ v.ancestors

/-- The testcases of `@dedup_sync` with the content `b` are still in `@dedup`,
and those of `@dedup` have no other PM map in `tc_dir`. -/
structure Agrees (s : State) (b : Bytes) : Prop where
  synced : ∀ t, HasMap .pmMap s.loc b t → t.testcase ∈ s.gbl
  same : ∀ t, HasMap .pmMap s.gbl b t → t.testcase ∈ s.tcDir → HasMap .pmMap s.tcDir b t

/-- The step minimizes the corpus of the iteration. -/
def Op.minimizesLocal : Op → Bool
  | .deduplicateLcl _ _ _ _ minCorpus => minCorpus
  | _ => false

/-- What the steps keep beside `Inv`. -/
structure CoverInv (s : State) : Prop where
  beside : ∀ t : TcName, ∀ n ∈ buriedFiles t, n ∈ s.tcDir → t.testcase ∈ s.tcDir
  collected : ∀ t : TcName, t.testcase ∈ s.tcDir → ∃ job, ChildOf job t ∧ s.jobs job = .terminated
  syncBeside : ∀ t : TcName, t.metadata.pmMap ∈ s.loc → t.testcase ∈ s.loc
  syncKnown : ∀ t : TcName, t.testcase ∈ s.loc → t.testcase ∈ s.gbl ∨ t.metadata.deleted ∈ s.gbl
  syncSame : ∀ t : TcName, t.testcase ∈ s.gbl → t.metadata.pmMap ∈ s.loc →
    s.loc.lookup t.metadata.pmMap = s.gbl.lookup t.metadata.pmMap

variable {gbl' tcDir tcDir' loc' : Dir} {t : TcName} {b : Bytes} {k : MapKind} {s s' : State} {p : Paths}
  {op : Op} {os : Os Place} {job job' : Str} {new : TcName → Prop} {dirs dirs' : Dir × Dir}

/-! ## `tc_dir` -/

/-- A testcase comes from one job. -/
theorem ChildOf.unique (h : ChildOf job t) (h' : ChildOf job' t) : job = job' := by
  obtain ⟨q, hjob, rfl⟩ := h
  obtain ⟨q', hjob', heq⟩ := h'
  exact (last_delim (by decide) (by decide) (isDelim_tag q.digits) (isDelim_tag q'.digits)
    (congrArg TcName.clean heq)).1

/-- Collecting other testcases keeps the maps. -/
theorem Collects.hasMap (hc : Collects new dirs dirs') (hnew : ∀ t, new t → t.testcase ∉ dirs.1)
    (hb : HasMap k dirs.1 b t) : HasMap k dirs'.1 b t := by
  refine hb.congr fun n hn => hc.frame n fun u hu hnu => ?_
  cases TcName.eq_of_mem_family (mem_family_of_buried hn) (mem_family_of_buried hnu)
  exact hnew t hu hb.1

/-- The pass of the engine: a testcase that is not kept gives way. -/
theorem engine_ok (hbeside : ∀ t : TcName, ∀ n ∈ buriedFiles t, n ∈ tcDir → t.testcase ∈ tcDir)
    (hrun : DedupEngine.run os.time isMap tcDir (os.listdir .tc tcDir) = .ok tcDir') :
    ∀ t : TcName, GivesWay tcDir tcDir' t ∨
      ∀ n ∈ buriedFiles t, tcDir'.lookup n = tcDir.lookup n := by
  obtain ⟨tcs, d, hd, hnodup, hmem, hdrops⟩ := mapEngine_ok os tcDir
  cases hd.symm.trans hrun
  have hmap : ∀ {t : TcName} {c}, HasMap .map tcDir c t → t ∈ tcs ∧
      (tcDir.lookup t.metadata.map).getD [] = c := by
    intro t c h
    have hlook : tcDir.lookup t.metadata.map = some c := h.2
    refine ⟨(hmem t).mpr (Finmap.lookup_isSome.mp ?_), ?_⟩ <;> rw [hlook] <;> rfl
  have hasMap : ∀ {t : TcName}, t ∈ tcs →
      HasMap .map tcDir ((tcDir.lookup t.metadata.map).getD []) t := by
    intro t ht
    have hin := (hmem t).mp ht
    obtain ⟨c, hc⟩ := Finmap.mem_iff.mp hin
    refine ⟨hbeside t _ (by simp [buriedFiles]) hin, ?_⟩
    show tcDir.lookup t.metadata.map = _
    rw [hc]
    rfl
  intro t
  by_cases ht : t ∈ DedupEngine.dropped (fun t => (tcDir.lookup t.metadata.map).getD []) tcs
  · left
    have htcs := DedupEngine.mem_of_dropped ht
    obtain ⟨u, hu, hkey, hkept, hfewest⟩ := DedupEngine.exists_survivor hnodup htcs
    have hkey' : (tcDir.lookup u.metadata.map).getD [] = (tcDir.lookup t.metadata.map).getD [] := hkey
    refine ⟨u, _, fun heq => hkept (heq ▸ ht), hasMap htcs, hkey' ▸ hasMap hu, fun n hn =>
      hdrops.lookup_kept (fun _ => List.Subset.refl _) hkept hn, fun v hv => ?_⟩
    obtain ⟨hv, hvk⟩ := hmap hv
    exact (hfewest v hv hvk).1
  · exact .inr fun n hn => hdrops.lookup_kept (fun _ => List.Subset.refl _) ht hn

/-! ## The invariant -/

theorem coverInv_init : CoverInv init where
  beside _ _ _ hn := absurd hn Finmap.notMem_empty
  collected _ ht := absurd ht Finmap.notMem_empty
  syncBeside _ ht := absurd ht Finmap.notMem_empty
  syncKnown _ ht := absurd ht Finmap.notMem_empty
  syncSame _ ht := absurd ht Finmap.notMem_empty

theorem CoverInv.withStore (h : CoverInv s) (hr : Remembers s.gbl gbl') :
    CoverInv { s with gbl := gbl' } where
  beside := h.beside
  collected := h.collected
  syncBeside := h.syncBeside
  syncKnown t ht := hr.known t (h.syncKnown t ht)
  syncSame t ht hin := by
    have hold := hr.back t (h.syncKnown t (h.syncBeside t hin)) ht
    show s.loc.lookup _ = gbl'.lookup _
    rw [h.syncSame t hold hin, hr.same t hold ht _ (by simp [buriedFiles])]

theorem CoverInv.withTcDir (h : CoverInv s) (hw : Whole s.tcDir tcDir') (imgDir : Dir) :
    CoverInv { s with tcDir := tcDir', imgDir := imgDir } where
  beside t n hn hin := by
    have hsame := hw t n hn hin
    have hold : t.testcase ∈ s.tcDir := h.beside t n hn ((Dir.mem_congr (hsame n hn)).mp hin)
    exact (Dir.mem_congr (hsame _ (testcase_mem_buriedFiles t))).mpr hold
  collected t ht := h.collected t (hw.testcase_mem ht)
  syncBeside := h.syncBeside
  syncKnown := h.syncKnown
  syncSame := h.syncSame

/-- Collecting the queues of jobs that are terminated with it. -/
theorem CoverInv.collects {jobs : Str → JobState} (h : CoverInv s)
    (hc : Collects new (s.tcDir, s.imgDir) dirs)
    (hnew : ∀ t, new t → ∃ job, ChildOf job t ∧ jobs job = .terminated)
    (hold : ∀ job, s.jobs job = .terminated → jobs job = .terminated) :
    CoverInv { s with tcDir := dirs.1, imgDir := dirs.2, jobs := jobs } where
  beside t n hn hin := by
    rcases hc.beside t n hn hin with hin | ⟨-, ht⟩
    · exact hc.keep _ (h.beside t n hn hin)
    · exact ht
  collected t ht := by
    rcases hc.beside t _ (testcase_mem_buriedFiles t) ht with ht | ⟨ht, -⟩
    · obtain ⟨job, hjob, hterm⟩ := h.collected t ht
      exact ⟨job, hjob, hold job hterm⟩
    · exact hnew t ht
  syncBeside := h.syncBeside
  syncKnown := h.syncKnown
  syncSame := h.syncSame

theorem CoverInv.updateLocal (h : CoverInv s) (hc : Copies s.gbl s.loc loc') :
    CoverInv { s with loc := loc' } where
  beside := h.beside
  collected := h.collected
  syncBeside t ht := (hc.beside t ht).elim (fun ht => hc.keep _ (h.syncBeside t ht)) id
  syncKnown t ht := by
    rcases hc.new _ ht with ht | ⟨u, hu, -, hn⟩ | ⟨hs, -⟩
    · exact h.syncKnown t ht
    · have hvalues : t.testcase ∈ u.metadata.values := by
        rcases hn with hn | hn | hn | hn <;> rw [hn] <;> simp [Metadata.values, TcName.metadata]
      exact .inl (TcName.eq_of_mem_values t.testcase_mem_values hvalues ▸ hu)
    · exact absurd (by simp [TcName.family]) (cmprCrashSite_notMem_family hs t)
  syncSame t ht hin := by
    show loc'.lookup _ = s.gbl.lookup _
    rcases hc.content t.metadata.pmMap with heq | heq
    · rw [heq]
      exact h.syncSame t ht ((Dir.mem_congr heq).mp hin)
    · exact heq

/-! ## Steps -/

/-- `minimize_corpus_lcl` keeps each content with some testcase, if what it
looks at agrees with `@dedup`. -/
theorem minimizeLcl_held {tcDir' gbl' : Dir} (hc : CoverInv s) (ha : Agrees s b)
    (hrun : minimizeCorpusLcl os s.loc s.tcDir s.gbl = .ok (tcDir', gbl')) (hb : Held s b) :
    ∃ t, HasMap .pmMap gbl' b t ∨ HasMap .pmMap tcDir' b t := by
  obtain ⟨d, g, hok, D, htc, hdrops, hdup⟩ := minimizeCorpusLcl_ok os s.loc s.tcDir s.gbl
  cases hok.symm.trans hrun
  have hkeep : ∀ u, u ∉ D → HasMap .pmMap s.gbl b u ∨ HasMap .pmMap s.tcDir b u →
      ∃ t, HasMap .pmMap gbl' b t ∨ HasMap .pmMap tcDir' b t := by
    intro u hu hb
    refine ⟨u, hb.imp (fun h => h.congr fun n hn => hdrops.lookup_kept hu hn) fun h =>
      h.congr fun n hn => ?_⟩
    rw [htc, if_neg (notMem_flatMap (fun _ => List.Subset.refl _) hu hn)]
  obtain ⟨t, ht⟩ := hb
  by_cases hD : t ∈ D
  · obtain ⟨-, hpm, u, hu, hsame⟩ := hdup t hD
    -- the content that is compared is the one held
    have hlook : (s.tcDir ∪ s.loc).lookup t.metadata.pmMap = some b := by
      by_cases hin : t.metadata.pmMap ∈ s.tcDir
      · rw [Finmap.lookup_union_left hin]
        rcases ht with hg | hl
        · have htcDir := hc.beside t _ (by simp [buriedFiles]) hin
          exact (ha.same t hg htcDir).2
        · exact hl.2
      · rw [Finmap.lookup_union_right hin]
        have hloc := (Finmap.mem_union.mp hpm).resolve_left hin
        rcases ht with hg | hl
        · exact (hc.syncSame t hg.1 hloc).trans hg.2
        · exact absurd (Finmap.mem_of_lookup_eq_some hl.2) hin
    rw [hlook] at hsame
    refine hkeep u hu ?_
    by_cases hin : u.metadata.pmMap ∈ s.tcDir
    · rw [Finmap.lookup_union_left hin] at hsame
      exact .inr ⟨hc.beside u _ (by simp [buriedFiles]) hin, hsame⟩
    · rw [Finmap.lookup_union_right hin] at hsame
      have hloc := Finmap.mem_of_lookup_eq_some hsame
      have hgbl := ha.synced u ⟨hc.syncBeside u hloc, hsame⟩
      exact .inl ⟨hgbl, (hc.syncSame u hgbl hloc).symm.trans hsame⟩
  · exact hkeep t hD ht

/-- What a step does to the contents held. -/
def Kept (s : State) (op : Op) (s' : State) : Prop :=
  op ≠ .clear → ∀ b, (op.minimizesLocal = true → Agrees s b) → Held s b →
    Held s' b ∨ (∃ os, op = .dedupEngine os) ∧
      ∀ t, HasMap .pmMap s.tcDir b t → GivesWay s.tcDir s'.tcDir t

/-- A step that leaves `@dedup` and the maps of `tc_dir`. -/
theorem kept_of_same (hgbl : ∀ b t, HasMap .pmMap s.gbl b t → ∃ u, HasMap .pmMap s'.gbl b u)
    (htc : ∀ b t, HasMap .pmMap s.tcDir b t → HasMap .pmMap s'.tcDir b t) : Kept s op s' := by
  rintro - b - ⟨t, ht | ht⟩
  · obtain ⟨u, hu⟩ := hgbl b t ht
    exact .inl ⟨u, .inl hu⟩
  · exact .inl ⟨t, .inr (htc b t ht)⟩

theorem cover_step (hi : Inv s) (hc : CoverInv s) (h : step p s op = some s') :
    CoverInv s' ∧ Kept s op s' := by
  have hsame : ∀ {d : Dir}, ∀ b t, HasMap .pmMap d b t → ∃ u, HasMap .pmMap d b u :=
    fun b t ht => ⟨t, ht⟩
  cases op with
  | collectStage1 queue =>
    obtain ⟨dirs, -, rfl⟩ := Fold.toOption_map_eq_some.mp h
    exact ⟨⟨hc.beside, hc.collected, hc.syncBeside, hc.syncKnown, hc.syncSame⟩,
      kept_of_same hsame fun _ _ => id⟩
  | updateGlobalStage1 os =>
    obtain ⟨gbl, hg, rfl⟩ := Fold.toOption_map_eq_some.mp h
    have hup := updateGlobal_ok hg
    exact ⟨hc.withStore hup.remembers, kept_of_same (fun b t ht => ⟨t, hup.hasMap ht⟩) fun _ _ => id⟩
  | updateLocal os =>
    obtain ⟨loc, hl, rfl⟩ := Fold.toOption_map_eq_some.mp h
    exact ⟨hc.updateLocal (updateLocal_ok hl), kept_of_same hsame fun _ _ => id⟩
  | run k file =>
    obtain ⟨⟨-, -, hnew⟩, h⟩ := Option.ite_none_right_eq_some.mp h
    cases h
    refine ⟨⟨hc.beside, fun t ht => ?_, hc.syncBeside, hc.syncKnown, hc.syncSame⟩,
      kept_of_same hsame fun _ _ => id⟩
    obtain ⟨job, hjob, hterm⟩ := hc.collected t ht
    refine ⟨job, hjob, ?_⟩
    show Function.update s.jobs (jobName k file) JobState.running job = .terminated
    rw [Function.update_of_ne, hterm]
    rintro rfl
    rw [hnew] at hterm
    cases hterm
  | terminate k file os queue =>
    obtain ⟨⟨hin, hch, hrun⟩, h⟩ := Option.ite_none_right_eq_some.mp h
    obtain ⟨dirs, hd, rfl⟩ := Fold.toOption_map_eq_some.mp h
    have hjob := hi.synced.jobImage hin hch
    obtain ⟨dirs', hd', hcol⟩ := hjob.terminateJob hi.store p os queue (s.tcDir, s.imgDir)
    cases hd'.symm.trans hd
    refine ⟨hc.collects hcol (fun t ht => ⟨_, ht, Function.update_self ..⟩) fun job hterm => ?_,
      kept_of_same hsame fun b t ht => Collects.hasMap hcol (fun u hu hin => ?_) ht⟩
    · by_cases hne : job = jobName k file
      · rw [hne, Function.update_self]
      · rw [Function.update_of_ne hne, hterm]
    · -- the queue of a running job has not been collected
      obtain ⟨job, hjob', hterm⟩ := hc.collected u hin
      rw [hjob'.unique hu, hrun] at hterm
      cases hterm
  | dedupEngine os =>
    obtain ⟨tcDir, hrun, rfl⟩ := Fold.toOption_map_eq_some.mp h
    refine ⟨hc.withTcDir (mapEngine_whole hrun) s.imgDir, fun _ b _ hb => ?_⟩
    by_cases hheld : Held { s with tcDir := tcDir } b
    · exact .inl hheld
    · refine .inr ⟨⟨os, rfl⟩, fun t ht => (engine_ok hc.beside hrun t).resolve_right fun hkept => ?_⟩
      exact hheld ⟨t, .inr (ht.congr hkept)⟩
  | deduplicateLcl os db fdedup minTc minCorpus =>
    obtain ⟨imgDir, -, rfl | ⟨hmin, tcDir, gbl, hrun, rfl⟩⟩ :=
      deduplicateLcl_ok (Fold.toOption_eq_some.mp h)
    · exact ⟨hc.withTcDir (fun _ _ _ _ _ _ => rfl) imgDir, kept_of_same hsame fun _ _ => id⟩
    · obtain ⟨hwhole, D, hdrops⟩ := minimizeLcl_ok hrun
      exact ⟨(hc.withTcDir hwhole imgDir).withStore hdrops.remembers, fun _ b ha hb =>
        .inl (minimizeLcl_held hc (ha hmin) hrun hb)⟩
  | collect queues =>
    obtain ⟨hstarted, h⟩ := Option.ite_none_right_eq_some.mp h
    obtain ⟨dirs, hd, rfl⟩ := Fold.toOption_map_eq_some.mp h
    have hcol := hi.collect hstarted hd
    refine ⟨hc.collects hcol (fun t ht => ?_) fun job hterm => ?_,
      kept_of_same hsame fun b t => Collects.hasMap hcol fun u hu => hu.2⟩
    · obtain ⟨⟨job, hjob, hnew⟩, -⟩ := ht
      exact ⟨job, hjob, if_neg hnew⟩
    · exact if_neg (by rw [hterm]; decide)
  | updateGlobal os =>
    obtain ⟨gbl, hg, rfl⟩ := Fold.toOption_map_eq_some.mp h
    have hup := updateGlobal_ok hg
    exact ⟨hc.withStore hup.remembers, kept_of_same (fun b t ht => ⟨t, hup.hasMap ht⟩) fun _ _ => id⟩
  | deduplicateGbl os fdedupCfg fdedup minTc minCorpus =>
    obtain ⟨gbl, hg, rfl⟩ := Fold.toOption_map_eq_some.mp h
    rcases deduplicateGbl_ok hg with rfl | hmin
    · exact ⟨hc, kept_of_same hsame fun _ _ => id⟩
    · obtain ⟨D, hdrops, -⟩ := minimizeCorpusGbl_ok hmin
      exact ⟨hc.withStore (hdrops.remembers uncompressed_subset buried_subset_uncompressed),
        kept_of_same (fun b t => minimizeGbl_hasMap hmin) fun _ _ => id⟩
  | clear =>
    cases h
    exact ⟨⟨coverInv_init.beside, fun _ ht => absurd ht Finmap.notMem_empty, coverInv_init.syncBeside,
      fun _ ht => absurd ht Finmap.notMem_empty, fun _ _ ht => absurd ht Finmap.notMem_empty⟩,
      fun hne => absurd rfl hne⟩

theorem coverInv_exec {ops : List Op} (h : exec (step p) init ops = some s) : Inv s ∧ CoverInv s :=
  exec_inv (step p) (I := fun s => Inv s ∧ CoverInv s)
    (fun hi hs => ⟨(inv_step hi.1 hs).1, (cover_step hi.1 hi.2 hs).1⟩) ⟨inv_init, coverInv_init⟩ h

/-- In every state of a run every step inside the iteration keeps each
content that is held, but for the engine's pass: where that loses one, every
testcase of `tc_dir` that has it gives way. For `minimize_corpus_lcl` this is
said where `@dedup_sync` and `tc_dir` agree with `@dedup` on the content. -/
theorem pm_coverage {ops : List Op} (h : exec (step p) init ops = some s)
    (hs : step p s op = some s') (hclear : op ≠ .clear)
    (hagrees : op.minimizesLocal = true → Agrees s b) (hb : Held s b) :
    Held s' b ∨ (∃ os, op = .dedupEngine os) ∧
      ∀ t, HasMap .pmMap s.tcDir b t → GivesWay s.tcDir s'.tcDir t := by
  obtain ⟨hi, hc⟩ := coverInv_exec h
  exact (cover_step hi hc hs).2 hclear b hagrees hb

/-! ## Runs -/

instance : Decidable (HasMap k tcDir b t) := inferInstanceAs (Decidable (_ ∧ _))

/-- A case without failure images. -/
def plainCase (id : Str) (digits : IsDigits id) (map pmMap : Bytes) : QueueCase :=
  caseOf id digits map pmMap none

/-- A job leaves a testcase with the PM map of its own. -/
def sameMap : List Op :=
  let os := Os.sorted Place 0
  [.collectStage1 [plainCase "1".toList isDigits_1 [0, 1] [9]],
    .updateGlobalStage1 os, .updateLocal os, .run .tc "id=1.testcase".toList,
    .terminate .tc "id=1.testcase".toList os
      [plainCase "2".toList isDigits_2 [0, 2] [9]]]

theorem pm_coverage_sameMap : ∃ s s', exec (step dirNames) init sameMap = some s ∧
    step dirNames s (.deduplicateLcl (Os.sorted Place 0) (fun _ => none) true false true) = some s' ∧
    Held s [9] ∧ Held s' [9] := by
  have hrun : ((exec (step dirNames) init sameMap).bind fun s =>
      (step dirNames s (.deduplicateLcl (Os.sorted Place 0) (fun _ => none) true false true)).map
        fun _ => decide (HasMap .pmMap s.gbl [9] tc1 ∧ (∀ n ∈ s.loc.keys, n ∈ s.gbl) ∧
          ∀ n ∈ s.tcDir.keys, n ∉ s.gbl)) = some true := by decide +kernel
  obtain ⟨s, hs, hrun⟩ := Option.bind_eq_some_iff.mp hrun
  obtain ⟨s', hs', hrun⟩ := Option.map_eq_some_iff.mp hrun
  obtain ⟨hheld, hsynced, hnone⟩ := of_decide_eq_true hrun
  have hagrees : Agrees s [9] :=
    ⟨fun t ht => hsynced _ (Finmap.mem_keys.mpr ht.1), fun t ht hin =>
      absurd ht.1 (hnone _ (Finmap.mem_keys.mpr hin))⟩
  refine ⟨s, s', hs, hs', ⟨tc1, .inl hheld⟩, ?_⟩
  rcases pm_coverage hs hs' (by simp) (fun _ => hagrees) ⟨tc1, .inl hheld⟩ with hkept | ⟨⟨os, hop⟩, -⟩
  · exact hkept
  · cases hop

/-- After `before` the content `b` is held, and `after` loses it. -/
def Loses (before after : List Op) (b : Bytes) : Prop :=
  ∃ s s', exec (step dirNames) init before = some s ∧ exec (step dirNames) s after = some s' ∧
    Held s b ∧ ¬ Held s' b

theorem loses_of {before after : List Op} (t : TcName)
    (h : ((exec (step dirNames) init before).bind fun s => (exec (step dirNames) s after).map fun s' =>
      decide ((HasMap .pmMap s.gbl b t ∨ HasMap .pmMap s.tcDir b t) ∧
        (∀ n ∈ s'.gbl.keys, s'.gbl.lookup n ≠ some b) ∧ ∀ n ∈ s'.tcDir.keys, s'.tcDir.lookup n ≠ some b)) =
      some true) : Loses before after b := by
  obtain ⟨s, hs, h⟩ := Option.bind_eq_some_iff.mp h
  obtain ⟨s', hs', h⟩ := Option.map_eq_some_iff.mp h
  obtain ⟨hheld, hgbl, htc⟩ := of_decide_eq_true h
  refine ⟨s, s', hs, hs', ⟨t, hheld⟩, ?_⟩
  rintro ⟨u, hu | hu⟩
  · exact hgbl _ (Finmap.mem_keys.mpr (Finmap.mem_of_lookup_eq_some hu.2)) hu.2
  · exact htc _ (Finmap.mem_keys.mpr (Finmap.mem_of_lookup_eq_some hu.2)) hu.2

/-- The two crash sites of a testcase leave testcases with one exec map. -/
def twoSites : List Op :=
  let os := Os.sorted Place 0
  [.collectStage1 [caseOf "1".toList isDigits_1 [0, 1] [1]
      (some [⟨"5".toList, isDigits_5, [2]⟩, ⟨"6".toList, isDigits_6, [2]⟩])],
    .updateGlobalStage1 os, .updateLocal os,
    .run .cs "id=1.id=5.crash_site.tar.gz".toList, .run .cs "id=1.id=6.crash_site.tar.gz".toList] ++
  terminateCs os (fun _ => none) true "id=1.id=6.crash_site.tar.gz".toList
    [plainCase "4".toList isDigits_4 [0, 3] [4]]

/-- What the second of them leaves. -/
def secondChild : TcName where
  clean := "id=1.id=6,id=4".toList
  isClean := .child ',' (.child '.' isClean_first (.inr rfl) isDigits_6) (.inl rfl) isDigits_4
  newline := false

/-- Two testcases of the first stage have one PM map, and the second is
deleted when the job of the first is terminated. -/
def twoRoots : List Op :=
  let os := Os.sorted Place 0
  [.collectStage1 [plainCase "1".toList isDigits_1 [0, 1] [9],
      plainCase "2".toList isDigits_2 [0, 2] [9]],
    .updateGlobalStage1 os, .updateLocal os,
    .run .tc "id=1.testcase".toList, .run .tc "id=2.testcase".toList] ++
  terminateTestcase os (fun _ => none) true "id=1.testcase".toList []

/-- A crash site is run in two iterations. -/
def twoIterations : List Op :=
  let os := Os.sorted Place 0
  [.collectStage1 [firstCase], .updateGlobalStage1 os, .updateLocal os,
    .run .tc "id=1.testcase".toList, .run .cs "id=1.id=5.crash_site.tar.gz".toList] ++
  terminateTestcase os (fun _ => none) true "id=1.testcase".toList [] ++
  terminateCs os (fun _ => none) true "id=1.id=5.crash_site.tar.gz".toList
    [plainCase "3".toList isDigits_3 [0, 3] [3]] ++
  [.collect [], .updateGlobal os, .clear, .updateLocal os,
    .run .cs "id=1.id=5.crash_site.tar.gz".toList]

/-- The engine's pass drops a testcase that alone has its PM map, and
`minimize_corpus_lcl` one that is kept for a copy of a deleted testcase, or
for one of another testcase under its name. -/
theorem coverage_lost :
    Loses twoSites (terminateCs (Os.sorted Place 0) (fun _ => none) true
      "id=1.id=5.crash_site.tar.gz".toList [plainCase "3".toList isDigits_3 [0, 3] [3]]) [4] ∧
    Loses twoRoots (terminateTestcase (Os.reversed Place 0) (fun _ => none) true
      "id=2.testcase".toList []) [9] ∧
    Loses twoIterations (terminateCs (Os.sorted Place 0) (fun _ => none) true
      "id=1.id=5.crash_site.tar.gz".toList [plainCase "2".toList isDigits_2 [0, 2] [7],
        plainCase "3".toList isDigits_3 [0, 4] [7]]) [3] :=
  ⟨loses_of secondChild (by decide +kernel), loses_of tc1 (by decide +kernel),
    loses_of siteChild (by decide +kernel)⟩

end PMFuzz.Pipeline
