import PMFuzz.Pipeline.Collect

/-!
# Parent images

What a job ran on stays in `@dedup`: no step removes an archive from there,
and the archives are the images of testcases and of crash sites under names
of their kind (`StoreOk`). `Inv` is the invariant of the pipeline,
`inv_step` says that every step keeps it, and `parent_images` is what it
gives.
-/

namespace PMFuzz.Pipeline

open Names Str Dedup Stage2 Run

/-! ## The invariant -/

/-- The names of jobs of a kind. -/
def IsJob : Kind → Str → Prop
  | .tc => IsTcClean
  | .cs => IsSiteClean

/-- What the archive of a job's image is called. -/
def archiveExt : Kind → Str
  | .tc => ".pm_pool.tar.gz".toList
  | .cs => ".crash_site.tar.gz".toList

@[simp] theorem archiveExt_tc : archiveExt .tc = ".pm_pool.tar.gz".toList := rfl

@[simp] theorem archiveExt_cs : archiveExt .cs = ".crash_site.tar.gz".toList := rfl

/-- The image of a job is in the store. -/
structure JobImage (gbl : Dir) (k : Kind) (job : Str) : Prop where
  isJob : IsJob k job
  mem : job ++ archiveExt k ∈ gbl

/-- A testcase of the first stage, or one that a job left whose image is in
the store. -/
structure Made (gbl : Dir) (t : TcName) : Prop where
  newline : t.newline = false
  origin : (∃ ds, IsDigits ds ∧ t.clean = "id=".toList ++ ds) ∨
    ∃ k job ds, JobImage gbl k job ∧ IsDigits ds ∧ t.clean = job ++ ',' :: ("id=".toList ++ ds)

/-- `@dedup`. -/
structure StoreOk (gbl : Dir) : Prop where
  testcase : ∀ t : TcName, t.testcase ∈ gbl → Made gbl t ∧ t.image ∈ gbl
  archive : ∀ n ∈ gbl, endsWith n ".tar.gz".toList = true → ∃ k c, IsJob k c ∧ n = c ++ archiveExt k
  site : ∀ n ∈ gbl, isCmprCrashSite n = true → IsSite n

/-- `tc_dir` and `img_dir` of a stage. -/
structure DirsOk (gbl tcDir imgDir : Dir) : Prop where
  testcase : ∀ t : TcName, t.testcase ∈ tcDir → Made gbl t
  site : ∀ n ∈ imgDir, isCmprCrashSite n = true → IsSite n

/-- `@dedup_sync`. -/
def SyncOk (gbl loc : Dir) : Prop :=
  ∀ n ∈ loc, (∃ t, Made gbl t ∧ t.image ∈ gbl ∧ n ∈ t.family) ∨ IsSite n ∧ n ∈ gbl

structure Inv (s : State) : Prop where
  store : StoreOk s.gbl
  first : DirsOk s.gbl s.tcDir1 s.imgDir1
  iteration : DirsOk s.gbl s.tcDir s.imgDir
  synced : SyncOk s.gbl s.loc
  started : ∀ job, s.jobs job ≠ .new → ∃ k, JobImage s.gbl k job

variable {gbl gbl' tcDir tcDir' imgDir imgDir' loc loc' : Dir} {k k' : Kind} {c d job n : Str} {t : TcName}
  {s s' : State} {p : Paths} {op : Op} {os : Os Place}

/-! ## Names of archives -/

theorem IsJob.isClean (h : IsJob k c) : IsClean c := by
  cases k with
  | tc => exact IsTcClean.isClean h
  | cs => exact IsSiteClean.isClean h

/-- A name is one of jobs of one kind. -/
theorem IsJob.unique (h : IsJob k c) (h' : IsJob k' c) : k = k' := by
  cases k <;> cases k'
  · rfl
  · exact absurd h' (IsTcClean.not_isSiteClean h)
  · exact absurd h (IsTcClean.not_isSiteClean h')
  · rfl

theorem archiveExt_inj (h : c ++ archiveExt k = d ++ archiveExt k') : c = d ∧ k = k' := by
  -- the eighth character from the end
  have hkey := congrArg (fun s : Str => s.reverse[7]?) h
  cases k <;> cases k' <;> simp at hkey
  · exact ⟨List.append_cancel_right h, rfl⟩
  · exact ⟨List.append_cancel_right h, rfl⟩

theorem endsWith_archiveExt (k : Kind) (c : Str) :
    endsWith (c ++ archiveExt k) ".tar.gz".toList = true := by
  rw [endsWith, List.isSuffixOf_iff_suffix]
  cases k with
  | tc => exact ⟨c ++ ".pm_pool".toList, by simp⟩
  | cs => exact ⟨c ++ ".crash_site".toList, by simp⟩

theorem isSite_iff : IsSite n ↔ ∃ c, IsJob .cs c ∧ n = c ++ archiveExt .cs := Iff.rfl

theorem image_eq_archive (h : t.newline = false) : t.image = t.clean ++ archiveExt .tc := by
  simp [TcName.image, TcName.nl, h]

/-! ## Stores that keep their archives -/

theorem Made.isTcClean (h : Made gbl t) : IsTcClean t.clean := by
  refine isTcClean_iff.mpr ?_
  rcases h.origin with ⟨ds, hds, ht⟩ | ⟨k, job, ds, himg, hds, ht⟩
  · exact ⟨ds, hds, .inl ht⟩
  · exact ⟨ds, hds, .inr ⟨job, himg.isJob.isClean, ht⟩⟩

theorem JobImage.mono (h : JobImage gbl k job) (hk : KeepsArchives gbl gbl') : JobImage gbl' k job :=
  ⟨h.isJob, hk _ h.mem (endsWith_archiveExt k job)⟩

theorem Made.mono (h : Made gbl t) (hk : KeepsArchives gbl gbl') : Made gbl' t where
  newline := h.newline
  origin := h.origin.imp_right fun ⟨k, job, ds, himg, hds, ht⟩ => ⟨k, job, ds, himg.mono hk, hds, ht⟩

theorem Made.image_mem (h : Made gbl t) (hk : KeepsArchives gbl gbl') (himg : t.image ∈ gbl) :
    t.image ∈ gbl' := by
  rw [image_eq_archive h.newline] at himg ⊢
  exact hk _ himg (endsWith_archiveExt .tc _)

theorem DirsOk.mono (h : DirsOk gbl tcDir imgDir) (hk : KeepsArchives gbl gbl') :
    DirsOk gbl' tcDir imgDir :=
  ⟨fun t ht => (h.testcase t ht).mono hk, h.site⟩

theorem SyncOk.mono (h : SyncOk gbl loc) (hk : KeepsArchives gbl gbl') : SyncOk gbl' loc := by
  intro n hn
  rcases h n hn with ⟨t, hmade, himg, hfam⟩ | ⟨hsite, hmem⟩
  · exact .inl ⟨t, hmade.mono hk, hmade.image_mem hk himg, hfam⟩
  · obtain ⟨c, hc, rfl⟩ := isSite_iff.mp hsite
    exact .inr ⟨hsite, hk _ hmem (endsWith_archiveExt .cs c)⟩

/-- A step that changes `@dedup` alone. -/
theorem Inv.withStore (h : Inv s) (hgbl : StoreOk gbl') (hk : KeepsArchives s.gbl gbl') :
    Inv { s with gbl := gbl' } where
  store := hgbl
  first := h.first.mono hk
  iteration := h.iteration.mono hk
  synced := h.synced.mono hk
  started job hjob := (h.started job hjob).imp fun _ h => h.mono hk

/-- Only placeholders are new. -/
theorem StoreOk.shrink (h : StoreOk gbl)
    (hmem : ∀ n ∈ gbl', n ∈ gbl ∨ ∃ t : TcName, n = t.metadata.deleted)
    (hk : KeepsArchives gbl gbl') : StoreOk gbl' where
  testcase t ht := by
    have hin : t.testcase ∈ gbl := (hmem _ ht).resolve_right fun ⟨u, hu⟩ =>
      ne_deleted_of_buried (t := t) (by simp [buriedFiles]) u hu
    obtain ⟨hmade, himg⟩ := h.testcase t hin
    exact ⟨hmade.mono hk, hmade.image_mem hk himg⟩
  archive n hn hend := by
    refine h.archive n ((hmem n hn).resolve_right fun ⟨u, hu⟩ => ?_) hend
    rw [hu, endsWith_deleted] at hend
    cases hend
  site n hn hs := h.site n ((hmem n hn).resolve_right fun ⟨u, hu⟩ =>
    cmprCrashSite_ne_deleted hs u hu) hs

/-! ## `@dedup` -/

theorem StoreOk.minimizeGbl (h : StoreOk gbl) (hrun : minimizeCorpusGbl os gbl = .ok gbl') :
    StoreOk gbl' ∧ KeepsArchives gbl gbl' := by
  obtain ⟨D, hdrops, -⟩ := minimizeCorpusGbl_ok hrun
  have hk := hdrops.sameArchives.keeps
  refine ⟨h.shrink (fun n hn => ?_) hk, hk⟩
  rcases (hdrops.mem hn).2 with hd | hn
  · obtain ⟨u, -, hu⟩ := List.mem_map.mp hd
    exact .inr ⟨u, hu.symm⟩
  · exact .inl hn

theorem StoreOk.dropsLcl (h : StoreOk gbl) {text : Bytes} {D : List TcName}
    (hdrops : DropsLcl text gbl D gbl') : StoreOk gbl' ∧ KeepsArchives gbl gbl' := by
  have hk := hdrops.sameArchives.keeps
  refine ⟨h.shrink (fun n hn => ?_) hk, hk⟩
  have hno : n ∉ D.flatMap fun t => typesToDelete t.metadata := fun hin => hdrops.gone n hin hn
  rcases hdrops.rest n hno with heq | ⟨hd, -⟩
  · exact .inl ((Dir.mem_congr heq).mp hn)
  · obtain ⟨u, -, hu⟩ := List.mem_map.mp hd
    exact .inr ⟨u, hu.symm⟩

/-- `update_global` copies a testcase with its image. -/
theorem StoreOk.updateGlobal (h : StoreOk gbl) (hdirs : DirsOk gbl tcDir imgDir)
    (hrun : updateGlobal os tcDir imgDir gbl = .ok gbl') : StoreOk gbl' ∧ KeepsArchives gbl gbl' := by
  have hup := updateGlobal_ok hrun
  have hk : KeepsArchives gbl gbl' := fun n hn _ => hup.mem.mpr (.inl hn)
  refine ⟨⟨fun t ht => ?_, fun n hn hend => ?_, fun n hn hs => ?_⟩, hk⟩
  · rcases hup.mem.mp ht with ht | ⟨u, hu, hc⟩ | ⟨hs, -⟩
    · obtain ⟨hmade, himg⟩ := h.testcase t ht
      exact ⟨hmade.mono hk, hmade.image_mem hk himg⟩
    · have hut : u = t := TcName.eq_of_mem_family hc.mem_family (by simp [TcName.family])
      subst hut
      exact ⟨(hdirs.testcase u hu.mem).mono hk, hup.mem.mpr (.inr (.inl ⟨u, hu, .inr (.inl rfl)⟩))⟩
    · exact absurd (by simp [TcName.family]) (cmprCrashSite_notMem_family hs t)
  · rcases hup.mem.mp hn with hn | ⟨u, hu, hc⟩ | ⟨hs, hin⟩
    · exact h.archive n hn hend
    · rw [eq_image_of_mem_family hc.mem_family hend]
      have hmade := hdirs.testcase u hu.mem
      exact ⟨.tc, u.clean, hmade.isTcClean, image_eq_archive hmade.newline⟩
    · exact ⟨.cs, isSite_iff.mp (hdirs.site n hin hs)⟩
  · rcases hup.mem.mp hn with hn | ⟨u, hu, hc⟩ | ⟨-, hin⟩
    · exact h.site n hn hs
    · exact absurd hc.mem_family (cmprCrashSite_notMem_family hs u)
    · exact hdirs.site n hin hs

/-! ## The directories of a stage -/

theorem DirsOk.collects {new : TcName → Prop} {dirs dirs' : Dir × Dir} (h : DirsOk gbl dirs.1 dirs.2)
    (hc : Collects new dirs dirs') (hnew : ∀ t, new t → Made gbl t) : DirsOk gbl dirs'.1 dirs'.2 where
  testcase t ht := by
    rcases hc.beside t _ (by simp [buriedFiles]) ht with ht | ⟨ht, -⟩
    · exact h.testcase t ht
    · exact hnew t ht
  site n hn hs := (hc.site n hn hs).elim (fun hn => h.site n hn hs) id

theorem DirsOk.shrink (h : DirsOk gbl tcDir imgDir)
    (htc : ∀ t : TcName, t.testcase ∈ tcDir' → t.testcase ∈ tcDir) (himg : ∀ n ∈ imgDir', n ∈ imgDir) :
    DirsOk gbl tcDir' imgDir' :=
  ⟨fun t ht => h.testcase t (htc t ht), fun n hn => h.site n (himg n hn)⟩

theorem made_root (q : QueueCase) : Made gbl q.root := ⟨rfl, .inl ⟨q.id, q.digits, rfl⟩⟩

theorem JobImage.made (h : JobImage gbl k job) (ht : ChildOf job t) : Made gbl t := by
  obtain ⟨q, hjob, rfl⟩ := ht
  exact ⟨rfl, .inr ⟨k, job, q.id, h, q.digits, rfl⟩⟩

/-! ## `@dedup_sync` -/

theorem SyncOk.updateLocal (h : SyncOk gbl loc) (hs : StoreOk gbl) {iterId : ℕ}
    (hrun : updateLocal os iterId gbl loc = .ok loc') : SyncOk gbl loc' := by
  intro n hn
  rcases (updateLocal_ok hrun).new n hn with hn | ⟨t, ht, -, hn⟩ | ⟨hsite, hn⟩
  · exact h n hn
  · obtain ⟨hmade, himg⟩ := hs.testcase t ht
    refine .inl ⟨t, hmade, himg, ?_⟩
    rw [← t.image_eq hmade.newline] at hn
    simp only [TcName.family, List.mem_cons, List.not_mem_nil, or_false]
    tauto
  · exact .inr ⟨hs.site n hn hsite, hn⟩

/-- The first and the last character of a testcase's name. -/
theorem isTc_ends (h : isTc n true = true) :
    n.head? = some 'i' ∧ (n.getLast? = some 'e' ∨ n.getLast? = some '\n') := by
  have hmin : isTc n false = true ∨ isMinTc n = true := by
    simpa [isTc] using h
  rcases hmin with h | h
  · obtain ⟨t, rfl⟩ := isTc_iff.mp h
    exact ⟨t.head?_testcase, t.getLast?_testcase⟩
  · obtain ⟨t, rfl⟩ := isMinTc_iff.mp h
    obtain ⟨s, hs⟩ := t.isClean.head
    refine ⟨by rw [hs]; rfl, ?_⟩
    rcases t.nl_cases with hnl | hnl <;> rw [hnl]
    · exact .inl (by simp)
    · exact .inr (by simp)

theorem csName_archive (hc : IsClean c) : csName (c ++ archiveExt .cs) = c := by
  have h : replace (c ++ ".crash_site.tar.gz".toList) ".crash_site.tar.gz".toList [] =
      c ++ replace ".crash_site.tar.gz".toList ".crash_site.tar.gz".toList [] :=
    (TcName.noStart (t := ⟨c, hc, false⟩) (by decide) rfl).replace (by decide)
  rw [csName, archiveExt_cs, h]
  exact List.append_nil c

/-- The testcase that a job runs on. -/
theorem SyncOk.testcaseJob (h : SyncOk gbl loc) (hn : n ∈ loc) (hk : checker .tc n = true) :
    ∃ t, Made gbl t ∧ t.image ∈ gbl ∧ n = t.testcase ∧ jobName .tc n = t.clean := by
  obtain ⟨hhead, hlast⟩ := isTc_ends hk
  have hend : endsWith n ".tar.gz".toList = false := by
    rcases hlast with h | h <;> exact endsWith_of_getLast? h (by decide)
  rcases h n hn with ⟨t, hmade, himg, hfam⟩ | ⟨hsite, -⟩
  · have ht : n = t.testcase := by
      simp only [TcName.family, List.mem_cons, List.not_mem_nil, or_false] at hfam
      rcases hfam with hfam | rfl | rfl | rfl
      · exact hfam
      · cases hhead
      · cases hhead
      · rw [image_eq_archive hmade.newline, endsWith_archiveExt] at hend
        cases hend
    refine ⟨t, hmade, himg, ht, ?_⟩
    show replace n ".testcase".toList [] = t.clean
    rw [ht, TcName.replace_testcase_eq hmade.newline]
  · obtain ⟨c, -, rfl⟩ := isSite_iff.mp hsite
    rw [endsWith_archiveExt] at hend
    cases hend

/-- The files that jobs run on have their image in the store. -/
theorem SyncOk.jobImage (h : SyncOk gbl loc) (hn : n ∈ loc) (hk : checker k n = true) :
    JobImage gbl k (jobName k n) := by
  cases k with
  | tc =>
    obtain ⟨t, hmade, himg, -, hname⟩ := h.testcaseJob hn hk
    rw [hname]
    exact ⟨hmade.isTcClean, image_eq_archive hmade.newline ▸ himg⟩
  | cs =>
    rcases h n hn with ⟨t, -, -, hfam⟩ | ⟨hsite, hmem⟩
    · exact absurd hfam (cmprCrashSite_notMem_family hk t)
    · obtain ⟨c, hc, rfl⟩ := isSite_iff.mp hsite
      have hname : jobName .cs (c ++ archiveExt .cs) = c := csName_archive hc.isClean
      rw [hname]
      exact ⟨hc, hmem⟩

/-! ## The checks of a job's image -/

/-- A job has no image of the other kind. -/
theorem JobImage.unique (h : JobImage gbl k job) (hs : StoreOk gbl) :
    job ++ archiveExt k.other ∉ gbl := by
  intro hmem
  obtain ⟨k', c, hc, heq⟩ := hs.archive _ hmem (endsWith_archiveExt _ _)
  obtain ⟨rfl, hk⟩ := archiveExt_inj heq
  have := h.isJob.unique (hk ▸ hc)
  cases k <;> cases this

/-- The one image that is there is found. -/
theorem getParentImg_archive (hc : IsClean job) (hmem : job ++ archiveExt k ∈ gbl)
    (hno : job ++ archiveExt k.other ∉ gbl) (dirname : Str) :
    getParentImg (job ++ ".testcase".toList) dirname gbl .exists true =
      .ok (dirname ++ '/' :: (job ++ archiveExt k)) := by
  rw [getParentImg_exists hc]
  cases k with
  | tc =>
    rw [Kind.other, archiveExt_cs] at hno
    rw [archiveExt_tc] at hmem
    rw [if_neg fun h => hno h.1, if_neg hno, if_pos hmem, archiveExt_tc]
  | cs =>
    rw [Kind.other, archiveExt_tc] at hno
    rw [archiveExt_cs] at hmem
    rw [if_neg fun h => hno h.2, if_pos hmem, archiveExt_cs]

theorem JobImage.getParentImg (h : JobImage gbl k job) (hs : StoreOk gbl) (dirname : Str) :
    getParentImg (job ++ ".testcase".toList) dirname gbl .exists true =
      .ok (dirname ++ '/' :: (job ++ archiveExt k)) :=
  getParentImg_archive h.isJob.isClean h.mem (h.unique hs) dirname

theorem JobImage.sanityCheck (h : JobImage gbl k job) (hs : StoreOk gbl) (p : Paths) :
    sanityCheck p gbl k job = .ok () := by
  have hpath : expImgPath p gbl job k = .ok (p.dedupDirGbl ++ '/' :: (job ++ archiveExt k)) := by
    cases k with
    | tc => rfl
    | cs => exact h.getParentImg hs p.dedupDirGbl
  have hdrop : (p.dedupDirGbl ++ '/' :: (job ++ archiveExt k)).drop (p.dedupDirGbl.length + 1) =
      job ++ archiveExt k := by simp
  rw [Pipeline.sanityCheck, hpath]
  show (if (p.dedupDirGbl ++ '/' :: (job ++ archiveExt k)).drop (p.dedupDirGbl.length + 1) ∈ gbl then
    (.ok () : Except Stop Unit) else _) = _
  rw [hdrop, if_pos h.mem]

/-- Collecting the job's queue returns. -/
theorem JobImage.terminateJob (h : JobImage gbl k job) (hs : StoreOk gbl) (p : Paths) (os : Os Place)
    (queue : List QueueCase) (dirs : Dir × Dir) : ∃ dirs',
    Pipeline.terminateJob p gbl k job os queue dirs = .ok dirs' ∧ Collects (ChildOf job) dirs dirs' :=
  terminateJob_ok h.isJob.isClean (h.sanityCheck hs p) (h.getParentImg hs p.dedupDirGbl) os queue dirs

/-! ## Runs -/

theorem inv_init : Inv init where
  store := ⟨fun _ ht => absurd ht Finmap.notMem_empty, fun _ hn => absurd hn Finmap.notMem_empty,
    fun _ hn => absurd hn Finmap.notMem_empty⟩
  first := ⟨fun _ ht => absurd ht Finmap.notMem_empty, fun _ hn => absurd hn Finmap.notMem_empty⟩
  iteration := ⟨fun _ ht => absurd ht Finmap.notMem_empty, fun _ hn => absurd hn Finmap.notMem_empty⟩
  synced _ hn := absurd hn Finmap.notMem_empty
  started _ h := absurd rfl h

/-- A step that leaves `@dedup` and the jobs as they are. -/
theorem Inv.withDirs (h : Inv s) (hdirs : DirsOk s.gbl tcDir imgDir) :
    Inv { s with tcDir := tcDir, imgDir := imgDir } :=
  ⟨h.store, h.first, hdirs, h.synced, h.started⟩

/-- A job with an image is started, or terminated. -/
theorem started_update {jobs : Str → JobState} {st : JobState}
    (h : ∀ job, jobs job ≠ .new → ∃ k, JobImage gbl k job) (hjob : JobImage gbl k job) (other : Str)
    (hother : Function.update jobs job st other ≠ .new) : ∃ k, JobImage gbl k other := by
  by_cases hn : other = job
  · exact ⟨k, hn ▸ hjob⟩
  · rw [Function.update_of_ne hn] at hother
    exact h other hother

/-- `collect` copies cases of jobs that were started, and only those that
`tc_dir` does not have. -/
theorem Inv.collect (h : Inv s) {queues : List (Str × QueueCase)} {dirs : Dir × Dir}
    (hstarted : ∀ e ∈ queues, s.jobs e.1 ≠ .new)
    (hd : queues.foldlM (collectResults s.tcDir) (s.tcDir, s.imgDir) = .ok dirs) :
    Collects (fun t => (∃ job, ChildOf job t ∧ s.jobs job ≠ .new) ∧ t.testcase ∉ s.tcDir)
      (s.tcDir, s.imgDir) dirs := by
  refine .foldlM (fun e he d d' hround => ?_) hd
  obtain ⟨k, himg⟩ := h.started e.1 (hstarted e he)
  exact (collectResults_ok himg.isJob.isClean hround).mono fun t ht =>
    ⟨⟨e.1, ht.1, hstarted e he⟩, ht.2⟩

/-- `_deduplicate_lcl` drops archives, and minimizes the corpus if it is
to. -/
theorem deduplicateLcl_ok {db : Str → Option Bytes} {fdedup minTc minCorpus : Bool}
    (h : deduplicateLcl os db fdedup minTc minCorpus s = .ok s') :
    ∃ imgDir : Dir, DropsSites s.imgDir imgDir ∧ (s' = { s with imgDir := imgDir } ∨
      minCorpus = true ∧ ∃ tcDir gbl, minimizeCorpusLcl os s.loc s.tcDir s.gbl = .ok (tcDir, gbl) ∧
        s' = { s with imgDir := imgDir, tcDir := tcDir, gbl := gbl }) := by
  obtain ⟨imgDir, himg, h⟩ := Fold.bind_eq_ok.mp h
  refine ⟨imgDir, ?_, ?_⟩
  · split at himg
    · exact deduplicateCrashSitesLcl_ok himg
    · cases himg
      exact fun n => .inl rfl
  · split at h
    · cases h
    · split at h
      · rename_i hmin
        obtain ⟨⟨tcDir, gbl⟩, hok, h⟩ := Fold.bind_eq_ok.mp h
        cases h
        exact .inr ⟨hmin, tcDir, gbl, hok, rfl⟩
      · cases h
        exact .inl rfl

/-- Every step keeps the invariant, and every archive. -/
theorem inv_step (hi : Inv s) (h : step p s op = some s') : Inv s' ∧ KeepsArchives s.gbl s'.gbl := by
  cases op with
  | collectStage1 queue =>
    obtain ⟨dirs, hd, rfl⟩ := Fold.toOption_map_eq_some.mp h
    have hc : Collects (fun t => ∃ q : QueueCase, t = q.root) (s.tcDir1, s.imgDir1) dirs :=
      .foldlM (fun q _ d d' => collectResultsStage1_ok) hd
    refine ⟨⟨hi.store, hi.first.collects hc fun t ht => ?_, hi.iteration, hi.synced, hi.started⟩, .refl⟩
    obtain ⟨q, rfl⟩ := ht
    exact made_root q
  | updateGlobalStage1 os =>
    obtain ⟨gbl, hg, rfl⟩ := Fold.toOption_map_eq_some.mp h
    obtain ⟨hstore, hk⟩ := hi.store.updateGlobal hi.first hg
    exact ⟨hi.withStore hstore hk, hk⟩
  | updateLocal os =>
    obtain ⟨loc, hl, rfl⟩ := Fold.toOption_map_eq_some.mp h
    exact ⟨⟨hi.store, hi.first, hi.iteration, hi.synced.updateLocal hi.store hl,
      hi.started⟩, .refl⟩
  | run k file =>
    obtain ⟨⟨hin, hch, -⟩, h⟩ := Option.ite_none_right_eq_some.mp h
    cases h
    exact ⟨⟨hi.store, hi.first, hi.iteration, hi.synced,
      started_update hi.started (hi.synced.jobImage hin hch)⟩, .refl⟩
  | terminate k file os queue =>
    obtain ⟨⟨hin, hch, -⟩, h⟩ := Option.ite_none_right_eq_some.mp h
    obtain ⟨dirs, hd, rfl⟩ := Fold.toOption_map_eq_some.mp h
    have hjob := hi.synced.jobImage hin hch
    obtain ⟨dirs', hd', hc⟩ := hjob.terminateJob hi.store p os queue (s.tcDir, s.imgDir)
    cases hd'.symm.trans hd
    exact ⟨⟨hi.store, hi.first, hi.iteration.collects hc fun t => hjob.made, hi.synced,
      started_update hi.started hjob⟩, .refl⟩
  | dedupEngine os =>
    obtain ⟨tcDir, ht, rfl⟩ := Fold.toOption_map_eq_some.mp h
    have hwhole := mapEngine_whole ht
    exact ⟨hi.withDirs (hi.iteration.shrink (fun t => hwhole.testcase_mem) fun _ => id), .refl⟩
  | deduplicateLcl os db fdedup minTc minCorpus =>
    obtain ⟨imgDir, hsub, rfl | ⟨-, tcDir, gbl, hrun, rfl⟩⟩ :=
      deduplicateLcl_ok (Fold.toOption_eq_some.mp h)
    · exact ⟨hi.withDirs (hi.iteration.shrink (fun _ => id) fun _ => hsub.mem), .refl⟩
    · obtain ⟨hwhole, D, hdrops⟩ := minimizeLcl_ok hrun
      obtain ⟨hstore, hk⟩ := hi.store.dropsLcl hdrops
      have hdirs : DirsOk s.gbl tcDir imgDir :=
        hi.iteration.shrink (fun t => hwhole.testcase_mem) fun _ => hsub.mem
      exact ⟨(hi.withDirs hdirs).withStore hstore hk, hk⟩
  | collect queues =>
    obtain ⟨hstarted, h⟩ := Option.ite_none_right_eq_some.mp h
    obtain ⟨dirs, hd, rfl⟩ := Fold.toOption_map_eq_some.mp h
    have hc := hi.collect hstarted hd
    refine ⟨⟨hi.store, hi.first, hi.iteration.collects hc fun t ht => ?_, hi.synced,
      fun job hjob => hi.started job fun hnew => hjob (if_pos hnew)⟩, .refl⟩
    obtain ⟨⟨job, hjob, hnew⟩, -⟩ := ht
    obtain ⟨k, himg⟩ := hi.started job hnew
    exact himg.made hjob
  | updateGlobal os =>
    obtain ⟨gbl, hg, rfl⟩ := Fold.toOption_map_eq_some.mp h
    obtain ⟨hstore, hk⟩ := hi.store.updateGlobal hi.iteration hg
    exact ⟨hi.withStore hstore hk, hk⟩
  | deduplicateGbl os fdedupCfg fdedup minTc minCorpus =>
    obtain ⟨gbl, hg, rfl⟩ := Fold.toOption_map_eq_some.mp h
    rcases deduplicateGbl_ok hg with rfl | hmin
    · exact ⟨hi, .refl⟩
    · obtain ⟨hstore, hk⟩ := hi.store.minimizeGbl hmin
      exact ⟨hi.withStore hstore hk, hk⟩
  | clear =>
    cases h
    exact ⟨⟨hi.store, hi.first, inv_init.iteration.mono fun n hn => absurd hn Finmap.notMem_empty,
      fun n hn => absurd hn Finmap.notMem_empty, fun _ h => absurd rfl h⟩, .refl⟩

theorem inv_exec {ops : List Op} (h : exec (step p) init ops = some s) : Inv s :=
  exec_inv (step p) (fun hi hs => (inv_step hi hs).1) inv_init h

/-- The parent of a testcase is a job whose image is in the store. -/
theorem Made.parentJob (h : Made gbl t) : getTestcaseParent t.testcase = [] ∨
    ∃ k job, JobImage gbl k job ∧ getTestcaseParent t.testcase = job ++ ".testcase".toList := by
  have hname := TcName.testcase_eq h.newline
  rcases h.origin with ⟨ds, hds, ht⟩ | ⟨k, job, ds, himg, hds, ht⟩
  · left
    rw [hname, ht, getTestcaseParent_root hds]
  · right
    refine ⟨k, job, himg, ?_⟩
    rw [hname, ht, getTestcaseParent_child himg.isJob.isClean (.inl rfl) hds]

/-- The parent of a testcase, and which of its images is there. -/
theorem Made.parent (h : Made gbl t) (hs : StoreOk gbl) : getTestcaseParent t.testcase = [] ∨
    ∃ parent, getTestcaseParent t.testcase = parent ++ ".testcase".toList ∧
      Xor (parent ++ ".pm_pool.tar.gz".toList ∈ gbl) (parent ++ ".crash_site.tar.gz".toList ∈ gbl) := by
  refine h.parentJob.imp_right fun ⟨k, job, himg, hparent⟩ => ⟨job, hparent, ?_⟩
  have hmem := himg.mem
  have hno := himg.unique hs
  cases k with
  | tc => exact .inl ⟨hmem, hno⟩
  | cs => exact .inr ⟨hmem, hno⟩

/-- In every state of a run no step removes an archive from `@dedup`, every
testcase there has its image, every testcase with a parent has exactly one
image of it, and the checks before the cases of a job's queue pass, so that
collecting the queue does not raise. -/
theorem parent_images {ops : List Op} (h : exec (step p) init ops = some s) :
    (∀ op s', step p s op = some s' →
      ∀ n ∈ s.gbl, endsWith n ".tar.gz".toList = true → n ∈ s'.gbl) ∧
    (∀ t : TcName, t.testcase ∈ s.gbl → t.metadata.pmCmprPool ∈ s.gbl) ∧
    (∀ t : TcName, t.testcase ∈ s.gbl ∨ t.testcase ∈ s.tcDir1 ∨ t.testcase ∈ s.tcDir →
      getTestcaseParent t.testcase = [] ∨
        ∃ parent, getTestcaseParent t.testcase = parent ++ ".testcase".toList ∧
          Xor (parent ++ ".pm_pool.tar.gz".toList ∈ s.gbl)
            (parent ++ ".crash_site.tar.gz".toList ∈ s.gbl)) ∧
    ∀ k, ∀ file ∈ s.loc, checker k file = true →
      sanityCheck p s.gbl k (jobName k file) = .ok () ∧
      (∃ path, getParentImg (jobName k file ++ ".testcase".toList) p.dedupDirGbl s.gbl .exists true =
        .ok path) ∧
      ∀ os queue dirs, ∃ dirs', terminateJob p s.gbl k (jobName k file) os queue dirs = .ok dirs' := by
  have hi := inv_exec h
  refine ⟨fun op s' hs => (inv_step hi hs).2, fun t ht => ?_, fun t ht => ?_, fun k file hin hk => ?_⟩
  · obtain ⟨hmade, himg⟩ := hi.store.testcase t ht
    exact t.image_eq hmade.newline ▸ himg
  · rcases ht with ht | ht | ht
    · exact (hi.store.testcase t ht).1.parent hi.store
    · exact (hi.first.testcase t ht).parent hi.store
    · exact (hi.iteration.testcase t ht).parent hi.store
  · have hjob := hi.synced.jobImage hin hk
    refine ⟨hjob.sanityCheck hi.store p, ⟨_, hjob.getParentImg hi.store _⟩, fun os queue dirs => ?_⟩
    obtain ⟨dirs', hd, -⟩ := hjob.terminateJob hi.store p os queue dirs
    exact ⟨dirs', hd⟩

/-! ## A run with a job of each kind -/

def dirNames : Paths := ⟨"out/@dedup".toList, "out/afl/master_fuzzer/queue".toList⟩

/-- A case with both maps. -/
def caseOf (id : Str) (digits : IsDigits id) (map pmMap : Bytes) (crashImages : Option (List CrashImage)) :
    QueueCase where
  id := id
  digits := digits
  rest := ",src:000000".toList
  rest_ok := .inr rfl
  testcase := Bytes.ofStr id
  map := some map
  pmMap := some pmMap
  img := [1]
  crashImages := crashImages

theorem isDigits_3 : IsDigits "3".toList := by decide

theorem isDigits_4 : IsDigits "4".toList := by decide

theorem isDigits_5 : IsDigits "5".toList := by decide

theorem isDigits_6 : IsDigits "6".toList := by decide

/-- The first stage finds a case that leaves a failure image. -/
def firstCase : QueueCase :=
  caseOf "1".toList isDigits_1 [0, 1] [1]
    (some [⟨"5".toList, isDigits_5, [2]⟩])

/-- Both jobs of the first iteration are started and terminated. -/
def bothJobs : List Op :=
  let os := Os.sorted Place 0
  [.collectStage1 [firstCase], .updateGlobalStage1 os, .updateLocal os,
    .run .tc "id=1.testcase".toList, .run .cs "id=1.id=5.crash_site.tar.gz".toList] ++
  terminateTestcase os (fun _ => none) true "id=1.testcase".toList
    [caseOf "2".toList isDigits_2 [0, 2] [2] none] ++
  terminateCs os (fun _ => none) true "id=1.id=5.crash_site.tar.gz".toList
    [caseOf "3".toList isDigits_3 [0, 3] [3] none]

theorem isClean_first : IsClean "id=1".toList := .root isDigits_1

/-- The clean name of the crash site that a job runs on. -/
theorem isClean_site : IsClean "id=1.id=5".toList := .child '.' isClean_first (.inr rfl) isDigits_5

/-- What it leaves. -/
def siteChild : TcName :=
  (caseOf "3".toList isDigits_3 [0, 3] [3] none).child isClean_site

theorem parent_images_bothJobs : ∃ s, exec (step dirNames) init bothJobs = some s ∧
    siteChild.testcase ∈ s.tcDir ∧ (getTestcaseParent siteChild.testcase = [] ∨
      ∃ parent, getTestcaseParent siteChild.testcase = parent ++ ".testcase".toList ∧
        Xor (parent ++ ".pm_pool.tar.gz".toList ∈ s.gbl)
          (parent ++ ".crash_site.tar.gz".toList ∈ s.gbl)) := by
  have hmem : (exec (step dirNames) init bothJobs).map
      (fun s => decide (siteChild.testcase ∈ s.tcDir)) = some true := by decide +kernel
  obtain ⟨s, h, ht⟩ := Option.map_eq_some_iff.mp hmem
  have hin : siteChild.testcase ∈ s.tcDir := of_decide_eq_true ht
  exact ⟨s, h, hin, (parent_images h).2.2.1 siteChild (.inr (.inr hin))⟩

end PMFuzz.Pipeline
