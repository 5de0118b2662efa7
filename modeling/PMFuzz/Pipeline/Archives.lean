import PMFuzz.Pipeline.Images

/-!
# Archives

The archives that a run collects are those of images (`Op.archived`). `Archives`
says this of a directory; each step keeps it, for `@dedup` and the image
directories (`archiveInv_step`).
-/

namespace PMFuzz.Pipeline

open Names Str Dedup Stage2 Run

/-- The case, with the archives of its images. -/
def QueueCase.archived (tgt : Target) (q : QueueCase) : QueueCase :=
  { q with
    img := tgt.compress q.img
    crashImages := q.crashImages.map fun images =>
      images.map fun c => { c with content := tgt.compress c.content } }

/-- The call, on such cases. -/
def Op.archived (tgt : Target) : Op → Op
  | .collectStage1 queue => .collectStage1 (queue.map fun q => q.archived tgt)
  | .terminate k file os queue => .terminate k file os (queue.map fun q => q.archived tgt)
  | .collect queues => .collect (queues.map fun e => (e.1, e.2.archived tgt))
  | op => op

/-- Each archive of a directory is one of an image. -/
def Archives (tgt : Target) (d : Dir) : Prop :=
  ∀ n b, d.lookup n = some b → endsWith n ".tar.gz".toList = true → ∃ image, b = tgt.compress image

structure ArchiveInv (tgt : Target) (s : State) : Prop where
  store : Archives tgt s.gbl
  first : Archives tgt s.imgDir1
  iteration : Archives tgt s.imgDir

variable {tgt : Target} {p : Paths} {s s' : State} {op : Op} {ops : List Op} {t : TcName} {q : QueueCase}
  {os : Os Place} {gbl gbl' tcDir imgDir d d' : Dir} {dirs dirs' : Dir × Dir} {job stem n : Str} {b : Bytes}
  {k : Kind}

/-! ## Directories -/

namespace Archives

theorem empty : Archives tgt ∅ := fun _ _ h => by simp at h

theorem shrink (h : Archives tgt d) (hsub : ∀ n b, d'.lookup n = some b → endsWith n ".tar.gz".toList = true →
    d.lookup n = some b) : Archives tgt d' := fun n b hn hend => h n b (hsub n b hn hend) hend

theorem insert (h : Archives tgt d) (hb : ∃ image, b = tgt.compress image) : Archives tgt (Finmap.insert n b d) := by
  intro m c hm hend
  rw [Dir.lookup_insert] at hm
  split at hm
  · exact Option.some.inj hm ▸ hb
  · exact h m c hm hend

theorem crashSites (h : Archives tgt d) {images : List CrashImage}
    (himages : ∀ c ∈ images, ∃ image, c.content = tgt.compress image) :
    Archives tgt (compressCrashSites stem images d) := by
  induction images generalizing d with
  | nil => exact h
  | cons c images ih =>
    obtain ⟨hc, himages⟩ := List.forall_mem_cons.mp himages
    exact ih (h.insert hc) himages

end Archives

theorem QueueCase.archived_images (tgt : Target) (q : QueueCase) :
    ∀ c ∈ (q.archived tgt).crashImages.getD [], ∃ image, c.content = tgt.compress image := by
  intro c hc
  cases hq : q.crashImages with
  | none => simp [QueueCase.archived, hq] at hc
  | some images =>
    simp only [QueueCase.archived, hq, Option.map_some, Option.getD_some, List.mem_map] at hc
    obtain ⟨e, -, rfl⟩ := hc
    exact ⟨e.content, rfl⟩

theorem Archives.collectTc (h : Archives tgt dirs.2) (hnl : t.newline = false)
    (hrun : collectTc (q.archived tgt) t.testcase dirs = .ok dirs') : Archives tgt dirs'.2 := by
  cases (collectTc_eq hnl (q.archived tgt) dirs).symm.trans hrun
  exact h.insert ⟨q.img, rfl⟩

theorem Archives.collectResultsStage1 {foundCases : Dir} (h : Archives tgt dirs.2)
    (hrun : collectResultsStage1 p foundCases dirs (q.archived tgt) = .ok dirs') : Archives tgt dirs'.2 := by
  rcases collectResultsStage1_cases hrun with ⟨-, hrun⟩ | ⟨-, rfl⟩
  · obtain ⟨b, -, rfl⟩ := collectTcStage1_eq hrun
    exact (h.insert ⟨q.img, rfl⟩).crashSites (q.archived_images tgt)
  · exact h

theorem Archives.collectResults {foundCases : Dir} (h : Archives tgt dirs.2) (hjob : IsClean job)
    (hrun : collectResults foundCases dirs (job, q.archived tgt) = .ok dirs') : Archives tgt dirs'.2 := by
  rcases collectResults_cases hrun with ⟨-, hrun⟩ | ⟨-, rfl⟩
  · rw [← (q.archived tgt).child_testcase hjob] at hrun
    exact h.collectTc rfl hrun
  · exact h

/-- One round of the loop of a job. -/
theorem Archives.terminateCase (h : Archives tgt dirs.2) (hjob : IsClean job) {path : Str}
    (himg : getParentImg (job ++ ".testcase".toList) p.dedupDirGbl gbl .exists true = .ok path)
    (hrun : terminateCase p gbl k job dirs (q.archived tgt) = .ok dirs') : Archives tgt dirs'.2 := by
  obtain ⟨d, hd, hrest⟩ := terminateCase_cases hrun
  rw [← (q.archived tgt).child_testcase hjob] at hd
  have hcase : Archives tgt d.2 := h.collectTc rfl hd
  rcases hrest with rfl | ⟨images, imgDir, hc, hgen, rfl⟩
  · exact hcase
  · have himages := q.archived_images tgt
    rw [hc] at himages
    cases (tcGenCrashSites_eq hjob himg _ _ _).symm.trans hgen
    exact hcase.crashSites himages

/-! ## `@dedup` -/

theorem Archives.updateGlobal (h : Archives tgt gbl) (hdirs : Archives tgt imgDir)
    (hrun : updateGlobal os tcDir imgDir gbl = .ok gbl') : Archives tgt gbl' := by
  intro n b hn hend
  rcases lookup_archive_updateGlobal hrun hend hn with h' | h'
  · exact h n b h' hend
  · exact hdirs n b h' hend

theorem Archives.same (h : Archives tgt gbl) (hsame : SameArchives gbl gbl') : Archives tgt gbl' :=
  h.shrink fun n _ hn hend => hsame n hend ▸ hn

/-! ## Runs -/

theorem archiveInv_init : ArchiveInv tgt init := ⟨.empty, .empty, .empty⟩

theorem archiveInv_step (hi : Inv s) (hv : ArchiveInv tgt s) (h : step p s (op.archived tgt) = some s') :
    ArchiveInv tgt s' := by
  cases op with
  | collectStage1 queue =>
    obtain ⟨dirs, hd, rfl⟩ := Fold.toOption_map_eq_some.mp h
    refine ⟨hv.store, ?_, hv.iteration⟩
    refine Fold.foldlM_inv (P := fun d : Dir × Dir => Archives tgt d.2) (fun q hq d d' hd hround => ?_) hv.first hd
    obtain ⟨q, -, rfl⟩ := List.mem_map.mp hq
    exact hd.collectResultsStage1 hround
  | updateGlobalStage1 os =>
    obtain ⟨gbl, hg, rfl⟩ := Fold.toOption_map_eq_some.mp h
    exact ⟨hv.store.updateGlobal hv.first hg, hv.first, hv.iteration⟩
  | updateLocal os =>
    obtain ⟨loc, -, rfl⟩ := Fold.toOption_map_eq_some.mp h
    exact ⟨hv.store, hv.first, hv.iteration⟩
  | run k file =>
    obtain ⟨-, h⟩ := Option.ite_none_right_eq_some.mp h
    cases h
    exact ⟨hv.store, hv.first, hv.iteration⟩
  | terminate k file os queue =>
    obtain ⟨⟨hin, hch, -⟩, h⟩ := Option.ite_none_right_eq_some.mp h
    obtain ⟨dirs, hd, rfl⟩ := Fold.toOption_map_eq_some.mp h
    obtain ⟨d, hloop, hd⟩ := Fold.bind_eq_ok.mp hd
    cases hd
    have hjob := hi.synced.jobImage hin hch
    have hqueue : Archives tgt d.2 := by
      refine Fold.foldlM_inv (P := fun d : Dir × Dir => Archives tgt d.2) (fun q hq d d' hd hround => ?_)
        hv.iteration hloop
      obtain ⟨q, -, rfl⟩ := List.mem_map.mp hq
      exact hd.terminateCase hjob.isJob.isClean (hjob.getParentImg hi.store _) hround
    refine ⟨hv.store, hv.first, hqueue.shrink fun n b hn _ => ?_⟩
    rw [cleanUpUncmprLcl, Dir.lookup_removeAll] at hn
    exact (Option.ite_none_left_eq_some.mp hn).2
  | dedupEngine os =>
    obtain ⟨tcDir, -, rfl⟩ := Fold.toOption_map_eq_some.mp h
    exact ⟨hv.store, hv.first, hv.iteration⟩
  | deduplicateLcl os db fdedup minTc minCorpus =>
    obtain ⟨imgDir, hsites, hs⟩ := deduplicateLcl_ok (Fold.toOption_eq_some.mp h)
    have himg : Archives tgt imgDir := hv.iteration.shrink fun n b hn _ =>
      ((hsites n).resolve_right fun hc => hc.2 (Finmap.mem_of_lookup_eq_some hn)) ▸ hn
    rcases hs with rfl | ⟨-, tcDir, gbl, hrun, rfl⟩
    · exact ⟨hv.store, hv.first, himg⟩
    · obtain ⟨-, D, hdrops⟩ := minimizeLcl_ok hrun
      exact ⟨hv.store.same hdrops.sameArchives, hv.first, himg⟩
  | collect queues =>
    obtain ⟨hstarted, h⟩ := Option.ite_none_right_eq_some.mp h
    obtain ⟨dirs, hd, rfl⟩ := Fold.toOption_map_eq_some.mp h
    refine ⟨hv.store, hv.first, ?_⟩
    refine Fold.foldlM_inv (P := fun d : Dir × Dir => Archives tgt d.2) (fun e he d d' hd hround => ?_)
      hv.iteration hd
    obtain ⟨k, hjob⟩ := hi.started e.1 (hstarted e he)
    obtain ⟨e, -, rfl⟩ := List.mem_map.mp he
    exact hd.collectResults hjob.isJob.isClean hround
  | updateGlobal os =>
    obtain ⟨gbl, hg, rfl⟩ := Fold.toOption_map_eq_some.mp h
    exact ⟨hv.store.updateGlobal hv.iteration hg, hv.first, hv.iteration⟩
  | deduplicateGbl os fdedupCfg fdedup minTc minCorpus =>
    obtain ⟨gbl, hg, rfl⟩ := Fold.toOption_map_eq_some.mp h
    rcases deduplicateGbl_ok hg with rfl | hmin
    · exact hv
    · obtain ⟨D, hdrops, -⟩ := minimizeCorpusGbl_ok hmin
      exact ⟨hv.store.same hdrops.sameArchives, hv.first, hv.iteration⟩
  | clear =>
    cases h
    exact ⟨hv.store, hv.first, .empty⟩

theorem archiveInv_exec (h : exec (step p) init (ops.map (Op.archived tgt)) = some s) : Inv s ∧ ArchiveInv tgt s := by
  rw [exec_map] at h
  exact exec_inv _ (I := fun s => Inv s ∧ ArchiveInv tgt s)
    (fun hi hs => ⟨(inv_step hi.1 hs).1, archiveInv_step hi.1 hi.2 hs⟩) ⟨inv_init, archiveInv_init⟩ h

end PMFuzz.Pipeline
