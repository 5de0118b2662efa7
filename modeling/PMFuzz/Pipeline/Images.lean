import PMFuzz.Pipeline.Parents

/-!
# Images and lineages

AFL finds a testcase on an image of the job: `_run_testcase`, `_run_cs` and
`tc_gen_crash_sites` decompress the one that `@dedup` has for it. Both
collectors then call `gen_img` without a path. `genImg_eq` says that it runs
the target on no image, `ImageInv` that this is what the archives of all
testcases hold, and `follows_iff` for which testcases that is the image of
their lineage; `executed_of_follows` is the induction over a lineage.
-/

namespace PMFuzz.Pipeline

open Names Str Dedup Stage2 Run

/-! ## The target -/

/-- The target, and `tar`. -/
structure Target where
  /-- The image that a run leaves, of the image it starts from and its input. -/
  run : Option Bytes → Bytes → Bytes
  compress : Bytes → Bytes
  decompress : Bytes → Option Bytes
  decompress_compress : ∀ image, decompress (compress image) = some image

namespace Target

/-- `gen_img` without `img_path`: the target finds in `img_loc` what is
there under the name of its image. -/
def genImg (tgt : Target) (imgLoc : Dir) (testcase : Str) (input : Bytes) (destDir : Dir) :
    Except Stop (Dir × Dir) := do
  let imgName := (← getMetadataFiles testcase).pmPool
  let image := tgt.run (imgLoc.lookup imgName) input
  let imgLoc := Finmap.insert imgName image imgLoc
  let dest := (← getMetadataFiles imgName).pmCmprPool
  return (Finmap.insert dest (tgt.compress image) destDir, imgLoc.erase imgName)

/-- What it archives. -/
def archive (tgt : Target) (imgLoc : Dir) (testcase : Str) (input : Bytes) : Option Bytes := do
  let metadataFiles ← (getMetadataFiles testcase).toOption
  let dirs ← (tgt.genImg imgLoc testcase input ∅).toOption
  dirs.1.lookup metadataFiles.pmCmprPool

/-- The image of a parent that `tc_gen_crash_sites` decompresses. -/
def parentImg (tgt : Target) (p : Paths) (gbl : Dir) (parentName : Str) : Option Bytes := do
  let parentCmprImg ← (getParentImg parentName p.dedupDirGbl gbl .exists true).toOption
  -- a path in `@dedup`
  tgt.decompress (← gbl.lookup (parentCmprImg.drop (p.dedupDirGbl.length + 1)))

/-- What a testcase was found on: no image, if it has no parent. -/
def start (tgt : Target) (p : Paths) (gbl : Dir) (testcase : Str) : Option (Option Bytes) :=
  if getTestcaseParent testcase = [] then some none
  else (tgt.parentImg p gbl (getTestcaseParent testcase)).map some

/-- The archive holds what the input leaves of the image it was found on. -/
def Follows (tgt : Target) (p : Paths) (gbl imgDir : Dir) (t : TcName) (input : Bytes) : Prop :=
  imgDir.lookup t.metadata.pmCmprPool =
    (tgt.start p gbl t.testcase).map fun image => tgt.compress (tgt.run image input)

/-- The image that inputs leave, one after the other. -/
def executed (tgt : Target) (inputs : List Bytes) : Option Bytes :=
  inputs.foldl (fun image input => some (tgt.run image input)) none

end Target

/-- The inputs of the testcases that one with the clean name descends from,
the first one first. -/
inductive Ancestors (gbl : Dir) : Str → List Bytes → Prop
  | root {ds : Str} (h : IsDigits ds) : Ancestors gbl ("id=".toList ++ ds) []
  | child {job ds : Str} {inputs : List Bytes} {input : Bytes} (hjob : Ancestors gbl job inputs)
      (hin : gbl.lookup (job ++ ".testcase".toList) = some input) (h : IsDigits ds) :
    Ancestors gbl (job ++ ',' :: ("id=".toList ++ ds)) (inputs ++ [input])

/-! ## Runs with a target -/

/-- The archives of a case are those of `gen_img`, and of failure images. -/
def QueueCase.generate (tgt : Target) (imgLoc : Dir) (cleanName : Str) (q : QueueCase) : QueueCase :=
  { q with
    img := (tgt.archive imgLoc cleanName q.testcase).getD []
    crashImages := q.crashImages.map fun images =>
      images.map fun c => { c with content := tgt.compress c.content } }

/-- The archives of the cases that a call collects. `gen_img` leaves `img_loc`
as it was (`genImg_eq`). -/
def Op.generate (tgt : Target) (imgLoc : Dir) : Op → Op
  | .collectStage1 queue => .collectStage1 (queue.map fun q => q.generate tgt imgLoc q.root.testcase)
  | .terminate k file os queue => .terminate k file os (queue.map fun q =>
      q.generate tgt imgLoc (jobName k file ++ ',' :: q.root.testcase))
  | .collect queues => .collect (queues.map fun e =>
      (e.1, e.2.generate tgt imgLoc (e.1 ++ ',' :: e.2.root.testcase)))
  | op => op

/-- The case has the archive of what its input leaves of no image. -/
structure QueueCase.Generated (tgt : Target) (q : QueueCase) : Prop where
  img : q.img = tgt.compress (tgt.run none q.testcase)
  crashImages : ∀ c ∈ q.crashImages.getD [], ∃ image, c.content = tgt.compress image

/-- Each testcase has the archive of what its input leaves of no image, and
archives hold images. -/
structure Imaged (tgt : Target) (tcDir imgDir : Dir) : Prop where
  image : ∀ (t : TcName) input, tcDir.lookup t.testcase = some input →
    imgDir.lookup t.image = some (tgt.compress (tgt.run none input))
  archive : ∀ n b, imgDir.lookup n = some b → endsWith n ".tar.gz".toList = true →
    ∃ image, b = tgt.compress image

/-- Where a state has testcases with their images. -/
def State.collected (s : State) : List (Dir × Dir) :=
  [(s.tcDir1, s.imgDir1), (s.tcDir, s.imgDir), (s.gbl, s.gbl)]

structure ImageInv (tgt : Target) (s : State) : Prop where
  store : Imaged tgt s.gbl s.gbl
  first : Imaged tgt s.tcDir1 s.imgDir1
  iteration : Imaged tgt s.tcDir s.imgDir

variable {tgt : Target} {p : Paths} {s s' : State} {op : Op} {ops : List Op} {t : TcName} {q : QueueCase}
  {os : Os Place} {gbl gbl' tcDir tcDir' imgDir imgDir' imgLoc destDir : Dir} {dirs dirs' : Dir × Dir}
  {job stem n : Str} {input b : Bytes} {k : Kind}

/-- `gen_img` runs the target on no image, unless one of that name was left,
and leaves `img_loc` as it was. -/
theorem Target.genImg_eq (hnl : t.newline = false) (hfree : t.metadata.pmPool ∉ imgLoc) :
    tgt.genImg imgLoc t.testcase input destDir =
      (Pipeline.genImg (tgt.compress (tgt.run none input)) t.testcase destDir).map (·, imgLoc) := by
  have hnone : imgLoc.lookup t.metadata.pmPool = none := Finmap.lookup_eq_none.mpr hfree
  have hback : (Finmap.insert t.metadata.pmPool (tgt.run none input) imgLoc).erase t.metadata.pmPool =
      imgLoc := by
    refine Finmap.ext_lookup fun n => ?_
    rw [Dir.lookup_erase, Dir.lookup_insert]
    by_cases hn : n = t.metadata.pmPool
    · rw [if_pos hn, hn, hnone]
    · rw [if_neg hn, if_neg hn]
  rw [genImg_ok hnl, Target.genImg, getMetadataFiles_testcase]
  show (do
    let m ← getMetadataFiles t.metadata.pmPool
    let image := tgt.run (imgLoc.lookup t.metadata.pmPool) input
    pure (Finmap.insert m.pmCmprPool (tgt.compress image) destDir,
      (Finmap.insert t.metadata.pmPool image imgLoc).erase t.metadata.pmPool)) = _
  rw [getMetadataFiles_pmPool t hnl, hnone]
  show Except.ok (Finmap.insert t.metadata.pmCmprPool _ destDir, _) = _
  rw [hback, ← t.image_eq hnl]
  rfl

theorem Target.archive_eq (hnl : t.newline = false) (hfree : t.metadata.pmPool ∉ imgLoc) :
    tgt.archive imgLoc t.testcase input = some (tgt.compress (tgt.run none input)) := by
  rw [Target.archive, getMetadataFiles_testcase, Target.genImg_eq hnl hfree, genImg_ok hnl]
  show (Finmap.insert t.image (tgt.compress (tgt.run none input)) (∅ : Dir)).lookup
    t.metadata.pmCmprPool = _
  rw [← t.image_eq hnl, Dir.lookup_insert, if_pos rfl]

/-- No image of a testcase was left in `img_loc`. -/
theorem QueueCase.generate_generated (q : QueueCase) (hnl : t.newline = false)
    (hfree : t.metadata.pmPool ∉ imgLoc) : (q.generate tgt imgLoc t.testcase).Generated tgt where
  img := by
    show (tgt.archive imgLoc t.testcase q.testcase).getD [] = _
    rw [Target.archive_eq hnl hfree]
    rfl
  crashImages c hc := by
    cases hq : q.crashImages with
    | none => simp [QueueCase.generate, hq] at hc
    | some images =>
      simp only [QueueCase.generate, hq, Option.map_some, Option.getD_some, List.mem_map] at hc
      obtain ⟨d, -, rfl⟩ := hc
      exact ⟨d.content, rfl⟩

/-! ## Names -/

theorem IsSite.isCmprCrashSite (h : IsSite n) : isCmprCrashSite n = true := by
  obtain ⟨c, hc, rfl⟩ := h
  refine isCmprCrashSite_iff.mpr ⟨⟨c, hc.isClean, false⟩, '.', '.', by decide, by decide, ?_⟩
  simp [TcName.nl]

theorem IsSite.ne_image (h : IsSite n) (t : TcName) : t.image ≠ n := fun heq =>
  cmprCrashSite_notMem_family h.isCmprCrashSite t (by simp [TcName.family, heq])

theorem image_inj {u : TcName} (h : t.image = u.image) : t = u :=
  TcName.eq_of_mem_family (n := t.image) (by simp [TcName.family]) (by simp [TcName.family, h])

/-! ## Directories -/

theorem Imaged.empty : Imaged tgt ∅ ∅ :=
  ⟨fun _ _ h => by simp at h, fun _ _ h => by simp at h⟩

/-- Files go that are no images of testcases that stay. -/
theorem Imaged.shrink (h : Imaged tgt tcDir imgDir)
    (htc : ∀ t : TcName, t.testcase ∈ tcDir' → tcDir'.lookup t.testcase = tcDir.lookup t.testcase)
    (himg : ∀ t : TcName, t.testcase ∈ tcDir' → imgDir'.lookup t.image = imgDir.lookup t.image)
    (harch : ∀ n ∈ imgDir', endsWith n ".tar.gz".toList = true → imgDir'.lookup n = imgDir.lookup n) :
    Imaged tgt tcDir' imgDir' where
  image t input ht := by
    have hin : t.testcase ∈ tcDir' := Finmap.mem_of_lookup_eq_some ht
    rw [himg t hin]
    exact h.image t input (htc t hin ▸ ht)
  archive n b hn hend := by
    have hin : n ∈ imgDir' := Finmap.mem_of_lookup_eq_some hn
    exact h.archive n b (harch n hin hend ▸ hn) hend

/-- A testcase is written, and its image. -/
theorem Imaged.case (h : Imaged tgt tcDir imgDir) (htc : tcDir'.lookup t.testcase = some input)
    (hframe : ∀ n, n ∉ buriedFiles t → tcDir'.lookup n = tcDir.lookup n) :
    Imaged tgt tcDir' (Finmap.insert t.image (tgt.compress (tgt.run none input)) imgDir) where
  image u b hu := by
    rw [Dir.lookup_insert]
    by_cases hut : u = t
    · subst hut
      cases htc.symm.trans hu
      rw [if_pos rfl]
    · rw [if_neg fun heq => hut (image_inj heq)]
      refine h.image u b ?_
      rw [← hframe _ fun hn => hut (TcName.eq_of_mem_family (n := u.testcase) (by simp [TcName.family])
        (mem_family_of_buried hn))]
      exact hu
  archive n b hn hend := by
    rw [Dir.lookup_insert] at hn
    split at hn
    · exact ⟨_, (Option.some.inj hn).symm⟩
    · exact h.archive n b hn hend

/-- Archives of crash sites are written. -/
theorem Imaged.sites (h : Imaged tgt tcDir imgDir) (hstem : IsClean stem) {images : List CrashImage}
    (himages : ∀ c ∈ images, ∃ image, c.content = tgt.compress image) :
    Imaged tgt tcDir (compressCrashSites stem images imgDir) := by
  induction images generalizing imgDir with
  | nil => exact h
  | cons c images ih =>
    obtain ⟨hc, himages⟩ := List.forall_mem_cons.mp himages
    refine ih ⟨fun t input ht => ?_, fun n b hn hend => ?_⟩ himages
    · have hsite : IsSite (stem ++ ".id=".toList ++ c.id ++ ".crash_site".toList ++ ".tar.gz".toList) :=
        ⟨_, .child hstem c.digits, by simp⟩
      rw [Dir.lookup_insert, if_neg (hsite.ne_image t)]
      exact h.image t input ht
    · rw [Dir.lookup_insert] at hn
      split at hn
      · exact Option.some.inj hn ▸ hc
      · exact h.archive n b hn hend

/-! ## Collecting -/

theorem Imaged.collectTc (h : Imaged tgt dirs.1 dirs.2) (hq : q.Generated tgt) (hnl : t.newline = false)
    (hrun : collectTc q t.testcase dirs = .ok dirs') : Imaged tgt dirs'.1 dirs'.2 := by
  cases (collectTc_eq hnl q dirs).symm.trans hrun
  have hmap : t.testcase ≠ "map_".toList ++ t.testcase := (testcase_ne_files (u := t)).2.1
  have hpmMap : t.testcase ≠ "pm_map_".toList ++ t.testcase := (testcase_ne_files (u := t)).2.2
  have htc : (copyMap ("pm_map_".toList ++ t.testcase) q.pmMap (copyMap ("map_".toList ++ t.testcase) q.map
      (Finmap.insert t.testcase q.testcase dirs.1))).lookup t.testcase = some q.testcase := by
    rw [lookup_copyMap hpmMap, lookup_copyMap hmap, Dir.lookup_insert, if_pos rfl]
  rw [hq.img]
  refine h.case htc fun n hn => ?_
  obtain ⟨h1, h2, h3⟩ := notMem_buriedFiles.mp hn
  rw [lookup_copyMap h3, lookup_copyMap h2, Dir.lookup_insert, if_neg h1]

theorem Imaged.collectTcStage1 (h : Imaged tgt dirs.1 dirs.2) (hq : q.Generated tgt)
    (hrun : collectTcStage1 p q q.root.testcase dirs = .ok dirs') : Imaged tgt dirs'.1 dirs'.2 := by
  obtain ⟨b, -, rfl⟩ := collectTcStage1_eq hrun
  have hmap : q.root.testcase ≠ "map_".toList ++ q.root.testcase :=
    (testcase_ne_files (u := q.root)).2.1
  have hpmMap : q.root.testcase ≠ "pm_map_".toList ++ q.root.testcase :=
    (testcase_ne_files (u := q.root)).2.2
  have htc : (copyMap ("pm_map_".toList ++ q.root.testcase) q.pmMap
      (Finmap.insert ("map_".toList ++ q.root.testcase) b
        (Finmap.insert q.root.testcase q.testcase dirs.1))).lookup q.root.testcase = some q.testcase := by
    rw [lookup_copyMap hpmMap, Dir.lookup_insert, if_neg hmap, Dir.lookup_insert, if_pos rfl]
  have hcase := h.case htc fun n hn => by
    obtain ⟨h1, h2, h3⟩ := notMem_buriedFiles.mp hn
    rw [lookup_copyMap h3, Dir.lookup_insert, if_neg h2, Dir.lookup_insert, if_neg h1]
  rw [hq.img]
  exact hcase.sites q.root.isClean hq.crashImages

theorem Imaged.collectResultsStage1 {foundCases : Dir} (h : Imaged tgt dirs.1 dirs.2)
    (hq : q.Generated tgt) (hrun : collectResultsStage1 p foundCases dirs q = .ok dirs') :
    Imaged tgt dirs'.1 dirs'.2 := by
  rcases collectResultsStage1_cases hrun with ⟨-, hrun⟩ | ⟨-, rfl⟩
  · exact h.collectTcStage1 hq hrun
  · exact h

theorem Imaged.collectResults {foundCases : Dir} (h : Imaged tgt dirs.1 dirs.2) (hq : q.Generated tgt)
    (hjob : IsClean job) (hrun : collectResults foundCases dirs (job, q) = .ok dirs') :
    Imaged tgt dirs'.1 dirs'.2 := by
  rcases collectResults_cases hrun with ⟨-, hrun⟩ | ⟨-, rfl⟩
  · rw [← q.child_testcase hjob] at hrun
    exact h.collectTc hq rfl hrun
  · exact h

/-- One round of the loop of a job. -/
theorem Imaged.terminateCase (h : Imaged tgt dirs.1 dirs.2) (hq : q.Generated tgt) (hjob : IsClean job)
    {path : Str}
    (himg : getParentImg (job ++ ".testcase".toList) p.dedupDirGbl gbl .exists true = .ok path)
    (hrun : terminateCase p gbl k job dirs q = .ok dirs') : Imaged tgt dirs'.1 dirs'.2 := by
  obtain ⟨d, hd, hrest⟩ := terminateCase_cases hrun
  rw [← q.child_testcase hjob] at hd
  have hcase : Imaged tgt d.1 d.2 := h.collectTc hq rfl hd
  rcases hrest with rfl | ⟨images, imgDir, himages, hgen, rfl⟩
  · exact hcase
  · have hsites := hq.crashImages
    rw [himages] at hsites
    cases (tcGenCrashSites_eq hjob himg _ _ _).symm.trans hgen
    exact hcase.sites (.child '.' hjob (.inr rfl) q.digits) hsites

/-- Uncompressed files are no images of testcases. -/
theorem Imaged.cleanUp (h : Imaged tgt tcDir imgDir)
    (hnl : ∀ t : TcName, t.testcase ∈ tcDir → t.newline = false) :
    Imaged tgt tcDir (cleanUpUncmprLcl os imgDir) := by
  have hlook : ∀ n, endsWith n ".tar.gz".toList = true →
      (cleanUpUncmprLcl os imgDir).lookup n = imgDir.lookup n := by
    intro n hend
    rw [cleanUpUncmprLcl, Dir.lookup_removeAll, if_neg]
    intro hn
    obtain ⟨c, hc⟩ := List.isSuffixOf_iff_suffix.mp hend
    have hlast : n.getLast? = some 'z' := by rw [← hc]; simp
    have hor := (List.mem_filter.mp hn).2
    rw [Bool.or_eq_true] at hor
    rcases hor with h | h
    · obtain ⟨d, hd⟩ := List.isSuffixOf_iff_suffix.mp h
      rw [← hd] at hlast
      simp at hlast
    · obtain ⟨d, hd⟩ := List.isSuffixOf_iff_suffix.mp h
      rw [← hd] at hlast
      simp at hlast
  refine h.shrink (fun _ _ => rfl) (fun t ht => hlook _ ?_) fun n _ => hlook n
  rw [image_eq_archive (hnl t ht)]
  exact endsWith_archiveExt .tc _

/-! ## `@dedup` -/

/-- `update_global` copies archives from the image directory. -/
theorem lookup_archive_updateGlobal (hrun : updateGlobal os tcDir imgDir gbl = .ok gbl')
    (hend : endsWith n ".tar.gz".toList = true) (hn : gbl'.lookup n = some b) :
    gbl.lookup n = some b ∨ imgDir.lookup n = some b := by
  have hup := updateGlobal_ok hrun
  by_cases hc : ∃ t, Offered tcDir gbl t ∧ Copied tcDir t n
  · obtain ⟨t, hoff, hcopied⟩ := hc
    obtain rfl := eq_image_of_mem_family hcopied.mem_family hend
    rw [hup.copied t _ hoff hcopied, copySource, if_pos rfl] at hn
    exact .inr hn
  · have hno : ∀ t, Offered tcDir gbl t → ¬ Copied tcDir t n := fun t ht hn => hc ⟨t, ht, hn⟩
    by_cases hs : isCmprCrashSite n = true ∧ n ∈ imgDir ∧ n ∉ gbl
    · rw [hup.site n hs.1 hs.2.1 hs.2.2] at hn
      exact .inr hn
    · rw [hup.frame n hno fun h1 h2 => by_contra fun h3 => hs ⟨h1, h2, h3⟩] at hn
      exact .inl hn

/-- `update_global` copies a testcase together with its image. -/
theorem Imaged.updateGlobal (h : Imaged tgt gbl gbl) (hdirs : Imaged tgt tcDir imgDir)
    (hrun : updateGlobal os tcDir imgDir gbl = .ok gbl') : Imaged tgt gbl' gbl' := by
  have hup := updateGlobal_ok hrun
  refine ⟨fun t input ht => ?_, fun n b hn hend => ?_⟩
  · by_cases hoff : Offered tcDir gbl t
    · have hne : t.testcase ≠ t.image := fun heq => by
        have hext : ".testcase".toList ++ t.nl = ".pm_pool.tar.gz".toList ++ t.nl :=
          List.append_cancel_left heq
        simp at hext
      rw [hup.copied t _ hoff (.inl rfl), copySource, if_neg hne] at ht
      rw [hup.copied t _ hoff (.inr (.inl rfl)), copySource, if_pos rfl]
      exact hdirs.image t input ht
    · rw [hup.lookup_family hoff (by simp [TcName.family])] at ht ⊢
      exact h.image t input ht
  · rcases lookup_archive_updateGlobal hrun hend hn with h' | h'
    · exact h.archive n b h' hend
    · exact hdirs.archive n b h' hend

/-- Minimization does not change archives. -/
theorem Imaged.dedup (h : Imaged tgt gbl gbl) (hs : StoreOk gbl') (hsame : SameArchives gbl gbl')
    (hwhole : Whole gbl gbl') : Imaged tgt gbl' gbl' := by
  refine h.shrink (fun t => hwhole.testcase) (fun t ht => hsame _ ?_) fun n _ => hsame n
  rw [image_eq_archive (hs.testcase t ht).1.newline]
  exact endsWith_archiveExt .tc _

/-! ## Runs -/

theorem imageInv_init : ImageInv tgt init := ⟨.empty, .empty, .empty⟩

/-- Every step keeps the images, if the target generates them. -/
theorem imageInv_step (hfree : ∀ t : TcName, t.metadata.pmPool ∉ imgLoc) (hi : Inv s)
    (hv : ImageInv tgt s) (h : step p s (op.generate tgt imgLoc) = some s') : ImageInv tgt s' := by
  have hi' := (inv_step hi h).1
  cases op with
  | collectStage1 queue =>
    obtain ⟨dirs, hd, rfl⟩ := Fold.toOption_map_eq_some.mp h
    refine ⟨hv.store, ?_, hv.iteration⟩
    refine Fold.foldlM_inv (P := fun d : Dir × Dir => Imaged tgt d.1 d.2) (fun q hq d d' himg hround => ?_)
      hv.first hd
    obtain ⟨q, -, rfl⟩ := List.mem_map.mp hq
    exact himg.collectResultsStage1 (q.generate_generated rfl (hfree _)) hround
  | updateGlobalStage1 os =>
    obtain ⟨gbl, hg, rfl⟩ := Fold.toOption_map_eq_some.mp h
    exact ⟨hv.store.updateGlobal hv.first hg, hv.first, hv.iteration⟩
  | updateLocal os =>
    obtain ⟨loc, -, rfl⟩ := Fold.toOption_map_eq_some.mp h
    exact ⟨hv.store, hv.first, hv.iteration⟩
  | run k file =>
    obtain ⟨-, h⟩ := Option.ite_none_right_eq_some.mp h
    cases h
    exact ⟨hv.store, hv.first, hv.iteration⟩
  | terminate k file os queue =>
    obtain ⟨⟨hin, hch, -⟩, h⟩ := Option.ite_none_right_eq_some.mp h
    obtain ⟨dirs, hd, rfl⟩ := Fold.toOption_map_eq_some.mp h
    obtain ⟨d, hloop, hd⟩ := Fold.bind_eq_ok.mp hd
    cases hd
    have hjob := hi.synced.jobImage hin hch
    have hclean := hjob.isJob.isClean
    have hqueue : Imaged tgt d.1 d.2 := by
      refine Fold.foldlM_inv (P := fun d : Dir × Dir => Imaged tgt d.1 d.2)
        (fun q hq d d' himg hround => ?_) hv.iteration hloop
      obtain ⟨q, -, rfl⟩ := List.mem_map.mp hq
      rw [← q.child_testcase hclean] at hround
      exact himg.terminateCase (q.generate_generated rfl (hfree _)) hclean
        (hjob.getParentImg hi.store _) hround
    exact ⟨hv.store, hv.first, hqueue.cleanUp fun t ht => (hi'.iteration.testcase t ht).newline⟩
  | dedupEngine os =>
    obtain ⟨tcDir, ht, rfl⟩ := Fold.toOption_map_eq_some.mp h
    have hwhole := mapEngine_whole ht
    exact ⟨hv.store, hv.first,
      hv.iteration.shrink (fun t => hwhole.testcase) (fun _ _ => rfl) fun _ _ _ => rfl⟩
  | deduplicateLcl os db fdedup minTc minCorpus =>
    obtain ⟨imgDir, hsites, hs⟩ := deduplicateLcl_ok (Fold.toOption_eq_some.mp h)
    have himg : ∀ t : TcName, imgDir.lookup t.image = s.imgDir.lookup t.image := fun t =>
      (hsites _).resolve_right fun hc => cmprCrashSite_notMem_family hc.1 t (by simp [TcName.family])
    have harch : ∀ n ∈ imgDir, endsWith n ".tar.gz".toList = true →
        imgDir.lookup n = s.imgDir.lookup n := fun n hn _ => (hsites n).resolve_right fun hc => hc.2 hn
    rcases hs with rfl | ⟨-, tcDir, gbl, hrun, rfl⟩
    · exact ⟨hv.store, hv.first, hv.iteration.shrink (fun _ _ => rfl) (fun t _ => himg t) harch⟩
    · obtain ⟨hwhole, D, hdrops⟩ := minimizeLcl_ok hrun
      exact ⟨hv.store.dedup hi'.store hdrops.sameArchives hdrops.whole, hv.first,
        hv.iteration.shrink (fun t => hwhole.testcase) (fun t _ => himg t) harch⟩
  | collect queues =>
    obtain ⟨hstarted, h⟩ := Option.ite_none_right_eq_some.mp h
    obtain ⟨dirs, hd, rfl⟩ := Fold.toOption_map_eq_some.mp h
    refine ⟨hv.store, hv.first, ?_⟩
    refine Fold.foldlM_inv (P := fun d : Dir × Dir => Imaged tgt d.1 d.2) (fun e he d d' himg hround => ?_)
      hv.iteration hd
    obtain ⟨k, hjob⟩ := hi.started e.1 (hstarted e he)
    obtain ⟨e, -, rfl⟩ := List.mem_map.mp he
    have hclean : IsClean e.1 := hjob.isJob.isClean
    rw [← e.2.child_testcase hclean] at hround
    exact himg.collectResults (e.2.generate_generated rfl (hfree _)) hclean hround
  | updateGlobal os =>
    obtain ⟨gbl, hg, rfl⟩ := Fold.toOption_map_eq_some.mp h
    exact ⟨hv.store.updateGlobal hv.iteration hg, hv.first, hv.iteration⟩
  | deduplicateGbl os fdedupCfg fdedup minTc minCorpus =>
    obtain ⟨gbl, hg, rfl⟩ := Fold.toOption_map_eq_some.mp h
    rcases deduplicateGbl_ok hg with rfl | hmin
    · exact hv
    · obtain ⟨D, hdrops, -⟩ := minimizeCorpusGbl_ok hmin
      have hwhole := Drops.whole hdrops uncompressed_subset buried_subset_uncompressed
      exact ⟨hv.store.dedup hi'.store hdrops.sameArchives hwhole, hv.first, hv.iteration⟩
  | clear =>
    cases h
    exact ⟨hv.store, hv.first, .empty⟩

theorem imageInv_exec (hfree : ∀ t : TcName, t.metadata.pmPool ∉ imgLoc)
    (h : exec (step p) init (ops.map (Op.generate tgt imgLoc)) = some s) : Inv s ∧ ImageInv tgt s := by
  rw [exec_map] at h
  exact exec_inv _ (I := fun s => Inv s ∧ ImageInv tgt s)
    (fun hi hs => ⟨(inv_step hi.1 hs).1, imageInv_step hfree hi.1 hi.2 hs⟩) ⟨inv_init, imageInv_init⟩ h

/-! ## Lineages -/

/-- The image of a job is decompressed from its archive. -/
theorem JobImage.parentImg (h : JobImage gbl k job) (hs : StoreOk gbl) {image : Bytes}
    (hb : gbl.lookup (job ++ archiveExt k) = some (tgt.compress image)) :
    tgt.parentImg p gbl (job ++ ".testcase".toList) = some image := by
  have hdrop : (p.dedupDirGbl ++ '/' :: (job ++ archiveExt k)).drop (p.dedupDirGbl.length + 1) =
      job ++ archiveExt k := by simp
  rw [Target.parentImg, h.getParentImg hs]
  show (gbl.lookup ((p.dedupDirGbl ++ '/' :: (job ++ archiveExt k)).drop _)).bind tgt.decompress = _
  rw [hdrop, hb]
  exact tgt.decompress_compress image

theorem JobImage.start (h : JobImage gbl k job) (hs : StoreOk gbl) {image : Bytes}
    (hb : gbl.lookup (job ++ archiveExt k) = some (tgt.compress image))
    (hparent : getTestcaseParent n = job ++ ".testcase".toList) :
    tgt.start p gbl n = some (some image) := by
  rw [Target.start, if_neg (by rw [hparent]; simp), hparent, h.parentImg hs hb]
  rfl

/-- `@dedup` has what every testcase was found on. -/
theorem Made.start (h : Made gbl t) (hs : StoreOk gbl) (himg : Imaged tgt tcDir gbl) :
    ∃ image, tgt.start p gbl t.testcase = some image := by
  rcases h.parentJob with hroot | ⟨k, job, hjob, hparent⟩
  · exact ⟨none, if_pos hroot⟩
  · obtain ⟨b, hb⟩ := Finmap.mem_iff.mp hjob.mem
    obtain ⟨image, rfl⟩ := himg.archive _ b hb (endsWith_archiveExt k job)
    exact ⟨some image, hjob.start hs hb hparent⟩

theorem Target.compress_inj {a b : Bytes} : tgt.compress a = tgt.compress b ↔ a = b := by
  refine ⟨fun h => Option.some.inj ?_, congrArg _⟩
  rw [← tgt.decompress_compress, h, tgt.decompress_compress]

theorem Target.executed_append (tgt : Target) (inputs : List Bytes) (input : Bytes) :
    tgt.executed (inputs ++ [input]) = some (tgt.run (tgt.executed inputs) input) := by
  simp [executed, List.foldl_append]

theorem Ancestors.isTcClean {c : Str} {inputs : List Bytes} (h : Ancestors gbl c inputs) :
    IsTcClean c := by
  induction h with
  | root h => exact .root h
  | child _ _ h ih => exact .child ih.isClean h

/-- If the archives of `@dedup` hold what their testcases leave of what they
were found on, that is what the inputs of the ancestors leave. -/
theorem Ancestors.start_eq_executed (hs : StoreOk gbl)
    (hfollows : ∀ (u : TcName) input, gbl.lookup u.testcase = some input → tgt.Follows p gbl gbl u input)
    {c : Str} {inputs : List Bytes} (h : Ancestors gbl c inputs) :
    tgt.start p gbl (c ++ ".testcase".toList) = some (tgt.executed inputs) := by
  induction h with
  | root h => exact if_pos (getTestcaseParent_root h)
  | @child job ds inputs input hjob hin h ih =>
    have hclean := hjob.isTcClean.isClean
    have hname : (TcName.mk job hclean false).testcase = job ++ ".testcase".toList :=
      TcName.testcase_eq rfl
    have himg : (TcName.mk job hclean false).metadata.pmCmprPool = job ++ archiveExt .tc := by
      rw [← TcName.image_eq _ rfl, image_eq_archive rfl]
    have harchive := hfollows ⟨job, hclean, false⟩ input (hname ▸ hin)
    rw [Target.Follows, hname, ih, himg] at harchive
    have hjobImage : JobImage gbl .tc job := ⟨hjob.isTcClean, Finmap.mem_of_lookup_eq_some harchive⟩
    rw [hjobImage.start hs harchive (getTestcaseParent_child hclean (.inl rfl) h), tgt.executed_append]

theorem ImageInv.collected (hv : ImageInv tgt s) (hi : Inv s) (hdirs : dirs ∈ s.collected)
    (ht : t.testcase ∈ dirs.1) : Made s.gbl t ∧ Imaged tgt dirs.1 dirs.2 := by
  simp only [State.collected, List.mem_cons, List.not_mem_nil, or_false] at hdirs
  rcases hdirs with rfl | rfl | rfl
  · exact ⟨hi.first.testcase t ht, hv.first⟩
  · exact ⟨hi.iteration.testcase t ht, hv.iteration⟩
  · exact ⟨(hi.store.testcase t ht).1, hv.store⟩

/-- In every state of a run that finds no image of a testcase in `img_loc`,
and for every testcase of a stage or of `@dedup`: its archive holds what its
input leaves of the image it was found on exactly if that is what it leaves
of no image, and likewise for all inputs of its lineage. -/
theorem follows_iff (tgt : Target) (hfree : ∀ t : TcName, t.metadata.pmPool ∉ imgLoc)
    (h : exec (step p) init (ops.map (Op.generate tgt imgLoc)) = some s) :
    ∀ dirs ∈ s.collected, ∀ (t : TcName) (input : Bytes), dirs.1.lookup t.testcase = some input →
      (∃ image, tgt.start p s.gbl t.testcase = some image ∧
        (tgt.Follows p s.gbl dirs.2 t input ↔ tgt.run image input = tgt.run none input)) ∧
      ∀ inputs, Ancestors s.gbl t.clean inputs →
        (dirs.2.lookup t.metadata.pmCmprPool = (tgt.executed (inputs ++ [input])).map tgt.compress ↔
          tgt.run (tgt.executed inputs) input = tgt.run none input) := by
  obtain ⟨hi, hv⟩ := imageInv_exec hfree h
  intro dirs hdirs t input hin
  obtain ⟨hmade, himaged⟩ := hv.collected hi hdirs (t := t) (Finmap.mem_of_lookup_eq_some hin)
  have harchive : dirs.2.lookup t.metadata.pmCmprPool = some (tgt.compress (tgt.run none input)) := by
    rw [← t.image_eq hmade.newline]
    exact himaged.image t input hin
  have hiff : ∀ image, some (tgt.compress (tgt.run none input)) =
      some (tgt.compress (tgt.run image input)) ↔ tgt.run image input = tgt.run none input := fun image => by
    rw [Option.some_inj, tgt.compress_inj, eq_comm]
  refine ⟨?_, fun inputs _ => ?_⟩
  · obtain ⟨image, hstart⟩ : ∃ image, tgt.start p s.gbl t.testcase = some image :=
      hmade.start hi.store hv.store
    refine ⟨image, hstart, ?_⟩
    rw [Target.Follows, harchive, hstart]
    exact hiff image
  · rw [harchive, tgt.executed_append]
    exact hiff _

/-- If the testcases of `@dedup` follow what they were found on, the archive
of one that does too holds what the inputs of its lineage leave. -/
theorem executed_of_follows (hfree : ∀ t : TcName, t.metadata.pmPool ∉ imgLoc)
    (h : exec (step p) init (ops.map (Op.generate tgt imgLoc)) = some s)
    (hfollows : ∀ (u : TcName) input, s.gbl.lookup u.testcase = some input →
      tgt.Follows p s.gbl s.gbl u input) :
    ∀ dirs ∈ s.collected, ∀ (t : TcName) (input : Bytes), dirs.1.lookup t.testcase = some input →
      tgt.Follows p s.gbl dirs.2 t input → ∀ inputs, Ancestors s.gbl t.clean inputs →
        dirs.2.lookup t.metadata.pmCmprPool =
          (tgt.executed (inputs ++ [input])).map tgt.compress := by
  obtain ⟨hi, hv⟩ := imageInv_exec hfree h
  intro dirs hdirs t input hin ht inputs hancestors
  obtain ⟨hmade, -⟩ := hv.collected hi hdirs (t := t) (Finmap.mem_of_lookup_eq_some hin)
  rw [Target.Follows, TcName.testcase_eq hmade.newline,
    hancestors.start_eq_executed hi.store hfollows] at ht
  rw [ht, tgt.executed_append]
  rfl

/-! ## Two targets -/

instance (tgt : Target) (p : Paths) (gbl imgDir : Dir) (t : TcName) (input : Bytes) :
    Decidable (tgt.Follows p gbl imgDir t input) := inferInstanceAs (Decidable (_ = _))

/-- Its image is what `result` makes of the image and the input. -/
def Target.of (result : Bytes → Bytes → Bytes) : Target where
  run image input := result (image.getD []) input
  compress image := 0x1f :: 0x8b :: image
  decompress
    | 0x1f :: 0x8b :: image => some image
    | _ => none
  decompress_compress _ := rfl

/-- Its image is the log, to which it appends its input. -/
def Target.logging : Target := .of (· ++ ·)

/-- Its image is the last of its inputs in the order of bytes. -/
def Target.greatest : Target := .of fun image input => if image ≤ input then input else image

/-- What the job on the testcase leaves. -/
def testcaseChild : TcName := (caseOf "2".toList isDigits_2 [0, 2] [2] none).child isClean_first

/-- The testcase `id=1`. -/
def firstTestcase : TcName := firstCase.root

/-- The job on `id=1` finds a greater input on its image. -/
theorem follows_iff_testcaseChild : ∃ s,
    exec (step dirNames) init (bothJobs.map (Op.generate .greatest ∅)) = some s ∧
      s.tcDir.lookup testcaseChild.testcase = some (Bytes.ofStr "2".toList) ∧
      Target.greatest.start dirNames s.gbl testcaseChild.testcase = some (some (Bytes.ofStr "1".toList)) ∧
      Target.greatest.Follows dirNames s.gbl s.imgDir testcaseChild (Bytes.ofStr "2".toList) ∧
      Ancestors s.gbl testcaseChild.clean [Bytes.ofStr "1".toList] ∧
      s.imgDir.lookup testcaseChild.metadata.pmCmprPool =
        (Target.greatest.executed [Bytes.ofStr "1".toList, Bytes.ofStr "2".toList]).map
          Target.greatest.compress := by
  have hrun : (exec (step dirNames) init (bothJobs.map (Op.generate .greatest ∅))).map (fun s =>
      decide (s.tcDir.lookup testcaseChild.testcase = some (Bytes.ofStr "2".toList) ∧
        Target.greatest.start dirNames s.gbl testcaseChild.testcase =
          some (some (Bytes.ofStr "1".toList)) ∧
        s.gbl.lookup ("id=1".toList ++ ".testcase".toList) = some (Bytes.ofStr "1".toList))) =
      some true := by
    decide +kernel
  obtain ⟨s, h, hs⟩ := Option.map_eq_some_iff.mp hrun
  obtain ⟨hin, hjob, hfirst⟩ := of_decide_eq_true hs
  have hlineage : Ancestors s.gbl testcaseChild.clean [Bytes.ofStr "1".toList] :=
    .child (.root isDigits_1) hfirst (by decide)
  obtain ⟨⟨image, hstart, hiff⟩, hall⟩ := follows_iff .greatest (fun _ => Finmap.notMem_empty) h
    (s.tcDir, s.imgDir) (by simp [State.collected]) testcaseChild _ hin
  cases hjob.symm.trans hstart
  exact ⟨s, h, hin, hjob, hiff.mpr (by decide), hlineage, (hall _ hlineage).mpr (by decide)⟩

/-- The jobs run on the images of `id=1` and of its crash site, and the
images of what they leave have nothing of these. -/
theorem images_not_followed : ∃ s,
    exec (step dirNames) init (bothJobs.map (Op.generate .logging ∅)) = some s ∧
      (s.tcDir.lookup testcaseChild.testcase = some (Bytes.ofStr "2".toList) ∧
        ¬ Target.logging.Follows dirNames s.gbl s.imgDir testcaseChild (Bytes.ofStr "2".toList)) ∧
      (s.tcDir.lookup siteChild.testcase = some (Bytes.ofStr "3".toList) ∧
        ¬ Target.logging.Follows dirNames s.gbl s.imgDir siteChild (Bytes.ofStr "3".toList)) ∧
      Ancestors s.gbl testcaseChild.clean [Bytes.ofStr "1".toList] ∧
      s.imgDir.lookup testcaseChild.metadata.pmCmprPool ≠
        (Target.logging.executed [Bytes.ofStr "1".toList, Bytes.ofStr "2".toList]).map
          Target.logging.compress := by
  have hrun : (exec (step dirNames) init (bothJobs.map (Op.generate .logging ∅))).map (fun s =>
      decide ((s.tcDir.lookup testcaseChild.testcase = some (Bytes.ofStr "2".toList) ∧
        ¬ Target.logging.Follows dirNames s.gbl s.imgDir testcaseChild (Bytes.ofStr "2".toList)) ∧
      (s.tcDir.lookup siteChild.testcase = some (Bytes.ofStr "3".toList) ∧
        ¬ Target.logging.Follows dirNames s.gbl s.imgDir siteChild (Bytes.ofStr "3".toList)) ∧
      s.gbl.lookup ("id=1".toList ++ ".testcase".toList) = some (Bytes.ofStr "1".toList) ∧
      s.imgDir.lookup testcaseChild.metadata.pmCmprPool ≠
        (Target.logging.executed [Bytes.ofStr "1".toList, Bytes.ofStr "2".toList]).map
          Target.logging.compress)) = some true := by
    decide +kernel
  obtain ⟨s, h, hs⟩ := Option.map_eq_some_iff.mp hrun
  obtain ⟨htc, hsite, hfirst, hlineage⟩ := of_decide_eq_true hs
  have hroot : Ancestors s.gbl "id=1".toList [] := .root isDigits_1
  exact ⟨s, h, htc, hsite, .child hroot hfirst (by decide), hlineage⟩

end PMFuzz.Pipeline
