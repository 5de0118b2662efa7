import PMFuzz.Dedup.Kept
import PMFuzz.Pipeline.Model

/-!
# What collecting a queue adds

The three loops that collect a queue do to `tc_dir` and `img_dir` what
`Collects` says: they write files of new testcases and archives of crash
sites. The loop of a job (`terminateJob_ok`) does not raise if the job's image
passes the sanity check.
-/

namespace PMFuzz.Pipeline

open Names Str Dedup Stage2

/-- The archive of a crash site. -/
def IsSite (n : Str) : Prop := ∃ c, IsSiteClean c ∧ n = c ++ ".crash_site.tar.gz".toList

/-- The loop adds files of testcases of `new`, and crash sites. -/
structure Collects (new : TcName → Prop) (dirs dirs' : Dir × Dir) : Prop where
  keep : ∀ n ∈ dirs.1, n ∈ dirs'.1
  frame : ∀ n, (∀ t, new t → n ∉ buriedFiles t) → dirs'.1.lookup n = dirs.1.lookup n
  beside : ∀ t n, n ∈ buriedFiles t → n ∈ dirs'.1 → n ∈ dirs.1 ∨ new t ∧ t.testcase ∈ dirs'.1
  site : ∀ n ∈ dirs'.2, isCmprCrashSite n = true → n ∈ dirs.2 ∨ IsSite n

namespace Collects

variable {new new' : TcName → Prop} {dirs dirs₁ dirs₂ : Dir × Dir}

theorem refl : Collects new dirs dirs :=
  ⟨fun _ => id, fun _ _ => rfl, fun _ _ _ => .inl, fun _ hn _ => .inl hn⟩

theorem trans (h₁ : Collects new dirs dirs₁) (h₂ : Collects new dirs₁ dirs₂) :
    Collects new dirs dirs₂ where
  keep n hn := h₂.keep n (h₁.keep n hn)
  frame n hn := (h₂.frame n hn).trans (h₁.frame n hn)
  beside t n hn hmem := by
    rcases h₂.beside t n hn hmem with h | h
    · rcases h₁.beside t n hn h with h | ⟨hnew, h⟩
      · exact .inl h
      · exact .inr ⟨hnew, h₂.keep _ h⟩
    · exact .inr h
  site n hn hs := by
    rcases h₂.site n hn hs with h | h
    · exact h₁.site n h hs
    · exact .inr h

theorem mono (h : Collects new dirs dirs₁) (hnew : ∀ t, new t → new' t) : Collects new' dirs dirs₁ where
  keep := h.keep
  frame n hn := h.frame n fun t ht => hn t (hnew t ht)
  beside t n hn hmem := (h.beside t n hn hmem).imp_right fun h => ⟨hnew t h.1, h.2⟩
  site := h.site

/-- The images may come from elsewhere. -/
theorem withImages (h : Collects new dirs dirs₁) {imgDir : Dir}
    (himg : ∀ n ∈ imgDir, isCmprCrashSite n = true → n ∈ dirs₁.2 ∨ IsSite n) :
    Collects new dirs (dirs₁.1, imgDir) where
  keep := h.keep
  frame := h.frame
  beside := h.beside
  site n hn hs := (himg n hn hs).elim (fun h' => h.site n h' hs) .inr

/-- What each round adds, the loop adds. -/
theorem foldlM {α : Type} {f : Dir × Dir → α → Except Stop (Dir × Dir)} {l : List α}
    (hround : ∀ a ∈ l, ∀ d d', f d a = .ok d' → Collects new d d') (h : l.foldlM f dirs = .ok dirs₁) :
    Collects new dirs dirs₁ :=
  Fold.foldlM_inv (P := Collects new dirs) (fun a ha d d' hd hf => hd.trans (hround a ha d d' hf))
    refl h

end Collects

/-! ## Names -/

/-- The testcase of a case of the first stage. -/
def QueueCase.root (q : QueueCase) : TcName := .root q.id q.digits

/-- The testcase of a case of a job. -/
def QueueCase.child (q : QueueCase) {job : Str} (hjob : IsClean job) : TcName where
  clean := job ++ ',' :: ("id=".toList ++ q.id)
  isClean := .child ',' hjob (.inl rfl) q.digits
  newline := false

variable {q : QueueCase} {job stem : Str} {dirs dirs' : Dir × Dir} {t : TcName} {p : Paths} {gbl : Dir}
  {k : Kind} {n : Str}

theorem QueueCase.cleanTcName (q : QueueCase) : cleanTcName q.name = .ok q.root.testcase := by
  rw [QueueCase.name, cleanTcName_queue q.digits q.rest_ok]
  simp [QueueCase.root, TcName.root, TcName.testcase, TcName.nl]

theorem QueueCase.child_testcase (q : QueueCase) (hjob : IsClean job) :
    (q.child hjob).testcase = job ++ ',' :: q.root.testcase := by
  simp [QueueCase.child, QueueCase.root, TcName.root, TcName.testcase, TcName.nl]

/-! ## The parts of a round -/

theorem genImg_ok (hnl : t.newline = false) (img : Bytes) (imgDir : Dir) :
    genImg img t.testcase imgDir = .ok (Finmap.insert t.image img imgDir) := by
  rw [genImg, getMetadataFiles_testcase, t.image_eq hnl]
  show (do let m ← getMetadataFiles t.metadata.pmPool; pure _) = _
  rw [getMetadataFiles_pmPool t hnl]
  rfl

theorem mem_compressCrashSites {images : List CrashImage} {imgDir : Dir} (hstem : IsClean stem)
    (hn : n ∈ compressCrashSites stem images imgDir) : n ∈ imgDir ∨ IsSite n := by
  induction images generalizing imgDir with
  | nil => exact .inl hn
  | cons c images ih =>
    rcases ih hn with h | h
    · rcases Finmap.mem_insert.mp h with rfl | h
      · exact .inr ⟨_, .child hstem c.digits, by simp⟩
      · exact .inl h
    · exact .inr h

theorem lookup_copyMap {m : Option Bytes} {d : Dir} (hn : n ≠ stem) :
    (copyMap stem m d).lookup n = d.lookup n := by
  unfold copyMap
  split
  · rw [Dir.lookup_insert, if_neg hn]
  · rfl

theorem mem_copyMap {m : Option Bytes} {d : Dir} (hn : n ∈ d) : n ∈ copyMap stem m d := by
  unfold copyMap
  split
  · exact Finmap.mem_insert.mpr (.inr hn)
  · exact hn

/-- Writing a testcase, maybe with maps, and its image. -/
theorem collects_case {tcDir imgDir : Dir} (hmem : t.testcase ∈ tcDir) (hkeep : ∀ n ∈ dirs.1, n ∈ tcDir)
    (hframe : ∀ n, n ∉ buriedFiles t → tcDir.lookup n = dirs.1.lookup n)
    (himg : ∀ n ∈ imgDir, n ∈ dirs.2 ∨ n = t.image ∨ IsSite n) :
    Collects (· = t) dirs (tcDir, imgDir) where
  keep := hkeep
  frame n hn := hframe n (hn t rfl)
  beside u n hn hin := by
    by_cases hu : u = t
    · exact .inr ⟨hu, hu ▸ hmem⟩
    · refine .inl ((Dir.mem_congr (hframe n fun hn' => hu ?_)).mp hin)
      exact TcName.eq_of_mem_family (mem_family_of_buried hn) (mem_family_of_buried hn')
  site n hn hs := by
    rcases himg n hn with h | h | h
    · exact .inl h
    · exact absurd (show n ∈ t.family by simp [TcName.family, h]) (cmprCrashSite_notMem_family hs t)
    · exact .inr h

theorem notMem_buriedFiles : n ∉ buriedFiles t ↔
    n ≠ t.testcase ∧ n ≠ "map_".toList ++ t.testcase ∧ n ≠ "pm_map_".toList ++ t.testcase := by
  simp [buriedFiles, TcName.metadata]

theorem collectTc_eq (hnl : t.newline = false) (q : QueueCase) (dirs : Dir × Dir) :
    collectTc q t.testcase dirs = .ok
      (copyMap ("pm_map_".toList ++ t.testcase) q.pmMap (copyMap ("map_".toList ++ t.testcase) q.map
        (Finmap.insert t.testcase q.testcase dirs.1)), Finmap.insert t.image q.img dirs.2) := by
  rw [collectTc, genImg_ok hnl]
  rfl

/-- `collect_tc` of the second stage. -/
theorem collectTc_ok (hnl : t.newline = false) (q : QueueCase) (dirs : Dir × Dir) :
    ∃ dirs', collectTc q t.testcase dirs = .ok dirs' ∧ Collects (· = t) dirs dirs' := by
  refine ⟨_, collectTc_eq hnl q dirs, collects_case ?_ ?_ ?_ ?_⟩
  · exact mem_copyMap (mem_copyMap (Finmap.mem_insert.mpr (.inl rfl)))
  · exact fun n hn => mem_copyMap (mem_copyMap (Finmap.mem_insert.mpr (.inr hn)))
  · intro n hn
    obtain ⟨h1, h2, h3⟩ := notMem_buriedFiles.mp hn
    rw [lookup_copyMap h3, lookup_copyMap h2, Dir.lookup_insert, if_neg h1]
  · intro n hn
    rcases Finmap.mem_insert.mp hn with h | h
    · exact .inr (.inl h)
    · exact .inl h

/-- `collect_tc` of the first stage. -/
theorem collectTcStage1_eq (h : collectTcStage1 p q q.root.testcase dirs = .ok dirs') : ∃ b,
    q.map = some b ∧ dirs' = (copyMap ("pm_map_".toList ++ q.root.testcase) q.pmMap
      (Finmap.insert ("map_".toList ++ q.root.testcase) b
        (Finmap.insert q.root.testcase q.testcase dirs.1)),
      compressCrashSites q.root.clean (q.crashImages.getD [])
        (Finmap.insert q.root.image q.img dirs.2)) := by
  obtain ⟨tcDir, htc, h⟩ := Fold.bind_eq_ok.mp h
  obtain ⟨imgDir, himg, h⟩ := Fold.bind_eq_ok.mp h
  have hnl : q.root.newline = false := rfl
  cases (genImg_ok hnl _ _).symm.trans himg
  rw [TcName.replace_testcase_eq hnl] at h
  unfold collectMap at htc
  split at htc
  · cases htc
  · rename_i b hmap
    cases htc
    refine ⟨b, hmap, ?_⟩
    cases hq : q.crashImages with
    | none => rw [hq] at h; cases h; rfl
    | some images => rw [hq] at h; cases h; rfl

theorem collectTcStage1_ok (h : collectTcStage1 p q q.root.testcase dirs = .ok dirs') :
    Collects (· = q.root) dirs dirs' := by
  obtain ⟨b, -, rfl⟩ := collectTcStage1_eq h
  refine collects_case ?_ ?_ ?_ ?_
  · exact mem_copyMap (Finmap.mem_insert.mpr (.inr (Finmap.mem_insert.mpr (.inl rfl))))
  · exact fun n hn => mem_copyMap (Finmap.mem_insert.mpr (.inr (Finmap.mem_insert.mpr (.inr hn))))
  · intro n hn
    obtain ⟨h1, h2, h3⟩ := notMem_buriedFiles.mp hn
    rw [lookup_copyMap h3, Dir.lookup_insert, if_neg h2, Dir.lookup_insert, if_neg h1]
  · intro n hn
    rcases mem_compressCrashSites q.root.isClean hn with h | h
    · rcases Finmap.mem_insert.mp h with h | h
      · exact .inr (.inl h)
      · exact .inl h
    · exact .inr (.inr h)

/-- `tc_gen_crash_sites` of the second stage, if the job has an image. -/
theorem tcGenCrashSites_eq (hjob : IsClean job) {path : Str}
    (himg : getParentImg (job ++ ".testcase".toList) p.dedupDirGbl gbl .exists true = .ok path)
    (q : QueueCase) (images : List CrashImage) (imgDir : Dir) :
    tcGenCrashSites p gbl job q images imgDir =
      .ok (compressCrashSites (job ++ '.' :: ("id=".toList ++ q.id)) images imgDir) := by
  have hclean : (TcName.mk job hjob false).metadata.clean = job := TcName.bare_eq rfl
  have hroot : replace q.root.testcase ".testcase".toList [] = "id=".toList ++ q.id :=
    TcName.replace_testcase_eq rfl
  rw [tcGenCrashSites, q.cleanTcName]
  show (do
    let _ ← getParentImg (job ++ ".testcase".toList) p.dedupDirGbl gbl .exists true
    let m ← getMetadataFiles (job ++ ".testcase".toList)
    pure (compressCrashSites (m.clean ++ '.' :: replace q.root.testcase ".testcase".toList []) images
      imgDir)) = _
  rw [himg, getMetadataFiles_clean hjob]
  show Except.ok (compressCrashSites ((TcName.mk job hjob false).metadata.clean ++
    '.' :: replace q.root.testcase ".testcase".toList []) images imgDir) = _
  rw [hclean, hroot]

theorem tcGenCrashSites_ok (hjob : IsClean job) {path : Str}
    (himg : getParentImg (job ++ ".testcase".toList) p.dedupDirGbl gbl .exists true = .ok path)
    (q : QueueCase) (images : List CrashImage) (imgDir : Dir) :
    ∃ imgDir', tcGenCrashSites p gbl job q images imgDir = .ok imgDir' ∧
      ∀ n ∈ imgDir', n ∈ imgDir ∨ IsSite n :=
  ⟨_, tcGenCrashSites_eq hjob himg q images imgDir, fun _ hn =>
    mem_compressCrashSites (.child '.' hjob (.inr rfl) q.digits) hn⟩

/-! ## Rounds and loops -/

/-- What a round of the first stage does. -/
theorem collectResultsStage1_cases {foundCases : Dir}
    (h : collectResultsStage1 p foundCases dirs q = .ok dirs') :
    q.root.testcase ∉ foundCases ∧ collectTcStage1 p q q.root.testcase dirs = .ok dirs' ∨
      q.root.testcase ∈ foundCases ∧ dirs' = dirs := by
  obtain ⟨cleanName, hname, h⟩ := Fold.bind_eq_ok.mp h
  cases q.cleanTcName.symm.trans hname
  split at h
  · rename_i hnot
    exact .inl ⟨hnot, h⟩
  · rename_i hfound
    cases h
    exact .inr ⟨not_not.mp hfound, rfl⟩

/-- What a round of the second stage does. -/
theorem collectResults_cases {foundCases : Dir} (h : collectResults foundCases dirs (job, q) = .ok dirs') :
    job ++ ',' :: q.root.testcase ∉ foundCases ∧
        collectTc q (job ++ ',' :: q.root.testcase) dirs = .ok dirs' ∨
      job ++ ',' :: q.root.testcase ∈ foundCases ∧ dirs' = dirs := by
  obtain ⟨cleanName, hname, h⟩ := Fold.bind_eq_ok.mp h
  cases q.cleanTcName.symm.trans hname
  change (if job ++ ',' :: q.root.testcase ∉ foundCases then
    collectTc q (job ++ ',' :: q.root.testcase) dirs else .ok dirs) = .ok dirs' at h
  split at h
  · rename_i hnot
    exact .inl ⟨hnot, h⟩
  · rename_i hfound
    cases h
    exact .inr ⟨not_not.mp hfound, rfl⟩

/-- What a round of the loop of a job does. -/
theorem terminateCase_cases (h : terminateCase p gbl k job dirs q = .ok dirs') :
    ∃ d, collectTc q (job ++ ',' :: q.root.testcase) dirs = .ok d ∧
      (dirs' = d ∨ ∃ images imgDir, q.crashImages = some images ∧
        tcGenCrashSites p gbl job q images d.2 = .ok imgDir ∧ dirs' = (d.1, imgDir)) := by
  obtain ⟨-, -, h⟩ := Fold.bind_eq_ok.mp h
  obtain ⟨cleanName, hname, h⟩ := Fold.bind_eq_ok.mp h
  cases q.cleanTcName.symm.trans hname
  obtain ⟨d, hd, h⟩ := Fold.bind_eq_ok.mp h
  refine ⟨d, hd, ?_⟩
  cases hc : q.crashImages with
  | none =>
    rw [hc] at h
    cases h
    exact .inl rfl
  | some images =>
    rw [hc] at h
    obtain ⟨imgDir, hgen, h⟩ := Fold.bind_eq_ok.mp h
    cases h
    exact .inr ⟨images, imgDir, rfl, hgen, rfl⟩

/-- A testcase that a job leaves. -/
def ChildOf (job : Str) (t : TcName) : Prop := ∃ (q : QueueCase) (hjob : IsClean job), t = q.child hjob

theorem collectResultsStage1_ok {foundCases : Dir}
    (h : collectResultsStage1 p foundCases dirs q = .ok dirs') :
    Collects (fun t => ∃ q : QueueCase, t = q.root) dirs dirs' := by
  rcases collectResultsStage1_cases h with ⟨-, h⟩ | ⟨-, rfl⟩
  · exact (collectTcStage1_ok h).mono fun t ht => ⟨q, ht⟩
  · exact .refl

theorem collectResults_ok {foundCases : Dir} (hjob : IsClean job)
    (h : collectResults foundCases dirs (job, q) = .ok dirs') :
    Collects (fun t => ChildOf job t ∧ t.testcase ∉ foundCases) dirs dirs' := by
  rcases collectResults_cases h with ⟨hnot, h⟩ | ⟨-, rfl⟩
  · rw [← q.child_testcase hjob] at hnot h
    obtain ⟨d, hd, hcollects⟩ := collectTc_ok (t := q.child hjob) rfl q dirs
    cases hd.symm.trans h
    refine hcollects.mono fun t ht => ?_
    rw [ht]
    exact ⟨⟨q, hjob, rfl⟩, hnot⟩
  · exact .refl

/-- One round of the loop of a job. -/
theorem terminateCase_ok (hjob : IsClean job) (hsane : sanityCheck p gbl k job = .ok ()) {path : Str}
    (himg : getParentImg (job ++ ".testcase".toList) p.dedupDirGbl gbl .exists true = .ok path)
    (q : QueueCase) (dirs : Dir × Dir) :
    ∃ dirs', terminateCase p gbl k job dirs q = .ok dirs' ∧ Collects (ChildOf job) dirs dirs' := by
  obtain ⟨d, hd, hcollects⟩ := collectTc_ok (t := q.child hjob) rfl q dirs
  rw [q.child_testcase hjob] at hd
  have hcase : Collects (ChildOf job) dirs d := hcollects.mono fun t ht => ⟨q, hjob, ht⟩
  rw [terminateCase, hsane, q.cleanTcName]
  cases hq : q.crashImages with
  | none =>
    refine ⟨d, ?_, hcase⟩
    show (collectTc q (job ++ ',' :: q.root.testcase) dirs >>= pure) = _
    rw [hd]
    rfl
  | some images =>
    obtain ⟨imgDir, hgen, hmem⟩ := tcGenCrashSites_ok hjob himg q images d.2
    refine ⟨(d.1, imgDir), ?_, hcase.withImages fun n hn _ => hmem n hn⟩
    show (do
      let dirs ← collectTc q (job ++ ',' :: q.root.testcase) dirs
      let imgDir ← tcGenCrashSites p gbl job q images dirs.2
      pure (dirs.1, imgDir)) = _
    rw [hd]
    show (do let imgDir ← tcGenCrashSites p gbl job q images d.2; pure (d.1, imgDir)) = _
    rw [hgen]
    rfl

/-- The loop of a job, and the cleaning up. -/
theorem terminateJob_ok (hjob : IsClean job) (hsane : sanityCheck p gbl k job = .ok ()) {path : Str}
    (himg : getParentImg (job ++ ".testcase".toList) p.dedupDirGbl gbl .exists true = .ok path)
    (os : Os Place) (queue : List QueueCase) (dirs : Dir × Dir) :
    ∃ dirs', terminateJob p gbl k job os queue dirs = .ok dirs' ∧ Collects (ChildOf job) dirs dirs' := by
  obtain ⟨d, hd, hcollects⟩ := Fold.foldlM_total (f := terminateCase p gbl k job)
    (P := Collects (ChildOf job) dirs) (l := queue) (fun q _ d hd => by
      obtain ⟨d', h, hc⟩ := terminateCase_ok hjob hsane himg q d
      exact ⟨d', h, hd.trans hc⟩) .refl
  refine ⟨(d.1, cleanUpUncmprLcl os d.2), ?_, hcollects.withImages fun n hn _ =>
    .inl (Dir.mem_removeAll.mp hn).1⟩
  rw [terminateJob, hd]
  rfl

end PMFuzz.Pipeline
