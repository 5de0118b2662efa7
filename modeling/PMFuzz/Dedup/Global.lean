import PMFuzz.Dedup.Cmin

/-!
# The global store

The operations of `dedup.py` on `@dedup`: `update_global`,
`_deduplicate_gbl` and `minimize_corpus_gbl`. A directory is an argument, and
an operation returns the store it leaves.

Each has one lemma about what it does: `Updated` (`updateGlobal_ok`), and
`Drops` for the deletions (`minimizeCorpusGbl_ok`, `fdedupGbl_ok`).
Verbose output and the state file are left out, and so is the target run of
`gen_tgt_img`, whose image nothing reads.
-/

namespace PMFuzz.Dedup

open Names Str

/-- `global_dedup_list_tc`. -/
def globalDedupListTc (os : Os Place) (gbl : Dir) : Except Stop (List (Str × Option Str)) :=
  ((os.listdir .gbl gbl).filter (isTc · false)).mapM fun filepath => do
    let imgpath := (← getMetadataFiles filepath).pmCmprPool
    return (filepath, if imgpath ∈ gbl then some imgpath else none)

/-- `local_testcases_list`. -/
def localTestcasesList (os : Os Place) (tcDir imgDir : Dir) : Except Stop (List (Str × Str)) :=
  ((os.listdir .tc tcDir).filter (isTc · false)).mapM fun filepath =>
    let imgname := replace filepath ".testcase".toList ".pm_pool.tar.gz".toList
    if imgname ∉ imgDir then .error (.abort ("Image not found `".toList ++ imgname ++ "'".toList))
    else .ok (filepath, imgname)

/-- `copypreserve` of a file that need not be there. -/
def copyIfThere (src : Dir) (name : Str) (dst : Dir) : Except Stop Dir :=
  if name ∈ src then copypreserve src name dst name else .ok dst

/-- The files that `update_global` copies for a testcase. -/
def copyTestcase (tcDir imgDir gbl : Dir) (testcase img : Str) : Except Stop Dir := do
  let gbl ← copypreserve tcDir testcase gbl testcase
  let gbl ← copyIfThere tcDir ("map_".toList ++ testcase) gbl
  let gbl ← copyIfThere tcDir ("pm_map_".toList ++ testcase) gbl
  copypreserve imgDir img gbl img

/-- One round of the first loop of `update_global`: `gblTcFiles` is listed
before the loop. -/
def collectTestcase (gblTcFiles tcDir imgDir gbl : Dir) (entry : Str × Str) : Except Stop Dir := do
  let destNamePlaceholder := (← getMetadataFiles entry.1).deleted
  if entry.1 ∉ gblTcFiles ∧ destNamePlaceholder ∉ gblTcFiles then
    copyTestcase tcDir imgDir gbl entry.1 entry.2
  else return gbl

/-- One round of the second loop. -/
def collectCrashSite (imgDir gbl : Dir) (fname : Str) : Except Stop Dir :=
  if isCmprCrashSite fname ∧ fname ∉ gbl then copypreserve imgDir fname gbl fname else .ok gbl

/-- `update_global`. -/
def updateGlobal (os : Os Place) (tcDir imgDir gbl : Dir) : Except Stop Dir := do
  let localTestcases ← localTestcasesList os tcDir imgDir
  let gbl ← localTestcases.foldlM (collectTestcase gbl tcDir imgDir) gbl
  (os.listdir .img imgDir).foldlM (collectCrashSite imgDir) gbl

/-- One round of the first loop of `minimize_corpus_gbl`: `dirs` are
`tmp_indir` and `tmp_mapdir`. -/
def addToCorpus (gbl : Dir) (dirs : Dir × Dir) (entry : Str × Option Str) : Except Stop (Dir × Dir) := do
  if isTc entry.1 false then
    let tmpIndir ← copypreserve gbl entry.1 dirs.1 entry.1
    let tmpMapdir ← copypreserve gbl ("map_".toList ++ entry.1) dirs.2 ("map_".toList ++ entry.1)
    let tmpMapdir ← copyIfThere gbl ("pm_map_".toList ++ entry.1) tmpMapdir
    return (tmpIndir, tmpMapdir)
  else return dirs

/-- The metadata files that are no archives. -/
def uncompressed (m : Metadata) : List Str :=
  m.values.filter fun name => !endsWith name ".tar.gz".toList

/-- What the placeholder of `minimize_corpus_gbl` holds. -/
def placeholderGbl (now : ℕ) : Bytes :=
  Bytes.ofStr ("deleted at epoch=".toList ++ Nat.toDigits 10 now)

/-- One round of the loop over the dropped files. -/
def dropFromGbl (now : ℕ) (gbl : Dir) (f : Str) : Except Stop Dir := do
  let metadataFiles ← getMetadataFiles f
  return Finmap.insert metadataFiles.deleted (placeholderGbl now)
    (gbl.removeAll (uncompressed metadataFiles))

/-- `minimize_corpus_gbl`. -/
def minimizeCorpusGbl (os : Os Place) (gbl : Dir) : Except Stop Dir := do
  let testcases ← globalDedupListTc os gbl
  let (tmpIndir, tmpMapdir) ← testcases.foldlM (addToCorpus gbl) (∅, ∅)
  let droppedFiles ← Cmin.droppedFiles os tmpIndir tmpMapdir
  droppedFiles.foldlM (dropFromGbl os.time) gbl

/-- The file-based part of `_deduplicate_gbl`, with
`pmfuzz.stage.dedup.global.fdedup`. -/
def fdedupGbl (os : Os Place) (fdedupCfg : Str) (gbl : Dir) : Except Stop Dir := do
  let testcases ← globalDedupListTc os gbl
  -- `zip(*[])` has nothing to unpack
  if testcases = [] then .error .valueError
  else if fdedupCfg = "pm_map".toList then
    DedupEngine.run os.time isPmMap gbl (testcases.map Prod.fst)
  else if fdedupCfg = "map".toList then
    DedupEngine.run os.time isMap gbl (testcases.map Prod.fst)
  else return gbl

/-- `_deduplicate_gbl`. -/
def deduplicateGbl (os : Os Place) (fdedupCfg : Str) (fdedup minTc minCorpus : Bool) (gbl : Dir) :
    Except Stop Dir := do
  let gbl ← (if fdedup then fdedupGbl os fdedupCfg gbl else .ok gbl)
  if minTc then .error (.abort "Minimizing TC doesn't make sense".toList)
  else if minCorpus then minimizeCorpusGbl os gbl
  else return gbl

/-! ## Lists of testcases -/

variable {os : Os Place} {gbl gbl' tcDir imgDir : Dir}

/-- The testcases among the names of a directory. -/
theorem filter_isTc (os : Os Place) (p : Place) (d : Dir) : ∃ tcs : List TcName,
    (os.listdir p d).filter (isTc · false) = tcs.map TcName.testcase ∧ tcs.Nodup ∧
      ∀ t, t ∈ tcs ↔ t.testcase ∈ d := by
  have htc : ∀ n ∈ (os.listdir p d).filter (isTc · false), ∃ t : TcName, n = t.testcase := fun n hn =>
    isTc_iff.mp (by simpa using (List.mem_filter.mp hn).2)
  obtain ⟨tcs, htcs⟩ := Fold.exists_map htc
  refine ⟨tcs, htcs, List.Nodup.of_map _ (htcs ▸ (os.nodup _ _).filter _), fun t => ?_⟩
  rw [← List.mem_map_of_injective fun _ _ => TcName.testcase_inj.mp, ← htcs, List.mem_filter,
    isTc_testcase, os.mem_listdir]
  simp

/-- The testcases of `@dedup`, and their archives. -/
theorem globalDedupListTc_ok (os : Os Place) (gbl : Dir) : ∃ tcs : List TcName,
    globalDedupListTc os gbl = .ok (tcs.map fun t =>
      (t.testcase, if t.metadata.pmCmprPool ∈ gbl then some t.metadata.pmCmprPool else none)) ∧
    tcs.Nodup ∧ ∀ t, t ∈ tcs ↔ t.testcase ∈ gbl := by
  obtain ⟨tcs, hfilter, hnodup, hmem⟩ := filter_isTc os .gbl gbl
  refine ⟨tcs, ?_, hnodup, hmem⟩
  rw [globalDedupListTc, hfilter, Fold.mapM_eq_ok, List.forall₂_map_left_iff,
    List.forall₂_map_right_iff, List.forall₂_same]
  intro t _
  rw [getMetadataFiles_testcase]
  rfl

/-- The testcases of `tc_dir`, each with its image in `img_dir`. -/
theorem localTestcasesList_eq_ok {l : List (Str × Str)} (h : localTestcasesList os tcDir imgDir = .ok l) :
    ∃ tcs : List TcName, l = tcs.map (fun t => (t.testcase, t.image)) ∧ tcs.Nodup ∧
      (∀ t, t ∈ tcs ↔ t.testcase ∈ tcDir) ∧ ∀ t ∈ tcs, t.image ∈ imgDir := by
  obtain ⟨tcs, hfilter, hnodup, hmem⟩ := filter_isTc os .tc tcDir
  rw [localTestcasesList, hfilter, Fold.mapM_eq_ok, List.forall₂_map_left_iff] at h
  have hentry : ∀ t : TcName, ∀ e : Str × Str,
      (if replace t.testcase ".testcase".toList ".pm_pool.tar.gz".toList ∉ imgDir then
        .error (.abort ("Image not found `".toList ++
          replace t.testcase ".testcase".toList ".pm_pool.tar.gz".toList ++ "'".toList))
      else .ok (t.testcase, replace t.testcase ".testcase".toList ".pm_pool.tar.gz".toList) :
        Except Stop (Str × Str)) = .ok e → e = (t.testcase, t.image) ∧ t.image ∈ imgDir := by
    intro t e he
    rw [replace_testcase_image] at he
    split at he
    · cases he
    · rename_i himg
      cases he
      exact ⟨rfl, not_not.mp himg⟩
  refine ⟨tcs, ?_, hnodup, hmem, ?_⟩
  · clear hfilter hnodup hmem
    induction h with
    | nil => rfl
    | cons hab _ ih => rw [List.map_cons, ← ih, (hentry _ _ hab).1]
  · clear hfilter hnodup hmem
    induction h with
    | nil => exact fun t ht => absurd ht List.not_mem_nil
    | cons hab _ ih =>
      rintro t (_ | ⟨_, ht⟩)
      · exact (hentry _ _ hab).2
      · exact ih t ht

/-! ## Copies -/

theorem copypreserve_eq_ok {src dst d : Dir} {name dest : Str} :
    copypreserve src name dst dest = .ok d ↔
      ∃ b, src.lookup name = some b ∧ d = Finmap.insert dest b dst := by
  unfold copypreserve read
  cases h : src.lookup name with
  | none => simp [bind, Except.bind]
  | some b =>
    constructor
    · rintro ⟨⟩; exact ⟨b, rfl, rfl⟩
    · rintro ⟨b', hb, rfl⟩; cases hb; rfl

theorem copyIfThere_ok (src : Dir) (name : Str) (dst : Dir) : ∃ d, copyIfThere src name dst = .ok d ∧
    (∀ n, d.lookup n = if n = name ∧ n ∈ src then src.lookup n else dst.lookup n) ∧
      ∀ n, n ∈ d ↔ (n = name ∧ n ∈ src) ∨ n ∈ dst := by
  unfold copyIfThere
  by_cases h : name ∈ src
  · obtain ⟨b, hb⟩ := Finmap.mem_iff.mp h
    refine ⟨_, by rw [if_pos h]; exact copypreserve_eq_ok.mpr ⟨b, hb, rfl⟩, fun n => ?_, fun n => ?_⟩
    · rw [Dir.lookup_insert]
      by_cases hn : n = name
      · subst hn; simp [h, hb]
      · simp [hn]
    · rw [Finmap.mem_insert]
      exact or_congr_left ⟨fun hn => ⟨hn, hn ▸ h⟩, And.left⟩
  · have hno : ∀ n, ¬ (n = name ∧ n ∈ src) := fun n hn => h (hn.1 ▸ hn.2)
    exact ⟨dst, if_neg h, fun n => (if_neg (hno n)).symm, fun n => (or_iff_right (hno n)).symm⟩

/-- A file that `update_global` copies for the testcase `t`. -/
def Copied (tcDir : Dir) (t : TcName) (n : Str) : Prop :=
  n = t.testcase ∨ n = t.image ∨ (n = t.metadata.map ∨ n = t.metadata.pmMap) ∧ n ∈ tcDir

theorem Copied.mem_family {t : TcName} {n : Str} (h : Copied tcDir t n) : n ∈ t.family := by
  rcases h with h | h | ⟨h | h, -⟩ <;> simp [TcName.family, h]

/-- What it copies. -/
def copySource (tcDir imgDir : Dir) (t : TcName) (n : Str) : Option Bytes :=
  if n = t.image then imgDir.lookup n else tcDir.lookup n

theorem copyTestcase_ok {t : TcName} {cur cur' : Dir}
    (h : copyTestcase tcDir imgDir cur t.testcase t.image = .ok cur') :
    (∀ n, Copied tcDir t n → cur'.lookup n = copySource tcDir imgDir t n) ∧
      ∀ n, ¬ Copied tcDir t n → cur'.lookup n = cur.lookup n := by
  obtain ⟨d₁, h₁, h⟩ := Fold.bind_eq_ok.mp h
  obtain ⟨b, hb, rfl⟩ := copypreserve_eq_ok.mp h₁
  obtain ⟨d₂, h₂, h⟩ := Fold.bind_eq_ok.mp h
  obtain ⟨d₂', hd₂, hl₂, -⟩ := copyIfThere_ok tcDir t.metadata.map (Finmap.insert t.testcase b cur)
  cases hd₂.symm.trans h₂
  obtain ⟨d₃, h₃, h⟩ := Fold.bind_eq_ok.mp h
  obtain ⟨d₃', hd₃, hl₃, -⟩ := copyIfThere_ok tcDir t.metadata.pmMap d₂
  cases hd₃.symm.trans h₃
  obtain ⟨c, hc, rfl⟩ := copypreserve_eq_ok.mp h
  have hlook : ∀ n, (Finmap.insert t.image c d₃).lookup n =
      if n = t.image then some c else if n = t.metadata.pmMap ∧ n ∈ tcDir then tcDir.lookup n
      else if n = t.metadata.map ∧ n ∈ tcDir then tcDir.lookup n
      else if n = t.testcase then some b else cur.lookup n := fun n => by
    rw [Dir.lookup_insert, hl₃, hl₂, Dir.lookup_insert]
  refine ⟨fun n hn => ?_, fun n hn => ?_⟩
  · rw [hlook, copySource]
    by_cases himg : n = t.image
    · rw [if_pos himg, if_pos himg, himg, hc]
    · rw [if_neg himg, if_neg himg]
      split
      · rfl
      · rename_i h1
        split
        · rfl
        · rename_i h2
          rcases hn with hn | hn | ⟨hn | hn, hmem⟩
          · rw [if_pos hn, hn, hb]
          · exact absurd hn himg
          · exact absurd ⟨hn, hmem⟩ h2
          · exact absurd ⟨hn, hmem⟩ h1
  · rw [hlook, if_neg fun h => hn (.inr (.inl h)), if_neg fun h => hn (.inr (.inr ⟨.inr h.1, h.2⟩)),
      if_neg fun h => hn (.inr (.inr ⟨.inl h.1, h.2⟩)), if_neg fun h => hn (.inl h)]

/-! ## `update_global` -/

/-- A testcase of `tc_dir` that is neither in the store nor deleted there. -/
structure Offered (tcDir gbl : Dir) (t : TcName) : Prop where
  mem : t.testcase ∈ tcDir
  notMem : t.testcase ∉ gbl
  not_deleted : t.metadata.deleted ∉ gbl

/-- What `update_global` does to the store. -/
structure Updated (tcDir imgDir gbl gbl' : Dir) : Prop where
  image : ∀ t : TcName, t.testcase ∈ tcDir → t.image ∈ imgDir
  copied : ∀ t n, Offered tcDir gbl t → Copied tcDir t n →
    gbl'.lookup n = copySource tcDir imgDir t n
  site : ∀ n, isCmprCrashSite n = true → n ∈ imgDir → n ∉ gbl → gbl'.lookup n = imgDir.lookup n
  frame : ∀ n, (∀ t, Offered tcDir gbl t → ¬ Copied tcDir t n) →
    (isCmprCrashSite n = true → n ∈ imgDir → n ∈ gbl) → gbl'.lookup n = gbl.lookup n

theorem cmprCrashSite_notMem_family {n : Str} (h : isCmprCrashSite n = true) (t : TcName) :
    n ∉ t.family := by
  obtain ⟨u, a, b, -, -, hn⟩ := isCmprCrashSite_iff.mp h
  have hin : ".crash_site".toList <:+: n :=
    ⟨u.clean, a :: ("tar".toList ++ b :: "gz".toList) ++ u.nl, by rw [hn]; simp⟩
  have hhead : n.head? = some 'i' := by
    obtain ⟨s, hs⟩ := u.isClean.head
    rw [hn, hs]
    rfl
  intro hmem
  simp only [TcName.family, List.mem_cons, List.not_mem_nil, or_false] at hmem
  rcases hmem with rfl | rfl | rfl | rfl
  · exact t.not_infix_testcase (by decide) (by decide) (by decide) hin
  · cases hhead
  · cases hhead
  · have h' := (t.infix_iff (by decide) rfl).mp hin
    rcases t.nl_cases with hnl | hnl <;> rw [hnl] at h' <;> exact absurd h' (by decide)

/-- The loop over the testcases. -/
theorem copyLoop_ok {tcs : List TcName} {cur cur' : Dir} (hnodup : tcs.Nodup)
    (h : tcs.foldlM (fun cur t => collectTestcase gbl tcDir imgDir cur (t.testcase, t.image)) cur =
      .ok cur') :
    (∀ t ∈ tcs, t.testcase ∉ gbl → t.metadata.deleted ∉ gbl → ∀ n, Copied tcDir t n →
        cur'.lookup n = copySource tcDir imgDir t n) ∧
      ∀ n, (∀ t ∈ tcs, t.testcase ∉ gbl → t.metadata.deleted ∉ gbl → ¬ Copied tcDir t n) →
        cur'.lookup n = cur.lookup n := by
  induction tcs generalizing cur with
  | nil =>
    cases Fold.foldlM_nil_eq_ok.mp h
    exact ⟨fun t ht => absurd ht List.not_mem_nil, fun _ _ => rfl⟩
  | cons t tcs ih =>
    obtain ⟨hnotin, hnodup⟩ := List.nodup_cons.mp hnodup
    obtain ⟨u, hu, h⟩ := Fold.foldlM_cons_eq_ok.mp h
    obtain ⟨hcopied, hframe⟩ := ih hnodup h
    rw [collectTestcase, getMetadataFiles_testcase] at hu
    change (if t.testcase ∉ gbl ∧ t.metadata.deleted ∉ gbl then
      copyTestcase tcDir imgDir cur t.testcase t.image else .ok cur) = .ok u at hu
    by_cases hoff : t.testcase ∉ gbl ∧ t.metadata.deleted ∉ gbl
    · rw [if_pos hoff] at hu
      obtain ⟨hc, hf⟩ := copyTestcase_ok hu
      refine ⟨fun v hv hnm hdel n hn => ?_, fun n hn => ?_⟩
      · rcases List.mem_cons.mp hv with rfl | hv
        · rw [hframe n fun w hw _ _ hnw => hnotin
            (TcName.eq_of_mem_family hn.mem_family hnw.mem_family ▸ hw), hc n hn]
        · exact hcopied v hv hnm hdel n hn
      · rw [hframe n fun w hw => hn w (List.mem_cons_of_mem _ hw),
          hf n (hn t List.mem_cons_self hoff.1 hoff.2)]
    · rw [if_neg hoff] at hu
      cases hu
      refine ⟨fun v hv hnm hdel n hn => ?_, fun n hn =>
        hframe n fun w hw => hn w (List.mem_cons_of_mem _ hw)⟩
      rcases List.mem_cons.mp hv with rfl | hv
      · exact absurd ⟨hnm, hdel⟩ hoff
      · exact hcopied v hv hnm hdel n hn

/-- The loop over the crash sites. -/
theorem siteLoop_ok {names : List Str} {cur cur' : Dir}
    (h : names.foldlM (collectCrashSite imgDir) cur = .ok cur') :
    ∀ n, cur'.lookup n =
      if isCmprCrashSite n ∧ n ∈ names ∧ n ∉ cur then imgDir.lookup n else cur.lookup n := by
  induction names generalizing cur with
  | nil =>
    cases Fold.foldlM_nil_eq_ok.mp h
    simp
  | cons m names ih =>
    obtain ⟨u, hu, h⟩ := Fold.foldlM_cons_eq_ok.mp h
    intro n
    rw [ih h n]
    unfold collectCrashSite at hu
    split at hu
    · rename_i hm
      obtain ⟨b, hb, rfl⟩ := copypreserve_eq_ok.mp hu
      by_cases hn : n = m
      · subst hn
        simp [Finmap.mem_insert, hm, hb]
      · simp [Finmap.mem_insert, hn]
    · rename_i hm
      cases hu
      by_cases hn : n = m
      · subst hn
        have hno : ∀ p : Prop, ¬ (isCmprCrashSite n = true ∧ p ∧ n ∉ cur) := fun p h => hm ⟨h.1, h.2.2⟩
        rw [if_neg (hno _), if_neg (hno _)]
      · simp [hn]

theorem updateGlobal_ok (h : updateGlobal os tcDir imgDir gbl = .ok gbl') :
    Updated tcDir imgDir gbl gbl' := by
  obtain ⟨l, hl, h⟩ := Fold.bind_eq_ok.mp h
  obtain ⟨cur, hcur, hsites⟩ := Fold.bind_eq_ok.mp h
  obtain ⟨tcs, rfl, hnodup, hmem, himg⟩ := localTestcasesList_eq_ok hl
  rw [List.foldlM_map] at hcur
  obtain ⟨hcopied, hframe⟩ := copyLoop_ok hnodup hcur
  have hlook := siteLoop_ok hsites
  have hoffer : ∀ {t n}, Offered tcDir gbl t → Copied tcDir t n →
      cur.lookup n = copySource tcDir imgDir t n := fun {t n} ht hn =>
    hcopied t ((hmem t).mpr ht.mem) ht.notMem ht.not_deleted n hn
  have hkeep : ∀ {n}, (∀ t, Offered tcDir gbl t → ¬ Copied tcDir t n) →
      cur.lookup n = gbl.lookup n := fun {n} hn =>
    hframe n fun t ht hnm hdel => hn t ⟨(hmem t).mp ht, hnm, hdel⟩
  refine ⟨fun t ht => himg t ((hmem t).mpr ht), fun t n ht hn => ?_, fun n hsite hin hnot => ?_,
    fun n hn hsite => ?_⟩
  · rw [hlook, if_neg fun hc => cmprCrashSite_notMem_family hc.1 t hn.mem_family, hoffer ht hn]
  · have hcur' : cur.lookup n = gbl.lookup n := hkeep fun t ht hc =>
      cmprCrashSite_notMem_family hsite t hc.mem_family
    have hnot' : n ∉ cur := fun hin => hnot ((Dir.mem_congr hcur').mp hin)
    rw [hlook, if_pos ⟨hsite, os.mem_listdir.mpr hin, hnot'⟩]
  · have hcur' := hkeep hn
    rw [hlook, hcur']
    split
    · rename_i hc
      exact absurd ((Dir.mem_congr hcur').mpr (hsite hc.1 (os.mem_listdir.mp hc.2.1))) hc.2.2
    · rfl

theorem Offered.source {t : TcName} {n : Str} (h : Offered tcDir gbl t)
    (himg : t.image ∈ imgDir) (hn : Copied tcDir t n) : (copySource tcDir imgDir t n).isSome := by
  unfold copySource
  split
  · rename_i hn'
    exact Finmap.lookup_isSome.mpr (hn' ▸ himg)
  · rename_i hne
    refine Finmap.lookup_isSome.mpr ?_
    rcases hn with rfl | hn | hn
    · exact h.mem
    · exact absurd hn hne
    · exact hn.2

/-- The names in the store afterwards. -/
theorem Updated.mem (h : Updated tcDir imgDir gbl gbl') {n : Str} : n ∈ gbl' ↔
    n ∈ gbl ∨ (∃ t, Offered tcDir gbl t ∧ Copied tcDir t n) ∨ isCmprCrashSite n = true ∧ n ∈ imgDir := by
  by_cases hc : ∃ t, Offered tcDir gbl t ∧ Copied tcDir t n
  · obtain ⟨t, ht, hn⟩ := hc
    have hin : n ∈ gbl' := by
      rw [← Finmap.lookup_isSome, h.copied t n ht hn]
      exact ht.source (h.image t ht.mem) hn
    exact ⟨fun _ => .inr (.inl ⟨t, ht, hn⟩), fun _ => hin⟩
  · have hno : ∀ t, Offered tcDir gbl t → ¬ Copied tcDir t n := fun t ht hn => hc ⟨t, ht, hn⟩
    rw [or_iff_right hc]
    by_cases hs : isCmprCrashSite n = true ∧ n ∈ imgDir ∧ n ∉ gbl
    · obtain ⟨hsite, himg, hnot⟩ := hs
      rw [← Finmap.lookup_isSome, h.site n hsite himg hnot]
      exact ⟨fun _ => .inr ⟨hsite, himg⟩, fun _ => Finmap.lookup_isSome.mpr himg⟩
    · have hkeep : isCmprCrashSite n = true → n ∈ imgDir → n ∈ gbl := fun h1 h2 => by
        by_contra h3
        exact hs ⟨h1, h2, h3⟩
      rw [Dir.mem_congr (h.frame n hno hkeep)]
      exact ⟨.inl, fun h => h.elim id fun h => hkeep h.1 h.2⟩

/-! ## `minimize_corpus_gbl` -/

/-- The temporary directories hold the testcases and their maps. -/
structure CorpusOf (gbl : Dir) (tcs : List TcName) (dirs : Dir × Dir) : Prop where
  testcase : ∀ n, n ∈ dirs.1 ↔ ∃ t ∈ tcs, n = t.testcase
  map : ∀ n, n ∈ dirs.2 ↔ ∃ t ∈ tcs, n = t.metadata.map ∨ n = t.metadata.pmMap ∧ n ∈ gbl
  content : ∀ n ∈ dirs.2, dirs.2.lookup n = gbl.lookup n

theorem CorpusOf.corpus {tcs : List TcName} {dirs : Dir × Dir} (h : CorpusOf gbl tcs dirs) :
    Cmin.Corpus dirs.1 dirs.2 where
  testcases n hn := by
    obtain ⟨t, -, ht⟩ := (h.testcase n).mp hn
    exact ⟨t, ht⟩
  maps n hn := by
    obtain ⟨t, -, ht⟩ := (h.map n).mp hn
    exact ⟨t, ht.imp_right And.left⟩

theorem addToCorpus_ok {t : TcName} {o : Option Str} {tcs : List TcName} {dirs dirs' : Dir × Dir}
    (hc : CorpusOf gbl tcs dirs) (h : addToCorpus gbl dirs (t.testcase, o) = .ok dirs') :
    CorpusOf gbl (tcs ++ [t]) dirs' := by
  rw [addToCorpus, isTc_testcase, if_pos rfl] at h
  obtain ⟨inDir, hin, h⟩ := Fold.bind_eq_ok.mp h
  obtain ⟨b, hb, rfl⟩ := copypreserve_eq_ok.mp hin
  obtain ⟨mapDir, hmap, h⟩ := Fold.bind_eq_ok.mp h
  obtain ⟨c, hc', rfl⟩ := copypreserve_eq_ok.mp hmap
  obtain ⟨pmDir, hpm, h⟩ := Fold.bind_eq_ok.mp h
  obtain ⟨pmDir', hpm', hlook, hmem⟩ := copyIfThere_ok gbl t.metadata.pmMap
    (Finmap.insert t.metadata.map c dirs.2)
  cases hpm'.symm.trans hpm
  cases h
  have hlook' : ∀ n, pmDir.lookup n = if n = t.metadata.pmMap ∧ n ∈ gbl then gbl.lookup n
      else if n = t.metadata.map then gbl.lookup n else dirs.2.lookup n := fun n => by
    rw [hlook, Dir.lookup_insert]
    split
    · rfl
    · by_cases hn : n = t.metadata.map
      · rw [if_pos hn, if_pos hn, hn]; exact hc'.symm
      · rw [if_neg hn, if_neg hn]
  have hmem' : ∀ n, n ∈ pmDir ↔ (n = t.metadata.pmMap ∧ n ∈ gbl) ∨ n = t.metadata.map ∨ n ∈ dirs.2 := by
    intro n
    rw [hmem, Finmap.mem_insert]
  refine ⟨fun n => ?_, fun n => ?_, fun n hn => ?_⟩
  · rw [Finmap.mem_insert, hc.testcase]
    simp only [List.mem_append, List.mem_singleton, or_and_right, exists_or, exists_eq_left]
    exact or_comm
  · rw [hmem', hc.map]
    constructor
    · rintro (h | h | ⟨u, hu, h⟩)
      · exact ⟨t, by simp, .inr h⟩
      · exact ⟨t, by simp, .inl h⟩
      · exact ⟨u, by simp [hu], h⟩
    · rintro ⟨u, hu, h⟩
      rcases List.mem_append.mp hu with hu | hu
      · exact .inr (.inr ⟨u, hu, h⟩)
      · rw [List.mem_singleton.mp hu] at h
        rcases h with h | h
        · exact .inr (.inl h)
        · exact .inl h
  · rw [hlook']
    split
    · rfl
    · split
      · rfl
      · rename_i h1 h2
        exact hc.content n (((hmem' n).mp hn).resolve_left h1 |>.resolve_left h2)

theorem corpus_ok {tcs : List TcName} {f : TcName → Option Str} {dirs : Dir × Dir}
    (h : (tcs.map fun t => (t.testcase, f t)).foldlM (addToCorpus gbl) (∅, ∅) = .ok dirs) :
    CorpusOf gbl tcs dirs := by
  have hloop : ∀ (tcs done : List TcName) (cur : Dir × Dir), CorpusOf gbl done cur →
      (tcs.map fun t => (t.testcase, f t)).foldlM (addToCorpus gbl) cur = .ok dirs →
      CorpusOf gbl (done ++ tcs) dirs := by
    intro tcs
    induction tcs with
    | nil =>
      intro done cur hc h
      cases Fold.foldlM_nil_eq_ok.mp h
      simpa using hc
    | cons t tcs ih =>
      intro done cur hc h
      obtain ⟨u, hu, h⟩ := Fold.foldlM_cons_eq_ok.mp h
      have := ih (done ++ [t]) u (addToCorpus_ok hc hu) h
      simpa using this
  have hnil : CorpusOf gbl [] (∅, ∅) :=
    ⟨fun n => by simp [Finmap.notMem_empty], fun n => by simp [Finmap.notMem_empty],
      fun n hn => absurd hn Finmap.notMem_empty⟩
  exact hloop tcs [] (∅, ∅) hnil h

theorem uncompressed_subset (m : Metadata) : uncompressed m ⊆ m.values := List.filter_sublist.subset

theorem dropFromGbl_ok (now : ℕ) (D : List TcName) (gbl : Dir) : ∃ gbl',
    (D.map TcName.testcase).foldlM (dropFromGbl now) gbl = .ok gbl' ∧
      Drops (placeholderGbl now) uncompressed gbl D gbl' := by
  induction D generalizing gbl with
  | nil => exact ⟨gbl, rfl, Drops.nil⟩
  | cons t D ih =>
    have hsingle : Drops (placeholderGbl now) uncompressed gbl [t] _ :=
      Drops.single uncompressed_subset t
    obtain ⟨gbl', h, hdrops⟩ := ih _
    refine ⟨gbl', ?_, hsingle.trans uncompressed_subset hdrops⟩
    rw [List.map_cons, Fold.foldlM_cons_eq_ok]
    exact ⟨_, by rw [dropFromGbl, getMetadataFiles_testcase]; rfl, h⟩

theorem addToCorpus_total {t : TcName} (ht : t.testcase ∈ gbl) (hmap : t.metadata.map ∈ gbl) (o : Option Str)
    (dirs : Dir × Dir) : ∃ dirs', addToCorpus gbl dirs (t.testcase, o) = .ok dirs' := by
  obtain ⟨b, hb⟩ := Finmap.mem_iff.mp ht
  obtain ⟨c, hc⟩ := Finmap.mem_iff.mp hmap
  obtain ⟨pmDir, hpm, -, -⟩ := copyIfThere_ok gbl t.metadata.pmMap (Finmap.insert t.metadata.map c dirs.2)
  refine ⟨(Finmap.insert t.testcase b dirs.1, pmDir), ?_⟩
  rw [addToCorpus, isTc_testcase, if_pos rfl, Fold.bind_eq_ok]
  refine ⟨_, copypreserve_eq_ok.mpr ⟨b, hb, rfl⟩, Fold.bind_eq_ok.mpr ?_⟩
  refine ⟨_, copypreserve_eq_ok.mpr ⟨c, hc, rfl⟩, Fold.bind_eq_ok.mpr ?_⟩
  exact ⟨pmDir, hpm, rfl⟩

/-- It runs to completion if every testcase has its map. -/
theorem minimizeCorpusGbl_total (os : Os Place) (hmap : ∀ t : TcName, t.testcase ∈ gbl → t.metadata.map ∈ gbl) :
    ∃ gbl', minimizeCorpusGbl os gbl = .ok gbl' := by
  obtain ⟨tcs, htcs, -, hmem⟩ := globalDedupListTc_ok os gbl
  have hstep : ∀ e ∈ tcs.map (fun t : TcName =>
      (t.testcase, if t.metadata.pmCmprPool ∈ gbl then some t.metadata.pmCmprPool else none)),
      ∀ dirs, True → ∃ dirs', addToCorpus gbl dirs e = .ok dirs' ∧ True := by
    intro e he dirs _
    obtain ⟨t, ht, rfl⟩ := List.mem_map.mp he
    have hin := (hmem t).mp ht
    obtain ⟨dirs', hdirs⟩ := addToCorpus_total hin (hmap t hin)
      (if t.metadata.pmCmprPool ∈ gbl then some t.metadata.pmCmprPool else none) dirs
    exact ⟨dirs', hdirs, trivial⟩
  obtain ⟨dirs, hdirs, -⟩ := Fold.foldlM_total hstep (s := (∅, ∅)) trivial
  obtain ⟨D, hD, -⟩ := Cmin.droppedFiles_ok os (corpus_ok hdirs).corpus
  obtain ⟨gbl', hgbl', -⟩ := dropFromGbl_ok os.time D gbl
  refine ⟨gbl', ?_⟩
  rw [minimizeCorpusGbl, htcs, Fold.bind_eq_ok]
  exact ⟨_, rfl, Fold.bind_eq_ok.mpr ⟨dirs, hdirs, Fold.bind_eq_ok.mpr ⟨_, hD, hgbl'⟩⟩⟩

section MapFiles

variable {tcs : List TcName} {dirs : Dir × Dir} {t u : TcName}

theorem CorpusOf.mem_mapFiles (h : CorpusOf gbl tcs dirs) :
    t.metadata.pmMap ∈ Cmin.mapFiles os dirs.2 ↔ t ∈ tcs ∧ t.metadata.pmMap ∈ gbl := by
  rw [Cmin.mem_mapFiles h.corpus]
  constructor
  · rintro ⟨u, hu, hin⟩
    cases TcName.pmMap_inj.mp hu
    obtain ⟨v, hv, heq | ⟨heq, hgbl⟩⟩ := (h.map _).mp hin
    · exact absurd (congrArg List.head? heq) (by simp [TcName.metadata])
    · cases TcName.pmMap_inj.mp heq
      exact ⟨hv, hgbl⟩
  · rintro ⟨ht, hgbl⟩
    exact ⟨t, rfl, (h.map _).mpr ⟨t, ht, .inr ⟨rfl, hgbl⟩⟩⟩

theorem CorpusOf.content_eq_iff (h : CorpusOf gbl tcs dirs) (ht : t.metadata.pmMap ∈ Cmin.mapFiles os dirs.2)
    (hu : u.metadata.pmMap ∈ Cmin.mapFiles os dirs.2) :
    (dirs.2.lookup t.metadata.pmMap).getD [] = (dirs.2.lookup u.metadata.pmMap).getD [] ↔
      gbl.lookup t.metadata.pmMap = gbl.lookup u.metadata.pmMap := by
  have hin : ∀ {v : TcName}, v.metadata.pmMap ∈ Cmin.mapFiles os dirs.2 →
      ∃ b, dirs.2.lookup v.metadata.pmMap = some b ∧ gbl.lookup v.metadata.pmMap = some b := by
    intro v hv
    have hv' : v.metadata.pmMap ∈ dirs.2 := os.mem_listdir.mp (List.mem_of_mem_filter hv)
    obtain ⟨b, hb⟩ := Finmap.mem_iff.mp hv'
    exact ⟨b, hb, (h.content _ hv').symm.trans hb⟩
  obtain ⟨b, hb, hb'⟩ := hin ht
  obtain ⟨c, hc, hc'⟩ := hin hu
  rw [hb, hc, hb', hc']
  exact Option.some_inj.symm

end MapFiles

/-- Of the testcases with one PM map all but one. -/
structure AllButOne (gbl : Dir) (D : List TcName) : Prop where
  mem : ∀ t ∈ D, t.testcase ∈ gbl ∧ t.metadata.pmMap ∈ gbl
  kept : ∀ t : TcName, t.testcase ∈ gbl → t.metadata.pmMap ∈ gbl →
    ∃ u : TcName, u.testcase ∈ gbl ∧ gbl.lookup u.metadata.pmMap = gbl.lookup t.metadata.pmMap ∧
      ∀ v : TcName, v.testcase ∈ gbl → gbl.lookup v.metadata.pmMap = gbl.lookup t.metadata.pmMap →
        (v ∉ D ↔ v = u)

/-- `minimize_corpus_gbl` drops the testcases whose PM maps are duplicates. -/
theorem minimizeCorpusGbl_drops (h : minimizeCorpusGbl os gbl = .ok gbl') : ∃ tcs dirs D,
    (∀ t, t ∈ tcs ↔ t.testcase ∈ gbl) ∧ CorpusOf gbl tcs dirs ∧
      Drops (placeholderGbl os.time) uncompressed gbl D gbl' ∧
      ∀ t, t ∈ D ↔ t.testcase ∈ gbl ∧ t.metadata.pmMap ∈ Cmin.duplicateFiles os dirs.2 := by
  obtain ⟨l, hl, h⟩ := Fold.bind_eq_ok.mp h
  obtain ⟨tcs, htcs, -, hmem⟩ := globalDedupListTc_ok os gbl
  cases htcs.symm.trans hl
  obtain ⟨dirs, hdirs, h⟩ := Fold.bind_eq_ok.mp h
  have hcorpus := corpus_ok hdirs
  obtain ⟨names, hnames, h⟩ := Fold.bind_eq_ok.mp h
  obtain ⟨D, hD, hdrop⟩ := Cmin.droppedFiles_ok os hcorpus.corpus
  cases hD.symm.trans hnames
  obtain ⟨gbl₁, hgbl, hdrops⟩ := dropFromGbl_ok os.time D gbl
  cases hgbl.symm.trans h
  refine ⟨tcs, dirs, D, hmem, hcorpus, hdrops, fun t => ?_⟩
  rw [hdrop, hcorpus.testcase]
  refine and_congr_left fun _ => ⟨?_, fun ht => ⟨t, (hmem t).mpr ht, rfl⟩⟩
  rintro ⟨u, hu, heq⟩
  rw [TcName.testcase_inj.mp heq]
  exact (hmem u).mp hu

theorem CorpusOf.allButOne {tcs D : List TcName} {dirs : Dir × Dir} (h : CorpusOf gbl tcs dirs)
    (hmem : ∀ t, t ∈ tcs ↔ t.testcase ∈ gbl)
    (hdup : ∀ t, t ∈ D ↔ t.testcase ∈ gbl ∧ t.metadata.pmMap ∈ Cmin.duplicateFiles os dirs.2) : AllButOne gbl D := by
  have hfiles : ∀ {t : TcName}, t.metadata.pmMap ∈ Cmin.mapFiles os dirs.2 ↔
      t.testcase ∈ gbl ∧ t.metadata.pmMap ∈ gbl := by
    intro t
    rw [h.mem_mapFiles, hmem]
  refine ⟨fun t ht => hfiles.mp (Cmin.mem_mapFiles_of_duplicate ((hdup t).mp ht).2), fun t ht hpm => ?_⟩
  have htf := hfiles.mpr ⟨ht, hpm⟩
  obtain ⟨m, hm, hcontent, hone⟩ := Cmin.exists_kept htf
  obtain ⟨u, rfl, -⟩ := (Cmin.mem_mapFiles h.corpus).mp hm
  refine ⟨u, (hfiles.mp hm).1, (h.content_eq_iff hm htf).mp hcontent, fun v hv hvt => ?_⟩
  have hvf := hfiles.mpr ⟨hv, (Dir.mem_congr hvt).mpr hpm⟩
  rw [hdup v, and_iff_right hv, hone _ hvf ((h.content_eq_iff hvf htf).mpr hvt)]
  exact TcName.pmMap_inj

/-- It drops all but one of the testcases with one PM map. -/
theorem minimizeCorpusGbl_ok (h : minimizeCorpusGbl os gbl = .ok gbl') : ∃ D : List TcName,
    Drops (placeholderGbl os.time) uncompressed gbl D gbl' ∧ AllButOne gbl D := by
  obtain ⟨tcs, dirs, D, hmem, hcorpus, hdrops, hdup⟩ := minimizeCorpusGbl_drops h
  exact ⟨D, hdrops, hcorpus.allButOne hmem hdup⟩

/-! ## `_deduplicate_gbl` -/

/-- The checkers accept no testcase, so the engine deletes nothing. -/
theorem fdedupGbl_ok {fdedupCfg : Str} (hne : ∃ t : TcName, t.testcase ∈ gbl) :
    fdedupGbl os fdedupCfg gbl = .ok gbl := by
  obtain ⟨tcs, htcs, -, hmem⟩ := globalDedupListTc_ok os gbl
  have hrun : ∀ checker : Str → Bool, (∀ t : TcName, checker t.testcase = false) →
      DedupEngine.run os.time checker gbl ((tcs.map fun t => (t.testcase,
        if t.metadata.pmCmprPool ∈ gbl then some t.metadata.pmCmprPool else none)).map Prod.fst) =
      .ok gbl := by
    intro checker hch
    refine DedupEngine.run_none fun n hn => ?_
    rw [List.map_map, List.mem_map] at hn
    obtain ⟨t, -, rfl⟩ := hn
    exact hch t
  obtain ⟨t, ht⟩ := hne
  have hne' : tcs ≠ [] := List.ne_nil_of_mem ((hmem t).mpr ht)
  unfold fdedupGbl
  rw [Fold.bind_eq_ok]
  refine ⟨_, htcs, ?_⟩
  rw [if_neg (by simpa using hne')]
  split
  · exact hrun isPmMap isPmMap_testcase
  · split
    · exact hrun isMap isMap_testcase
    · rfl

/-- An empty list of testcases is not unpacked. -/
theorem fdedupGbl_empty {fdedupCfg : Str} (hempty : ¬ ∃ t : TcName, t.testcase ∈ gbl) :
    fdedupGbl os fdedupCfg gbl = .error .valueError := by
  obtain ⟨tcs, htcs, -, hmem⟩ := globalDedupListTc_ok os gbl
  have hnil : tcs = [] := List.eq_nil_iff_forall_not_mem.mpr fun t ht => hempty ⟨t, (hmem t).mp ht⟩
  unfold fdedupGbl
  rw [htcs, hnil]
  rfl

theorem deduplicateGbl_ok {fdedupCfg : Str} {fdedup minTc minCorpus : Bool}
    (h : deduplicateGbl os fdedupCfg fdedup minTc minCorpus gbl = .ok gbl') :
    gbl' = gbl ∨ minimizeCorpusGbl os gbl = .ok gbl' := by
  obtain ⟨gbl₁, hgbl, h₁⟩ := Fold.bind_eq_ok.mp h
  have hsame : gbl₁ = gbl := by
    split at hgbl
    · by_cases hne : ∃ t : TcName, t.testcase ∈ gbl
      · rw [fdedupGbl_ok hne] at hgbl; cases hgbl; rfl
      · rw [fdedupGbl_empty hne] at hgbl; cases hgbl
    · cases hgbl; rfl
  subst hsame
  split at h₁
  · cases h₁
  · split at h₁
    · exact .inr h₁
    · cases h₁; exact .inl rfl

end PMFuzz.Dedup
