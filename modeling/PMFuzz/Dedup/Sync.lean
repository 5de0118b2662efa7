import PMFuzz.Dedup.Local
import PMFuzz.Names.Parents

/-!
# The local stores of an iteration

`update_local` fills `@dedup_sync` from `@dedup`; `clean_up_uncmpr_lcl` and
`deduplicate_crash_sites_lcl` remove files of `img_dir`.
-/

namespace PMFuzz.Dedup

open Names Str

/-- One round of the first loop of `update_local`. -/
def copyLocal (iterId : ℕ) (locTcFiles : List Str) (gbl loc : Dir) (entry : Str × Option Str) :
    Except Stop Dir := do
  let destNameTc := replace entry.1 ".min".toList []
  let cnt ← iterCnt entry.1
  if destNameTc ∉ locTcFiles ∧ cnt = iterId then
    let loc ← copypreserve gbl entry.1 loc destNameTc
    match entry.2 with
    | none => .error (.abort ("Image not found for ".toList ++ destNameTc))
    | some img =>
      let loc ← copypreserve gbl img loc (replace img ".min".toList [])
      let metadataFiles ← getMetadataFiles entry.1
      let loc ← copypreserve gbl metadataFiles.map loc metadataFiles.map
      copyIfThere gbl metadataFiles.pmMap loc
  else return loc

/-- One round of the second loop. -/
def copyLocalSite (gbl loc : Dir) (cs : Str) : Except Stop Dir :=
  if cs ∉ loc then copypreserve gbl cs loc cs else .ok loc

/-- `global_dedup_list_cs`. -/
def globalDedupListCs (os : Os Place) (gbl : Dir) : List Str :=
  (os.listdir .gbl gbl).filter isCmprCrashSite

/-- `update_local`. -/
def updateLocal (os : Os Place) (iterId : ℕ) (gbl loc : Dir) : Except Stop Dir := do
  let locTcFiles := (os.listdir .loc loc).map (replace · ".min".toList [])
  let testcases ← globalDedupListTc os gbl
  let loc ← testcases.foldlM (copyLocal iterId locTcFiles gbl) loc
  (globalDedupListCs os gbl).foldlM (copyLocalSite gbl) loc

/-- `clean_up_uncmpr_lcl`. -/
def cleanUpUncmprLcl (os : Os Place) (imgDir : Dir) : Dir :=
  imgDir.removeAll ((os.listdir .img imgDir).filter fun fname =>
    endsWith fname "crash_site".toList || endsWith fname "pm_pool".toList)

/-- One round of the loop of `deduplicate_crash_sites_lcl`, with the hashes
seen and the files to drop. -/
def seeCrashSite {H : Type} [DecidableEq H] (db : Str → Option H) (acc : List H × List Str)
    (fileName : Str) : Except Stop (List H × List Str) :=
  let cleanName := replace fileName ".tar.gz".toList []
  match db cleanName with
  | none => .error (.abort ("Unable to find key ".toList ++ cleanName ++
      " in crash site db (False)".toList))
  | some hashV =>
    if hashV ∉ acc.1 then .ok (acc.1 ++ [hashV], acc.2) else .ok (acc.1, acc.2 ++ [fileName])

/-- `deduplicate_crash_sites_lcl`, with the crash site database. -/
def deduplicateCrashSitesLcl {H : Type} [DecidableEq H] (os : Os Place) (db : Str → Option H)
    (imgDir : Dir) : Except Stop Dir := do
  let (_, filesToDrop) ← ((os.listdir .img imgDir).filter isCmprCrashSite).foldlM (seeCrashSite db)
    ([], [])
  return imgDir.removeAll filesToDrop

/-! ## What they leave -/

variable {os : Os Place} {gbl loc loc' imgDir imgDir' : Dir} {n : Str}

theorem iterCnt_testcase (t : TcName) : iterCnt t.testcase = .ok (t.ancestors + 1) := by
  rw [iterCnt, ancestorCnt_of (getMetadataFiles_testcase t)]
  rfl

theorem replace_min_testcase (t : TcName) : replace t.testcase ".min".toList [] = t.testcase :=
  replace_of_not_infix (t.not_infix_testcase (by decide) (by decide) (by decide)) (by decide)

theorem replace_min_pmCmprPool (t : TcName) :
    replace t.metadata.pmCmprPool ".min".toList [] = t.metadata.pmCmprPool := by
  refine replace_of_not_infix (not_infix_of_mem (p := 'n') (by decide) fun h => ?_) (by decide)
  rcases List.mem_append.mp h with h | h
  · exact TcName.notMem_bare (by decide) (by decide) h
  · exact absurd h (by decide)

/-- The files of a testcase of `@dedup` with an image. -/
def Synced (gbl : Dir) (t : TcName) (n : Str) : Prop :=
  t.testcase ∈ gbl ∧ t.metadata.pmCmprPool ∈ gbl ∧ (n = t.testcase ∨
    n = t.metadata.pmCmprPool ∨ n = t.metadata.map ∨ n = t.metadata.pmMap)

/-- What copying from `@dedup` to `@dedup_sync` does. -/
structure Copies (gbl loc loc' : Dir) : Prop where
  keep : ∀ n ∈ loc, n ∈ loc'
  new : ∀ n ∈ loc', n ∈ loc ∨ (∃ t, Synced gbl t n) ∨ isCmprCrashSite n = true ∧ n ∈ gbl
  beside : ∀ t : TcName, t.metadata.pmMap ∈ loc' → t.metadata.pmMap ∈ loc ∨ t.testcase ∈ loc'
  content : ∀ n, loc'.lookup n = loc.lookup n ∨ loc'.lookup n = gbl.lookup n

theorem Copies.refl : Copies gbl loc loc :=
  ⟨fun _ => id, fun _ => .inl, fun _ => .inl, fun _ => .inl rfl⟩

theorem Copies.trans {loc₁ loc₂ : Dir} (h₁ : Copies gbl loc loc₁) (h₂ : Copies gbl loc₁ loc₂) :
    Copies gbl loc loc₂ where
  keep n hn := h₂.keep n (h₁.keep n hn)
  new n hn := (h₂.new n hn).elim (h₁.new n) .inr
  beside t ht := (h₂.beside t ht).elim (fun h => (h₁.beside t h).imp_right (h₂.keep _)) .inr
  content n := (h₂.content n).elim (fun h => h ▸ h₁.content n) .inr

/-- One copy under the same name. -/
theorem copies_of_copypreserve (h : copypreserve gbl n loc n = .ok loc')
    (hnew : (∃ t, Synced gbl t n) ∨ isCmprCrashSite n = true ∧ n ∈ gbl)
    (hbeside : ∀ t : TcName, n = t.metadata.pmMap → t.testcase ∈ loc) : Copies gbl loc loc' := by
  obtain ⟨b, hb, rfl⟩ := copypreserve_eq_ok.mp h
  refine ⟨fun m hm => Finmap.mem_insert.mpr (.inr hm), fun m hm => ?_, fun t ht => ?_, fun m => ?_⟩
  · rcases Finmap.mem_insert.mp hm with rfl | hm
    · exact .inr hnew
    · exact .inl hm
  · rcases Finmap.mem_insert.mp ht with ht | ht
    · exact .inr (Finmap.mem_insert.mpr (.inr (hbeside t ht.symm)))
    · exact .inl ht
  · rw [Dir.lookup_insert]
    by_cases hm : m = n
    · exact .inr (by rw [if_pos hm, hm, hb])
    · exact .inl (if_neg hm)

/-- A round of the first loop passes the testcase over, or copies its files. -/
theorem copyLocal_cases {iterId : ℕ} {locTcFiles : List Str} {t : TcName} {img : Option Str}
    (himg : ∀ i, img = some i → i = t.metadata.pmCmprPool)
    (h : copyLocal iterId locTcFiles gbl loc (t.testcase, img) = .ok loc') :
    (∃ cnt, iterCnt t.testcase = .ok cnt ∧ ¬ (t.testcase ∉ locTcFiles ∧ cnt = iterId) ∧ loc' = loc) ∨
      (t.testcase ∉ locTcFiles ∧ iterCnt t.testcase = .ok iterId) ∧ img = some t.metadata.pmCmprPool ∧
        ∃ d₁ d₂ d₃, copypreserve gbl t.testcase loc t.testcase = .ok d₁ ∧
          copypreserve gbl t.metadata.pmCmprPool d₁ t.metadata.pmCmprPool = .ok d₂ ∧
          copypreserve gbl t.metadata.map d₂ t.metadata.map = .ok d₃ ∧
          copyIfThere gbl t.metadata.pmMap d₃ = .ok loc' := by
  simp only [copyLocal, replace_min_testcase] at h
  obtain ⟨cnt, hcnt, h⟩ := Fold.bind_eq_ok.mp h
  split at h
  · rename_i hcond
    obtain ⟨d₁, h₁, h⟩ := Fold.bind_eq_ok.mp h
    cases img with
    | none => cases h
    | some i =>
      obtain rfl := himg i rfl
      obtain ⟨d₂, h₂, h⟩ := Fold.bind_eq_ok.mp h
      rw [replace_min_pmCmprPool] at h₂
      obtain ⟨md, hmd, h⟩ := Fold.bind_eq_ok.mp h
      cases (getMetadataFiles_testcase t).symm.trans hmd
      obtain ⟨d₃, h₃, h⟩ := Fold.bind_eq_ok.mp h
      exact .inr ⟨⟨hcond.1, hcond.2 ▸ hcnt⟩, rfl, d₁, d₂, d₃, h₁, h₂, h₃, h⟩
  · rename_i hcond
    cases h
    exact .inl ⟨cnt, hcnt, hcond, rfl⟩

/-- A round of the first loop. -/
theorem copyLocal_ok {iterId : ℕ} {locTcFiles : List Str} {t : TcName} {img : Option Str}
    (ht : t.testcase ∈ gbl) (himg : ∀ i, img = some i → i = t.metadata.pmCmprPool ∧ i ∈ gbl)
    (h : copyLocal iterId locTcFiles gbl loc (t.testcase, img) = .ok loc') : Copies gbl loc loc' := by
  rcases copyLocal_cases (fun i hi => (himg i hi).1) h with ⟨_, -, -, rfl⟩ | ⟨-, rfl, d₁, d₂, d₃, h₁, h₂, h₃, h⟩
  · exact .refl
  · obtain ⟨-, hi⟩ := himg _ rfl
    have hsynced : ∀ n, (n = t.testcase ∨ n = t.metadata.pmCmprPool ∨ n = t.metadata.map ∨
        n = t.metadata.pmMap) → ∃ t, Synced gbl t n := fun n hn => ⟨t, ht, hi, hn⟩
    -- the first character of a PM map's name
    have hhead : ∀ n : Str, n.head? ≠ some 'p' → ∀ u : TcName, n ≠ u.metadata.pmMap := by
      rintro n hn u rfl
      exact hn rfl
    have hc₁ : Copies gbl loc d₁ := copies_of_copypreserve h₁ (.inl (hsynced _ (.inl rfl)))
      fun u hu => absurd hu (hhead _ (by rw [t.head?_testcase]; decide) u)
    have hc₂ : Copies gbl d₁ d₂ := copies_of_copypreserve h₂ (.inl (hsynced _ (.inr (.inl rfl))))
      fun u hu => absurd hu (hhead _ (by
        rw [TcName.metadata, List.head?_append, TcName.head?_bare]; simp) u)
    have hc₃ : Copies gbl d₂ d₃ := copies_of_copypreserve h₃
      (.inl (hsynced _ (.inr (.inr (.inl rfl))))) fun u hu => absurd hu (hhead _ (by
        simp [TcName.metadata]) u)
    have hmem : t.testcase ∈ d₃ := by
      obtain ⟨b, -, rfl⟩ := copypreserve_eq_ok.mp h₁
      exact hc₃.keep _ (hc₂.keep _ (Finmap.mem_insert.mpr (.inl rfl)))
    refine (hc₁.trans hc₂).trans (hc₃.trans ?_)
    unfold copyIfThere at h
    split at h
    · exact copies_of_copypreserve h (.inl (hsynced _ (.inr (.inr (.inr rfl))))) fun u hu => by
        cases TcName.pmMap_inj.mp hu
        exact hmem
    · cases h
      exact .refl

/-- `update_local` is its two loops. -/
theorem updateLocal_loops {iterId : ℕ} (h : updateLocal os iterId gbl loc = .ok loc') :
    ∃ (tcs : List TcName) (d : Dir),
      globalDedupListTc os gbl = .ok (tcs.map fun t =>
        (t.testcase, if t.metadata.pmCmprPool ∈ gbl then some t.metadata.pmCmprPool else none)) ∧
      (∀ t, t ∈ tcs ↔ t.testcase ∈ gbl) ∧
      (tcs.map fun t => (t.testcase, if t.metadata.pmCmprPool ∈ gbl then some t.metadata.pmCmprPool else none)).foldlM
        (copyLocal iterId ((os.listdir .loc loc).map (replace · ".min".toList [])) gbl) loc = .ok d ∧
      (globalDedupListCs os gbl).foldlM (copyLocalSite gbl) d = .ok loc' := by
  obtain ⟨l, hl, h⟩ := Fold.bind_eq_ok.mp h
  obtain ⟨tcs, htcs, -, hmem⟩ := globalDedupListTc_ok os gbl
  cases htcs.symm.trans hl
  obtain ⟨d, hd, hsites⟩ := Fold.bind_eq_ok.mp h
  exact ⟨tcs, d, htcs, hmem, hd, hsites⟩

theorem updateLocal_ok {iterId : ℕ} (h : updateLocal os iterId gbl loc = .ok loc') :
    Copies gbl loc loc' := by
  obtain ⟨tcs, d, -, hmem, hd, hsites⟩ := updateLocal_loops h
  have hfirst : Copies gbl loc d := by
    refine Fold.foldlM_inv (P := Copies gbl loc) (fun e he s s' hs hround => hs.trans ?_) .refl hd
    obtain ⟨t, ht, rfl⟩ := List.mem_map.mp he
    refine copyLocal_ok ((hmem t).mp ht) (fun i hi => ?_) hround
    obtain ⟨himg, hi⟩ := Option.ite_none_right_eq_some.mp hi
    cases hi
    exact ⟨rfl, himg⟩
  refine Fold.foldlM_inv (P := Copies gbl loc) (fun cs hcs s s' hs hround => hs.trans ?_) hfirst hsites
  obtain ⟨hin, hsite⟩ := List.mem_filter.mp hcs
  unfold copyLocalSite at hround
  split at hround
  · refine copies_of_copypreserve hround (.inr ⟨hsite, os.mem_listdir.mp hin⟩) fun t ht => ?_
    exact absurd (show cs ∈ t.family by simp [TcName.family, ht]) (cmprCrashSite_notMem_family hsite t)
  · cases hround
    exact .refl

/-- The files to drop are among the names listed. -/
theorem seeCrashSite_subset {H : Type} [DecidableEq H] {db : Str → Option H} {names : List Str}
    {acc acc' : List H × List Str} (h : names.foldlM (seeCrashSite db) acc = .ok acc') :
    ∀ n ∈ acc'.2, n ∈ acc.2 ∨ n ∈ names := by
  refine Fold.foldlM_inv (P := fun a => ∀ n ∈ a.2, n ∈ acc.2 ∨ n ∈ names)
    (fun m hm a a' ha hround => ?_) (fun n hn => .inl hn) h
  unfold seeCrashSite at hround
  dsimp only at hround
  split at hround
  · cases hround
  · split at hround
    · cases hround
      exact ha
    · cases hround
      intro n hn
      rcases List.mem_append.mp hn with hn | hn
      · exact ha n hn
      · exact .inr (List.mem_singleton.mp hn ▸ hm)

/-- Only crash sites go. -/
def DropsSites (imgDir imgDir' : Dir) : Prop :=
  ∀ n, imgDir'.lookup n = imgDir.lookup n ∨ isCmprCrashSite n = true ∧ n ∉ imgDir'

theorem DropsSites.mem (h : DropsSites imgDir imgDir') (hn : n ∈ imgDir') : n ∈ imgDir := by
  rcases h n with h | ⟨-, h⟩
  · exact (Dir.mem_congr h).mp hn
  · exact absurd hn h

theorem deduplicateCrashSitesLcl_ok {H : Type} [DecidableEq H] {db : Str → Option H}
    (h : deduplicateCrashSitesLcl os db imgDir = .ok imgDir') : DropsSites imgDir imgDir' := by
  obtain ⟨acc, hacc, h⟩ := Fold.bind_eq_ok.mp h
  cases h
  intro n
  by_cases hn : n ∈ acc.2
  · have hsite := (seeCrashSite_subset hacc n hn).resolve_left List.not_mem_nil
    exact .inr ⟨(List.mem_filter.mp hsite).2, fun hin => (Dir.mem_removeAll.mp hin).2 hn⟩
  · exact .inl (by rw [Dir.lookup_removeAll, if_neg hn])

/-- The pass of the engine over `tc_dir`. -/
theorem mapEngine_ok (os : Os Place) (tcDir : Dir) : ∃ (tcs : List TcName) (tcDir' : Dir),
    DedupEngine.run os.time isMap tcDir (os.listdir .tc tcDir) = .ok tcDir' ∧
      tcs.Nodup ∧ (∀ t, t ∈ tcs ↔ t.metadata.map ∈ tcDir) ∧
      Drops (placeholder os.time) Metadata.values tcDir
        (DedupEngine.dropped (fun t => (tcDir.lookup t.metadata.map).getD []) tcs) tcDir' := by
  have hinj : Function.Injective fun t : TcName => t.metadata.map := fun _ _ => TcName.map_inj.mp
  have hmap : ∀ n ∈ (os.listdir .tc tcDir).filter isMap, ∃ t : TcName, n = t.metadata.map :=
    fun n hn => isMap_iff.mp (List.mem_filter.mp hn).2
  obtain ⟨tcs, htcs⟩ := Fold.exists_map hmap
  have hmem : ∀ t, t ∈ tcs ↔ t.metadata.map ∈ tcDir := fun t => by
    rw [← List.mem_map_of_injective hinj, ← htcs, List.mem_filter, os.mem_listdir]
    exact and_iff_left (isMap_iff.mpr ⟨t, rfl⟩)
  obtain ⟨tcDir', h, hdrops⟩ := DedupEngine.run_ok getMetadataFiles_map htcs
    fun t ht => (hmem t).mp ht
  exact ⟨tcs, tcDir', h, List.Nodup.of_map _ (htcs ▸ (os.nodup _ _).filter _), hmem, hdrops⟩

/-! ## The testcases that `update_local` selects -/

variable {t u : TcName} {iterId : ℕ}

theorem mem_copypreserve {src dst d : Dir} {name dest : Str} (h : copypreserve src name dst dest = .ok d) :
    n ∈ d ↔ n = dest ∨ n ∈ dst := by
  obtain ⟨b, -, rfl⟩ := copypreserve_eq_ok.mp h
  exact Finmap.mem_insert

/-- Of the names of a testcase's files, only one is a testcase's. -/
theorem testcase_ne_files : t.testcase ≠ u.metadata.pmCmprPool ∧ t.testcase ≠ u.metadata.map ∧
    t.testcase ≠ u.metadata.pmMap := by
  refine ⟨fun h => ?_, fun h => ?_, fun h => ?_⟩
  · have hlast : u.metadata.pmCmprPool.getLast? = some 'z' := by simp [TcName.metadata]
    rcases t.getLast?_testcase with ht | ht <;> rw [h, hlast] at ht <;> cases ht
  · have := t.head?_testcase
    rw [h] at this
    cases this
  · have := t.head?_testcase
    rw [h] at this
    cases this

/-- A round of the first loop copies the testcase if it is of the iteration's
generation and not there. -/
theorem copyLocal_testcase {locTcFiles : List Str} {img : Option Str}
    (himg : ∀ i, img = some i → i = u.metadata.pmCmprPool)
    (h : copyLocal iterId locTcFiles gbl loc (u.testcase, img) = .ok loc') :
    t.testcase ∈ loc' ↔ t.testcase ∈ loc ∨
      t = u ∧ t.testcase ∉ locTcFiles ∧ iterCnt t.testcase = .ok iterId := by
  obtain ⟨hpool, hmap, hpm⟩ := testcase_ne_files (t := t) (u := u)
  rcases copyLocal_cases himg h with ⟨cnt, hcnt, hcond, rfl⟩ | ⟨hdue, -, d₁, d₂, d₃, h₁, h₂, h₃, h⟩
  · refine (or_iff_left ?_).symm
    rintro ⟨rfl, hnot, hgen⟩
    exact hcond ⟨hnot, Except.ok.inj (hcnt.symm.trans hgen)⟩
  · obtain ⟨d₄, h₄, -, hmem⟩ := copyIfThere_ok gbl u.metadata.pmMap d₃
    cases h₄.symm.trans h
    rw [hmem, or_iff_right fun h => hpm h.1, mem_copypreserve h₃, or_iff_right hmap,
      mem_copypreserve h₂, or_iff_right hpool, mem_copypreserve h₁, TcName.testcase_inj, or_comm]
    refine or_congr_right ⟨fun htu => ?_, And.left⟩
    rw [htu]
    exact ⟨rfl, hdue⟩

/-- The testcases that are there are among the names without `.min`. -/
theorem listed_of_mem (h : t.testcase ∈ loc) (os : Os Place) :
    t.testcase ∈ (os.listdir .loc loc).map (replace · ".min".toList []) :=
  List.mem_map.mpr ⟨_, os.mem_listdir.mpr h, replace_min_testcase t⟩

/-- No others are, where no name has a `.min`. -/
theorem listed_iff (hmin : ∀ n ∈ loc, replace n ".min".toList [] = n) :
    t.testcase ∈ (os.listdir .loc loc).map (replace · ".min".toList []) ↔ t.testcase ∈ loc := by
  refine ⟨fun h => ?_, (listed_of_mem · os)⟩
  obtain ⟨n, hn, hrep⟩ := List.mem_map.mp h
  have hin := os.mem_listdir.mp hn
  rw [hmin n hin] at hrep
  exact hrep ▸ hin

/-- After `update_local` the testcases of `@dedup_sync` are those that were
there and those of the iteration's generation. -/
theorem updateLocal_testcase (h : updateLocal os iterId gbl loc = .ok loc')
    (hmin : ∀ n ∈ loc, replace n ".min".toList [] = n) :
    t.testcase ∈ loc' ↔ t.testcase ∈ loc ∨ t.testcase ∈ gbl ∧ iterCnt t.testcase = .ok iterId := by
  obtain ⟨tcs, d, -, hmem, hd, hsites⟩ := updateLocal_loops h
  have hlisted : t.testcase ∈ (os.listdir .loc loc).map (replace · ".min".toList []) ↔ t.testcase ∈ loc :=
    listed_iff hmin
  have hsecond : t.testcase ∈ loc' ↔ t.testcase ∈ d := by
    refine Fold.foldlM_inv (P := fun d' : Dir => t.testcase ∈ d' ↔ t.testcase ∈ d)
      (fun cs hcs d₁ d₂ hd₁ hround => ?_) Iff.rfl hsites
    unfold copyLocalSite at hround
    split at hround
    · rw [mem_copypreserve hround, or_iff_right, hd₁]
      rintro rfl
      exact cmprCrashSite_notMem_family (List.mem_filter.mp hcs).2 t (by simp [TcName.family])
    · cases hround
      exact hd₁
  have hfirst : ∀ (tcs : List TcName) (d d' : Dir), (tcs.map fun t =>
        (t.testcase, if t.metadata.pmCmprPool ∈ gbl then some t.metadata.pmCmprPool else none)).foldlM
        (copyLocal iterId ((os.listdir .loc loc).map (replace · ".min".toList [])) gbl) d = .ok d' →
      (t.testcase ∈ d' ↔ t.testcase ∈ d ∨
        t ∈ tcs ∧ t.testcase ∉ loc ∧ iterCnt t.testcase = .ok iterId) := by
    intro tcs
    induction tcs with
    | nil =>
      intro d d' h
      cases Fold.foldlM_nil_eq_ok.mp h
      simp
    | cons u tcs ih =>
      intro d d' h
      obtain ⟨d₁, h₁, h⟩ := Fold.foldlM_cons_eq_ok.mp h
      have hround := copyLocal_testcase (t := t) (fun i hi =>
        (Option.some.inj (Option.ite_none_right_eq_some.mp hi).2).symm) h₁
      rw [ih d₁ d' h, hround, hlisted, List.mem_cons, or_and_right, or_assoc]
  rw [hsecond, hfirst tcs loc d hd, hmem]
  by_cases hin : t.testcase ∈ loc
  · exact iff_of_true (.inl hin) (.inl hin)
  · rw [and_iff_right hin]

theorem copypreserve_mem (hn : n ∈ gbl) (d : Dir) : ∃ d', copypreserve gbl n d n = .ok d' := by
  obtain ⟨b, hb⟩ := Finmap.mem_iff.mp hn
  exact ⟨_, copypreserve_eq_ok.mpr ⟨b, hb, rfl⟩⟩

/-- A round of the first loop fails only where the image or the exec map of a
testcase it selects is missing. -/
theorem copyLocal_total {locTcFiles : List Str} (ht : t.testcase ∈ gbl)
    (h : t.testcase ∉ locTcFiles → iterCnt t.testcase = .ok iterId →
      t.metadata.pmCmprPool ∈ gbl ∧ t.metadata.map ∈ gbl) :
    ∃ loc', copyLocal iterId locTcFiles gbl loc (t.testcase,
      if t.metadata.pmCmprPool ∈ gbl then some t.metadata.pmCmprPool else none) = .ok loc' := by
  simp only [copyLocal, replace_min_testcase]
  rw [iterCnt_testcase] at h ⊢
  by_cases hcond : t.testcase ∉ locTcFiles ∧ t.ancestors + 1 = iterId
  · obtain ⟨himg, hmap⟩ := h hcond.1 (congrArg Except.ok hcond.2)
    obtain ⟨d₁, h₁⟩ := copypreserve_mem ht loc
    obtain ⟨d₂, h₂⟩ := copypreserve_mem himg d₁
    obtain ⟨d₃, h₃⟩ := copypreserve_mem hmap d₂
    obtain ⟨d₄, h₄, -⟩ := copyIfThere_ok gbl t.metadata.pmMap d₃
    refine ⟨d₄, Fold.bind_eq_ok.mpr ⟨_, rfl, ?_⟩⟩
    rw [if_pos hcond, if_pos himg]
    refine Fold.bind_eq_ok.mpr ⟨d₁, h₁, Fold.bind_eq_ok.mpr ⟨d₂, ?_, ?_⟩⟩
    · rw [replace_min_pmCmprPool, h₂]
    · exact Fold.bind_eq_ok.mpr ⟨_, getMetadataFiles_testcase t, Fold.bind_eq_ok.mpr ⟨d₃, h₃, h₄⟩⟩
  · exact ⟨loc, Fold.bind_eq_ok.mpr ⟨_, rfl, if_neg hcond⟩⟩

/-- `update_local` fails only where a testcase of the iteration's generation, not
copied yet, has no image or no exec map. -/
theorem updateLocal_total (h : ∀ t : TcName, t.testcase ∈ gbl → iterCnt t.testcase = .ok iterId →
    t.testcase ∉ loc → t.metadata.pmCmprPool ∈ gbl ∧ t.metadata.map ∈ gbl) :
    ∃ loc', updateLocal os iterId gbl loc = .ok loc' := by
  obtain ⟨tcs, htcs, -, hmem⟩ := globalDedupListTc_ok os gbl
  obtain ⟨d, hd, -⟩ : ∃ d, (tcs.map fun t => (t.testcase,
      if t.metadata.pmCmprPool ∈ gbl then some t.metadata.pmCmprPool else none)).foldlM
      (copyLocal iterId ((os.listdir .loc loc).map (replace · ".min".toList [])) gbl) loc =
        .ok d ∧ True := by
    refine Fold.foldlM_total (fun e he d _ => ?_) trivial
    obtain ⟨t, ht, rfl⟩ := List.mem_map.mp he
    have hin := (hmem t).mp ht
    obtain ⟨d', hd'⟩ := copyLocal_total hin fun hno hcnt => h t hin hcnt fun hloc => hno (listed_of_mem hloc os)
    exact ⟨d', hd', trivial⟩
  obtain ⟨loc', hsites, -⟩ : ∃ loc', (globalDedupListCs os gbl).foldlM (copyLocalSite gbl) d = .ok loc' ∧
      True := by
    refine Fold.foldlM_total (fun cs hcs d _ => ?_) trivial
    unfold copyLocalSite
    split
    · obtain ⟨d', hd'⟩ := copypreserve_mem (os.mem_listdir.mp (List.mem_filter.mp hcs).1) d
      exact ⟨d', hd', trivial⟩
    · exact ⟨d, rfl, trivial⟩
  exact ⟨loc', Fold.bind_eq_ok.mpr ⟨_, htcs, Fold.bind_eq_ok.mpr ⟨d, hd, hsites⟩⟩⟩

/-- And it does fail without the exec map. -/
theorem updateLocal_map (h : updateLocal os iterId gbl loc = .ok loc')
    (hmin : ∀ n ∈ loc, replace n ".min".toList [] = n) (ht : t.testcase ∈ gbl)
    (hcnt : iterCnt t.testcase = .ok iterId) (hno : t.testcase ∉ loc) : t.metadata.map ∈ gbl := by
  obtain ⟨tcs, d, -, hmem, hd, -⟩ := updateLocal_loops h
  obtain ⟨u, v, hround⟩ := Fold.foldlM_mem hd _ (List.mem_map_of_mem ((hmem t).mpr ht))
  have himg : ∀ i, (if t.metadata.pmCmprPool ∈ gbl then some t.metadata.pmCmprPool else none) = some i →
      i = t.metadata.pmCmprPool := fun i hi => (Option.some.inj (Option.ite_none_right_eq_some.mp hi).2).symm
  rcases copyLocal_cases himg hround with ⟨cnt, hcnt', hcond, -⟩ | ⟨-, -, d₁, d₂, d₃, -, -, h₃, -⟩
  · cases hcnt'.symm.trans hcnt
    exact absurd ⟨mt (listed_iff hmin).mp hno, rfl⟩ hcond
  · obtain ⟨b, hb, -⟩ := copypreserve_eq_ok.mp h₃
    exact Finmap.mem_of_lookup_eq_some hb

end PMFuzz.Dedup
