import PMFuzz.Dedup.Sync
import PMFuzz.Dedup.Tombstone

/-!
# What the operations keep

Archives stay in `@dedup` (`KeepsArchives`), and minimization does not change
them (`SameArchives`). The files of every testcase that is not deleted stay too
(`lookup_kept`). Every PM map is that of a testcase that `minimize_corpus_gbl`
keeps (`minimizeGbl_hasMap`).
-/

namespace PMFuzz.Dedup

open Names Str

variable {d d' gbl gbl' tcDir tcDir' imgDir : Dir} {t : TcName} {b : Bytes} {n : Str} {k : MapKind}
  {D : List TcName} {text : Bytes} {os : Os Place} {vals : Metadata → List Str}

/-! ## Archives -/

theorem endsWith_deleted (t : TcName) : endsWith t.metadata.deleted ".tar.gz".toList = false :=
  endsWith_of_getLast? (getLast?_deleted t) (by decide)

/-- The only archive among a testcase's files is its image. -/
theorem eq_image_of_mem_family (h : n ∈ t.family) (hend : endsWith n ".tar.gz".toList = true) :
    n = t.image := by
  by_contra hne
  have hburied : n ∈ buriedFiles t := by
    simp only [TcName.family, List.mem_cons, List.not_mem_nil, or_false] at h
    simp only [buriedFiles, List.mem_cons, List.not_mem_nil, or_false]
    tauto
  rw [endsWith_buried hburied] at hend
  cases hend

/-- No archive goes. -/
def KeepsArchives (gbl gbl' : Dir) : Prop :=
  ∀ n ∈ gbl, endsWith n ".tar.gz".toList = true → n ∈ gbl'

theorem KeepsArchives.refl : KeepsArchives gbl gbl := fun _ hn _ => hn

/-- The archives are the same. -/
def SameArchives (gbl gbl' : Dir) : Prop :=
  ∀ n, endsWith n ".tar.gz".toList = true → gbl'.lookup n = gbl.lookup n

theorem SameArchives.keeps (h : SameArchives gbl gbl') : KeepsArchives gbl gbl' := fun n hn hend =>
  (Dir.mem_congr (h n hend)).mpr hn

theorem endsWith_of_mem_deleted (hend : endsWith n ".tar.gz".toList = true) :
    n ∉ D.map fun t => t.metadata.deleted := by
  intro hd
  obtain ⟨t, -, rfl⟩ := List.mem_map.mp hd
  rw [endsWith_deleted] at hend
  cases hend

theorem Drops.sameArchives (h : Drops text uncompressed gbl D gbl') : SameArchives gbl gbl' := by
  intro n hend
  have hno : n ∉ D.flatMap fun t => uncompressed t.metadata := fun hin => by
    obtain ⟨t, -, ht⟩ := List.mem_flatMap.mp hin
    have := (List.mem_filter.mp ht).2
    rw [hend] at this
    cases this
  rw [h, if_neg hno, if_neg (endsWith_of_mem_deleted hend)]

theorem DropsLcl.sameArchives (h : DropsLcl text gbl D gbl') : SameArchives gbl gbl' := by
  intro n hend
  have hno : n ∉ D.flatMap fun t => typesToDelete t.metadata := fun hin => by
    obtain ⟨t, -, ht⟩ := List.mem_flatMap.mp hin
    have hfalse : endsWith n ".tar.gz".toList = false := by
      simp only [typesToDelete, List.mem_cons, List.not_mem_nil, or_false] at ht
      rcases ht with rfl | rfl | rfl | rfl
      · exact endsWith_buried (t := t) (by simp [buriedFiles, TcName.metadata])
      · exact endsWith_of_getLast? (x := 'e') (by simp [TcName.metadata]) (by decide)
      · exact endsWith_buried (t := t) (by simp [buriedFiles])
      · exact endsWith_buried (t := t) (by simp [buriedFiles])
    rw [hend] at hfalse
    cases hfalse
  exact (h.rest n hno).resolve_right fun hd => endsWith_of_mem_deleted hend hd.1

/-! ## The files of other testcases -/

theorem mem_buriedFiles : n ∈ buriedFiles t ↔
    n = t.testcase ∨ n = t.metadata.map ∨ n = t.metadata.pmMap := by
  simp [buriedFiles]

theorem testcase_mem_buriedFiles (t : TcName) : t.testcase ∈ buriedFiles t := by
  simp [buriedFiles]

theorem HasMap.congr (h : HasMap k d b t) (heq : ∀ n ∈ buriedFiles t, d'.lookup n = d.lookup n) :
    HasMap k d' b t := by
  constructor
  · exact (Dir.mem_congr (heq _ (testcase_mem_buriedFiles t))).mpr h.1
  · rw [heq, h.2]
    cases k <;> simp [buriedFiles, MapKind.file]

theorem notMem_flatMap (hvals : ∀ m, vals m ⊆ m.values) (ht : t ∉ D) (hn : n ∈ buriedFiles t) :
    n ∉ D.flatMap fun t => vals t.metadata := by
  intro h
  obtain ⟨u, hu, hin⟩ := List.mem_flatMap.mp h
  exact ht (TcName.eq_of_mem_values (mem_values_of_buried hn) (hvals _ hin) ▸ hu)

theorem Drops.lookup_kept (h : Drops text vals d D d') (hvals : ∀ m, vals m ⊆ m.values) (ht : t ∉ D)
    (hn : n ∈ buriedFiles t) : d'.lookup n = d.lookup n := by
  rw [h, if_neg (notMem_flatMap hvals ht hn), if_neg]
  intro hd
  obtain ⟨u, -, hu⟩ := List.mem_map.mp hd
  exact ne_deleted_of_buried hn u hu.symm

theorem DropsLcl.lookup_kept (h : DropsLcl text d D d') (ht : t ∉ D) (hn : n ∈ buriedFiles t) :
    d'.lookup n = d.lookup n := by
  rcases h.rest n (notMem_flatMap typesToDelete_subset ht hn) with h | ⟨hd, -⟩
  · exact h
  · obtain ⟨u, -, hu⟩ := List.mem_map.mp hd
    exact absurd hu.symm (ne_deleted_of_buried hn u)

/-- No file of a testcase of `D` is left. -/
theorem Drops.notMem (h : Drops text vals d D d') (hvals : ∀ u : TcName, buriedFiles u ⊆ vals u.metadata)
    (hn : n ∈ buriedFiles t) (hin : n ∈ d') : t ∉ D := fun ht =>
  (h.mem hin).1 (List.mem_flatMap.mpr ⟨t, ht, hvals t hn⟩)

theorem buriedFiles_subset_values (t : TcName) : buriedFiles t ⊆ t.metadata.values :=
  fun _ => mem_values_of_buried

/-- A testcase of which a file is left has all of them as before. -/
def Whole (tcDir tcDir' : Dir) : Prop :=
  ∀ t : TcName, ∀ n ∈ buriedFiles t, n ∈ tcDir' → ∀ m ∈ buriedFiles t, tcDir'.lookup m = tcDir.lookup m

theorem Whole.testcase (h : Whole d d') (ht : t.testcase ∈ d') :
    d'.lookup t.testcase = d.lookup t.testcase :=
  h t _ (testcase_mem_buriedFiles t) ht _ (testcase_mem_buriedFiles t)

theorem Whole.testcase_mem (h : Whole d d') (ht : t.testcase ∈ d') : t.testcase ∈ d :=
  (Dir.mem_congr (h.testcase ht)).mp ht

theorem Drops.whole (h : Drops text vals d D d') (hvals : ∀ m, vals m ⊆ m.values)
    (hburied : ∀ u : TcName, buriedFiles u ⊆ vals u.metadata) : Whole d d' :=
  fun _ _ hn hin _ hm => h.lookup_kept hvals (h.notMem hburied hn hin) hm

theorem DropsLcl.whole (h : DropsLcl text d D d') : Whole d d' := by
  intro t n hn hin m hm
  refine h.lookup_kept (fun ht => h.gone n (List.mem_flatMap.mpr ⟨t, ht, ?_⟩) hin) hm
  rcases mem_buriedFiles.mp hn with rfl | rfl | rfl <;> simp [typesToDelete, TcName.metadata]

/-- The pass of the engine over `tc_dir`. -/
theorem mapEngine_whole (h : DedupEngine.run os.time isMap tcDir (os.listdir .tc tcDir) = .ok tcDir') :
    Whole tcDir tcDir' := by
  obtain ⟨tcs, tcDir₁, hok, -, -, hdrops⟩ := mapEngine_ok os tcDir
  cases hok.symm.trans h
  exact Drops.whole hdrops (fun _ => List.Subset.refl _) buriedFiles_subset_values

theorem minimizeLcl_ok {loc : Dir} (h : minimizeCorpusLcl os loc tcDir gbl = .ok (tcDir', gbl')) :
    Whole tcDir tcDir' ∧ ∃ D, DropsLcl (placeholderLcl os.time) gbl D gbl' := by
  obtain ⟨tcDir₁, gbl₁, hok, D, htc, hdrops, -⟩ := minimizeCorpusLcl_ok os loc tcDir gbl
  cases hok.symm.trans h
  refine ⟨fun t n hn hin m hm => ?_, D, hdrops⟩
  have hD : t ∉ D := fun hD => by
    rw [← Finmap.lookup_isSome, htc, if_pos] at hin
    · cases hin
    · exact List.mem_flatMap.mpr ⟨t, hD, buriedFiles_subset_values t hn⟩
  rw [htc, if_neg (notMem_flatMap (fun _ => List.Subset.refl _) hD hm)]

/-- Only files of testcases that are offered are written. -/
theorem Updated.lookup_family (h : Updated tcDir imgDir gbl gbl') (ht : ¬ Offered tcDir gbl t)
    (hn : n ∈ t.family) : gbl'.lookup n = gbl.lookup n := by
  refine h.frame n (fun u hu hc => ?_) fun hs => ?_
  · cases TcName.eq_of_mem_family hc.mem_family hn
    exact ht hu
  · exact absurd hn (cmprCrashSite_notMem_family hs t)

theorem Updated.lookup_kept (h : Updated tcDir imgDir gbl gbl') (ht : t.testcase ∈ gbl)
    (hn : n ∈ buriedFiles t) : gbl'.lookup n = gbl.lookup n :=
  h.lookup_family (fun hoff => hoff.notMem ht) (mem_family_of_buried hn)

/-- `update_global` keeps what `@dedup` holds. -/
theorem Updated.hasMap (h : Updated tcDir imgDir gbl gbl') (hb : HasMap k gbl b t) : HasMap k gbl' b t :=
  hb.congr fun _ hn => h.lookup_kept hb.1 hn

/-- `minimize_corpus_gbl` keeps each content with some testcase. -/
theorem minimizeGbl_hasMap (h : minimizeCorpusGbl os gbl = .ok gbl') (hb : HasMap .pmMap gbl b t) :
    ∃ u, HasMap .pmMap gbl' b u := by
  obtain ⟨D, hdrops, hone⟩ := minimizeCorpusGbl_ok h
  obtain ⟨u, hmem, hsame, hkept⟩ := hone.kept t hb.1 (Finmap.mem_of_lookup_eq_some hb.2)
  have hu : u ∉ D := (hkept u hmem hsame).mpr rfl
  have hbu : HasMap .pmMap gbl b u := ⟨hmem, hsame.trans hb.2⟩
  exact ⟨u, hbu.congr fun n hn => hdrops.lookup_kept uncompressed_subset hu hn⟩

/-! ## What a store remembers -/

/-- The testcase is in the store, or was deleted from it. -/
def Known (gbl : Dir) (t : TcName) : Prop := t.testcase ∈ gbl ∨ t.metadata.deleted ∈ gbl

/-- A testcase that the store knows does not come back, and has the files it
had. -/
structure Remembers (gbl gbl' : Dir) : Prop where
  known : ∀ t, Known gbl t → Known gbl' t
  back : ∀ t, Known gbl t → t.testcase ∈ gbl' → t.testcase ∈ gbl
  same : ∀ t : TcName, t.testcase ∈ gbl → t.testcase ∈ gbl' →
    ∀ n ∈ buriedFiles t, gbl'.lookup n = gbl.lookup n

theorem Updated.remembers (h : Updated tcDir imgDir gbl gbl') : Remembers gbl gbl' where
  known t := .imp (fun ht => h.mem.mpr (.inl ht)) fun ht => h.mem.mpr (.inl ht)
  back t hk ht := by
    rcases h.mem.mp ht with ht | ⟨u, hu, hc⟩ | ⟨hs, -⟩
    · exact ht
    · have hut : u = t := TcName.eq_of_mem_family hc.mem_family (by simp [TcName.family])
      exact hk.resolve_right (hut ▸ hu.not_deleted)
    · exact absurd (by simp [TcName.family]) (cmprCrashSite_notMem_family hs t)
  same t ht _ n hn := h.lookup_kept ht hn

theorem Drops.remembers (h : Drops text vals gbl D gbl') (hvals : ∀ m, vals m ⊆ m.values)
    (hburied : ∀ u : TcName, buriedFiles u ⊆ vals u.metadata) : Remembers gbl gbl' where
  known t hk := by
    rcases hk with ht | ht
    · by_cases hD : t ∈ D
      · refine .inr (Finmap.lookup_isSome.mp ?_)
        rw [h, if_neg (deleted_notMem_flatMap hvals t), if_pos (List.mem_map.mpr ⟨t, hD, rfl⟩)]
        rfl
      · exact .inl ((Dir.mem_congr (h.lookup_kept hvals hD (testcase_mem_buriedFiles t))).mpr ht)
    · exact .inr (h.deleted_mem hvals ht)
  back t _ ht := (h.whole hvals hburied).testcase_mem ht
  same t _ ht := h.whole hvals hburied t _ (testcase_mem_buriedFiles t) ht

theorem DropsLcl.remembers (h : DropsLcl text gbl D gbl') : Remembers gbl gbl' where
  known t hk := by
    rcases hk with ht | ht
    · by_cases hD : t ∈ D
      · exact .inr (h.placed t hD ht)
      · exact .inl ((Dir.mem_congr (h.lookup_kept hD (testcase_mem_buriedFiles t))).mpr ht)
    · exact .inr (h.deleted_mem ht)
  back _ _ := h.whole.testcase_mem
  same t _ ht := h.whole t _ (testcase_mem_buriedFiles t) ht

end PMFuzz.Dedup
