import PMFuzz.Dedup.Kept
import PMFuzz.Dedup.Representatives

/-!
# The minimized store

What `minimize_corpus_gbl` does to `@dedup` as a whole: of the testcases with
one PM map one remains, the others lose their files and get placeholders,
and nothing else changes (`minimizeCorpusGbl_minimized`).
-/

namespace PMFuzz.Dedup

open Names Str

/-- The files of a testcase that are no archives. -/
def uncompressedFiles (m : Metadata) : List Str :=
  [m.testcase, m.clean, m.minTestcase, m.map, m.pmMap, m.crashSite, m.pmPool]

/-- `gbl'` is `gbl` minimized. -/
structure Minimized (text : Bytes) (gbl gbl' : Dir) : Prop where
  /-- Of the testcases with one PM map one remains. -/
  one : ∀ t : TcName, t.testcase ∈ gbl → t.metadata.pmMap ∈ gbl → ∃! u : TcName,
    u.testcase ∈ gbl' ∧ gbl'.lookup u.metadata.pmMap = gbl.lookup t.metadata.pmMap
  /-- Those without a PM map remain. -/
  noMap : ∀ t : TcName, t.testcase ∈ gbl → t.metadata.pmMap ∉ gbl → t.testcase ∈ gbl'
  /-- What remains was there, and is as it was. -/
  remaining : ∀ t : TcName, t.testcase ∈ gbl' →
    t.testcase ∈ gbl ∧ ∀ n ∈ t.metadata.names true, gbl'.lookup n = gbl.lookup n
  dropped : ∀ t : TcName, t.testcase ∈ gbl → t.testcase ∉ gbl' →
    (∀ n ∈ uncompressedFiles t.metadata, n ∉ gbl') ∧ gbl'.lookup t.metadata.deleted = some text
  archives : SameArchives gbl gbl'
  frame : ∀ n, (∀ t : TcName, t.testcase ∈ gbl → t.testcase ∉ gbl' →
    n ∉ uncompressedFiles t.metadata ∧ n ≠ t.metadata.deleted) → gbl'.lookup n = gbl.lookup n

variable {gbl gbl' : Dir} {D : List TcName} {text : Bytes} {t : TcName} {n : Str}

/-- No name of a testcase without `.tar.gz` ends in it. -/
theorem endsWith_uncompressedFiles (h : n ∈ uncompressedFiles t.metadata) :
    endsWith n ".tar.gz".toList = false := by
  simp only [uncompressedFiles, List.mem_cons, List.not_mem_nil, or_false] at h
  rcases h with rfl | rfl | rfl | rfl | rfl | rfl | rfl
  · exact endsWith_buried (testcase_mem_buriedFiles t)
  · obtain ⟨c, hc, hdigit⟩ := t.getLast?_bare
    refine endsWith_of_getLast? hc ?_
    rintro rfl
    exact hdigit.elim (by decide) (by decide)
  · exact endsWith_of_getLast? (x := 'e') (by simp [TcName.metadata]) (by decide)
  · exact endsWith_buried (mem_buriedFiles.mpr (.inr (.inl rfl)))
  · exact endsWith_buried (mem_buriedFiles.mpr (.inr (.inr rfl)))
  · exact endsWith_of_getLast? (x := 'e') (by simp [TcName.metadata]) (by decide)
  · exact endsWith_of_getLast? (x := 'l') (by simp [TcName.metadata]) (by decide)

theorem mem_values_iff {m : Metadata} :
    n ∈ m.values ↔ n ∈ uncompressedFiles m ∨ n = m.crashCmprSite ∨ n = m.pmCmprPool := by
  simp only [Metadata.values, uncompressedFiles, List.mem_cons, List.not_mem_nil, or_false]
  tauto

/-- The metadata files that are deleted. -/
theorem mem_uncompressed : n ∈ uncompressed t.metadata ↔ n ∈ uncompressedFiles t.metadata := by
  have harchive : ∀ ext : Str, (!endsWith (t.bare ++ (ext ++ ".tar.gz".toList)) ".tar.gz".toList) ≠ true := by
    intro ext
    have h : endsWith (t.bare ++ (ext ++ ".tar.gz".toList)) ".tar.gz".toList = true :=
      List.isSuffixOf_iff_suffix.mpr ⟨t.bare ++ ext, List.append_assoc ..⟩
    rw [h]
    decide
  rw [uncompressed, List.mem_filter, mem_values_iff]
  constructor
  · rintro ⟨hn | rfl | rfl, hend⟩
    · exact hn
    · exact absurd hend (harchive ".crash_site".toList)
    · exact absurd hend (harchive ".pm_pool".toList)
  · exact fun h => ⟨.inl h, by rw [endsWith_uncompressedFiles h]; rfl⟩

/-- Dropping all but one of the testcases with one PM map. -/
theorem Drops.minimized (h : Drops text uncompressed gbl D gbl') (hone : AllButOne gbl D) :
    Minimized text gbl gbl' := by
  have hkept : ∀ t : TcName, t.testcase ∈ gbl' → t ∉ D := fun t ht =>
    h.notMem buried_subset_uncompressed (testcase_mem_buriedFiles t) ht
  have hsame : ∀ t : TcName, t ∉ D → ∀ n ∈ t.metadata.names true, gbl'.lookup n = gbl.lookup n :=
    fun t ht n => h.lookup_names uncompressed_subset ht
  have hpmMap : ∀ t : TcName, t ∉ D → gbl'.lookup t.metadata.pmMap = gbl.lookup t.metadata.pmMap :=
    fun t ht => h.lookup_kept uncompressed_subset ht (mem_buriedFiles.mpr (.inr (.inr rfl)))
  have hin : ∀ t : TcName, t.testcase ∈ gbl' ↔ t.testcase ∈ gbl ∧ t ∉ D := by
    intro t
    constructor
    · intro ht
      have heq := h.lookup_kept uncompressed_subset (hkept t ht) (testcase_mem_buriedFiles t)
      exact ⟨(Dir.mem_congr heq).mp ht, hkept t ht⟩
    · rintro ⟨ht, hD⟩
      exact (Dir.mem_congr (h.lookup_kept uncompressed_subset hD (testcase_mem_buriedFiles t))).mpr ht
  have hdrop : ∀ t : TcName, t.testcase ∈ gbl → t.testcase ∉ gbl' → t ∈ D := fun t ht hnin =>
    not_not.mp fun hD => hnin ((hin t).mpr ⟨ht, hD⟩)
  refine ⟨fun t ht hpm => ?_, fun t ht hpm => ?_, fun t ht => ?_, fun t ht hnin => ?_, h.sameArchives,
    fun n hn => ?_⟩
  · obtain ⟨u, hu, hut, huniq⟩ := hone.kept t ht hpm
    have huD : u ∉ D := (huniq u hu hut).mpr rfl
    refine ⟨u, ⟨(hin u).mpr ⟨hu, huD⟩, (hpmMap u huD).trans hut⟩, ?_⟩
    rintro v ⟨hv, hvt⟩
    obtain ⟨hv, hvD⟩ := (hin v).mp hv
    exact (huniq v hv ((hpmMap v hvD).symm.trans hvt)).mp hvD
  · exact (hin t).mpr ⟨ht, fun hD => hpm (hone.mem t hD).2⟩
  · obtain ⟨ht, hD⟩ := (hin t).mp ht
    exact ⟨ht, hsame t hD⟩
  · have hD := hdrop t ht hnin
    constructor
    · intro n hn hmem
      exact (h.mem hmem).1 (List.mem_flatMap.mpr ⟨t, hD, mem_uncompressed.mpr hn⟩)
    · rw [h, if_neg (deleted_notMem_flatMap uncompressed_subset t),
        if_pos (List.mem_map_of_mem (f := fun t => t.metadata.deleted) hD)]
  · have hother : ∀ t ∈ D, n ∉ uncompressedFiles t.metadata ∧ n ≠ t.metadata.deleted := fun t hD =>
      hn t (hone.mem t hD).1 fun hin' => hkept t hin' hD
    rw [h, if_neg fun hf => ?_, if_neg fun hf => ?_]
    · obtain ⟨t, hD, rfl⟩ := List.mem_map.mp hf
      exact (hother t hD).2 rfl
    · obtain ⟨t, hD, hf⟩ := List.mem_flatMap.mp hf
      exact (hother t hD).1 (mem_uncompressed.mp hf)

/-- `minimize_corpus_gbl` minimizes the store. -/
theorem minimizeCorpusGbl_minimized (os : Os Place)
    (hmap : ∀ t : TcName, t.testcase ∈ gbl → t.metadata.map ∈ gbl) :
    ∃ gbl', minimizeCorpusGbl os gbl = .ok gbl' ∧ Minimized (placeholderGbl os.time) gbl gbl' := by
  obtain ⟨gbl', hrun⟩ := minimizeCorpusGbl_total os hmap
  obtain ⟨D, hdrops, hone⟩ := minimizeCorpusGbl_ok hrun
  exact ⟨gbl', hrun, hdrops.minimized hone⟩

/-- The twins, the second of which is listed first. -/
theorem minimizeCorpusGbl_twins : ∃ gbl', minimizeCorpusGbl (Os.reversed Place 0) twins = .ok gbl' ∧
    Minimized (placeholderGbl 0) twins gbl' := by
  refine minimizeCorpusGbl_minimized (Os.reversed Place 0) fun t ht => ?_
  rcases mem_twins ht with rfl | rfl <;> decide

end PMFuzz.Dedup
