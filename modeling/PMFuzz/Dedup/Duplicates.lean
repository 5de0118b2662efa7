import PMFuzz.Dedup.Minimized

/-!
# Duplicates in the global store

`_deduplicate_gbl` hands the engine the paths of the testcases, with the
checker of map names: no path passes, so nothing is ever deleted
(`fdedupGbl_ok`). What it leaves is what `minimize_corpus_gbl` makes of the store, if it is
on: of the testcases with one PM map it keeps the first that is listed
(`minimizeCorpusGbl_first`), whatever their exec maps and their ancestors are. So the
configuration gets what it asks for where there is nothing to do, or where these are
the testcases to keep (`fdedup_iff`).
-/

namespace PMFuzz.Dedup

open Names

variable {k : MapKind} {gbl gbl' mapDir : Dir} {os : Os Place} {t : TcName} {b : Bytes}

/-- The directory with the maps of the testcases. -/
structure MapDir (gbl mapDir : Dir) : Prop where
  names : ∀ n, n ∈ mapDir ↔
    ∃ t : TcName, t.testcase ∈ gbl ∧ (n = t.metadata.map ∨ n = t.metadata.pmMap ∧ n ∈ gbl)
  content : ∀ n ∈ mapDir, mapDir.lookup n = gbl.lookup n

/-- A PM map with the content of the testcase's is listed before it. -/
def Later (os : Os Place) (gbl mapDir : Dir) (t : TcName) : Prop :=
  ∃ pre post, Cmin.mapFiles os mapDir = pre ++ t.metadata.pmMap :: post ∧
    ∃ u : TcName, u.metadata.pmMap ∈ pre ∧ gbl.lookup u.metadata.pmMap = gbl.lookup t.metadata.pmMap

/-- The testcase is the first that is listed with its PM map, or has none. -/
def First (os : Os Place) (gbl : Dir) (t : TcName) : Prop := ∀ mapDir, MapDir gbl mapDir → ¬ Later os gbl mapDir t

/-- The first testcases with their PM maps are those that are to be kept. -/
def FirstsKept (os : Os Place) (gbl : Dir) : MapKind → Prop
  | .pmMap => ∀ b t, HasMap .pmMap gbl b t → First os gbl t →
    ∀ v, HasMap .pmMap gbl b v → t.ancestors ≤ v.ancestors
  | .map => ∀ b t, HasMap .map gbl b t → ∃ u, HasMap .map gbl b u ∧ First os gbl u ∧
    (∀ v, HasMap .map gbl b v → First os gbl v → v = u) ∧ ∀ v, HasMap .map gbl b v → u.ancestors ≤ v.ancestors

/-! ## The testcases that are kept -/

theorem MapDir.unique {mapDir' : Dir} (h : MapDir gbl mapDir) (h' : MapDir gbl mapDir') : mapDir' = mapDir := by
  refine Finmap.ext_lookup fun n => ?_
  have hmem : n ∈ mapDir' ↔ n ∈ mapDir := (h'.names n).trans (h.names n).symm
  by_cases hn : n ∈ mapDir
  · rw [h'.content n (hmem.mpr hn), h.content n hn]
  · rw [Finmap.lookup_eq_none.mpr hn, Finmap.lookup_eq_none.mpr (mt hmem.mp hn)]

theorem MapDir.first_iff (h : MapDir gbl mapDir) : First os gbl t ↔ ¬ Later os gbl mapDir t :=
  ⟨fun ht => ht mapDir h, fun ht _ h' => h.unique h' ▸ ht⟩

theorem Later.mem (hm : MapDir gbl mapDir) (h : Later os gbl mapDir t) : t.metadata.pmMap ∈ gbl := by
  obtain ⟨pre, post, hfiles, -⟩ := h
  have hin : t.metadata.pmMap ∈ Cmin.mapFiles os mapDir := hfiles ▸ by simp
  have hdir := os.mem_listdir.mp (List.mem_of_mem_filter hin)
  exact (Dir.mem_congr (hm.content _ hdir)).mp hdir

/-- Without a PM map it is kept. -/
theorem first_of_notMem (h : t.metadata.pmMap ∉ gbl) : First os gbl t := fun _ hm hl => h (hl.mem hm)

theorem CorpusOf.toMapDir {tcs : List TcName} {dirs : Dir × Dir} (h : CorpusOf gbl tcs dirs)
    (hmem : ∀ t, t ∈ tcs ↔ t.testcase ∈ gbl) : MapDir gbl dirs.2 where
  names n := by
    rw [h.map]
    exact exists_congr fun t => and_congr_left fun _ => hmem t
  content := h.content

theorem CorpusOf.later_iff {tcs : List TcName} {dirs : Dir × Dir} (h : CorpusOf gbl tcs dirs) :
    t.metadata.pmMap ∈ Cmin.duplicateFiles os dirs.2 ↔ Later os gbl dirs.2 t := by
  rw [Cmin.duplicateFiles, Fold.mem_tail_group Cmin.nodup_mapFiles]
  refine exists_congr fun pre => exists_congr fun post => and_congr_right fun hfiles => ?_
  have hin : ∀ n, n ∈ pre ∨ n = t.metadata.pmMap → n ∈ Cmin.mapFiles os dirs.2 := by
    intro n hn
    rw [hfiles]
    rcases hn with hn | rfl
    · exact List.mem_append_left _ hn
    · simp
  constructor
  · rintro ⟨n, hn, hkey⟩
    obtain ⟨u, rfl, -⟩ := (Cmin.mem_mapFiles h.corpus).mp (hin n (.inl hn))
    exact ⟨u, hn, (h.content_eq_iff (hin _ (.inl hn)) (hin _ (.inr rfl))).mp hkey⟩
  · rintro ⟨u, hu, hkey⟩
    exact ⟨_, hu, (h.content_eq_iff (hin _ (.inl hu)) (hin _ (.inr rfl))).mpr hkey⟩

/-- `minimize_corpus_gbl` keeps the first testcases with their PM maps. It takes exec
maps for granted. -/
theorem minimizeCorpusGbl_first (h : minimizeCorpusGbl os gbl = .ok gbl') :
    (∀ t : TcName, t.testcase ∈ gbl → t.metadata.map ∈ gbl) ∧ ∃ D : List TcName,
      Drops (placeholderGbl os.time) uncompressed gbl D gbl' ∧ AllButOne gbl D ∧
      ∀ t, t ∈ D ↔ t.testcase ∈ gbl ∧ ¬ First os gbl t := by
  obtain ⟨tcs, dirs, D, hmem, hcorpus, hdrops, hdup⟩ := minimizeCorpusGbl_drops h
  have hmap := hcorpus.toMapDir hmem
  refine ⟨fun t ht => ?_, D, hdrops, hcorpus.allButOne hmem hdup, fun t => ?_⟩
  · have hin := (hmap.names _).mpr ⟨t, ht, .inl rfl⟩
    exact (Dir.mem_congr (hmap.content _ hin)).mp hin
  · rw [hdup, hcorpus.later_iff, hmap.first_iff, not_not]

/-! ## The store afterwards -/

/-- Of the testcases with one map those of `S` are kept: one, with the fewest ancestors. -/
def KeepsOne (k : MapKind) (gbl : Dir) (S : TcName → Prop) : Prop :=
  ∀ b t, HasMap k gbl b t → ∃ u, HasMap k gbl b u ∧ S u ∧ (∀ v, HasMap k gbl b v → S v → v = u) ∧
    ∀ v, HasMap k gbl b v → u.ancestors ≤ v.ancestors

theorem deduplicated_iff {S : TcName → Prop} (hmap : ∀ b t, HasMap k gbl' b t ↔ HasMap k gbl b t ∧ S t)
    (hmem : ∀ t : TcName, t.testcase ∈ gbl' ↔ t.testcase ∈ gbl ∧ S t)
    (huntouched : ∀ t : TcName, t.testcase ∈ gbl → k.file t ∉ gbl →
      ∀ n ∈ t.metadata.values, gbl'.lookup n = gbl.lookup n) :
    Deduplicated k gbl gbl' ↔ KeepsOne k gbl S := by
  constructor
  · intro h b t ht
    obtain ⟨u, hu, hmemu, huniq, hold⟩ := h.survivor b t ht
    exact ⟨u, hu, ((hmem u).mp hmemu).2, fun v hv hS => huniq v hv ((hmem v).mpr ⟨hv.1, hS⟩), hold⟩
  · refine fun h => ⟨fun t u b ht hu => ?_, fun b t ht => ?_, huntouched⟩
    · obtain ⟨ht, htS⟩ := (hmap b t).mp ht
      obtain ⟨hu, huS⟩ := (hmap b u).mp hu
      obtain ⟨w, -, -, huniq, -⟩ := h b t ht
      rw [huniq t ht htS, huniq u hu huS]
    · obtain ⟨u, hu, huS, huniq, hold⟩ := h b t ht
      exact ⟨u, hu, (hmem u).mpr ⟨hu.1, huS⟩, fun v hv hin => huniq v hv ((hmem v).mp hin).2, hold⟩

theorem keepsOne_first_iff {D : List TcName} (hone : AllButOne gbl D)
    (hD : ∀ t, t ∈ D ↔ t.testcase ∈ gbl ∧ ¬ First os gbl t) :
    KeepsOne k gbl (First os gbl) ↔ FirstsKept os gbl k := by
  cases k with
  | map => rfl
  | pmMap =>
    constructor
    · intro h b t ht hfirst v hv
      obtain ⟨u, -, -, huniq, hold⟩ := h b t ht
      rw [huniq t ht hfirst]
      exact hold v hv
    · intro h b t ht
      obtain ⟨u, hmem, hsame, hkept⟩ := hone.kept t ht.1 (Finmap.mem_of_lookup_eq_some ht.2)
      have hu : HasMap .pmMap gbl b u := ⟨hmem, hsame.trans ht.2⟩
      have hfirst : ∀ v, HasMap .pmMap gbl b v → (First os gbl v ↔ v = u) := by
        intro v hv
        rw [← hkept v hv.1 (hv.2.trans ht.2.symm), hD, not_and, not_not]
        exact ⟨fun hf _ => hf, fun hf => hf hv.1⟩
      have hufirst := (hfirst u hu).mpr rfl
      exact ⟨u, hu, hufirst, fun v hv => (hfirst v hv).mp, h b u hu hufirst⟩

/-- What minimization leaves is deduplicated if it keeps the right testcases. -/
theorem minimized_deduplicated_iff (h : minimizeCorpusGbl os gbl = .ok gbl') :
    Deduplicated k gbl gbl' ↔ FirstsKept os gbl k := by
  obtain ⟨hmaps, D, hdrops, hone, hD⟩ := minimizeCorpusGbl_first h
  have hkept : ∀ {t : TcName}, t.testcase ∈ gbl → First os gbl t → t ∉ D := fun _ hf ht => ((hD _).mp ht).2 hf
  have hsame : ∀ {t : TcName}, t ∉ D → ∀ n ∈ buriedFiles t, gbl'.lookup n = gbl.lookup n := fun ht _ hn =>
    hdrops.lookup_kept uncompressed_subset ht hn
  have hleft : ∀ {t : TcName}, t.testcase ∈ gbl' → t ∉ D ∧ t.testcase ∈ gbl ∧ First os gbl t := by
    intro t ht
    have htD := hdrops.notMem buried_subset_uncompressed (testcase_mem_buriedFiles t) ht
    have hin := (Dir.mem_congr (hsame htD _ (testcase_mem_buriedFiles t))).mp ht
    exact ⟨htD, hin, not_not.mp fun hf => htD ((hD t).mpr ⟨hin, hf⟩)⟩
  rw [← keepsOne_first_iff hone hD]
  refine deduplicated_iff (fun b t => ⟨fun ht => ?_, fun ht => ?_⟩) (fun t => ⟨fun ht => ?_, fun ht => ?_⟩) ?_
  · obtain ⟨htD, -, hf⟩ := hleft ht.1
    exact ⟨ht.congr fun n hn => (hsame htD n hn).symm, hf⟩
  · exact ht.1.congr (hsame (hkept ht.1.1 ht.2))
  · exact (hleft ht).2
  · exact (Dir.mem_congr (hsame (hkept ht.1 ht.2) _ (testcase_mem_buriedFiles t))).mpr ht.1
  · intro t ht hfile n hn
    cases k with
    | map => exact absurd (hmaps t ht) hfile
    | pmMap =>
      exact hdrops.lookup_names uncompressed_subset (hkept ht (first_of_notMem hfile)) (List.mem_cons_of_mem _ hn)

/-! ## `_deduplicate_gbl` -/

/-- File-based deduplication does nothing. -/
theorem deduplicateGbl_fdedup (os : Os Place) (cfg : Str) (minTc minCorpus : Bool)
    (hne : ∃ t : TcName, t.testcase ∈ gbl) :
    deduplicateGbl os cfg true minTc minCorpus gbl =
      if minTc then .error (.abort "Minimizing TC doesn't make sense".toList)
      else if minCorpus then minimizeCorpusGbl os gbl
      else .ok gbl := by
  unfold deduplicateGbl
  rw [if_pos rfl, fdedupGbl_ok hne]
  rfl

/-- The store is deduplicated if it was before, or if minimization happens to keep the
right testcases. -/
theorem fdedup_iff (os : Os Place) (k : MapKind) (minTc minCorpus : Bool) (gbl : Dir)
    (hne : ∃ t : TcName, t.testcase ∈ gbl) :
    (∃ gbl', deduplicateGbl os k.cfg true minTc minCorpus gbl = .ok gbl' ∧ Deduplicated k gbl gbl') ↔
      minTc = false ∧
        if minCorpus then (∀ t : TcName, t.testcase ∈ gbl → t.metadata.map ∈ gbl) ∧ FirstsKept os gbl k
        else NoDuplicates k gbl := by
  rw [deduplicateGbl_fdedup os k.cfg minTc minCorpus hne]
  cases minTc with
  | true =>
    refine iff_of_false ?_ (fun h => absurd h.1 (by decide))
    rintro ⟨gbl', h, -⟩
    cases h
  | false =>
    rw [and_iff_right rfl]
    cases minCorpus with
    | false =>
      refine Iff.trans ⟨?_, fun hd => ⟨gbl, rfl, hd⟩⟩ deduplicated_self
      rintro ⟨gbl', h, hd⟩
      cases h
      exact hd
    | true =>
      constructor
      · rintro ⟨gbl', h, hd⟩
        exact ⟨(minimizeCorpusGbl_first h).1, (minimized_deduplicated_iff h).mp hd⟩
      · rintro ⟨hmaps, hfirst⟩
        obtain ⟨gbl', h⟩ := minimizeCorpusGbl_total os hmaps
        exact ⟨gbl', h, (minimized_deduplicated_iff h).mpr hfirst⟩

theorem fdedup_twins :
    (∃ gbl', deduplicateGbl (Os.sorted Place 0) MapKind.map.cfg true false false twins = .ok gbl' ∧
      Deduplicated .map twins gbl') ∧
    ∃ gbl', deduplicateGbl (Os.reversed Place 0) MapKind.pmMap.cfg true false true twins = .ok gbl' ∧
      Deduplicated .pmMap twins gbl' := by
  have hne : ∃ t : TcName, t.testcase ∈ twins := ⟨tc1, by decide⟩
  constructor
  · refine (fdedup_iff (Os.sorted Place 0) .map false false twins hne).mpr ⟨rfl, fun t u b ht hu => ?_⟩
    -- their exec maps differ
    have hsame := ht.2.trans hu.2.symm
    rcases mem_twins ht.1 with rfl | rfl <;> rcases mem_twins hu.1 with rfl | rfl
    · rfl
    · exact absurd hsame (by decide)
    · exact absurd hsame (by decide)
    · rfl
  · refine (fdedup_iff (Os.reversed Place 0) .pmMap false true twins hne).mpr ⟨rfl, fun t ht => ?_, ?_⟩
    · rcases mem_twins ht with rfl | rfl <;> decide
    · -- they have no ancestors
      intro b t ht _ v hv
      rcases mem_twins ht.1 with rfl | rfl <;> rcases mem_twins hv.1 with rfl | rfl <;> decide

/-- Two testcases with one exec map both stay. -/
theorem fdedup_keeps_duplicates : ¬ ∀ (os : Os Place) (k : MapKind) (minTc minCorpus : Bool) (gbl : Dir),
    (∃ t : TcName, t.testcase ∈ gbl) →
      ∃ gbl', deduplicateGbl os k.cfg true minTc minCorpus gbl = .ok gbl' ∧ Deduplicated k gbl gbl' := by
  intro h
  have hne : ∃ t : TcName, t.testcase ∈ twoTestcases := ⟨tc1, by decide⟩
  obtain ⟨gbl', hrun, hd⟩ := h (Os.sorted Place 0) .map false true twoTestcases hne
  rw [deduplicateGbl_fdedup _ _ _ _ hne] at hrun
  obtain ⟨u, -, -, huniq, -⟩ := (minimized_deduplicated_iff hrun).mp hd [0, 7] tc1 ⟨by decide, by decide⟩
  have h1 := huniq tc1 ⟨by decide, by decide⟩ (first_of_notMem (by decide))
  have h2 := huniq tc2 ⟨by decide, by decide⟩ (first_of_notMem (by decide))
  exact absurd (congrArg TcName.clean (h1.trans h2.symm)) (by decide)

end PMFuzz.Dedup
