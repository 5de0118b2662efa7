import PMFuzz.Dedup.FileDedup
import PMFuzz.Dedup.Local
import PMFuzz.Framework.Run

/-!
# Tombstones

A run of the operations on `@dedup`, each with its own listing orders and
its own local directories. `step_buried` is what one operation does to the
placeholders, `tombstones_permanent` what a run does.
-/

namespace PMFuzz.Dedup

open Names Str Run

/-- An operation on `@dedup` and what it gets. -/
inductive Op
  | updateGlobal (os : Os Place) (tcDir imgDir : Dir)
  | deduplicateGbl (os : Os Place) (fdedupCfg : Str) (fdedup minTc minCorpus : Bool)
  | minimizeCorpusGbl (os : Os Place)
  | minimizeCorpusLcl (os : Os Place) (loc tcDir : Dir)

/-- `@dedup` after an operation that runs to completion. -/
def step (gbl : Dir) : Op → Option Dir
  | .updateGlobal os tcDir imgDir => (updateGlobal os tcDir imgDir gbl).toOption
  | .deduplicateGbl os fdedupCfg fdedup minTc minCorpus =>
    (deduplicateGbl os fdedupCfg fdedup minTc minCorpus gbl).toOption
  | .minimizeCorpusGbl os => (minimizeCorpusGbl os gbl).toOption
  | .minimizeCorpusLcl os loc tcDir => (minimizeCorpusLcl os loc tcDir gbl).toOption.map Prod.snd

/-- The files that a placeholder stands for. -/
def buriedFiles (t : TcName) : List Str := [t.testcase, t.metadata.map, t.metadata.pmMap]

/-- No file of a deleted testcase is there. -/
def Buried (gbl : Dir) : Prop :=
  ∀ t : TcName, t.metadata.deleted ∈ gbl → ∀ n ∈ buriedFiles t, n ∉ gbl

/-! ## One operation -/

variable {gbl gbl' tcDir imgDir : Dir} {t : TcName} {n : Str}

theorem mem_values_of_buried (h : n ∈ buriedFiles t) : n ∈ t.metadata.values := by
  simp only [buriedFiles, List.mem_cons, List.not_mem_nil, or_false] at h
  rcases h with rfl | rfl | rfl <;> simp [Metadata.values, TcName.metadata]

theorem mem_family_of_buried (h : n ∈ buriedFiles t) : n ∈ t.family := by
  simp only [buriedFiles, List.mem_cons, List.not_mem_nil, or_false] at h
  rcases h with rfl | rfl | rfl <;> simp [TcName.family]

theorem ne_deleted_of_buried (h : n ∈ buriedFiles t) (u : TcName) : n ≠ u.metadata.deleted :=
  fun hn => TcName.deleted_notMem_values (hn ▸ mem_values_of_buried h)

theorem getLast?_buried (h : n ∈ buriedFiles t) : n.getLast? = some 'e' ∨ n.getLast? = some '\n' := by
  simp only [buriedFiles, List.mem_cons, List.not_mem_nil, or_false] at h
  rcases h with rfl | rfl | rfl <;> rcases t.getLast?_testcase with h | h <;>
    simp only [TcName.metadata, List.getLast?_append, h, Option.some_or, true_or, or_true]

theorem getLast?_deleted (t : TcName) : t.metadata.deleted.getLast? = some 'd' := by
  simp [TcName.metadata]

/-- The last character tells a placeholder from what is collected. -/
theorem deleted_notMem_family (t u : TcName) : t.metadata.deleted ∉ u.family := by
  intro h
  simp only [TcName.family, List.mem_cons, List.not_mem_nil, or_false] at h
  have hvalues : ∀ n ∈ u.metadata.values, t.metadata.deleted ≠ n := fun n hn hd =>
    TcName.deleted_notMem_values (hd ▸ hn)
  rcases h with h | h | h | h
  · exact hvalues _ (by simp [Metadata.values, TcName.metadata]) h
  · exact hvalues _ (by simp [Metadata.values]) h
  · exact hvalues _ (by simp [Metadata.values]) h
  · have hlast := getLast?_deleted t
    rw [h, TcName.image] at hlast
    rcases u.nl_cases with hnl | hnl <;> rw [hnl] at hlast <;> simp at hlast

theorem cmprCrashSite_ne_deleted (h : isCmprCrashSite n = true) (t : TcName) :
    n ≠ t.metadata.deleted := by
  obtain ⟨u, a, b, -, -, hn⟩ := isCmprCrashSite_iff.mp h
  intro hd
  have hlast := getLast?_deleted t
  rw [← hd, hn] at hlast
  rcases u.nl_cases with hnl | hnl <;> rw [hnl] at hlast <;> simp at hlast

/-- A name that ends otherwise is no archive's. -/
theorem endsWith_of_getLast? {x : Char} (h : n.getLast? = some x) (hx : x ≠ 'z') :
    endsWith n ".tar.gz".toList = false := by
  rw [Bool.eq_false_iff]
  intro hend
  obtain ⟨p, rfl⟩ := List.isSuffixOf_iff_suffix.mp hend
  have hz : (p ++ ".tar.gz".toList).getLast? = some 'z' := by simp
  exact hx (Option.some.inj (h.symm.trans hz))

theorem endsWith_buried (h : n ∈ buriedFiles t) : endsWith n ".tar.gz".toList = false := by
  rcases getLast?_buried h with h | h
  · exact endsWith_of_getLast? h (by decide)
  · exact endsWith_of_getLast? h (by decide)

theorem buried_subset_uncompressed (t : TcName) : buriedFiles t ⊆ uncompressed t.metadata := by
  intro n hn
  refine List.mem_filter.mpr ⟨mem_values_of_buried hn, ?_⟩
  show (!endsWith n ".tar.gz".toList) = true
  rw [endsWith_buried hn]
  rfl

theorem buried_subset_typesToDelete (t : TcName) : buriedFiles t ⊆ typesToDelete t.metadata := by
  intro n hn
  simp only [buriedFiles, List.mem_cons, List.not_mem_nil, or_false] at hn
  rcases hn with rfl | rfl | rfl <;> simp [typesToDelete, TcName.metadata]

/-- Deletions bury what they put placeholders for. -/
theorem Drops.buried {text : Bytes} {vals : Metadata → List Str} {D : List TcName}
    (hvals : ∀ u : TcName, buriedFiles u ⊆ vals u.metadata) (h : Drops text vals gbl D gbl')
    (hb : Buried gbl) : Buried gbl' := by
  intro t ht n hn hmem
  obtain ⟨hno, hold⟩ := h.mem hmem
  have hngbl : n ∈ gbl := hold.resolve_left fun hd => by
    obtain ⟨u, -, hu⟩ := List.mem_map.mp hd
    exact ne_deleted_of_buried hn u hu.symm
  rcases (h.mem ht).2 with hd | hd
  · obtain ⟨u, hu, heq⟩ := List.mem_map.mp hd
    cases TcName.deleted_inj.mp heq
    exact hno (List.mem_flatMap.mpr ⟨t, hu, hvals t hn⟩)
  · exact hb t hd n hn hngbl

theorem DropsLcl.buried {text : Bytes} {D : List TcName} (h : DropsLcl text gbl D gbl')
    (hb : Buried gbl) : Buried gbl' := by
  intro t ht n hn hmem
  have hno : n ∉ D.flatMap fun t => typesToDelete t.metadata := fun hf => h.gone n hf hmem
  have hngbl : n ∈ gbl := by
    rcases h.rest n hno with heq | ⟨hd, -⟩
    · exact (Dir.mem_congr heq).mp hmem
    · obtain ⟨u, -, hu⟩ := List.mem_map.mp hd
      exact absurd hu.symm (ne_deleted_of_buried hn u)
  rcases h.rest _ (deleted_notMem_flatMap typesToDelete_subset t) with heq | ⟨hd, -⟩
  · exact hb t ((Dir.mem_congr heq).mp ht) n hn hngbl
  · obtain ⟨u, hu, heq⟩ := List.mem_map.mp hd
    cases TcName.deleted_inj.mp heq
    exact hno (List.mem_flatMap.mpr ⟨t, hu, buried_subset_typesToDelete t hn⟩)

/-- `update_global` writes no placeholder and nothing beside one. -/
theorem Updated.buried (h : Updated tcDir imgDir gbl gbl') (hb : Buried gbl) :
    Buried gbl' ∧ ∀ t : TcName, t.metadata.deleted ∈ gbl → t.metadata.deleted ∈ gbl' := by
  have hdel : ∀ t : TcName, gbl'.lookup t.metadata.deleted = gbl.lookup t.metadata.deleted := fun t =>
    h.frame _ (fun u _ hc => deleted_notMem_family t u hc.mem_family)
      fun hs => absurd rfl (cmprCrashSite_ne_deleted hs t)
  have hmem : ∀ t : TcName, t.metadata.deleted ∈ gbl' ↔ t.metadata.deleted ∈ gbl := fun t =>
    Dir.mem_congr (hdel t)
  refine ⟨fun t ht n hn hin => ?_, fun t => (hmem t).mpr⟩
  have hframe : gbl'.lookup n = gbl.lookup n := by
    refine h.frame n (fun u hu hc => ?_) fun hs =>
      absurd (mem_family_of_buried hn) (cmprCrashSite_notMem_family hs t)
    cases TcName.eq_of_mem_family hc.mem_family (mem_family_of_buried hn)
    exact hu.not_deleted ((hmem _).mp ht)
  exact hb t ((hmem t).mp ht) n hn ((Dir.mem_congr hframe).mp hin)

/-- One operation keeps the deleted testcases buried, and their
placeholders. -/
theorem step_buried {op : Op} (hb : Buried gbl) (h : step gbl op = some gbl') :
    Buried gbl' ∧ ∀ t : TcName, t.metadata.deleted ∈ gbl → t.metadata.deleted ∈ gbl' := by
  have hgbl : ∀ {os : Os Place}, minimizeCorpusGbl os gbl = .ok gbl' →
      Buried gbl' ∧ ∀ t : TcName, t.metadata.deleted ∈ gbl → t.metadata.deleted ∈ gbl' := by
    intro os h
    obtain ⟨D, hdrops, -⟩ := minimizeCorpusGbl_ok h
    exact ⟨hdrops.buried buried_subset_uncompressed hb, fun t =>
      hdrops.deleted_mem uncompressed_subset⟩
  cases op with
  | updateGlobal os tcDir imgDir => exact (updateGlobal_ok (Fold.toOption_eq_some.mp h)).buried hb
  | deduplicateGbl os fdedupCfg fdedup minTc minCorpus =>
    rcases deduplicateGbl_ok (Fold.toOption_eq_some.mp h) with rfl | h
    · exact ⟨hb, fun _ => id⟩
    · exact hgbl h
  | minimizeCorpusGbl os => exact hgbl (Fold.toOption_eq_some.mp h)
  | minimizeCorpusLcl os loc tcDir =>
    obtain ⟨tcDir', gbl₁, hok, D, -, hdrops, -⟩ := minimizeCorpusLcl_ok os loc tcDir gbl
    rw [step, hok] at h
    cases h
    exact ⟨hdrops.buried hb, fun t => hdrops.deleted_mem⟩

/-! ## Runs -/

theorem exec_buried {ops : List Op} (hb : Buried gbl) (h : exec step gbl ops = some gbl') :
    Buried gbl' ∧ ∀ t : TcName, t.metadata.deleted ∈ gbl → t.metadata.deleted ∈ gbl' :=
  exec_inv step (I := fun d => Buried d ∧ ∀ t : TcName, t.metadata.deleted ∈ gbl →
      t.metadata.deleted ∈ d) (fun hI hs =>
    let ⟨hb', hmono⟩ := step_buried hI.1 hs
    ⟨hb', fun t ht => hmono t (hI.2 t ht)⟩) ⟨hb, fun _ => id⟩ h

theorem buried_empty : Buried ∅ := fun _ ht => absurd ht Finmap.notMem_empty

/-- In every store that operations lead to from an empty one, a placeholder
stands for files that are not there, and both stay so. -/
theorem tombstones_permanent {before after : List Op} (h : exec step ∅ before = some gbl)
    (h' : exec step gbl after = some gbl') (t : TcName) (ht : t.metadata.deleted ∈ gbl) :
    (t.testcase ∉ gbl ∧ t.metadata.map ∉ gbl ∧ t.metadata.pmMap ∉ gbl) ∧
      t.metadata.deleted ∈ gbl' ∧
      t.testcase ∉ gbl' ∧ t.metadata.map ∉ gbl' ∧ t.metadata.pmMap ∉ gbl' := by
  have hthree : ∀ {d : Dir}, (∀ n ∈ buriedFiles t, n ∉ d) →
      t.testcase ∉ d ∧ t.metadata.map ∉ d ∧ t.metadata.pmMap ∉ d := fun h =>
    ⟨h _ (by simp [buriedFiles]), h _ (by simp [buriedFiles]), h _ (by simp [buriedFiles])⟩
  have hb := (exec_buried buried_empty h).1
  obtain ⟨hb', hmono⟩ := exec_buried hb h'
  exact ⟨hthree (hb t ht), hmono t ht, hthree (hb' t (hmono t ht))⟩

/-- Two testcases with one PM map. -/
def twins : Dir :=
  [⟨tc1.testcase, [1]⟩, ⟨tc1.metadata.map, [0, 7]⟩, ⟨tc1.metadata.pmMap, [3]⟩,
    ⟨tc2.testcase, [2]⟩, ⟨tc2.metadata.map, [0, 8]⟩, ⟨tc2.metadata.pmMap, [3]⟩].toFinmap

theorem mem_twins {t : TcName} (ht : t.testcase ∈ twins) : t = tc1 ∨ t = tc2 := by
  have hhead := t.head?_testcase
  obtain ⟨b, hb⟩ := Finmap.mem_list_toFinmap _ _ |>.mp ht
  simp only [List.mem_cons, List.not_mem_nil, or_false, Sigma.mk.injEq] at hb
  rcases hb with ⟨h, -⟩ | ⟨h, -⟩ | ⟨h, -⟩ | ⟨h, -⟩ | ⟨h, -⟩ | ⟨h, -⟩
  · exact .inl (TcName.testcase_inj.mp h)
  · rw [h] at hhead; cases hhead
  · rw [h] at hhead; cases hhead
  · exact .inr (TcName.testcase_inj.mp h)
  · rw [h] at hhead; cases hhead
  · rw [h] at hhead; cases hhead

/-- Collecting the twins. -/
def collectTwins : Op :=
  .updateGlobal (Os.sorted Place 0) twins [⟨tc1.image, [4]⟩, ⟨tc2.image, [5]⟩].toFinmap

/-- The second twin is deleted, and is not collected again. -/
theorem tombstone_of_twin : ∃ gbl gbl',
    exec step ∅ [collectTwins, .minimizeCorpusGbl (Os.sorted Place 0)] = some gbl ∧
    exec step gbl [collectTwins] = some gbl' ∧
    (tc2.testcase ∉ gbl ∧ tc2.metadata.map ∉ gbl ∧ tc2.metadata.pmMap ∉ gbl) ∧
      tc2.metadata.deleted ∈ gbl' ∧
      tc2.testcase ∉ gbl' ∧ tc2.metadata.map ∉ gbl' ∧ tc2.metadata.pmMap ∉ gbl' := by
  have hdel : (exec step ∅ [collectTwins, .minimizeCorpusGbl (Os.sorted Place 0)]).map
      (fun d => decide (tc2.metadata.deleted ∈ d)) = some true := by decide +kernel
  obtain ⟨gbl, h, ht⟩ := Option.map_eq_some_iff.mp hdel
  have hsome : ((exec step ∅ [collectTwins, .minimizeCorpusGbl (Os.sorted Place 0)]).bind fun d =>
      exec step d [collectTwins]).isSome = true := by decide +kernel
  rw [h] at hsome
  obtain ⟨gbl', h'⟩ := Option.isSome_iff_exists.mp hsome
  exact ⟨gbl, gbl', h, h', tombstones_permanent h h' tc2 (of_decide_eq_true ht)⟩

end PMFuzz.Dedup
