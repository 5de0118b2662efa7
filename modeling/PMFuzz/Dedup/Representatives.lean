import PMFuzz.Dedup.FileDedup
import PMFuzz.Names.Kinds

/-!
# The representatives that the engine keeps

`DedupEngine` on paths into one directory, with the checker of exec maps or
of PM maps.

* `Naming.paths_finds`: the paths name the files of their testcases;
* `Drops.keepsOldest`: of the files with one content the first oldest is
  kept, the families of the others go, and nothing else changes;
* `runOfPaths_keepsOldest`: the engine does this.
-/

namespace PMFuzz.Dedup

open Names Str Glob

namespace DedupEngine

/-- With the path of the directory. -/
def Naming.paths : Naming := ⟨getMetadataFilesOfPath, basename⟩

/-- `run`, on paths. -/
def runOfPaths (now : ℕ) (checker : Str → Bool) (d : Dir) (testcasePaths : List Str) : Except Stop Dir :=
  runOf .paths now checker d testcasePaths

end DedupEngine

/-- The paths of files of the directory. -/
def PathsInto (dir : Str) (d : Dir) (paths : List Str) : Prop :=
  ∀ p ∈ paths, ∃ n ∈ d, '/' ∉ n ∧ p = join dir n

/-- `is_map` or `is_pm_map`. -/
def MapKind.checker : MapKind → Str → Bool
  | map => FileKind.map.accepts
  | pmMap => FileKind.pmMap.accepts

/-- `n` comes first among the oldest of the accepted files with its
content. -/
def OldestFile (accepted : List Str) (d : Dir) (n : Str) : Prop :=
  ∃ pre post a, accepted = pre ++ n :: post ∧ ancestorCnt n = .ok a ∧
    (∀ m ∈ pre, d.lookup m = d.lookup n → ∃ b, ancestorCnt m = .ok b ∧ a < b) ∧
    ∀ m ∈ post, d.lookup m = d.lookup n → ∃ b, ancestorCnt m = .ok b ∧ a ≤ b

/-- What the engine does to a directory, with the accepted files. -/
structure KeepsOldest (text : Bytes) (accepted : List Str) (d d' : Dir) : Prop where
  /-- Of the accepted files with one content one survives, the first oldest. -/
  survivor : ∀ n ∈ accepted, ∃ m ∈ accepted, OldestFile accepted d m ∧ d.lookup m = d.lookup n ∧
    ∀ m' ∈ accepted, d.lookup m' = d.lookup n → (m' ∈ d' ↔ m' = m)
  /-- The families of the others go. -/
  gone : ∀ n ∈ accepted, n ∉ d' → ∃ m, getMetadataFiles n = .ok m ∧ (∀ f ∈ m.values, f ∉ d') ∧
    d'.lookup m.deleted = some text
  /-- Those of survivors stay. -/
  kept : ∀ n ∈ accepted, n ∈ d' → ∃ m, getMetadataFiles n = .ok m ∧
    ∀ f ∈ m.names true, d'.lookup f = d.lookup f
  frame : ∀ f, (∀ n ∈ accepted, n ∉ d' → ∀ m, getMetadataFiles n = .ok m → f ∉ m.names true) →
    d'.lookup f = d.lookup f

variable {k : MapKind} {now : ℕ} {dir n f : Str} {d d' : Dir} {t u : TcName} {tcs : List TcName}
  {text : Bytes} {paths : List Str}

/-! ## Names of maps -/

theorem MapKind.getMetadataFiles_file (k : MapKind) (t : TcName) :
    getMetadataFiles (k.file t) = .ok t.metadata := by
  cases k with
  | map => exact getMetadataFiles_map t
  | pmMap => exact getMetadataFiles_pmMap t

theorem MapKind.file_mem_values (k : MapKind) (t : TcName) : k.file t ∈ t.metadata.values := by
  cases k <;> simp [MapKind.file, Metadata.values]

theorem MapKind.file_inj (h : k.file t = k.file u) : t = u :=
  TcName.eq_of_mem_values (k.file_mem_values t) (h ▸ k.file_mem_values u)

theorem MapKind.slash_notMem_file (k : MapKind) (t : TcName) : '/' ∉ k.file t :=
  slash_notMem_names (show k.file t ∈ t.metadata.names false from k.file_mem_values t)

theorem MapKind.checker_iff {p : Str} : k.checker p = true ↔ ∃ t : TcName, basename p = k.file t := by
  cases k with
  | map => exact isMap_iff
  | pmMap => exact isPmMap_iff

/-- The accepted paths are those of the maps of some testcases. -/
theorem PathsInto.exists_testcases (h : PathsInto dir d paths) (hnodup : paths.Nodup) :
    ∃ tcs : List TcName, paths.filter k.checker = tcs.map (fun t => join dir (k.file t)) ∧ tcs.Nodup ∧
      ∀ t ∈ tcs, k.file t ∈ d := by
  have hpath : ∀ p ∈ paths.filter k.checker, ∃ t : TcName, k.file t ∈ d ∧ p = join dir (k.file t) := by
    intro p hp
    obtain ⟨hp, hk⟩ := List.mem_filter.mp hp
    obtain ⟨n, hn, hslash, rfl⟩ := h p hp
    obtain ⟨t, ht⟩ := MapKind.checker_iff.mp hk
    rw [basename_path hslash] at ht
    exact ⟨t, ht ▸ hn, by rw [ht]⟩
  obtain ⟨tcs, htcs⟩ := Fold.exists_map fun p hp => (hpath p hp).imp fun _ => And.right
  refine ⟨tcs, htcs, List.Nodup.of_map _ (htcs ▸ hnodup.filter _), fun t ht => ?_⟩
  obtain ⟨u, hu, heq⟩ := hpath (join dir (k.file t)) (htcs ▸ List.mem_map_of_mem ht)
  rwa [(join_inj (k.slash_notMem_file t) (k.slash_notMem_file u)).mp heq]

/-! ## Paths and names -/

namespace DedupEngine

theorem basename_file (k : MapKind) (dir : Str) (t : TcName) : basename (join dir (k.file t)) = k.file t :=
  basename_path (k.slash_notMem_file t)

theorem getMetadataFilesOfPath_file (k : MapKind) (dir : Str) (t : TcName) :
    getMetadataFilesOfPath (join dir (k.file t)) = .ok (t.metadata.inDir (dirname (join dir (k.file t)))) := by
  refine getMetadataFilesOfPath_ok ?_
  rw [basename_file]
  exact k.getMetadataFiles_file t

theorem Naming.paths_finds (k : MapKind) (dir : Str) (t : TcName) :
    Naming.Finds .paths (fun t => join dir (k.file t)) t (t.metadata.inDir (dirname (join dir (k.file t)))) where
  metadataFiles := getMetadataFilesOfPath_file k dir t
  values := by
    show ((t.metadata.inDir _).names false).map basename = _
    rw [Metadata.names_inDir, List.map_map]
    exact (List.map_congr_left fun f hf => basename_path (slash_notMem_names hf)).trans (List.map_id _)
  deleted := basename_path (slash_notMem_names (show t.metadata.deleted ∈ t.metadata.names true from
    List.mem_cons_self))
  ancestorCnt := by
    show Names.ancestorCnt (basename (join dir (k.file t))) = _
    rw [basename_file]
    exact ancestorCnt_of (k.getMetadataFiles_file t)

end DedupEngine

/-! ## What is kept -/

/-- A file that is not a deleted testcase's stays. -/
theorem Drops.lookup_other {vals : Metadata → List Str} {D : List TcName} (h : Drops text vals d D d')
    (hvals : ∀ m, vals m ⊆ m.values) (hother : ∀ u ∈ D, f ∉ u.metadata.names true) :
    d'.lookup f = d.lookup f := by
  rw [h, if_neg fun hin => ?_, if_neg fun hin => ?_]
  · obtain ⟨u, hu, rfl⟩ := List.mem_map.mp hin
    exact hother u hu List.mem_cons_self
  · obtain ⟨u, hu, hfu⟩ := List.mem_flatMap.mp hin
    exact hother u hu (List.mem_cons_of_mem _ (hvals _ hfu))

/-- The files of a testcase that is not deleted stay. -/
theorem Drops.lookup_names {vals : Metadata → List Str} {D : List TcName} (h : Drops text vals d D d')
    (hvals : ∀ m, vals m ⊆ m.values) (ht : t ∉ D) (hf : f ∈ t.metadata.names true) :
    d'.lookup f = d.lookup f := by
  refine h.lookup_other hvals fun u hu => ?_
  have hne : t ≠ u := fun heq => ht (heq ▸ hu)
  exact List.disjoint_left.mp (names_disjoint hne) hf

open DedupEngine

/-- Deleting all but the first oldest of each content. -/
theorem Drops.keepsOldest (hnodup : tcs.Nodup) (hmem : ∀ t ∈ tcs, k.file t ∈ d)
    (h : Drops text Metadata.values d (dropped (fun t => (d.lookup (k.file t)).getD []) tcs) d') :
    KeepsOldest text (tcs.map k.file) d d' := by
  have hkey : ∀ t ∈ tcs, ∀ u ∈ tcs, d.lookup (k.file t) = d.lookup (k.file u) ↔
      (d.lookup (k.file t)).getD [] = (d.lookup (k.file u)).getD [] := by
    intro t ht u hu
    obtain ⟨b, hb⟩ := Finmap.mem_iff.mp (hmem t ht)
    obtain ⟨c, hc⟩ := Finmap.mem_iff.mp (hmem u hu)
    rw [hb, hc]
    exact Option.some_inj
  have hkept : ∀ t ∉ dropped (fun t => (d.lookup (k.file t)).getD []) tcs, ∀ f ∈ t.metadata.names true,
      d'.lookup f = d.lookup f := fun _ ht _ hf => h.lookup_names (fun _ => List.Subset.refl _) ht hf
  have hgone : ∀ t ∈ dropped (fun t => (d.lookup (k.file t)).getD []) tcs, ∀ f ∈ t.metadata.values, f ∉ d' :=
    fun t ht f hf hin => (h.mem hin).1 (List.mem_flatMap.mpr ⟨t, ht, hf⟩)
  have hin : ∀ t ∈ tcs, k.file t ∈ d' ↔ t ∉ dropped (fun t => (d.lookup (k.file t)).getD []) tcs := by
    refine fun t ht => ⟨fun hin hdrop => hgone t hdrop _ (k.file_mem_values t) hin, fun hdrop => ?_⟩
    exact (Dir.mem_congr (hkept t hdrop _ (List.mem_cons_of_mem _ (k.file_mem_values t)))).mpr (hmem t ht)
  have hcnt : ∀ t, ancestorCnt (k.file t) = .ok t.ancestors := fun t =>
    ancestorCnt_of (k.getMetadataFiles_file t)
  refine ⟨?_, ?_, ?_, ?_⟩
  · intro n hn
    obtain ⟨t, ht, rfl⟩ := List.mem_map.mp hn
    obtain ⟨u, ⟨pre, post, hsplit, hpre, hpost⟩, hut, hdrop⟩ :=
      exists_oldest (fun t => (d.lookup (k.file t)).getD []) hnodup ht
    have hu : u ∈ tcs := hsplit ▸ List.mem_append_right _ List.mem_cons_self
    have hin' : ∀ v, v ∈ pre ∨ v ∈ post → v ∈ tcs := by
      rw [hsplit]
      exact fun v hv => List.mem_append.mpr (hv.imp_right (List.mem_cons_of_mem u))
    refine ⟨k.file u, List.mem_map_of_mem hu, ?_, (hkey u hu t ht).mpr hut, fun m hm hmt => ?_⟩
    · refine ⟨pre.map k.file, post.map k.file, u.ancestors, by rw [hsplit]; simp, hcnt u, ?_, ?_⟩
      · intro m hm hmu
        obtain ⟨v, hv, rfl⟩ := List.mem_map.mp hm
        exact ⟨_, hcnt v, hpre v hv ((hkey v (hin' v (.inl hv)) u hu).mp hmu)⟩
      · intro m hm hmu
        obtain ⟨v, hv, rfl⟩ := List.mem_map.mp hm
        exact ⟨_, hcnt v, hpost v hv ((hkey v (hin' v (.inr hv)) u hu).mp hmu)⟩
    · obtain ⟨v, hv, rfl⟩ := List.mem_map.mp hm
      rw [hin v hv, hdrop v hv ((hkey v hv t ht).mp hmt), not_not]
      exact ⟨fun heq => by rw [heq], k.file_inj⟩
  · intro n hn hnin
    obtain ⟨t, ht, rfl⟩ := List.mem_map.mp hn
    rw [hin t ht, not_not] at hnin
    refine ⟨t.metadata, k.getMetadataFiles_file t, hgone t hnin, ?_⟩
    rw [h, if_neg (deleted_notMem_flatMap (fun _ => List.Subset.refl _) t),
      if_pos (List.mem_map_of_mem (f := fun t => t.metadata.deleted) hnin)]
  · intro n hn hnin
    obtain ⟨t, ht, rfl⟩ := List.mem_map.mp hn
    exact ⟨t.metadata, k.getMetadataFiles_file t, hkept t ((hin t ht).mp hnin)⟩
  · intro f hf
    exact h.lookup_other (fun _ => List.Subset.refl _) fun t ht =>
      hf _ (List.mem_map_of_mem (mem_of_dropped ht)) (hgone t ht _ (k.file_mem_values t)) _
        (k.getMetadataFiles_file t)

/-- The engine keeps the first oldest file of each content, and deletes the
others with their families. -/
theorem runOfPaths_keepsOldest (k : MapKind) (now : ℕ) (hnodup : paths.Nodup) (hinto : PathsInto dir d paths) :
    ∃ d', runOfPaths now k.checker d paths = .ok d' ∧
      KeepsOldest (placeholder now) ((paths.filter k.checker).map basename) d d' := by
  obtain ⟨tcs, hacc, hnodup, hmem⟩ := hinto.exists_testcases (k := k) hnodup
  have hfile : ∀ t, Naming.paths.file (join dir (k.file t)) = k.file t := basename_file k dir
  have hfinds : ∀ t, ∃ m, Naming.paths.Finds (fun t => join dir (k.file t)) t m := fun t =>
    ⟨_, Naming.paths_finds k dir t⟩
  have hkey : (fun t => (d.lookup (Naming.paths.file (join dir (k.file t)))).getD []) =
      fun t => (d.lookup (k.file t)).getD [] := funext fun t => by rw [hfile]
  obtain ⟨d', hrun, hdrops⟩ := runOf_ok hfinds hacc fun t ht => (hfile t).symm ▸ hmem t ht
  rw [hkey] at hdrops
  have hnames : (paths.filter k.checker).map basename = tcs.map k.file := by
    rw [hacc, List.map_map]
    exact List.map_congr_left fun t _ => basename_file k dir t
  rw [hnames]
  exact ⟨d', hrun, hdrops.keepsOldest hnodup hmem⟩

/-- Two exec maps with one content, the second of them listed first. -/
theorem keepsOldest_twoTestcases : ∃ d',
    runOfPaths 0 MapKind.map.checker twoTestcases
      ["out/map_id=2.testcase".toList, "out/map_id=1.testcase".toList] = .ok d' ∧
    KeepsOldest (placeholder 0) ["map_id=2.testcase".toList, "map_id=1.testcase".toList] twoTestcases d' := by
  have hinto : PathsInto "out".toList twoTestcases
      ["out/map_id=2.testcase".toList, "out/map_id=1.testcase".toList] := by
    intro p hp
    rcases List.mem_pair.mp hp with rfl | rfl
    · exact ⟨"map_id=2.testcase".toList, by decide, by decide, by decide⟩
    · exact ⟨"map_id=1.testcase".toList, by decide, by decide, by decide⟩
  have hacc : (["out/map_id=2.testcase".toList, "out/map_id=1.testcase".toList].filter
      MapKind.map.checker).map basename = ["map_id=2.testcase".toList, "map_id=1.testcase".toList] := by
    decide +kernel
  obtain ⟨d', hrun, hkeeps⟩ := runOfPaths_keepsOldest .map 0 (by decide) hinto
  exact ⟨d', hrun, hacc ▸ hkeeps⟩

end PMFuzz.Dedup
