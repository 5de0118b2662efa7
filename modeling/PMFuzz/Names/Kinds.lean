import PMFuzz.Framework.Glob
import PMFuzz.Names.Metadata

/-!
# Kinds of files

The eight kinds of files whose names have a pattern in `name_handler.py`, and
`get_metadata_files` on the paths of such files:

* `metadata_family`: on every file of a clean name it returns one table,
  which has the paths of all of them, and the tables of two clean names have
  no path in common.
* `classified_iff`: the classifiers accept the names of the grammar, and
  besides these the names with a newline after them, and the names of
  archives with other characters for the dots of `.tar.gz`.
-/

namespace PMFuzz.Names

open Str Glob

/-- `values()`, with or without the placeholder. -/
def Metadata.names (m : Metadata) (deleted : Bool) : List Str :=
  if deleted then m.deleted :: m.values else m.values

/-- What `get_metadata_files` has an entry and `name_handler.py` a pattern
for. -/
inductive FileKind
  | testcase
  | minTestcase
  | map
  | pmMap
  | crashSite
  | crashCmprSite
  | pmPool
  | pmCmprPool
  deriving DecidableEq

namespace FileKind

/-- The prefix. -/
def pre : FileKind → Str
  | map => "map_".toList
  | pmMap => "pm_map_".toList
  | _ => []

/-- The suffix. -/
def suffix : FileKind → Str
  | testcase | map | pmMap => ".testcase".toList
  | minTestcase => ".min.testcase".toList
  | crashSite => ".crash_site".toList
  | crashCmprSite => ".crash_site.tar.gz".toList
  | pmPool => ".pm_pool".toList
  | pmCmprPool => ".pm_pool.tar.gz".toList

/-- The name of the kind. -/
def name (k : FileKind) (c : Str) : Str := k.pre ++ (c ++ k.suffix)

/-- Its entry of the table. -/
def entry (k : FileKind) (m : Metadata) : Str :=
  match k with
  | testcase => m.testcase
  | minTestcase => m.minTestcase
  | map => m.map
  | pmMap => m.pmMap
  | crashSite => m.crashSite
  | crashCmprSite => m.crashCmprSite
  | pmPool => m.pmPool
  | pmCmprPool => m.pmCmprPool

/-- Its classifier, on names. -/
def classifier : FileKind → Str → Bool
  | testcase => (isTc · false)
  | minTestcase => isMinTc
  | map => isMap
  | pmMap => isPmMap
  | crashSite => isCrashSite
  | crashCmprSite => isCmprCrashSite
  | pmPool => isImg
  | pmCmprPool => isCmprImg

/-- Its classifier: `is_regex` takes the basename. -/
def accepts (k : FileKind) (filename : Str) : Bool := k.classifier (basename filename)

end FileKind

/-! ## Tables of paths -/

/-- The table with the paths of its names in `d`. -/
def Metadata.inDir (m : Metadata) (d : Str) : Metadata where
  testcase := join d m.testcase
  clean := join d m.clean
  minTestcase := join d m.minTestcase
  pmMap := join d m.pmMap
  map := join d m.map
  deleted := join d m.deleted
  crashSite := join d m.crashSite
  crashCmprSite := join d m.crashCmprSite
  pmPool := join d m.pmPool
  pmCmprPool := join d m.pmCmprPool

/-- `get_metadata_files`. -/
def getMetadataFilesOfPath (testcase : Str) : Except Stop Metadata :=
  (metadataFilesOf testcase (basename testcase)).map fun m => m.inDir (dirname testcase)

variable {c d f n : Str} {k : FileKind} {t u : TcName}

theorem Metadata.names_inDir (m : Metadata) (d : Str) (deleted : Bool) :
    (m.inDir d).names deleted = (m.names deleted).map (join d) := by
  cases deleted <;> rfl

theorem FileKind.entry_inDir (m : Metadata) : k.entry (m.inDir d) = join d (k.entry m) := by
  cases k <;> rfl

/-- The table of a path is that of its basename. -/
theorem getMetadataFilesOfPath_ok {m : Metadata} (h : getMetadataFiles (basename f) = .ok m) :
    getMetadataFilesOfPath f = .ok (m.inDir (dirname f)) := by
  have hname : metadataFilesOf f (basename f) = .ok m := by
    unfold getMetadataFiles metadataFilesOf at h
    unfold metadataFilesOf
    dsimp only at h ⊢
    split
    · rwa [if_pos ‹_›] at h
    · rw [if_neg ‹_›] at h
      cases h
  rw [getMetadataFilesOfPath, hname]
  rfl

/-- The testcase of a clean name. -/
def tcOf (c : Str) (hc : IsClean c) : TcName := ⟨c, hc, false⟩

theorem FileKind.entry_metadata (k : FileKind) (hc : IsClean c) : k.entry (tcOf c hc).metadata = k.name c := by
  have htc : (tcOf c hc).testcase = c ++ ".testcase".toList := TcName.testcase_eq rfl
  have hbare : (tcOf c hc).bare = c := TcName.bare_eq rfl
  cases k with
  | testcase => exact htc
  | minTestcase => exact congrArg (· ++ ".min.testcase".toList) hbare
  | map => exact congrArg ("map_".toList ++ ·) htc
  | pmMap => exact congrArg ("pm_map_".toList ++ ·) htc
  | crashSite => exact congrArg (· ++ ".crash_site".toList) hbare
  | crashCmprSite => exact congrArg (· ++ ".crash_site.tar.gz".toList) hbare
  | pmPool => exact congrArg (· ++ ".pm_pool".toList) hbare
  | pmCmprPool => exact congrArg (· ++ ".pm_pool.tar.gz".toList) hbare

/-- On a name of any kind. -/
theorem getMetadataFiles_name (k : FileKind) (hc : IsClean c) :
    getMetadataFiles (k.name c) = .ok (tcOf c hc).metadata := by
  rw [← k.entry_metadata hc]
  cases k with
  | testcase => exact getMetadataFiles_testcase _
  | minTestcase => exact getMetadataFiles_suffix _ rfl rfl rfl
  | map => exact getMetadataFiles_map _
  | pmMap => exact getMetadataFiles_pmMap _
  | crashSite => exact getMetadataFiles_crashSite _ rfl
  | crashCmprSite => exact getMetadataFiles_crashCmprSite _ rfl
  | pmPool => exact getMetadataFiles_pmPool _ rfl
  | pmCmprPool => exact getMetadataFiles_suffix _ rfl rfl rfl

theorem slash_notMem_names {deleted : Bool} (h : n ∈ t.metadata.names deleted) : '/' ∉ n := by
  have haround : ∀ p s : Str, '/' ∉ p → '/' ∉ s → '/' ∉ p ++ (t.clean ++ s) := by
    intro p s hp hs hmem
    rcases List.mem_append.mp hmem with hmem | hmem
    · exact hp hmem
    · rcases List.mem_append.mp hmem with hmem | hmem
      · exact t.isClean.notMem (by decide) hmem
      · exact hs hmem
  have haffixes : ∀ a ∈ TcName.affixes t.nl, '/' ∉ a.1 ∧ '/' ∉ a.2 := by
    rcases t.nl_cases with hnl | hnl <;> rw [hnl] <;> decide
  have hvalues : n ∈ t.metadata.values → '/' ∉ n := fun h => by
    rw [TcName.values_eq, List.mem_map] at h
    obtain ⟨a, ha, rfl⟩ := h
    exact haround _ _ (haffixes a ha).1 (haffixes a ha).2
  cases deleted with
  | false => exact hvalues h
  | true =>
    rcases List.mem_cons.mp h with rfl | h
    · have hsuffix : '/' ∉ t.nl ++ ".deleted".toList := by
        rcases t.nl_cases with hnl | hnl <;> rw [hnl] <;> decide
      simpa [TcName.metadata, TcName.bare] using haround [] _ List.not_mem_nil hsuffix
    · exact hvalues h

theorem slash_notMem_name (k : FileKind) (hc : IsClean c) : '/' ∉ k.name c := by
  have hmem : k.entry (tcOf c hc).metadata ∈ (tcOf c hc).metadata.names false := by
    cases k <;> simp [Metadata.names, Metadata.values, FileKind.entry]
  rw [← k.entry_metadata hc]
  exact slash_notMem_names hmem

theorem names_disjoint (h : t ≠ u) : List.Disjoint (t.metadata.names true) (u.metadata.names true) := by
  refine List.disjoint_left.mpr fun n ht hu => ?_
  rcases List.mem_cons.mp ht with hdel | ht <;> rcases List.mem_cons.mp hu with hdel' | hu
  · exact h (TcName.deleted_inj.mp (hdel.symm.trans hdel'))
  · exact TcName.deleted_notMem_values (hdel ▸ hu)
  · exact TcName.deleted_notMem_values (hdel' ▸ ht)
  · exact h (TcName.eq_of_mem_values ht hu)

/-- The files of a clean name, in a directory. -/
theorem metadata_family (hd : d.getLast? ≠ some '/') (hc : IsClean c) : ∃ m : Metadata,
    (∀ k : FileKind, getMetadataFilesOfPath (join d (k.name c)) = .ok m) ∧
    (∀ k : FileKind, k.entry m = join d (k.name c)) ∧ m.clean = join d c ∧
    m.deleted = join d (c ++ ".deleted".toList) ∧
    ∀ c' m', IsClean c' → c' ≠ c → (∃ k : FileKind, getMetadataFilesOfPath (join d (k.name c')) = .ok m') →
      List.Disjoint (m.names true) (m'.names true) := by
  have htable : ∀ {c} (hc : IsClean c) (k : FileKind),
      getMetadataFilesOfPath (join d (k.name c)) = .ok ((tcOf c hc).metadata.inDir d) := by
    intro c hc k
    have h : getMetadataFiles (basename (join d (k.name c))) = .ok (tcOf c hc).metadata := by
      rw [basename_path (slash_notMem_name k hc), getMetadataFiles_name k hc]
    rw [getMetadataFilesOfPath_ok h, dirname_path hd (slash_notMem_name k hc)]
  have hbare : (tcOf c hc).bare = c := TcName.bare_eq rfl
  refine ⟨_, htable hc, fun k => ?_, ?_, ?_, ?_⟩
  · rw [FileKind.entry_inDir, FileKind.entry_metadata]
  · exact congrArg (join d) hbare
  · exact congrArg (fun b => join d (b ++ ".deleted".toList)) hbare
  · rintro c' m' hc' hne ⟨k, hk⟩
    cases (htable hc' k).symm.trans hk
    rw [Metadata.names_inDir, Metadata.names_inDir]
    refine List.disjoint_left.mpr fun n hn hn' => ?_
    obtain ⟨x, hx, rfl⟩ := List.mem_map.mp hn
    obtain ⟨y, hy, hxy⟩ := List.mem_map.mp hn'
    obtain rfl := (join_inj (slash_notMem_names hy) (slash_notMem_names hx)).mp hxy
    have htu : tcOf c hc ≠ tcOf c' hc' := fun h => hne (congrArg TcName.clean h).symm
    exact List.disjoint_left.mp (names_disjoint htu) hx hy

theorem metadata_family_root : ∃ m : Metadata,
    (∀ k : FileKind, getMetadataFilesOfPath (join "/a".toList (k.name "id=1".toList)) = .ok m) ∧
      m.map = "/a/map_id=1.testcase".toList := by
  have hdigits : IsDigits "1".toList := by decide
  have hdir : "/a".toList.getLast? ≠ some '/' := by decide
  obtain ⟨m, htable, hentry, -⟩ := metadata_family (c := "id=1".toList) hdir (.root hdigits)
  refine ⟨m, htable, (hentry .map).trans ?_⟩
  decide

/-! ## What the classifiers accept -/

namespace FileKind

/-- What the suffix of an archive has before `.tar.gz`. -/
def archive : FileKind → Option Str
  | crashCmprSite => some ".crash_site".toList
  | pmCmprPool => some ".pm_pool".toList
  | _ => none

/-- The texts that the pattern has after the clean name. -/
inductive Matches (k : FileKind) : Str → Prop
  | suffix {nl : Str} (hnl : nl = [] ∨ nl = ['\n']) : Matches k (k.suffix ++ nl)
  | archive {stem nl : Str} {a b : Char} (hstem : k.archive = some stem) (ha : a ≠ '\n') (hb : b ≠ '\n')
      (hnl : nl = [] ∨ nl = ['\n']) :
      Matches k (stem ++ a :: ("tar".toList ++ b :: "gz".toList) ++ nl)

end FileKind

/-- A name of the grammar with a newline after it, or the name of an archive
with another character for a dot of `.tar.gz`. -/
inductive Misspelt : Str → Prop
  | newline (k : FileKind) {c : Str} (hc : IsClean c) : Misspelt (k.name c ++ ['\n'])
  | dots (k : FileKind) {c stem nl : Str} {a b : Char} (hc : IsClean c) (hstem : k.archive = some stem)
      (ha : a ≠ '\n') (hb : b ≠ '\n') (hdots : ¬ (a = '.' ∧ b = '.')) (hnl : nl = [] ∨ nl = ['\n']) :
      Misspelt (c ++ (stem ++ a :: ("tar".toList ++ b :: "gz".toList) ++ nl))

/-- The classifiers on a path go by the grammar. -/
structure Classified (f : Str) : Prop where
  exact : ∀ k : FileKind, k.accepts f = true ↔ ∃ c, IsClean c ∧ basename f = k.name c
  unique : ∀ k k' : FileKind, k.accepts f = true → k'.accepts f = true → k = k'
  listed : ∀ k : FileKind, k.accepts f = true →
    ∃ m, getMetadataFilesOfPath f = .ok m ∧ k.entry m = join (dirname f) (basename f)

theorem exists_tcName {P : Str → Str → Prop} : (∃ t : TcName, P t.clean t.nl) ↔
    ∃ c nl, IsClean c ∧ (nl = [] ∨ nl = ['\n']) ∧ P c nl := by
  constructor
  · rintro ⟨t, h⟩
    exact ⟨t.clean, t.nl, t.isClean, t.nl_cases, h⟩
  · rintro ⟨c, nl, hc, rfl | rfl, h⟩
    · exact ⟨⟨c, hc, false⟩, h⟩
    · exact ⟨⟨c, hc, true⟩, h⟩

namespace FileKind

theorem archive_suffix {stem : Str} (h : k.archive = some stem) :
    k.pre = [] ∧ k.suffix = stem ++ '.' :: ("tar".toList ++ '.' :: "gz".toList) := by
  cases k with
  | crashCmprSite | pmCmprPool =>
    cases h
    exact ⟨rfl, rfl⟩
  | _ => cases h

/-- A pattern with a fixed suffix. -/
theorem matches_text (hk : k.archive = none) : (∃ t : TcName, n = k.pre ++ (t.clean ++ (k.suffix ++ t.nl))) ↔
    ∃ c s, IsClean c ∧ k.Matches s ∧ n = k.pre ++ (c ++ s) := by
  rw [exists_tcName (P := fun c nl => n = k.pre ++ (c ++ (k.suffix ++ nl)))]
  constructor
  · rintro ⟨c, nl, hc, hnl, rfl⟩
    exact ⟨c, _, hc, .suffix hnl, rfl⟩
  · rintro ⟨c, s, hc, hs, rfl⟩
    cases hs with
    | suffix hnl => exact ⟨c, _, hc, hnl, rfl⟩
    | archive hstem => rw [hk] at hstem; cases hstem

/-- The pattern of an archive. -/
theorem matches_archive {stem : Str} (hk : k.archive = some stem) :
    (∃ t : TcName, ∃ a b, a ≠ '\n' ∧ b ≠ '\n' ∧
      n = t.clean ++ (stem ++ a :: ("tar".toList ++ b :: "gz".toList) ++ t.nl)) ↔
    ∃ c s, IsClean c ∧ k.Matches s ∧ n = k.pre ++ (c ++ s) := by
  obtain ⟨hpre, hsuffix⟩ := archive_suffix hk
  rw [hpre, exists_tcName (P := fun c nl => ∃ a b, a ≠ '\n' ∧ b ≠ '\n' ∧
    n = c ++ (stem ++ a :: ("tar".toList ++ b :: "gz".toList) ++ nl))]
  constructor
  · rintro ⟨c, nl, hc, hnl, a, b, ha, hb, rfl⟩
    exact ⟨c, _, hc, .archive hk ha hb hnl, rfl⟩
  · rintro ⟨c, s, hc, hs, rfl⟩
    cases hs with
    | suffix hnl => exact ⟨c, _, hc, hnl, '.', '.', by decide, by decide, by rw [hsuffix]; rfl⟩
    | archive hstem ha hb hnl =>
      cases hk.symm.trans hstem
      exact ⟨c, _, hc, hnl, _, _, ha, hb, rfl⟩

theorem classifier_iff (k : FileKind) (n : Str) : k.classifier n = true ↔
    ∃ c s, IsClean c ∧ k.Matches s ∧ n = k.pre ++ (c ++ s) := by
  cases k with
  | testcase => exact isTc_iff.trans (matches_text (k := testcase) rfl)
  | minTestcase => exact isMinTc_iff.trans (matches_text (k := minTestcase) rfl)
  | map => exact isMap_iff.trans (matches_text (k := map) rfl)
  | pmMap => exact isPmMap_iff.trans (matches_text (k := pmMap) rfl)
  | crashSite => exact isCrashSite_iff.trans (matches_text (k := crashSite) rfl)
  | crashCmprSite => exact isCmprCrashSite_iff.trans (matches_archive (k := crashCmprSite) rfl)
  | pmPool => exact isImg_iff.trans (matches_text (k := pmPool) rfl)
  | pmCmprPool => exact isCmprImg_iff.trans (matches_archive (k := pmCmprPool) rfl)

theorem pre_mem (k : FileKind) : k.pre ∈ prefixes := by cases k <;> decide

/-- Two characters and the length tell the suffixes apart. -/
theorem Matches.shape {s : Str} (h : k.Matches s) : s.take 2 = k.suffix.take 2 ∧ Ends s ∧
    k.suffix.length ≤ s.length ∧ s.length ≤ k.suffix.length + 1 := by
  cases h with
  | suffix hnl =>
    rcases hnl with rfl | rfl <;> cases k <;> decide
  | @archive stem nl a b hstem ha hb hnl =>
    have hm : ¬ cleanChar 'c' ∧ ¬ cleanChar 'p' ∧ cleanChar '.' := by decide
    cases k with
    | crashCmprSite =>
      cases hstem
      have hsuffix : FileKind.suffix crashCmprSite = ".crash_site.tar.gz".toList := rfl
      rcases hnl with rfl | rfl <;> simp [Ends, hsuffix, hm]
    | pmCmprPool =>
      cases hstem
      have hsuffix : FileKind.suffix pmCmprPool = ".pm_pool.tar.gz".toList := rfl
      rcases hnl with rfl | rfl <;> simp [Ends, hsuffix, hm]
    | _ => cases hstem

theorem eq_of_shape (k k' : FileKind) : k.pre = k'.pre → k.suffix.take 2 = k'.suffix.take 2 →
    k.suffix.length ≤ k'.suffix.length + 1 → k'.suffix.length ≤ k.suffix.length + 1 → k = k' := by
  cases k <;> cases k' <;> decide

/-- No name is of two kinds. -/
theorem classifier_unique {k k' : FileKind} (h : k.classifier n = true) (h' : k'.classifier n = true) :
    k = k' := by
  obtain ⟨c, s, hc, hs, rfl⟩ := (classifier_iff k n).mp h
  obtain ⟨c', s', hc', hs', heq⟩ := (classifier_iff k' _).mp h'
  obtain ⟨htake, hends, hle, hge⟩ := hs.shape
  obtain ⟨htake', hends', hle', hge'⟩ := hs'.shape
  obtain ⟨hpre, -, rfl⟩ := affixes_inj k.pre_mem k'.pre_mem hc hc' hends hends' heq
  exact eq_of_shape k k' hpre (htake.symm.trans htake') (by omega) (by omega)

/-- A name that the pattern matches is of the grammar or misspelt. -/
theorem exact_or_misspelt (h : k.classifier n = true) :
    (∃ c, IsClean c ∧ n = k.name c) ∨ Misspelt n := by
  obtain ⟨c, s, hc, hs, rfl⟩ := (classifier_iff k n).mp h
  have hsuffix : ∀ {nl : Str}, nl = [] ∨ nl = ['\n'] →
      (∃ c', IsClean c' ∧ k.pre ++ (c ++ (k.suffix ++ nl)) = k.name c') ∨
        Misspelt (k.pre ++ (c ++ (k.suffix ++ nl))) := by
    rintro nl (rfl | rfl)
    · exact .inl ⟨c, hc, by rw [List.append_nil]; rfl⟩
    · have := Misspelt.newline k hc
      rw [name, List.append_assoc, List.append_assoc] at this
      exact .inr this
  cases hs with
  | suffix hnl => exact hsuffix hnl
  | @archive stem nl a b hstem ha hb hnl =>
    obtain ⟨hpre, heq⟩ := archive_suffix hstem
    by_cases hdots : a = '.' ∧ b = '.'
    · obtain ⟨rfl, rfl⟩ := hdots
      rw [← heq]
      exact hsuffix hnl
    · rw [hpre]
      exact .inr (.dots k hc hstem ha hb hdots hnl)

theorem classifier_name (k : FileKind) (hc : IsClean c) : k.classifier (k.name c) = true := by
  refine (classifier_iff k _).mpr ⟨c, k.suffix, hc, ?_, rfl⟩
  have := Matches.suffix (k := k) (.inl rfl)
  rwa [List.append_nil] at this

end FileKind

/-- A misspelt name is accepted, and is none of the grammar. -/
theorem Misspelt.accepted (h : Misspelt n) :
    ∃ k : FileKind, k.classifier n = true ∧ ∀ c, IsClean c → n ≠ k.name c := by
  -- the text after the clean name is not the suffix
  have hne : ∀ {k : FileKind} {c s : Str}, IsClean c → k.Matches s → s ≠ k.suffix →
      k.classifier (k.pre ++ (c ++ s)) = true ∧ ∀ c', IsClean c' → k.pre ++ (c ++ s) ≠ k.name c' := by
    intro k c s hc hs hsuffix
    refine ⟨(k.classifier_iff _).mpr ⟨c, s, hc, hs, rfl⟩, fun c' hc' heq => ?_⟩
    have hends : Ends k.suffix := by cases k <;> decide
    exact hsuffix (affixes_inj k.pre_mem k.pre_mem hc hc' hs.shape.2.1 hends heq).2.2
  cases h with
  | @newline k c hc =>
    rw [FileKind.name, List.append_assoc, List.append_assoc]
    exact ⟨k, hne hc (.suffix (.inr rfl)) (by simp)⟩
  | @dots k c stem nl a b hc hstem ha hb hdots hnl =>
    obtain ⟨hpre, hsuffix⟩ := FileKind.archive_suffix hstem
    have hnot : stem ++ a :: ("tar".toList ++ b :: "gz".toList) ++ nl ≠ k.suffix := by
      rw [hsuffix, List.append_assoc, Ne, List.append_right_inj, List.cons_append, List.cons.injEq,
        List.append_assoc, List.append_right_inj, List.cons_append, List.cons.injEq]
      exact fun ⟨ha, hb, _⟩ => hdots ⟨ha, hb⟩
    have := hne hc (.archive hstem ha hb hnl) hnot
    rw [hpre] at this
    exact ⟨k, this⟩

/-- The classifiers go by the grammar on the paths whose basename is not
misspelt. -/
theorem classified_iff (f : Str) : Classified f ↔ ¬ Misspelt (basename f) := by
  constructor
  · intro h hmis
    obtain ⟨k, hacc, hnot⟩ := hmis.accepted
    obtain ⟨c, hc, heq⟩ := (h.exact k).mp hacc
    exact hnot c hc heq
  · intro h
    have hexact : ∀ k : FileKind, k.accepts f = true → ∃ c, IsClean c ∧ basename f = k.name c :=
      fun k hacc => (FileKind.exact_or_misspelt hacc).resolve_right h
    refine ⟨fun k => ⟨hexact k, ?_⟩, fun k k' hk hk' => FileKind.classifier_unique hk hk', fun k hk => ?_⟩
    · rintro ⟨c, hc, heq⟩
      rw [FileKind.accepts, heq]
      exact k.classifier_name hc
    · obtain ⟨c, hc, heq⟩ := hexact k hk
      have hmeta : getMetadataFiles (basename f) = .ok (tcOf c hc).metadata := by
        rw [heq, getMetadataFiles_name k hc]
      exact ⟨_, getMetadataFilesOfPath_ok hmeta, by rw [FileKind.entry_inDir, FileKind.entry_metadata, heq]⟩

/-- An archive with another character for a dot. -/
theorem dots_accepted : ¬ ∀ f, Classified f := by
  intro h
  have hmis : Misspelt "id=1.crash_siteXtar.gz".toList := by
    have hdigits : IsDigits "1".toList := by decide
    exact @Misspelt.dots .crashCmprSite _ _ [] 'X' '.' (.root hdigits) rfl (by decide) (by decide)
      (by decide) (.inl rfl)
  refine (classified_iff "id=1.crash_siteXtar.gz".toList).mp (h _) ?_
  rw [basename_of_notMem (by decide)]
  exact hmis

end PMFuzz.Names
