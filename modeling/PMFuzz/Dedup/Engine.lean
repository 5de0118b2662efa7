import PMFuzz.Framework.Dir
import PMFuzz.Names.Metadata
import Mathlib.Data.List.InsertIdx

/-!
# The deduplication engine

`DedupEngine` groups the files its checker accepts by their SHA-256 sum,
keeps the first member with the fewest ancestors of each group and deletes
the others with all their metadata, leaving a placeholder. SHA-256 is taken
as free of collisions: the sum of a file is its content.

`Drops` is what a deletion does to a directory, and `runOf_ok` what the engine
does (`Dropped` are the members it deletes).
-/

namespace PMFuzz.Dedup

open Names

/-- The content of a file that is opened for reading. -/
def read (d : Dir) (name : Str) : Except Stop Bytes :=
  match d.lookup name with
  | some b => .ok b
  | none => .error (.fileNotFound name)

/-- `copypreserve`. -/
def copypreserve (src : Dir) (name : Str) (dst : Dir) (dest : Str) : Except Stop Dir := do
  let b ← read src name
  return Finmap.insert dest b dst

/-- `sha256sum`. -/
def sha256sum (d : Dir) (name : Str) : Except Stop Bytes := read d name

/-- What the placeholder holds. -/
def placeholder (now : ℕ) : Bytes :=
  Bytes.ofStr ("Deleted at epoch=".toList ++ Nat.toDigits 10 now)

namespace DedupEngine

/-- How the files of a directory are named: what `get_metadata_files` returns
on a name, and the file that it stands for. -/
structure Naming where
  metadataFiles : Str → Except Stop Metadata
  file : Str → Str

/-- Without the directory. -/
def Naming.names : Naming := ⟨getMetadataFiles, id⟩

/-- `_delete_tcs`. -/
def deleteTcsOf (naming : Naming) (now : ℕ) (d : Dir) (testcases : List Str) : Except Stop Dir := do
  let (deleteQ, d) ← testcases.foldlM (fun (deleteQ, d) testcase => do
    let metadataFiles ← naming.metadataFiles testcase
    return (deleteQ ++ metadataFiles.values,
      Finmap.insert (naming.file metadataFiles.deleted) (placeholder now) d)) (([], d) : List Str × Dir)
  return d.removeAll (deleteQ.map naming.file)

/-- `ancestor_cnts.index(min(ancestor_cnts))`. -/
def minIndx (ancestorCnts : List ℕ) : Except Stop ℕ :=
  match ancestorCnts.min? with
  | some m => .ok (ancestorCnts.idxOf m)
  | none => .error .valueError

/-- `run`. -/
def runOf (naming : Naming) (now : ℕ) (checker : Str → Bool) (d : Dir) (testcasePaths : List Str) :
    Except Stop Dir := do
  let testcases := testcasePaths.filter checker
  let hashMap ← testcases.foldlM (fun hashMap tc => do
    let sum ← sha256sum d (naming.file tc)
    return Fold.insertGroup hashMap sum tc) []
  hashMap.foldlM (fun d entry => do
    let ancestorCnts ← entry.2.mapM fun f => ancestorCnt (naming.file f)
    let indx ← minIndx ancestorCnts
    deleteTcsOf naming now d (entry.2.eraseIdx indx)) d

/-- `run`, on names. -/
def run (now : ℕ) (checker : Str → Bool) (d : Dir) (testcasePaths : List Str) : Except Stop Dir :=
  runOf .names now checker d testcasePaths

end DedupEngine

/-! ## Deletions -/

/-- `d'` is `d` without the files `vals` of the testcases `D`, and with
their placeholders. -/
def Drops (text : Bytes) (vals : Metadata → List Str) (d : Dir) (D : List TcName) (d' : Dir) : Prop :=
  ∀ n, d'.lookup n =
    if n ∈ D.flatMap fun t => vals t.metadata then none
    else if n ∈ D.map fun t => t.metadata.deleted then some text
    else d.lookup n

section Drops

variable {text : Bytes} {vals : Metadata → List Str} {d d₁ d₂ : Dir} {D D₁ D₂ : List TcName}

theorem Drops.nil : Drops text vals d [] d := fun _ => rfl

theorem deleted_notMem_flatMap (hvals : ∀ m, vals m ⊆ m.values) (t : TcName) :
    t.metadata.deleted ∉ D.flatMap fun t => vals t.metadata := by
  intro h
  obtain ⟨u, -, hu⟩ := List.mem_flatMap.mp h
  exact TcName.deleted_notMem_values (hvals _ hu)

theorem Drops.trans (hvals : ∀ m, vals m ⊆ m.values) (h₁ : Drops text vals d D₁ d₁)
    (h₂ : Drops text vals d₁ D₂ d₂) : Drops text vals d (D₁ ++ D₂) d₂ := by
  intro n
  rw [h₂ n, h₁ n, List.flatMap_append, List.map_append]
  by_cases h : n ∈ D₂.map fun t => t.metadata.deleted
  · obtain ⟨t, -, rfl⟩ := List.mem_map.mp h
    have h1 := deleted_notMem_flatMap (D := D₁) hvals t
    have h2 := deleted_notMem_flatMap (D := D₂) hvals t
    simp only [List.mem_append, h1, h2, h, or_false, or_true, ↓reduceIte]
  · simp only [List.mem_append, h, or_false, ↓reduceIte]
    by_cases h1 : n ∈ D₁.flatMap fun t => vals t.metadata <;>
      by_cases h2 : n ∈ D₂.flatMap fun t => vals t.metadata <;> simp only [h1, h2, or_true, or_false,
        or_self, ↓reduceIte]

/-- The files of one testcase go, and its placeholder comes. -/
theorem Drops.single (hvals : ∀ m, vals m ⊆ m.values) (t : TcName) :
    Drops text vals d [t] (Finmap.insert t.metadata.deleted text (d.removeAll (vals t.metadata))) := by
  intro n
  rw [Dir.lookup_insert, Dir.lookup_removeAll]
  simp only [List.flatMap_cons, List.flatMap_nil, List.append_nil, List.map_cons, List.map_nil,
    List.mem_singleton]
  by_cases hn : n = t.metadata.deleted
  · have : n ∉ vals t.metadata := fun h => TcName.deleted_notMem_values (hn ▸ hvals _ h)
    simp only [hn, ↓reduceIte]
    rw [← hn, if_neg this]
  · simp only [hn, ↓reduceIte]

/-- A tombstone stays. -/
theorem Drops.deleted_mem (hvals : ∀ m, vals m ⊆ m.values) (h : Drops text vals d D d₁) {t : TcName}
    (ht : t.metadata.deleted ∈ d) : t.metadata.deleted ∈ d₁ := by
  rw [← Finmap.lookup_isSome, h, if_neg (deleted_notMem_flatMap hvals t)]
  split
  · rfl
  · exact Finmap.lookup_isSome.mpr ht

/-- Only placeholders are new. -/
theorem Drops.mem (h : Drops text vals d D d₁) {n : Str} (hn : n ∈ d₁) :
    n ∉ D.flatMap (fun t => vals t.metadata) ∧ (n ∈ D.map (fun t => t.metadata.deleted) ∨ n ∈ d) := by
  rw [← Finmap.lookup_isSome, h] at hn
  split at hn
  · cases hn
  · rename_i hno
    split at hn
    · rename_i hd; exact ⟨hno, .inl hd⟩
    · exact ⟨hno, .inr (Finmap.lookup_isSome.mp hn)⟩

end Drops

/-! ## The engine -/

namespace DedupEngine

variable {now : ℕ} {d d' : Dir} {nm : TcName → Str} {naming : Naming}

/-- `nm t` is a name of a file of `t`. -/
structure Naming.Finds (naming : Naming) (nm : TcName → Str) (t : TcName) (m : Metadata) : Prop where
  metadataFiles : naming.metadataFiles (nm t) = .ok m
  values : m.values.map naming.file = t.metadata.values
  deleted : naming.file m.deleted = t.metadata.deleted
  ancestorCnt : ancestorCnt (naming.file (nm t)) = .ok t.ancestors

theorem Naming.names_finds (hnm : ∀ t, getMetadataFiles (nm t) = .ok t.metadata) (t : TcName) :
    names.Finds nm t t.metadata :=
  ⟨hnm t, List.map_id _, rfl, ancestorCnt_of (hnm t)⟩

/-- `_delete_tcs` on files of testcases. -/
theorem deleteTcsOf_ok (now : ℕ) (d : Dir) (hnm : ∀ t, ∃ m, naming.Finds nm t m) (D : List TcName) :
    ∃ d', deleteTcsOf naming now d (D.map nm) = .ok d' ∧
      Drops (placeholder now) Metadata.values d D d' := by
  have hloop : ∀ (D : List TcName) (q : List Str) (d : Dir), ∃ q' d₁,
      (D.map nm).foldlM (fun (x : List Str × Dir) testcase => do
          let metadataFiles ← naming.metadataFiles testcase
          return (x.1 ++ metadataFiles.values,
            Finmap.insert (naming.file metadataFiles.deleted) (placeholder now) x.2)) (q, d) = .ok (q', d₁) ∧
      q'.map naming.file = q.map naming.file ++ D.flatMap (fun t => t.metadata.values) ∧
      ∀ n, d₁.lookup n = if n ∈ D.map fun t => t.metadata.deleted then some (placeholder now)
        else d.lookup n := by
    intro D
    induction D with
    | nil => exact fun q d => ⟨q, d, rfl, (List.append_nil _).symm, fun n => rfl⟩
    | cons t D ih =>
      intro q d
      obtain ⟨m, hm⟩ := hnm t
      obtain ⟨q', d₁, hd₁, hq, hl⟩ := ih (q ++ m.values)
        (Finmap.insert (naming.file m.deleted) (placeholder now) d)
      refine ⟨q', d₁, ?_, ?_, fun n => ?_⟩
      · rw [List.map_cons, Fold.foldlM_cons_eq_ok]
        exact ⟨_, by rw [hm.metadataFiles]; rfl, hd₁⟩
      · rw [hq, List.map_append, hm.values, List.flatMap_cons, List.append_assoc]
      · rw [hl, Dir.lookup_insert, List.map_cons, hm.deleted]
        by_cases hn : n = t.metadata.deleted
        · rw [if_pos hn, if_pos (List.mem_cons.mpr (.inl hn)), ite_self]
        · simp only [List.mem_cons, hn, false_or, ↓reduceIte]
  obtain ⟨q', d₁, hd₁, hq, hl⟩ := hloop D [] d
  refine ⟨d₁.removeAll (q'.map naming.file), ?_, fun n => ?_⟩
  · unfold deleteTcsOf
    rw [Fold.bind_eq_ok]
    exact ⟨_, hd₁, rfl⟩
  · rw [Dir.lookup_removeAll, hq, List.map_nil, List.nil_append, hl]

/-- The index of the member that is kept: the first with the fewest
ancestors. -/
def survivorIdx (tcs : List TcName) : ℕ :=
  (tcs.map TcName.ancestors).idxOf ((tcs.map TcName.ancestors).min?.getD 0)

/-- The members deleted, of the groups of equal content. -/
def dropped (key : TcName → Bytes) (tcs : List TcName) : List TcName :=
  (Fold.group key tcs).flatMap fun entry => entry.2.eraseIdx (survivorIdx entry.2)

/-- The member of a group that is kept. -/
theorem eraseIdx_survivorIdx {tcs : List TcName} (hne : tcs ≠ []) : ∃ pre u post,
    tcs = pre ++ u :: post ∧ tcs.eraseIdx (survivorIdx tcs) = pre ++ post ∧
      (∀ v ∈ pre, u.ancestors < v.ancestors) ∧ ∀ v ∈ post, u.ancestors ≤ v.ancestors := by
  have hne' : tcs.map TcName.ancestors ≠ [] := by simpa using hne
  obtain ⟨m, hm⟩ := Option.isSome_iff_exists.mp (List.isSome_min?_of_ne_nil hne')
  obtain ⟨hmem, hle⟩ := List.min?_eq_some_iff.mp hm
  have hle : ∀ v ∈ tcs, m ≤ v.ancestors := fun v hv => hle _ (List.mem_map_of_mem hv)
  obtain ⟨as, bs, hsplit, hnot⟩ := List.eq_append_cons_of_mem hmem
  have hidx : survivorIdx tcs = as.length := by
    rw [survivorIdx, hm, hsplit]
    show (as ++ m :: bs).idxOf m = _
    rw [List.idxOf_append, if_neg hnot, List.idxOf_cons_self, Nat.zero_add]
  obtain ⟨pre, rest, rfl, rfl, hrest⟩ := List.map_eq_append_iff.mp hsplit
  obtain ⟨u, post, rfl, hu, -⟩ := List.map_eq_cons_iff.mp hrest
  refine ⟨pre, u, post, rfl, ?_, fun v hv => ?_, fun v hv => ?_⟩
  · rw [hidx, List.length_map, List.eraseIdx_append_of_length_le (Nat.le_refl _), Nat.sub_self,
      List.eraseIdx_cons_zero]
  · have hvm : v.ancestors ≠ m := fun heq => hnot (heq ▸ List.mem_map_of_mem hv)
    have := hle v (List.mem_append_left _ hv)
    omega
  · rw [hu]
    exact hle v (List.mem_append_right _ (List.mem_cons_of_mem u hv))

/-- The first of the testcases with the content of `u` that have the fewest
ancestors is `u`. -/
def Oldest (key : TcName → Bytes) (tcs : List TcName) (u : TcName) : Prop :=
  ∃ pre post, tcs = pre ++ u :: post ∧ (∀ v ∈ pre, key v = key u → u.ancestors < v.ancestors) ∧
    ∀ v ∈ post, key v = key u → u.ancestors ≤ v.ancestors

theorem mem_of_dropped {key : TcName → Bytes} {tcs : List TcName} {t : TcName}
    (h : t ∈ dropped key tcs) : t ∈ tcs := by
  obtain ⟨e, he, ht⟩ := List.mem_flatMap.mp h
  have hmem := List.mem_of_mem_eraseIdx ht
  rw [(Fold.group_groups key tcs).eq_filter e he] at hmem
  exact List.mem_of_mem_filter hmem

/-- Of each content one member is kept, the first oldest. -/
theorem exists_oldest (key : TcName → Bytes) {tcs : List TcName} (hnodup : tcs.Nodup) {t : TcName}
    (ht : t ∈ tcs) : ∃ u, Oldest key tcs u ∧ key u = key t ∧
      ∀ v ∈ tcs, key v = key t → (v ∈ dropped key tcs ↔ v ≠ u) := by
  have hg := Fold.group_groups key tcs
  obtain ⟨e, he, hkey⟩ := List.mem_map.mp (hg.covers t ht)
  have hfilter := hg.eq_filter e he
  have hmem : ∀ v, v ∈ e.2 ↔ v ∈ tcs ∧ key v = key t := fun v => by
    rw [hfilter, List.mem_filter, hkey, decide_eq_true_eq]
  obtain ⟨pre, u, post, hsplit, herase, hpre, hpost⟩ := eraseIdx_survivorIdx (hg.ne_nil e he)
  have hu := (hmem u).mp (by simp [hsplit])
  refine ⟨u, ?_, hu.2, fun v hv hvk => ⟨?_, fun hne => ?_⟩⟩
  · -- the members of the group are in the order of the list
    rw [hsplit] at hfilter
    obtain ⟨l₁, l₂, htcs, hl₁, hl₂⟩ := List.filter_eq_append_iff.mp hfilter.symm
    obtain ⟨l₃, l₄, rfl, hl₃, -, hl₄⟩ := List.filter_eq_cons_iff.mp hl₂
    have hkey' : ∀ v, key v = key u ↔ decide (key v = e.1) = true := fun v => by
      rw [decide_eq_true_eq, hkey, hu.2]
    refine ⟨l₁ ++ l₃, l₄, by rw [htcs, List.append_assoc], fun v hv hvu => ?_, fun v hv hvu => ?_⟩
    · rcases List.mem_append.mp hv with hv | hv
      · exact hpre v (hl₁ ▸ List.mem_filter.mpr ⟨hv, (hkey' v).mp hvu⟩)
      · exact absurd ((hkey' v).mp hvu) (hl₃ v hv)
    · exact hpost v (hl₄ ▸ List.mem_filter.mpr ⟨hv, (hkey' v).mp hvu⟩)
  · rintro hdrop rfl
    obtain ⟨e', he', hin⟩ := List.mem_flatMap.mp hdrop
    have hin' := List.mem_of_mem_eraseIdx hin
    rw [hg.eq_filter e' he', List.mem_filter, decide_eq_true_eq] at hin'
    have heq : e' = e := List.inj_on_of_nodup_map hg.nodup he' he
      (hin'.2.symm.trans (hu.2.trans hkey.symm))
    rw [heq, herase] at hin
    have hnodup' : (pre ++ v :: post).Nodup := by
      rw [← hsplit, hfilter]
      exact hnodup.filter _
    exact (List.nodup_middle.mp hnodup').notMem hin
  · refine List.mem_flatMap.mpr ⟨e, he, ?_⟩
    have hin := (hmem v).mpr ⟨hv, hvk⟩
    rw [hsplit, List.mem_append, List.mem_cons] at hin
    rw [herase, List.mem_append]
    exact hin.imp_right fun hin => hin.resolve_left hne

/-- It has the fewest ancestors. -/
theorem exists_survivor {key : TcName → Bytes} {tcs : List TcName} (hnodup : tcs.Nodup) {t : TcName}
    (ht : t ∈ tcs) : ∃ u ∈ tcs, key u = key t ∧ u ∉ dropped key tcs ∧
      ∀ v ∈ tcs, key v = key t → u.ancestors ≤ v.ancestors ∧ (v ≠ u → v ∈ dropped key tcs) := by
  obtain ⟨u, ⟨pre, post, rfl, hpre, hpost⟩, hut, hdrop⟩ := exists_oldest key hnodup ht
  have hu : u ∈ pre ++ u :: post := List.mem_append_right _ List.mem_cons_self
  refine ⟨u, hu, hut, fun hin => (hdrop u hu hut).mp hin rfl, fun v hv hvk => ⟨?_, (hdrop v hv hvk).mpr⟩⟩
  have hvu := hvk.trans hut.symm
  rcases List.mem_append.mp hv with hv | hv
  · exact Nat.le_of_lt (hpre v hv hvu)
  · rcases List.mem_cons.mp hv with rfl | hv
    · exact Nat.le_refl _
    · exact hpost v hv hvu

/-- The dictionary that the loop over the files builds. -/
theorem hashMap_ok {tcs : List TcName} {key : TcName → Bytes} {sum : Str → Except Stop Bytes}
    (hsum : ∀ t ∈ tcs, sum (nm t) = .ok (key t)) :
    (tcs.map nm).foldlM (fun hashMap tc => do return Fold.insertGroup hashMap (← sum tc) tc) [] =
      .ok ((Fold.group key tcs).map fun entry => (entry.1, entry.2.map nm)) := by
  have hloop : ∀ (tcs : List TcName) (acc : List (Bytes × List TcName)),
      (∀ t ∈ tcs, sum (nm t) = .ok (key t)) →
      (tcs.map nm).foldlM (fun hashMap tc => do return Fold.insertGroup hashMap (← sum tc) tc)
        (acc.map fun entry => (entry.1, entry.2.map nm)) =
      .ok ((tcs.foldl (fun acc t => Fold.insertGroup acc (key t) t) acc).map
        fun entry => (entry.1, entry.2.map nm)) := by
    intro tcs
    induction tcs with
    | nil => intro acc _; rfl
    | cons t tcs ih =>
      intro acc hsum
      rw [List.map_cons, Fold.foldlM_cons_eq_ok, List.foldl_cons]
      refine ⟨_, by rw [hsum t List.mem_cons_self]; rfl, ?_⟩
      rw [Fold.insertGroup_map]
      exact ih _ fun t ht => hsum t (List.mem_cons_of_mem _ ht)
  exact hloop tcs [] hsum

theorem sha256sum_ok {n : Str} (h : n ∈ d) : sha256sum d n = .ok ((d.lookup n).getD []) := by
  obtain ⟨b, hb⟩ := Finmap.mem_iff.mp h
  rw [sha256sum, read, hb]
  rfl

theorem ancestorCnts_ok (hnm : ∀ t, ∃ m, naming.Finds nm t m) (tcs : List TcName) :
    (tcs.map nm).mapM (fun f => ancestorCnt (naming.file f)) = .ok (tcs.map TcName.ancestors) := by
  rw [Fold.mapM_eq_ok, List.forall₂_map_left_iff, List.forall₂_map_right_iff, List.forall₂_same]
  intro t _
  obtain ⟨m, hm⟩ := hnm t
  exact hm.ancestorCnt

/-- One group. -/
theorem deleteGroup_ok (now : ℕ) (d : Dir) (hnm : ∀ t, ∃ m, naming.Finds nm t m) {tcs : List TcName}
    (hne : tcs ≠ []) :
    ∃ d', (do
        let ancestorCnts ← (tcs.map nm).mapM fun f => ancestorCnt (naming.file f)
        let indx ← minIndx ancestorCnts
        deleteTcsOf naming now d ((tcs.map nm).eraseIdx indx)) = .ok d' ∧
      Drops (placeholder now) Metadata.values d (tcs.eraseIdx (survivorIdx tcs)) d' := by
  have hmin : minIndx (tcs.map TcName.ancestors) = .ok (survivorIdx tcs) := by
    unfold minIndx survivorIdx
    cases h : (tcs.map TcName.ancestors).min? with
    | none => simp [hne] at h
    | some m => rfl
  obtain ⟨d', hd', hdrops⟩ := deleteTcsOf_ok now d hnm (tcs.eraseIdx (survivorIdx tcs))
  refine ⟨d', ?_, hdrops⟩
  rw [Fold.bind_eq_ok]
  refine ⟨_, ancestorCnts_ok hnm tcs, ?_⟩
  rw [Fold.bind_eq_ok]
  refine ⟨_, hmin, ?_⟩
  rw [← hd', List.eraseIdx_map]

/-- The engine, on files that are there. -/
theorem runOf_ok (hnm : ∀ t, ∃ m, naming.Finds nm t m) {checker : Str → Bool}
    {testcasePaths : List Str} {tcs : List TcName} (hacc : testcasePaths.filter checker = tcs.map nm)
    (hmem : ∀ t ∈ tcs, naming.file (nm t) ∈ d) :
    ∃ d', runOf naming now checker d testcasePaths = .ok d' ∧
      Drops (placeholder now) Metadata.values d
        (dropped (fun t => (d.lookup (naming.file (nm t))).getD []) tcs) d' := by
  have hgroups := Fold.group_groups (fun t => (d.lookup (naming.file (nm t))).getD []) tcs
  have hloop : ∀ (entries : List (Bytes × List TcName)) (d : Dir), (∀ e ∈ entries, e.2 ≠ []) →
      ∃ d', (entries.map fun entry => (entry.1, entry.2.map nm)).foldlM (fun d entry => do
          let ancestorCnts ← entry.2.mapM fun f => ancestorCnt (naming.file f)
          let indx ← minIndx ancestorCnts
          deleteTcsOf naming now d (entry.2.eraseIdx indx)) d = .ok d' ∧
        Drops (placeholder now) Metadata.values d
          (entries.flatMap fun entry => entry.2.eraseIdx (survivorIdx entry.2)) d' := by
    intro entries
    induction entries with
    | nil => intro d _; exact ⟨d, rfl, Drops.nil⟩
    | cons e entries ih =>
      intro d hne
      obtain ⟨d₁, hd₁, h₁⟩ := deleteGroup_ok now d hnm (hne e List.mem_cons_self)
      obtain ⟨d₂, hd₂, h₂⟩ := ih d₁ fun e he => hne e (List.mem_cons_of_mem _ he)
      refine ⟨d₂, ?_, ?_⟩
      · rw [List.map_cons, Fold.foldlM_cons_eq_ok]
        exact ⟨d₁, hd₁, hd₂⟩
      · rw [List.flatMap_cons]
        exact h₁.trans (fun _ => List.Subset.refl _) h₂
  obtain ⟨d', hd', hdrops⟩ := hloop _ d hgroups.ne_nil
  refine ⟨d', ?_, hdrops⟩
  unfold runOf
  rw [Fold.bind_eq_ok, hacc]
  exact ⟨_, hashMap_ok fun t ht => sha256sum_ok (hmem t ht), hd'⟩

/-- On names. -/
theorem run_ok (hnm : ∀ t, getMetadataFiles (nm t) = .ok t.metadata) {checker : Str → Bool}
    {testcasePaths : List Str} {tcs : List TcName} (hacc : testcasePaths.filter checker = tcs.map nm)
    (hmem : ∀ t ∈ tcs, nm t ∈ d) :
    ∃ d', run now checker d testcasePaths = .ok d' ∧
      Drops (placeholder now) Metadata.values d
        (dropped (fun t => (d.lookup (nm t)).getD []) tcs) d' :=
  runOf_ok (fun t => ⟨t.metadata, Naming.names_finds hnm t⟩) hacc hmem

/-- A checker that accepts nothing leaves the directory as it is. -/
theorem run_none {checker : Str → Bool} {testcasePaths : List Str}
    (hacc : ∀ tc ∈ testcasePaths, checker tc = false) : run now checker d testcasePaths = .ok d := by
  unfold run runOf
  rw [List.filter_eq_nil_iff.mpr fun tc htc => by simp [hacc tc htc]]
  rfl

end DedupEngine

end PMFuzz.Dedup
