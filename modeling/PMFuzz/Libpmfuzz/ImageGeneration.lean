import PMFuzz.Libpmfuzz.Replay
import PMFuzz.Libpmfuzz.Updates

/-!
# Image generation

Runs with `FI_MODE=IMG_GEN` and a failure list, in which the target may call
`pmfuzz_init` at any point, or not at all. `Tracks` relates the library to
the run's history, the points selected and the PM maps at them: their ids are those in the
list and come in order, each map differs from the one before it, and
`__last_pmfuzz_area_ptr` is the last of them. `Tracks.call` is for one call,
and `Tracks.run` for a run.

The id of a selected point is written also if its image is not, and the
snapshot is taken. So the list names the images exactly in the runs in which all of them can
be written (`imageGeneration_iff`).
-/

namespace PMFuzz.Libpmfuzz

/-- A call of the library. -/
inductive Call
  | init (path : List Char)
  | event (e : Event)

def Call.apply (env : Env) (lib : Lib) : Call → Except Fault Lib
  | .init path => pmfuzzInit env lib path
  | .event e => e.apply env lib

/-- The calls that are failure points. -/
def Call.points : Call → ℕ
  | .event (.failure _) => 1
  | _ => 0

/-- A sequence of calls. -/
def run (env : Env) (lib : Lib) (cs : List Call) : Except Fault Lib := cs.foldlM (Call.apply env) lib

/-- The PM map of a call that dumps an image. -/
def newMaps (lib lib' : Lib) : List Mem :=
  if lib.dumps.length < lib'.dumps.length then [lib'.map.area] else []

/-- The PM maps at the dumps of a run. -/
def dumpMaps (env : Env) : Lib → List Call → List Mem
  | _, [] => []
  | lib, c :: cs =>
    match c.apply env lib with
    | .error _ => []
    | .ok lib' => newMaps lib lib' ++ dumpMaps env lib' cs

/-- Two maps of `n` bytes differ. -/
def Differ (n : ℕ) (a b : Mem) : Prop := ∃ i < n, a i ≠ b i

/-- The ids that may be dumped. -/
def Selectable (env : Env) (id : UInt32) : Prop :=
  env.imgCreatFinj = false → id.toNat ≤ 10000 ∧ (env.genAllCs = true → id.toNat < 100 ∧ 5 ∣ id.toNat)

/-- The id and the PM map of a point that is selected. -/
def selection (env : Env) (lib : Lib) : Call → List (UInt32 × Mem)
  | .event (.failure rand) =>
    if lib.initComplete = true ∧ lib.fires env rand = true then [(lib.failureId + 1, lib.map.area)] else []
  | _ => []

/-- The points that a run selects. -/
def selections (env : Env) : Lib → List Call → List (UInt32 × Mem)
  | _, [] => []
  | lib, c :: cs => selection env lib c ++
    match c.apply env lib with
    | .error _ => []
    | .ok lib' => selections env lib' cs

/-- After `n` failure points, of which those of `sel` were selected. -/
structure Tracks (env : Env) (lib : Lib) (sel : List (UInt32 × Mem)) (n : ℕ) : Prop where
  counter : lib.failureId + 1 = UInt32.ofNat n
  old : ∀ e ∈ sel, e.1.toNat < n
  ordered : (sel.map fun e => e.1.toNat).Pairwise (· < ·)
  opened : lib.initComplete = true → lib.handle = .opened ∧
    lib.listFile = some ((sel.map Prod.fst).flatMap fun id => line (asInt id))
  before : lib.initComplete = false → sel = []
  selectable : ∀ e ∈ sel, Selectable env e.1
  chain : (0 :: sel.map Prod.snd).IsChain (Differ lib.map.mapSize.toNat)
  last : ∀ k < lib.map.mapSize.toNat, lib.last k = (0 :: sel.map Prod.snd).getLast (List.cons_ne_nil _ _) k
  dumps : lib.dumps.map Dump.id = (sel.map Prod.fst).filter env.saves

variable {env : Env} {lib lib' : Lib} {sel : List (UInt32 × Mem)} {n : ℕ} {id : UInt32}

/-! ## One call -/

theorem selectable_of_saveImg {rand : ℕ} (h : saveImg env id rand = true) : Selectable env id := by
  intro hfinj
  unfold saveImg at h
  rw [hfinj] at h
  simp only [Bool.false_eq_true, if_false] at h
  cases hall : env.genAllCs with
  | true =>
    simp only [hall, if_true, Bool.and_eq_true, decide_eq_true_eq] at h
    exact ⟨by omega, fun _ => ⟨h.1, Nat.dvd_of_mod_eq_zero h.2⟩⟩
  | false =>
    refine ⟨?_, fun htrue => absurd htrue (by decide)⟩
    by_contra hgt
    have hne : id ≠ 0 := fun hz => by
      rw [hz, UInt32.toNat_zero] at hgt
      omega
    have hdiv : 10000 / id.toNat = 0 := Nat.div_eq_of_lt (by omega)
    simp [hall, hne, hdiv] at h

theorem Hint.apply_mapSize {m m' : PmMap} {env : MapEnv} {h : Hint} (happly : h.apply env m = .ok m') :
    m'.mapSize = m.mapSize := by
  cases h with
  | ro rand =>
    obtain ⟨loc, -, h⟩ := Fold.bind_eq_ok.mp happly
    exact updateLoc_mapSize h
  | wo rand =>
    obtain ⟨loc, -, h⟩ := Fold.bind_eq_ok.mp happly
    exact updateLoc_mapSize h
  | rw rand =>
    obtain ⟨loc, -, h⟩ := Fold.bind_eq_ok.mp happly
    obtain ⟨m₁, h₁, h⟩ := Fold.bind_eq_ok.mp h
    exact (updateLoc_mapSize h).trans (updateLoc_mapSize h₁)

theorem newMaps_of_dumps_eq (h : lib'.dumps = lib.dumps) : newMaps lib lib' = [] := by
  rw [newMaps, h, if_neg (Nat.lt_irrefl _)]

/-- What a call that selects no point leaves. -/
structure Skips (lib lib' : Lib) : Prop where
  dumps : lib'.dumps = lib.dumps
  initComplete : lib'.initComplete = lib.initComplete
  handle : lib'.handle = lib.handle
  listFile : lib'.listFile = lib.listFile
  mapSize : lib'.map.mapSize = lib.map.mapSize
  last : lib'.last = lib.last

theorem Tracks.skip {n' : ℕ} (h : Tracks env lib sel n) (hskip : Skips lib lib')
    (hcounter : lib'.failureId + 1 = UInt32.ofNat n') (hn : n ≤ n') : Tracks env lib' sel n' where
  counter := hcounter
  old e he := Nat.lt_of_lt_of_le (h.old e he) hn
  ordered := h.ordered
  opened := by
    rw [hskip.initComplete, hskip.handle, hskip.listFile]
    exact h.opened
  before := by
    rw [hskip.initComplete]
    exact h.before
  selectable := h.selectable
  chain := by
    rw [hskip.mapSize]
    exact h.chain
  last := by
    rw [hskip.mapSize, hskip.last]
    exact h.last
  dumps := by
    rw [hskip.dumps]
    exact h.dumps

/-- `pmfuzz_init`. -/
theorem Tracks.init (hmode : getFiMode env = .ok .imgGen) (hlist : env.failureList = true)
    (h : Tracks env lib sel n) {path : List Char} (hrun : pmfuzzInit env lib path = .ok lib') :
    Tracks env lib' sel n ∧ lib'.dumps = lib.dumps := by
  cases hinit : lib.initComplete with
  | true =>
    have heq : pmfuzzInit env lib path = .ok lib := by rw [pmfuzzInit, hinit]; rfl
    cases heq.symm.trans hrun
    exact ⟨h, rfl⟩
  | false =>
    simp only [pmfuzzInit, hinit, hmode, hlist] at hrun
    cases hw : env.writable with
    | false =>
      rw [hw] at hrun
      cases hrun
    | true =>
      rw [hw] at hrun
      cases hrun
      have hnone := h.before hinit
      refine ⟨⟨h.counter, h.old, h.ordered, fun _ => ⟨rfl, ?_⟩, fun hfalse => (by cases hfalse),
        h.selectable, h.chain, h.last, h.dumps⟩, rfl⟩
      rw [hnone]
      rfl

/-- A point that is selected: the map differs from the snapshot, which becomes
the map. -/
theorem Tracks.select (h : Tracks env lib sel n) (hn : n < 2 ^ 32) (hinit : lib.initComplete = true)
    {rand : ℕ} (hfires : lib.fires env rand = true) :
    ∃ t, dumpImage env { lib with
        failureId := lib.failureId + 1
        last := memCopy lib.last lib.map.area lib.map.mapSize.toNat } .imgGen = .ok t ∧
      Tracks env t (sel ++ [(lib.failureId + 1, lib.map.area)]) (n + 1) ∧ t.map = lib.map ∧
      t.dumps = lib.dumps ++ newDump env { lib with failureId := lib.failureId + 1 } := by
  obtain ⟨hhandle, hfile⟩ := h.opened hinit
  have hid : (lib.failureId + 1).toNat = n := by
    rw [h.counter]
    exact UInt32.toNat_ofNat_of_lt' hn
  rw [Lib.fires, Bool.and_eq_true] at hfires
  obtain ⟨hdiff, hsave⟩ := hfires
  refine ⟨_, dumpImage_imgGen hhandle, ⟨?_, ?_, ?_, fun _ => ⟨hhandle, ?_⟩, fun hfalse => ?_, ?_, ?_, ?_, ?_⟩, rfl, rfl⟩
  · show lib.failureId + 1 + 1 = _
    rw [h.counter, UInt32.ofNat_add]
    rfl
  · intro e he
    rcases List.mem_append.mp he with he | he
    · exact Nat.lt_succ_of_lt (h.old e he)
    · rw [List.mem_singleton.mp he]
      exact hid ▸ Nat.lt_succ_self _
  · rw [List.map_append, List.pairwise_append]
    refine ⟨h.ordered, List.pairwise_singleton _ _, fun i hi j hj => ?_⟩
    obtain ⟨e, he, rfl⟩ := List.mem_map.mp hi
    rw [List.map_singleton, List.mem_singleton] at hj
    rw [hj]
    exact hid ▸ h.old e he
  · rw [hfile, Option.map_some, List.map_append, List.flatMap_append]
    simp
  · rw [show lib.initComplete = false from hfalse] at hinit
    cases hinit
  · intro e he
    rcases List.mem_append.mp he with he | he
    · exact h.selectable e he
    · rw [List.mem_singleton.mp he]
      exact selectable_of_saveImg hsave
  · rw [List.map_append, List.map_singleton, ← List.cons_append, List.isChain_append]
    refine ⟨h.chain, List.isChain_singleton _, fun a ha b hb => ?_⟩
    obtain ⟨i, hi, hne⟩ := List.any_eq_true.mp hdiff
    have hlt := List.mem_range.mp hi
    cases hb
    refine ⟨i, hlt, fun heq => ?_⟩
    have hlast := h.last i hlt
    rw [List.getLast?_eq_getLast_of_ne_nil (List.cons_ne_nil _ _)] at ha
    cases ha
    rw [← hlast] at heq
    simp [heq] at hne
  · intro k hk
    have hlast : (0 :: (sel ++ [(lib.failureId + 1, lib.map.area)]).map Prod.snd).getLast (List.cons_ne_nil _ _) =
        lib.map.area := by simp
    rw [hlast]
    exact if_pos hk
  · rw [List.map_append, h.dumps, List.map_append, List.filter_append]
    cases hsaves : env.saves (lib.failureId + 1) <;> simp [newDump, hsaves]

/-- The PM maps of selected points whose images are written. -/
def savedMaps (env : Env) (sel : List (UInt32 × Mem)) : List Mem := (sel.filter fun e => env.saves e.1).map Prod.snd

/-- A call that selects no point. -/
theorem Tracks.unselected {c : Call} {n' : ℕ} (h : Tracks env lib' sel n') (hsel : selection env lib c = [])
    (hdumps : lib'.dumps = lib.dumps) : Tracks env lib' (sel ++ selection env lib c) n' ∧
      newMaps lib lib' = savedMaps env (selection env lib c) := by
  rw [hsel, List.append_nil, newMaps_of_dumps_eq hdumps]
  exact ⟨h, rfl⟩

theorem Tracks.call (hmode : getFiMode env = .ok .imgGen) (hlist : env.failureList = true)
    (h : Tracks env lib sel n) {c : Call} (hn : n + c.points ≤ 2 ^ 32) (hrun : c.apply env lib = .ok lib') :
    Tracks env lib' (sel ++ selection env lib c) (n + c.points) ∧
      newMaps lib lib' = savedMaps env (selection env lib c) := by
  cases c with
  | init path =>
    obtain ⟨htracks, hdumps⟩ := h.init hmode hlist hrun
    exact htracks.unselected rfl hdumps
  | event e =>
    cases e with
    | hint hint =>
      obtain ⟨m, hm, hrun⟩ := Fold.bind_eq_ok.mp hrun
      cases hrun
      have hskip : Skips lib { lib with map := m } := ⟨rfl, rfl, rfl, rfl, Hint.apply_mapSize hm, rfl⟩
      have hnone : selection env lib (.event (.hint hint)) = [] := rfl
      exact (h.skip hskip h.counter (Nat.le_refl n)).unselected hnone rfl
    | failure rand =>
      have hrun' : pmfuzzInjectFailure env lib rand = .ok lib' := hrun
      have hnext : lib.failureId + 1 + 1 = UInt32.ofNat (n + 1) := by
        rw [h.counter, UInt32.ofNat_add]
        rfl
      have hn' : n + 1 ≤ 2 ^ 32 := hn
      have hskip : Skips lib { lib with failureId := lib.failureId + 1 } := ⟨rfl, rfl, rfl, rfl, rfl, rfl⟩
      cases hinit : lib.initComplete with
      | false =>
        have heq : pmfuzzInjectFailure env lib rand = .ok { lib with failureId := lib.failureId + 1 } := by
          simp only [pmfuzzInjectFailure, hinit]
          rfl
        cases heq.symm.trans hrun'
        have hnone : selection env lib (.event (.failure rand)) = [] := if_neg (by simp [hinit])
        exact (h.skip hskip hnext (Nat.le_succ n)).unselected hnone rfl
      | true =>
        rw [inject_imgGen_eq hmode hinit] at hrun'
        cases hfires : lib.fires env rand with
        | false =>
          rw [hfires] at hrun'
          cases hrun'
          have hnone : selection env lib (.event (.failure rand)) = [] := if_neg (by simp [hfires])
          exact (h.skip hskip hnext (Nat.le_succ n)).unselected hnone rfl
        | true =>
          obtain ⟨t, ht, htracks, hmap, hdumps⟩ := h.select hn' hinit hfires
          rw [hfires, if_pos rfl, ht] at hrun'
          cases hrun'
          rw [selection, if_pos ⟨hinit, hfires⟩]
          refine ⟨htracks, ?_⟩
          rw [newMaps, hdumps, hmap]
          cases hsaves : env.saves (lib.failureId + 1) <;> simp [newDump, savedMaps, hsaves]

/-! ## Runs -/

theorem Tracks.run (hmode : getFiMode env = .ok .imgGen) (hlist : env.failureList = true)
    (h : Tracks env lib sel n) {cs : List Call} (hn : n + (cs.map Call.points).sum ≤ 2 ^ 32)
    (hrun : Libpmfuzz.run env lib cs = .ok lib') :
    Tracks env lib' (sel ++ selections env lib cs) (n + (cs.map Call.points).sum) ∧
      dumpMaps env lib cs = savedMaps env (selections env lib cs) := by
  induction cs generalizing lib sel n with
  | nil =>
    cases hrun
    rw [selections, List.append_nil, List.map_nil, List.sum_nil, Nat.add_zero]
    exact ⟨h, rfl⟩
  | cons c cs ih =>
    rw [List.map_cons, List.sum_cons, ← Nat.add_assoc] at hn ⊢
    obtain ⟨t, ht, hrun⟩ := Fold.foldlM_cons_eq_ok.mp hrun
    obtain ⟨hstep, hnew⟩ := h.call hmode hlist (by omega) ht
    obtain ⟨hrest, hmaps⟩ := ih hstep hn hrun
    rw [dumpMaps, selections, ht]
    dsimp only
    refine ⟨by rwa [← List.append_assoc], ?_⟩
    rw [hnew, hmaps, savedMaps, savedMaps, savedMaps, List.filter_append, List.map_append]

/-- The state a process starts in. -/
theorem Lib.Fresh.tracks (h : lib.Fresh) (hlast : ∀ k, lib.last k = 0) : Tracks env lib [] 0 where
  counter := by
    rw [h.failureId]
    rfl
  old := by simp
  ordered := by simp
  opened hinit := by
    rw [h.initComplete] at hinit
    cases hinit
  before _ := rfl
  selectable := by simp
  chain := List.isChain_singleton _
  last k _ := hlast k
  dumps := by simp [h.dumps]

/-- A run dumps each new map once: nothing is
dumped before `pmfuzz_init`, and after it the list holds the ids dumped, in
increasing order; the map differs from the one at the dump before, all zero
for the first, and `last` is the map at the last dump; and only selectable
ids are dumped. -/
structure Generates (env : Env) (lib : Lib) (cs : List Call) (lib' : Lib) : Prop where
  before : lib'.initComplete = false → lib'.dumps = []
  list : lib'.initComplete = true → lib'.listFile = some (lib'.dumps.flatMap fun d => line (asInt d.id))
  ordered : (lib'.dumps.map fun d => asInt d.id).Pairwise (· < ·)
  length : (dumpMaps env lib cs).length = lib'.dumps.length
  chain : (0 :: dumpMaps env lib cs).IsChain (Differ lib'.map.mapSize.toNat)
  last : ∀ k < lib'.map.mapSize.toNat, lib'.last k = (0 :: dumpMaps env lib cs).getLast (List.cons_ne_nil _ _) k
  selectable : ∀ d ∈ lib'.dumps, Selectable env d.id

/-- The images of all points that the run selects can be written. -/
def Saves (env : Env) (lib : Lib) (cs : List Call) : Prop :=
  ∀ pre rand, pre ++ [.event (.failure rand)] <+: cs → ∀ s, run env lib pre = .ok s →
    s.initComplete = true → s.fires env rand = true → env.saves (s.failureId + 1) = true

theorem saves_cons {c : Call} {cs : List Call} (hc : c.apply env lib = .ok lib') :
    Saves env lib (c :: cs) ↔ (∀ e ∈ selection env lib c, env.saves e.1 = true) ∧ Saves env lib' cs := by
  constructor
  · intro h
    refine ⟨fun e he => ?_, fun pre rand hpre s hs => ?_⟩
    · match c with
      | .event (.failure rand) =>
        rw [selection] at he
        split at he
        · rename_i hsel
          rw [List.mem_singleton.mp he]
          exact h [] rand (List.cons_prefix_cons.mpr ⟨rfl, List.nil_prefix⟩) lib rfl hsel.1 hsel.2
        · cases he
      | .event (.hint _) => cases he
      | .init _ => cases he
    · refine h (c :: pre) rand (List.cons_prefix_cons.mpr ⟨rfl, hpre⟩) s ?_
      rw [run, List.foldlM_cons, hc]
      exact hs
  · rintro ⟨hsel, h⟩ pre rand hpre s hs hinit hfires
    match pre with
    | [] =>
      obtain ⟨rfl, -⟩ := List.cons_prefix_cons.mp hpre
      cases hs
      exact hsel (lib.failureId + 1, lib.map.area) (by rw [selection, if_pos ⟨hinit, hfires⟩]; exact List.mem_cons_self)
    | c' :: pre =>
      obtain ⟨rfl, hrest⟩ := List.cons_prefix_cons.mp hpre
      rw [run, List.foldlM_cons, hc] at hs
      exact h pre rand hrest s hs hinit hfires

theorem saves_iff {cs : List Call} (hrun : run env lib cs = .ok lib') :
    Saves env lib cs ↔ ∀ e ∈ selections env lib cs, env.saves e.1 = true := by
  induction cs generalizing lib with
  | nil => exact iff_of_true (fun pre rand hpre => absurd (List.prefix_nil.mp hpre) (by simp)) (by simp [selections])
  | cons c cs ih =>
    obtain ⟨t, ht, hrun⟩ := Fold.foldlM_cons_eq_ok.mp hrun
    rw [saves_cons ht, ih hrun, selections, ht]
    simp only [List.mem_append, or_imp, forall_and]

/-- A fresh process dumps each new map once, in a run with fewer than 2^31
failure points, exactly if the image of each point that is selected can be written. -/
theorem imageGeneration_iff (hmode : env.fiMode = some "IMG_GEN") (hlist : env.failureList = true)
    (hfresh : lib.Fresh) (hlast : ∀ k, lib.last k = 0) {cs : List Call}
    (hpoints : (cs.map Call.points).sum < 2 ^ 31) (hrun : run env lib cs = .ok lib') :
    Generates env lib cs lib' ↔ Saves env lib cs := by
  have hgen : getFiMode env = .ok .imgGen := by
    rw [getFiMode, hmode]
    rfl
  obtain ⟨h, hmaps⟩ := (hfresh.tracks hlast).run hgen hlist (by omega) hrun
  rw [Nat.zero_add, List.nil_append] at h
  rw [saves_iff hrun]
  have hlines : (lib'.dumps.flatMap fun d => line (asInt d.id)) =
      (lib'.dumps.map Dump.id).flatMap fun id => line (asInt id) := by rw [List.flatMap_map]
  constructor
  · intro hg
    cases hinit : lib'.initComplete with
    | false =>
      rw [h.before hinit]
      exact fun e he => absurd he List.not_mem_nil
    | true =>
      have heq := (h.opened hinit).2.symm.trans (hg.list hinit)
      rw [hlines, h.dumps, Option.some.injEq] at heq
      intro e he
      have hin := List.mem_map_of_mem (f := Prod.fst) he
      rw [lines_injective heq] at hin
      exact (List.mem_filter.mp hin).2
  · intro hall
    have hids : lib'.dumps.map Dump.id = (selections env lib cs).map Prod.fst := by
      rw [h.dumps]
      exact List.filter_eq_self.mpr fun id hid => by
        obtain ⟨e, he, rfl⟩ := List.mem_map.mp hid
        exact hall e he
    have hsel : dumpMaps env lib cs = (selections env lib cs).map Prod.snd := by
      rw [hmaps, savedMaps, List.filter_eq_self.mpr hall]
    have hmem : ∀ d ∈ lib'.dumps, ∃ e ∈ selections env lib cs, e.1 = d.id := fun d hd =>
      List.mem_map.mp (hids ▸ List.mem_map_of_mem hd)
    refine ⟨fun hinit => ?_, fun hinit => ?_, ?_, ?_, ?_, ?_, fun d hd => ?_⟩
    · rw [h.before hinit, List.map_nil, List.map_eq_nil_iff] at hids
      exact hids
    · rw [hlines, hids]
      exact (h.opened hinit).2
    · have hint : lib'.dumps.map (fun d => asInt d.id) =
          ((selections env lib cs).map fun e => e.1.toNat).map fun i : ℕ => (i : ℤ) := by
        have hcomp : lib'.dumps.map (fun d => asInt d.id) = (lib'.dumps.map Dump.id).map asInt :=
          by rw [List.map_map]; rfl
        rw [hcomp, hids, List.map_map, List.map_map]
        refine List.map_congr_left fun e he => asInt_eq ?_
        have := h.old e he
        omega
      rw [hint, List.pairwise_map]
      exact h.ordered.imp fun hij => Int.ofNat_lt.mpr hij
    · rw [hsel, List.length_map, ← List.length_map (f := Dump.id), hids, List.length_map]
    · rw [hsel]
      exact h.chain
    · have hlast : ∀ maps maps' : List Mem, maps = maps' →
          (0 :: maps).getLast (List.cons_ne_nil _ _) = (0 :: maps').getLast (List.cons_ne_nil _ _) := by
        rintro maps _ rfl
        rfl
      exact fun k hk => (h.last k hk).trans (congrFun (hlast _ _ hsel.symm) k)
    · obtain ⟨e, he, heq⟩ := hmem d hd
      rw [← heq]
      exact h.selectable e he

/-- A point before `pmfuzz_init`, one after a hint, and one that finds the
map of the last dump. -/
def threePoints : List Call :=
  [.event (.failure 3), .init "a.pm_pool".toList, .event (.hint (.ro 5)), .event (.failure 7),
    .event (.failure 8)]

theorem run_threePoints : ∃ s, run recordEnv { startLib with map := startMap 256 } threePoints = .ok s ∧
    s.initComplete = true ∧ s.dumps.map Dump.id = [1] := by
  have hrun : ((run recordEnv { startLib with map := startMap 256 } threePoints).toOption.map fun s =>
      (s.initComplete, s.dumps.map Dump.id)) = some (true, [1]) := by decide +kernel
  obtain ⟨s, hs, heq⟩ := Option.map_eq_some_iff.mp hrun
  obtain ⟨hinit, hdumps⟩ := Prod.mk.inj heq
  exact ⟨s, Fold.toOption_eq_some.mp hs, hinit, hdumps⟩

theorem imageGeneration_threePoints : ∃ s, run recordEnv { startLib with map := startMap 256 } threePoints = .ok s ∧
    s.dumps.map Dump.id = [1] ∧ s.listFile = some (s.dumps.flatMap fun d => line (asInt d.id)) := by
  obtain ⟨s, hs, hinit, hdumps⟩ := run_threePoints
  have hgen := (imageGeneration_iff rfl rfl ⟨rfl, rfl, fun _ => rfl, rfl, rfl⟩ (fun _ => rfl) (by decide) hs).mpr
    fun _ _ _ _ _ _ _ => rfl
  exact ⟨s, hs, hdumps, hgen.list hinit⟩

/-- The same run where no image can be written: the list has an id all the same. -/
theorem imageGeneration_unsaved : ¬ ∀ (env : Env) (lib lib' : Lib) (cs : List Call), env.fiMode = some "IMG_GEN" →
    env.failureList = true → lib.Fresh → (∀ k, lib.last k = 0) → (cs.map Call.points).sum < 2 ^ 31 →
    run env lib cs = .ok lib' → Generates env lib cs lib' := by
  intro h
  have hrun : ((run { recordEnv with saves := fun _ => false } { startLib with map := startMap 256 }
      threePoints).toOption.map
      fun s => (s.initComplete, s.dumps, s.listFile)) = some (true, [], some "1\n".toList) := by decide +kernel
  obtain ⟨s, hs, heq⟩ := Option.map_eq_some_iff.mp hrun
  obtain ⟨hinit, hdumps, hfile⟩ : s.initComplete = true ∧ s.dumps = [] ∧ s.listFile = some "1\n".toList := by
    simpa using heq
  have hlist := (h _ _ s _ rfl rfl ⟨rfl, rfl, fun _ => rfl, rfl, rfl⟩ (fun _ => rfl) (by decide)
    (Fold.toOption_eq_some.mp hs)).list hinit
  rw [hfile, hdumps] at hlist
  cases hlist

end PMFuzz.Libpmfuzz
