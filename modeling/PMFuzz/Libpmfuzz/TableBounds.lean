import PMFuzz.Libpmfuzz.ImageGeneration

/-!
# Bounds of the failure table

With `FI_MODE=IMG_REP` a failure point reads `failure_list` at its id, and
every call counts an id, also before `pmfuzz_init`. The id is not compared
with the size of the table, as the index is in the loop that fills it.

`runReads` are the indices that a run reads, and `ReplayRun` the runs of a
target: failure points and hints, with `pmfuzz_init` somewhere between them.

* `runReads_lt_iff`: which runs of the initialized library stay in the table;
* `dump_mem_runReads`: an image is dumped where the table is read;
* `inTable_iff`: which runs of a target do, and `table_overrun` one that does
  not.
-/

namespace PMFuzz.Libpmfuzz

/-- The indices at which a call reads `failure_list`. -/
def tableReads (env : Env) (lib : Lib) : Call → List ℕ
  | .event (.failure _) =>
    if lib.initComplete ∧ getFiMode env = .ok .imgRep then [(lib.failureId + 1).toNat] else []
  | _ => []

/-- The indices that a run reads, up to the first fault. -/
def runReads (env : Env) : Lib → List Call → List ℕ
  | _, [] => []
  | lib, c :: cs => tableReads env lib c ++
    match c.apply env lib with
    | .error _ => []
    | .ok lib' => runReads env lib' cs

/-- A run of a target that replays: the failure points and hints before it
calls `pmfuzz_init`, and those after it. -/
structure ReplayRun where
  env : Env
  lib : Lib
  path : List Char
  before : List Event
  after : List Event
  imgRep : env.fiMode = some "IMG_REP"
  failureList : env.failureList = true
  fresh : lib.Fresh
  /-- Each word of the failure list is a number. -/
  wellFormed : ∃ text ids, lib.listFile = some text ∧ readIds maxFailureCount text = some ids
  /-- The hints of the run return. -/
  hints : ∃ m, mapAfter env.toMapEnv lib.map (before ++ after) = .ok m

/-- The calls of the run. -/
def ReplayRun.calls (r : ReplayRun) : List Call := r.before.map .event ++ .init r.path :: r.after.map .event

/-- The table is read in its bounds, and no point beyond them leaves an
image. -/
structure ReplayRun.InTable (r : ReplayRun) : Prop where
  access : ∀ i ∈ runReads r.env r.lib r.calls, i < maxFailureCount
  image : ∀ s, run r.env r.lib r.calls = .ok s → ∀ d ∈ s.dumps, d.id.toNat < maxFailureCount

variable {env : Env} {lib s t : Lib} {events : List Event} {m : PmMap} {k : ℕ} {cs ds : List Call}

/-! ## The reads of a run -/

theorem runReads_append (h : run env lib cs = .ok s) :
    runReads env lib (cs ++ ds) = runReads env lib cs ++ runReads env s ds := by
  induction cs generalizing lib with
  | nil =>
    cases h
    rfl
  | cons c cs ih =>
    obtain ⟨t, ht, h⟩ := Fold.foldlM_cons_eq_ok.mp h
    simp only [List.cons_append, runReads, ht, ih h, List.append_assoc]

theorem run_events (env : Env) (lib : Lib) (events : List Event) :
    run env lib (events.map .event) = calls env lib events :=
  List.foldlM_map ..

theorem hint_apply {h : Hint} (hh : h.apply env.toMapEnv lib.map = .ok m) :
    (Call.event (.hint h)).apply env lib = .ok { lib with map := m } := by
  show (h.apply env.toMapEnv lib.map >>= _) = _
  rw [hh]
  rfl

/-- What a call that returns adds to the dumps. -/
theorem dumps_of_apply {e : Event} (hmode : getFiMode env = .ok .imgRep) (h : e.apply env lib = .ok t) :
    ∀ d ∈ t.dumps, d ∈ lib.dumps ∨ d.id.toNat ∈ tableReads env lib (.event e) := by
  cases e with
  | hint hint =>
    obtain ⟨m, -, h⟩ := Fold.bind_eq_ok.mp h
    cases h
    exact fun d hd => .inl hd
  | failure rand =>
    change pmfuzzInjectFailure env lib rand = .ok t at h
    cases hinit : lib.initComplete with
    | false =>
      simp only [pmfuzzInjectFailure, hinit] at h
      cases h
      exact fun d hd => .inl hd
    | true =>
      rw [inject_imgRep_eq hmode hinit] at h
      split at h
      · split at h
        · rw [dumpImage, if_neg fun h => by cases h.1] at h
          cases h
          intro d hd
          split at hd
          · rcases List.mem_append.mp hd with hd | hd
            · exact .inl hd
            · obtain rfl := List.mem_singleton.mp hd
              exact .inr (by simp [tableReads, hinit, hmode])
          · exact .inl hd
        · cases h
          exact fun d hd => .inl hd
      · cases h

/-- An image is dumped where the table is read. -/
theorem dump_mem_runReads (hmode : getFiMode env = .ok .imgRep) (h : calls env lib events = .ok s) :
    ∀ d ∈ s.dumps, d ∈ lib.dumps ∨ d.id.toNat ∈ runReads env lib (events.map .event) := by
  induction events generalizing lib with
  | nil =>
    cases h
    exact fun d hd => .inl hd
  | cons e events ih =>
    obtain ⟨t, ht, h⟩ := Fold.foldlM_cons_eq_ok.mp h
    have happly : (Call.event e).apply env lib = .ok t := ht
    simp only [List.map_cons, runReads, happly, List.mem_append]
    intro d hd
    rcases ih h d hd with hd | hd
    · exact (dumps_of_apply hmode ht d hd).imp_right .inl
    · exact .inr (.inr hd)

/-! ## Before and after `pmfuzz_init` -/

/-- A library before `pmfuzz_init`, after `n` failure points from `lib`. -/
structure Lib.Counted (lib : Lib) (n : ℕ) (t : Lib) : Prop where
  initComplete : t.initComplete = false
  failureId : t.failureId = lib.failureId + .ofNat n
  listFile : t.listFile = lib.listFile
  dumps : t.dumps = lib.dumps

/-- Before `pmfuzz_init` the points are counted, and nothing is read. -/
theorem calls_before {m' : PmMap} {rest : List Event} (hinit : lib.initComplete = false)
    (hm : mapAfter env.toMapEnv lib.map (events ++ rest) = .ok m') :
    ∃ t, calls env lib events = .ok t ∧ lib.Counted (points events) t ∧
      runReads env lib (events.map .event) = [] ∧ mapAfter env.toMapEnv t.map rest = .ok m' := by
  induction events generalizing lib with
  | nil => exact ⟨lib, rfl, ⟨hinit, (UInt32.add_zero _).symm, rfl, rfl⟩, rfl, hm⟩
  | cons e events ih =>
    cases e with
    | hint hint =>
      obtain ⟨m₁, hh, hm⟩ := Fold.bind_eq_ok.mp hm
      obtain ⟨t, hcalls, hcount, hreads, hm⟩ := @ih { lib with map := m₁ } hinit hm
      refine ⟨t, ?_, ⟨hcount.initComplete, hcount.failureId, hcount.listFile, hcount.dumps⟩, ?_, hm⟩
      · rw [calls_hint, hh]
        exact hcalls
      · rw [List.map_cons, runReads, hint_apply hh]
        exact hreads
    | failure rand =>
      have happly : pmfuzzInjectFailure env lib rand = .ok { lib with failureId := lib.failureId + 1 } := by
        simp only [pmfuzzInjectFailure, hinit]
        rfl
      have hcall : (Call.event (.failure rand)).apply env lib =
          .ok { lib with failureId := lib.failureId + 1 } := happly
      obtain ⟨t, hcalls, hcount, hreads, hm⟩ := @ih { lib with failureId := lib.failureId + 1 } hinit hm
      refine ⟨t, ?_, ⟨hcount.initComplete, ?_, hcount.listFile, hcount.dumps⟩, ?_, hm⟩
      · rw [calls_failure, happly]
        exact hcalls
      · rw [hcount.failureId, points, UInt32.ofNat_add, UInt32.add_assoc, UInt32.add_comm 1]
        rfl
      · rw [List.map_cons, runReads, hcall, tableReads, if_neg (by simp [hinit])]
        exact hreads

/-- `pmfuzz_init` with a failure list. -/
theorem pmfuzzInit_replay {text : List Char} {ids : List ℤ} (path : List Char)
    (hmode : getFiMode env = .ok .imgRep) (hlist : env.failureList = true) (hinit : lib.initComplete = false)
    (hfile : lib.listFile = some text) (hread : readIds maxFailureCount text = some ids) :
    ∃ t, pmfuzzInit env lib path = .ok t ∧ t.initComplete = true ∧ t.map = lib.map ∧
      t.failureId = lib.failureId ∧ t.dumps = lib.dumps := by
  simp only [pmfuzzInit, hinit, hmode, hlist, hfile, ↓reduceIte, bind, Except.bind, hread]
  exact ⟨_, rfl, rfl, rfl, rfl, rfl⟩

/-- After it a run stays in the table as long as the ids do. -/
theorem runReads_lt_iff (hmode : getFiMode env = .ok .imgRep) (hinit : lib.initComplete = true)
    (hid : (lib.failureId + 1).toNat = k) (hm : mapAfter env.toMapEnv lib.map events = .ok m) :
    (∀ i ∈ runReads env lib (events.map .event), i < maxFailureCount) ↔
      points events = 0 ∨ k + points events ≤ maxFailureCount := by
  induction events generalizing lib k with
  | nil => simp [runReads, points]
  | cons e events ih =>
    cases e with
    | hint hint =>
      obtain ⟨m₁, hh, hm⟩ := Fold.bind_eq_ok.mp hm
      rw [List.map_cons, runReads, hint_apply hh]
      exact @ih { lib with map := m₁ } k hinit hid hm
    | failure rand =>
      rw [List.map_cons, runReads, tableReads, if_pos ⟨hinit, hmode⟩, hid, List.singleton_append,
        List.forall_mem_cons, points]
      rcases Nat.lt_or_ge k maxFailureCount with hlt | hge
      · obtain ⟨t, ht, hmap, -, hinit', hfid, -⟩ := inject_imgRep hmode hinit rand (by rw [hid]; exact hlt)
        have hcall : (Call.event (.failure rand)).apply env lib = .ok t := ht
        have hid' : (t.failureId + 1).toNat = k + 1 := by
          rw [hfid, UInt32.toNat_add, hid, UInt32.toNat_one, Nat.mod_eq_of_lt]
          exact Nat.lt_of_le_of_lt hlt (by decide)
        rw [hcall, and_iff_right hlt]
        refine (ih hinit' hid' (by rw [hmap]; exact hm)).trans ?_
        omega
      · exact ⟨fun h => absurd h.1 (by omega), fun h => by omega⟩

/-! ## Runs -/

namespace ReplayRun

theorem mode (r : ReplayRun) : getFiMode r.env = .ok .imgRep := by
  simp [getFiMode, r.imgRep, r.failureList]

/-- The library after `pmfuzz_init`, and the run from there. -/
theorem exists_init (r : ReplayRun) : ∃ u m, u.initComplete = true ∧
    (u.failureId + 1).toNat = points r.before % 2 ^ 32 ∧ u.dumps = [] ∧
    mapAfter r.env.toMapEnv u.map r.after = .ok m ∧
    run r.env r.lib r.calls = Libpmfuzz.calls r.env u r.after ∧
    runReads r.env r.lib r.calls = runReads r.env u (r.after.map .event) := by
  obtain ⟨m', hm'⟩ := r.hints
  obtain ⟨text, ids, hfile, hread⟩ := r.wellFormed
  obtain ⟨t, hbefore, hcount, hnone, hm⟩ := calls_before r.fresh.initComplete hm'
  obtain ⟨u, hu, hinit, hmap, hfid, hdumps⟩ := pmfuzzInit_replay r.path r.mode r.failureList
    hcount.initComplete (hcount.listFile.trans hfile) hread
  have hcalls := (run_events r.env r.lib r.before).trans hbefore
  have happly : (Call.init r.path).apply r.env t = .ok u := hu
  refine ⟨u, m', hinit, ?_, ?_, ?_, ?_, ?_⟩
  · rw [hfid, hcount.failureId, r.fresh.failureId, UInt32.add_comm, ← UInt32.add_assoc]
    show ((1 + -1 : UInt32) + .ofNat (points r.before)).toNat = _
    rw [show (1 + -1 : UInt32) = 0 by decide, UInt32.zero_add]
    exact UInt32.toNat_ofNat
  · rw [hdumps, hcount.dumps, r.fresh.dumps]
  · rw [hmap, hm]
  · rw [run, calls, List.foldlM_append]
    show (run r.env r.lib (r.before.map .event) >>= _) = _
    rw [hcalls]
    show ((Call.init r.path).apply r.env t >>= fun u => run r.env u (r.after.map .event)) = _
    rw [happly]
    exact run_events ..
  · rw [calls, runReads_append hcalls, hnone, List.nil_append, runReads, happly]
    rfl

/-- A run stays in the table exactly when it makes no point after
`pmfuzz_init`, or the ids of those it makes, which go on from the points
before it, are below the limit. -/
theorem inTable_iff (r : ReplayRun) : r.InTable ↔
    points r.after = 0 ∨ points r.before % 2 ^ 32 + points r.after ≤ maxFailureCount := by
  obtain ⟨u, m, hinit, hid, hdumps, hm, hrun, hreads⟩ := r.exists_init
  rw [← runReads_lt_iff r.mode hinit hid hm, ← hreads]
  refine ⟨InTable.access, fun haccess => ⟨haccess, fun s hs d hd => ?_⟩⟩
  rw [hrun] at hs
  rcases dump_mem_runReads r.mode hs d hd with hd | hd
  · rw [hdumps] at hd
    cases hd
  · exact haccess _ (hreads ▸ hd)

/-! ## Two runs -/

theorem mapAfter_replicate (env : MapEnv) (m : PmMap) (n : ℕ) :
    mapAfter env m (List.replicate n (.failure 0)) = .ok m := by
  induction n with
  | zero => rfl
  | succ n ih => exact ih

theorem points_replicate (n : ℕ) : points (List.replicate n (.failure 0)) = n := by
  induction n with
  | zero => rfl
  | succ n ih => rw [List.replicate_succ, points, ih]

/-- The replay of an empty list by a target with `n` failure points. -/
def ofPoints (n : ℕ) : ReplayRun where
  env := recordEnv.replay recordEnv.saves
  lib := { startLib with listFile := some [] }
  path := "a.pm_pool".toList
  before := []
  after := List.replicate n (.failure 0)
  imgRep := rfl
  failureList := rfl
  fresh := ⟨rfl, rfl, fun _ => rfl, rfl, rfl⟩
  wellFormed := ⟨[], [], rfl, rfl⟩
  hints := ⟨startLib.map, mapAfter_replicate _ _ n⟩

theorem inTable_threePoints : (ofPoints 3).InTable := (inTable_iff _).mpr (.inr (by decide))

/-- One failure point more than the table has entries. -/
theorem table_overrun : ¬ ∀ r : ReplayRun, r.InTable := by
  intro h
  obtain ⟨u, m, hinit, hid, -, hm, -, hreads⟩ := (ofPoints 10001).exists_init
  have haccess := (h (ofPoints 10001)).access
  rw [hreads, runReads_lt_iff (ofPoints 10001).mode hinit hid hm] at haccess
  have hafter : points (ofPoints 10001).after = 10001 := points_replicate 10001
  rw [hafter] at haccess
  rcases haccess with hzero | hle
  · cases hzero
  · exact absurd (Nat.le_trans (Nat.le_add_left ..) hle) (by decide)

end ReplayRun

end PMFuzz.Libpmfuzz
