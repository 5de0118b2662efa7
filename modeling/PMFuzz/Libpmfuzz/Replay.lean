import PMFuzz.Libpmfuzz.FailureInjection
import Mathlib.Data.List.Basic
import Mathlib.Data.UInt
import Mathlib.Order.Interval.Finset.Nat

/-!
# Record and replay

`FI_MODE=IMG_GEN` writes the ids of the points dumped to the failure list
(`Lib.Recording.calls`), and `FI_MODE=IMG_REP` dumps the points that the
table read from that list marks (`calls_replay`).

`pmfuzz_init` stores the ids one after the other, and
`pmfuzz_inject_failure` uses the id of the point as an index. So the table
marks positions of the list, not the ids in it, and the two runs agree only
when nothing is recorded (`replayAgrees_iff`).
-/

namespace PMFuzz.Libpmfuzz

variable {env : Env} {lib s t : Lib} {events : List Event}

/-- Failure points among `events`. -/
def points : List Event → ℕ
  | [] => 0
  | .hint _ :: events => points events
  | .failure _ :: events => points events + 1

/-- The PM map after the hints among `events`. -/
def mapAfter (env : MapEnv) (m : PmMap) : List Event → Except Fault PmMap
  | [] => .ok m
  | .hint h :: events => do
    let m ← h.apply env m
    mapAfter env m events
  | .failure _ :: events => mapAfter env m events

/-- A failure point where `save_img` is set finds the PM map as it was in
`last`. -/
def Quiet (env : Env) (last : Mem) : UInt32 → PmMap → List Event → Prop
  | _, _, [] => True
  | id, m, .hint h :: events =>
    ∀ m', h.apply env.toMapEnv m = .ok m' → Quiet env last id m' events
  | id, m, .failure rand :: events =>
    (memDiff m.area last m.mapSize.toNat && saveImg env (id + 1) rand) = false ∧
      Quiet env last (id + 1) m events

/-- The environment of the replay. Other images may be written in it. -/
def Env.replay (env : Env) (saves : UInt32 → Bool) : Env := { env with fiMode := some "IMG_REP", saves := saves }

/-- A replay of the run that ended in `s` dumps an image at the ids that
are in the failure list, and at no other. -/
def ReplayAgrees (env : Env) (saves : UInt32 → Bool) (lib : Lib) (path : List Char) (events : List Event) (s : Lib) :
    Prop :=
  ∃ ids : List UInt32, s.listFile = some (ids.flatMap fun id => line (asInt id)) ∧
    ∃ r, runTarget (env.replay saves) { lib with listFile := s.listFile } path events = .ok r ∧
      ∀ id, id ∈ r.dumps.map Dump.id ↔ id ∈ ids

/-! ## One call -/

/-- A hint changes the map only. -/
theorem calls_hint {h : Hint} :
    calls env lib (.hint h :: events) =
      (h.apply env.toMapEnv lib.map).bind fun m => calls env { lib with map := m } events := by
  simp only [calls, List.foldlM_cons, Event.apply]
  cases h.apply env.toMapEnv lib.map <;> rfl

theorem calls_failure {rand : ℕ} :
    calls env lib (.failure rand :: events) =
      (pmfuzzInjectFailure env lib rand).bind fun t => calls env t events := by
  simp only [calls, List.foldlM_cons, Event.apply]
  rfl

/-- The map after a hint that succeeds. -/
theorem mapAfter_hint_ok {env : MapEnv} {m r : PmMap} {h : Hint}
    (hm : mapAfter env m (.hint h :: events) = .ok r) :
    ∃ m', h.apply env m = .ok m' ∧ mapAfter env m' events = .ok r := by
  rw [mapAfter] at hm
  cases happ : h.apply env m with
  | error e => rw [happ] at hm; cases hm
  | ok m' => rw [happ] at hm; exact ⟨m', rfl, hm⟩

/-- A hint that succeeds. -/
theorem calls_hint_ok {h : Hint} (hs : calls env lib (.hint h :: events) = .ok s) :
    ∃ m, h.apply env.toMapEnv lib.map = .ok m ∧ calls env { lib with map := m } events = .ok s := by
  rw [calls_hint] at hs
  cases hm : h.apply env.toMapEnv lib.map with
  | error e => rw [hm] at hs; cases hs
  | ok m => rw [hm] at hs; exact ⟨m, rfl, hs⟩

/-! ## Recording -/

/-- The failure list is open and holds `ids`. -/
structure Lib.Recording (lib : Lib) (ids : List UInt32) : Prop where
  initComplete : lib.initComplete = true
  handle : lib.handle = .opened
  listFile : lib.listFile = some (ids.flatMap fun id => line (asInt id))

/-- The point with the next id is dumped. -/
def Lib.fires (env : Env) (lib : Lib) (rand : ℕ) : Bool :=
  memDiff lib.map.area lib.last lib.map.mapSize.toNat && saveImg env (lib.failureId + 1) rand

/-- A hint leaves the failure list alone. -/
theorem Lib.Recording.withMap {ids : List UInt32} (h : lib.Recording ids) (m : PmMap) :
    Lib.Recording { lib with map := m } ids :=
  ⟨h.initComplete, h.handle, h.listFile⟩

/-- The image of the point, if it is written. -/
def newDump (env : Env) (lib : Lib) : List Dump :=
  if env.saves lib.failureId then [⟨lib.failureId, imageName env lib.tcName lib.failureId⟩] else []

theorem dumpImage_imgGen (h : lib.handle = .opened) :
    dumpImage env lib .imgGen = .ok { lib with
      dumps := lib.dumps ++ newDump env lib
      listFile := lib.listFile.map (· ++ line (asInt lib.failureId)) } := by
  cases hsaves : env.saves lib.failureId <;> simp [dumpImage, newDump, h, hsaves]

/-- A failure point of a library that is initialized. -/
theorem inject_imgGen_eq (hmode : getFiMode env = .ok .imgGen) (hinit : lib.initComplete = true)
    (rand : ℕ) :
    pmfuzzInjectFailure env lib rand =
      if lib.fires env rand then
        dumpImage env { lib with
          failureId := lib.failureId + 1
          last := memCopy lib.last lib.map.area lib.map.mapSize.toNat } .imgGen
      else .ok { lib with failureId := lib.failureId + 1 } := by
  simp only [pmfuzzInjectFailure, hinit, hmode]
  rfl

theorem Lib.Recording.inject {ids : List UInt32} (hmode : getFiMode env = .ok .imgGen)
    (h : lib.Recording ids) (rand : ℕ) :
    ∃ t, pmfuzzInjectFailure env lib rand = .ok t ∧ t.map = lib.map ∧
      t.failureId = lib.failureId + 1 ∧
      (lib.fires env rand = true ∧ t.Recording (ids ++ [lib.failureId + 1]) ∨
        lib.fires env rand = false ∧ t.last = lib.last ∧ t.Recording ids) := by
  rw [inject_imgGen_eq hmode h.initComplete]
  cases hf : lib.fires env rand with
  | false =>
    exact ⟨_, rfl, rfl, rfl, .inr ⟨rfl, rfl, h.initComplete, h.handle, h.listFile⟩⟩
  | true =>
    refine ⟨_, dumpImage_imgGen h.handle, rfl, rfl, .inl ⟨rfl, h.initComplete, h.handle, ?_⟩⟩
    simp [h.listFile]

/-- The ids recorded come in order, and there are none exactly in a quiet
run. -/
theorem Lib.Recording.calls {ids : List UInt32} {n : ℕ} (hmode : getFiMode env = .ok .imgGen)
    (h : lib.Recording ids) (hid : lib.failureId + 1 = UInt32.ofNat n)
    (hs : Libpmfuzz.calls env lib events = .ok s) :
    ∃ new : List ℕ, s.Recording (ids ++ new.map UInt32.ofNat) ∧ new.Pairwise (· < ·) ∧
      (∀ i ∈ new, n ≤ i ∧ i < n + points events) ∧
      (new = [] ↔ Quiet env lib.last lib.failureId lib.map events) := by
  induction events generalizing lib ids n with
  | nil =>
    cases hs
    exact ⟨[], by simpa using h, .nil, by simp, by simp [Quiet]⟩
  | cons e events ih =>
    cases e with
    | hint hint =>
      obtain ⟨m, hm, hs⟩ := calls_hint_ok hs
      obtain ⟨new, hrec, hsort, hbd, hq⟩ := ih (h.withMap m) hid hs
      refine ⟨new, hrec, hsort, hbd, hq.trans ⟨fun q m' hm' => ?_, fun q => q m hm⟩⟩
      rw [hm] at hm'; cases hm'; exact q
    | failure rand =>
      obtain ⟨t, ht, hmap, hfid, hcase⟩ := h.inject hmode rand
      have hid' : t.failureId + 1 = UInt32.ofNat (n + 1) := by
        rw [hfid, hid, UInt32.ofNat_add]; rfl
      rw [calls_failure, ht] at hs
      rcases hcase with ⟨hf, hrec⟩ | ⟨hf, hlast, hrec⟩
      · obtain ⟨new, hrec', hsort, hbd, -⟩ := ih hrec hid' hs
        refine ⟨n :: new, ?_, ?_, ?_, ?_⟩
        · simpa [hid] using hrec'
        · exact .cons (fun i hi => (hbd i hi).1) hsort
        · intro i hi
          rcases List.mem_cons.mp hi with rfl | hi
          · simp only [points]; omega
          · have := hbd i hi
            simp only [points]; omega
        · constructor
          · exact fun hnil => absurd hnil (List.cons_ne_nil _ _)
          · rintro ⟨hq, -⟩
            unfold Lib.fires at hf
            rw [hf] at hq; cases hq
      · obtain ⟨new, hrec', hsort, hbd, hq⟩ := ih hrec hid' hs
        refine ⟨new, hrec', hsort, fun i hi => ?_, ?_⟩
        · have := hbd i hi
          simp only [points]; omega
        · rw [hq, hlast, hfid, hmap]
          exact ⟨fun q => ⟨hf, q⟩, fun q => q.2⟩

/-- The map evolves by the hints alone. -/
theorem Lib.Recording.mapAfter {ids : List UInt32} (hmode : getFiMode env = .ok .imgGen)
    (h : lib.Recording ids) (hs : Libpmfuzz.calls env lib events = .ok s) :
    Libpmfuzz.mapAfter env.toMapEnv lib.map events = .ok s.map := by
  induction events generalizing lib ids with
  | nil => cases hs; rfl
  | cons e events ih =>
    cases e with
    | hint hint =>
      obtain ⟨m, hm, hs⟩ := calls_hint_ok hs
      have := ih (h.withMap m) hs
      simp only [Libpmfuzz.mapAfter, hm]
      exact this
    | failure rand =>
      obtain ⟨t, ht, hmap, -, hcase⟩ := h.inject hmode rand
      rw [calls_failure, ht] at hs
      simp only [Libpmfuzz.mapAfter]
      rw [← hmap]
      rcases hcase with ⟨-, hrec⟩ | ⟨-, -, hrec⟩
      · exact ih hrec hs
      · exact ih hrec hs

/-! ## Replaying -/

/-- In a replay the table decides. -/
theorem inject_imgRep_eq (hmode : getFiMode env = .ok .imgRep) (hinit : lib.initComplete = true)
    (rand : ℕ) :
    pmfuzzInjectFailure env lib rand =
      if (lib.failureId + 1).toNat < maxFailureCount then
        if lib.table (lib.failureId + 1).toNat ≠ 0 then
          dumpImage env { lib with failureId := lib.failureId + 1 } .imgRep
        else .ok { lib with failureId := lib.failureId + 1 }
      else .error .access := by
  simp only [pmfuzzInjectFailure, hinit, hmode]
  rfl

/-- One point within the table. -/
theorem inject_imgRep (hmode : getFiMode env = .ok .imgRep) (hinit : lib.initComplete = true)
    (rand : ℕ) (hid : (lib.failureId + 1).toNat < maxFailureCount) :
    ∃ t, pmfuzzInjectFailure env lib rand = .ok t ∧ t.map = lib.map ∧ t.table = lib.table ∧
      t.initComplete = true ∧ t.failureId = lib.failureId + 1 ∧
      t.dumps.map Dump.id = lib.dumps.map Dump.id ++
        if lib.table (lib.failureId + 1).toNat ≠ 0 ∧ env.saves (lib.failureId + 1) = true then [lib.failureId + 1]
        else [] := by
  rw [inject_imgRep_eq hmode hinit, if_pos hid]
  by_cases htab : lib.table (lib.failureId + 1).toNat ≠ 0
  · rw [if_pos htab, dumpImage, if_neg fun h => by cases h.1]
    split
    · rename_i hsaves
      refine ⟨_, rfl, rfl, rfl, hinit, rfl, ?_⟩
      rw [if_pos ⟨htab, hsaves⟩]
      exact List.map_append
    · rename_i hsaves
      refine ⟨_, rfl, rfl, rfl, hinit, rfl, ?_⟩
      rw [if_neg fun h => hsaves h.2, List.append_nil]
  · rw [if_neg htab, if_neg fun h => htab h.1]
    exact ⟨_, rfl, rfl, rfl, hinit, rfl, by simp⟩

theorem ofNat_toNat {n : ℕ} (h : n ≤ maxFailureCount) : (UInt32.ofNat n).toNat = n :=
  UInt32.toNat_ofNat_of_lt' (lt_of_le_of_lt h (by decide))

/-- The replay dumps the points whose entry is marked, as far as their images can be written. -/
theorem calls_replay {m : PmMap} {n : ℕ} (hmode : getFiMode env = .ok .imgRep)
    (hinit : lib.initComplete = true) (hid : lib.failureId + 1 = UInt32.ofNat n)
    (hm : mapAfter env.toMapEnv lib.map events = .ok m)
    (hn : n + points events ≤ maxFailureCount) :
    ∃ s, calls env lib events = .ok s ∧ s.dumps.map Dump.id = lib.dumps.map Dump.id ++
      ((List.range' n (points events)).filter fun i =>
        lib.table i ≠ 0 ∧ env.saves (UInt32.ofNat i) = true).map UInt32.ofNat := by
  induction events generalizing lib n with
  | nil => exact ⟨lib, rfl, by simp [points]⟩
  | cons e events ih =>
    cases e with
    | hint hint =>
      obtain ⟨m', hh, hm⟩ := mapAfter_hint_ok hm
      have hinit' : Lib.initComplete { lib with map := m' } = true := hinit
      rw [calls_hint, hh]
      exact ih hinit' hid hm hn
    | failure rand =>
      simp only [points] at hn
      have hnat : (lib.failureId + 1).toNat = n := by rw [hid, ofNat_toNat (by omega)]
      obtain ⟨t, ht, hmap, htab, hinit', hfid, hd⟩ :=
        inject_imgRep hmode hinit rand (by rw [hnat]; omega)
      have hid' : t.failureId + 1 = UInt32.ofNat (n + 1) := by
        rw [hfid, hid, UInt32.ofNat_add]; rfl
      obtain ⟨s, hs, hsd⟩ := ih hinit' hid' (by rw [hmap]; exact hm) (by omega)
      refine ⟨s, by rw [calls_failure, ht]; exact hs, ?_⟩
      rw [hsd, hd, hnat, htab, hid, points, List.range'_succ, List.filter_cons, List.append_assoc]
      congr 1
      by_cases h0 : lib.table n = 0 <;> cases env.saves (UInt32.ofNat n) <;> simp [h0]

/-- More points than the table has entries. -/
theorem calls_replay_overrun {m : PmMap} {n : ℕ} (hmode : getFiMode env = .ok .imgRep)
    (hinit : lib.initComplete = true) (hid : lib.failureId + 1 = UInt32.ofNat n)
    (hm : mapAfter env.toMapEnv lib.map events = .ok m) (hle : n ≤ maxFailureCount)
    (hn : maxFailureCount < n + points events) : calls env lib events = .error .access := by
  induction events generalizing lib n with
  | nil => simp only [points] at hn; omega
  | cons e events ih =>
    cases e with
    | hint hint =>
      obtain ⟨m', hh, hm⟩ := mapAfter_hint_ok hm
      have hinit' : Lib.initComplete { lib with map := m' } = true := hinit
      rw [calls_hint, hh]
      exact ih hinit' hid hm hle hn
    | failure rand =>
      simp only [points] at hn
      have hnat : (lib.failureId + 1).toNat = n := by rw [hid, ofNat_toNat hle]
      rcases Nat.lt_or_ge n maxFailureCount with hlt | hge
      · obtain ⟨t, ht, hmap, -, hinit', hfid, -⟩ :=
          inject_imgRep hmode hinit rand (by rw [hnat]; exact hlt)
        have hid' : t.failureId + 1 = UInt32.ofNat (n + 1) := by
          rw [hfid, hid, UInt32.ofNat_add]; rfl
        rw [calls_failure, ht]
        exact ih hinit' hid' (by rw [hmap]; exact hm) (by omega) (by omega)
      · rw [calls_failure, inject_imgRep_eq hmode hinit, if_neg (by omega)]
        rfl

/-! ## The two runs -/

theorem asInt_injective : Function.Injective asInt := fun a b h => by
  have h' : a.toInt32 = b.toInt32 := Int32.toInt_inj.mp h
  simpa using congrArg Int32.toUInt32 h'

/-- The ids in a failure list are determined by its text. -/
theorem lines_injective {as bs : List UInt32}
    (h : (as.flatMap fun id => line (asInt id)) = bs.flatMap fun id => line (asInt id)) : as = bs := by
  have hlines : ∀ ids : List UInt32,
      (ids.flatMap fun id => line (asInt id)) = (ids.map asInt).flatMap line := fun ids => by
    rw [List.flatMap_map]
  rw [hlines, hlines] at h
  have hread := congrArg (readIds (max as.length bs.length)) h
  rw [readIds_lines, readIds_lines, List.take_of_length_le (by simp),
    List.take_of_length_le (by simp), Option.some.injEq] at hread
  exact List.map_injective_iff.mpr asInt_injective hread

/-- `pmfuzz_init` for recording. -/
theorem pmfuzzInit_imgGen (env : Env) (path : List Char) (hmode : env.fiMode = some "IMG_GEN")
    (hlist : env.failureList = true) (hfresh : lib.Fresh) (hw : env.writable = true) :
    ∃ t, pmfuzzInit env lib path = .ok t ∧ t.Recording [] ∧ t.map = lib.map ∧ t.last = lib.last ∧
      t.failureId = lib.failureId := by
  simp only [pmfuzzInit, hfresh.initComplete, getFiMode, hmode, hlist, hw]
  exact ⟨_, rfl, ⟨rfl, rfl, rfl⟩, rfl, rfl, rfl⟩

theorem pmfuzzInit_not_writable {path : List Char} (hmode : env.fiMode = some "IMG_GEN")
    (hlist : env.failureList = true) (hfresh : lib.Fresh) (hw : env.writable = false) :
    pmfuzzInit env lib path = .error .assertion := by
  simp only [pmfuzzInit, hfresh.initComplete, getFiMode, hmode, hlist, hw]
  rfl

/-- `pmfuzz_init` for the replay reads the ids back, as far as the table
goes. -/
theorem pmfuzzInit_imgRep (env : Env) (saves : UInt32 → Bool) (path : List Char) {ids : List UInt32}
    (hlist : env.failureList = true)
    (hfresh : lib.Fresh) (hfile : lib.listFile = some (ids.flatMap fun id => line (asInt id))) :
    ∃ t, pmfuzzInit (env.replay saves) lib path = .ok t ∧ t.initComplete = true ∧ t.map = lib.map ∧
      t.failureId = lib.failureId ∧ t.dumps = [] ∧
      t.table = storeIds lib.table ((ids.map asInt).take maxFailureCount) := by
  have hread : readIds maxFailureCount (ids.flatMap fun id => line (asInt id)) =
      some ((ids.map asInt).take maxFailureCount) := by
    rw [← readIds_lines, List.flatMap_map]
  have hmode : getFiMode (env.replay saves) = .ok .imgRep := by
    simp [getFiMode, Env.replay, hlist]
  have hset : (env.replay saves).failureList = true := hlist
  simp only [pmfuzzInit, hfresh.initComplete, hmode, hset, hfile, ↓reduceIte, bind, Except.bind,
    hread]
  exact ⟨_, rfl, rfl, rfl, rfl, hfresh.dumps, rfl⟩

theorem storeIds_of_le {table : Mem} {ids : List ℤ} {k : ℕ} (h : ids.length ≤ k) :
    storeIds table ids k = table k := by
  simp [storeIds, List.getElem?_eq_none h]

theorem storeIds_zero {table : Mem} {ids : List ℤ} : storeIds table (0 :: ids) 0 = 0 := rfl

theorem mem_map_ofNat {is : List ℕ} {i : ℕ} (hi : i ≤ maxFailureCount)
    (h : ∀ k ∈ is, k ≤ maxFailureCount) : UInt32.ofNat i ∈ is.map UInt32.ofNat ↔ i ∈ is := by
  rw [List.mem_map]
  refine ⟨fun ⟨k, hk, heq⟩ => ?_, fun hi => ⟨i, hi, rfl⟩⟩
  have := congrArg UInt32.toNat heq
  rw [ofNat_toNat (h k hk), ofNat_toNat hi] at this
  exact this ▸ hk

/-- Ids in order between two bounds. -/
theorem length_le_of_pairwise {is : List ℕ} {a b : ℕ} (hsort : is.Pairwise (· < ·))
    (h : ∀ i ∈ is, a ≤ i ∧ i < b) : is.length ≤ b - a := by
  have hsub : is.toFinset ⊆ Finset.Ico a b := fun i hi =>
    Finset.mem_Ico.mpr (h i (List.mem_toFinset.mp hi))
  have hcard := Finset.card_le_card hsub
  have hnodup : is.Nodup := hsort.imp fun h => Nat.ne_of_lt h
  rwa [List.toFinset_card_of_nodup hnodup, Nat.card_Ico] at hcard

/-- Ids in order that all lie below their number start with 0. -/
theorem head_eq_zero {a : ℕ} {is : List ℕ} (hsort : (a :: is).Pairwise (· < ·))
    (hlt : ∀ i ∈ a :: is, i < (a :: is).length) : a = 0 := by
  by_contra ha
  have hlen : (a :: is).length ≤ (a :: is).length - 1 :=
    length_le_of_pairwise hsort fun i hi => by
      have hlo : a ≤ i := by
        rcases List.mem_cons.mp hi with rfl | hi
        · exact le_rfl
        · exact le_of_lt (List.rel_of_pairwise_cons hsort hi)
      exact ⟨by omega, hlt i hi⟩
  simp only [List.length_cons] at hlen
  omega

/-- The ids themselves are never all marked positions, unless there are none. -/
theorem marked_ne {is : List ℕ} {table : Mem} (htable : ∀ k, table k = 0) (hsort : is.Pairwise (· < ·))
    (h : ∀ i ∈ is, storeIds table (is.map fun i : ℕ => asInt (.ofNat i)) i ≠ 0) : is = [] := by
  cases is with
  | nil => rfl
  | cons a is =>
    have hpos : ∀ i ∈ a :: is, i < (a :: is).length := fun i hi => by
      by_contra hge
      refine h i hi ?_
      rw [storeIds_of_le (by simpa using hge), htable]
    have ha : a = 0 := head_eq_zero hsort hpos
    subst ha
    exact absurd storeIds_zero (h 0 List.mem_cons_self)

/-- The replay agrees with the record exactly when nothing is recorded and
every point has an entry in the table. -/
theorem replayAgrees_iff (saves : UInt32 → Bool) (path : List Char) (hmode : env.fiMode = some "IMG_GEN")
    (hlist : env.failureList = true) (hfresh : lib.Fresh)
    (hrec : runTarget env lib path events = .ok s) :
    ReplayAgrees env saves lib path events s ↔
      Quiet env lib.last lib.failureId lib.map events ∧ points events ≤ maxFailureCount := by
  have hgen : getFiMode env = .ok .imgGen := by simp [getFiMode, hmode]
  -- the recording run
  obtain ⟨t, ht, hready, htmap, htlast, htid⟩ := pmfuzzInit_imgGen env path hmode hlist hfresh
    (by
      by_contra hw
      rw [runTarget, pmfuzzInit_not_writable hmode hlist hfresh (by simpa using hw)] at hrec
      cases hrec)
  rw [runTarget, ht] at hrec
  have hcalls : calls env t events = .ok s := hrec
  have hzero : t.failureId + 1 = UInt32.ofNat 0 := by rw [htid, hfresh.failureId]; rfl
  obtain ⟨is, hrecd, hsort, hbd, hquiet⟩ := hready.calls hgen hzero hcalls
  have hmap := hready.mapAfter hgen hcalls
  rw [htlast, htid, htmap] at hquiet
  rw [htmap] at hmap
  rw [List.nil_append] at hrecd
  -- the replay
  have hfresh' : Lib.Fresh { lib with listFile := s.listFile } :=
    ⟨hfresh.initComplete, hfresh.failureId, hfresh.table, hfresh.handle, hfresh.dumps⟩
  obtain ⟨u, hu, huinit, humap, huid, hudumps, hutab⟩ :=
    pmfuzzInit_imgRep env saves path hlist hfresh' hrecd.listFile
  have hrep : getFiMode (env.replay saves) = .ok .imgRep := by simp [getFiMode, Env.replay, hlist]
  have hzero' : u.failureId + 1 = UInt32.ofNat 0 := by rw [huid, hfresh.failureId]; rfl
  have hmap' : mapAfter (env.replay saves).toMapEnv u.map events = .ok s.map := by rw [humap]; exact hmap
  rw [← hquiet]
  rcases Nat.lt_or_ge maxFailureCount (points events) with hover | hfit
  · -- the replay leaves the table
    constructor
    · rintro ⟨-, -, r, hr, -⟩
      rw [runTarget, hu] at hr
      have : calls (env.replay saves) u events = .error .access :=
        calls_replay_overrun hrep huinit hzero' hmap' (Nat.zero_le _) (by omega)
      change calls (env.replay saves) u events = .ok r at hr
      rw [this] at hr; cases hr
    · rintro ⟨-, hfit⟩; omega
  · have hlen : is.length ≤ maxFailureCount := by
      have := length_le_of_pairwise hsort hbd
      omega
    rw [List.map_map, List.take_of_length_le (by simpa using hlen)] at hutab
    change u.table = storeIds lib.table (is.map fun i : ℕ => asInt (.ofNat i)) at hutab
    obtain ⟨r, hr, hrd⟩ := calls_replay hrep huinit hzero' hmap' (by omega)
    rw [hudumps, List.map_nil, List.nil_append] at hrd
    constructor
    · rintro ⟨ids, hfile, r', hr', hids⟩
      refine ⟨?_, hfit⟩
      rw [runTarget, hu] at hr'
      change calls (env.replay saves) u events = .ok r' at hr'
      rw [hr, Except.ok.injEq] at hr'
      subst hr'
      rw [hrecd.listFile, Option.some.injEq] at hfile
      rw [← lines_injective hfile, hrd] at hids
      refine marked_ne hfresh.table hsort fun i hi => ?_
      have hbound := hbd i hi
      have hrange : ∀ k ∈ (List.range' 0 (points events)).filter fun k =>
          decide (u.table k ≠ 0 ∧ (env.replay saves).saves (UInt32.ofNat k) = true), k < 0 + points events :=
            fun k hk => by
        have := (List.mem_filter.mp hk).1
        rw [List.mem_range'_1] at this
        exact this.2
      have hin := (hids (UInt32.ofNat i)).mpr (List.mem_map_of_mem hi)
      rw [mem_map_ofNat (by omega) fun k hk => by have := hrange k hk; omega, List.mem_filter, decide_eq_true_eq] at hin
      rw [← hutab]
      exact hin.2.1
    · rintro ⟨rfl, -⟩
      refine ⟨[], hrecd.listFile, r, ?_, fun id => ?_⟩
      · rw [runTarget, hu]; exact hr
      · have hnone : ∀ k, u.table k = 0 := fun k => by rw [hutab]; exact hfresh.table k
        rw [hrd]
        simp [hnone]

/-! ## Two runs -/

/-- Every changed point is recorded. -/
def recordEnv : Env where
  enablePmPath := true
  unfocussedMode := false
  fiMode := some "IMG_GEN"
  failureList := true
  writable := true
  fiImgSuffix := none
  genAllCs := false
  imgCreatFinj := true
  saves _ := true

/-- A process at its start. -/
def startLib : Lib where
  map := { area := fun _ => 0, mapSize := 262144, prevLoc := 0, sraElemSize := 0 }
  last := fun _ => 0
  initComplete := false
  failureId := -1
  table := fun _ => 0
  handle := .null
  listFile := none
  tcName := []
  dumps := []

theorem startLib_fresh : startLib.Fresh := ⟨rfl, rfl, fun _ => rfl, rfl, rfl⟩

theorem memDiff_self (a : Mem) (n : ℕ) : memDiff a a n = false := by simp [memDiff]

theorem memDiff_of_ne {a b : Mem} {n k : ℕ} (hk : k < n) (h : a k ≠ b k) : memDiff a b n = true := by
  rw [memDiff, List.any_eq_true]
  exact ⟨k, List.mem_range.mpr hk, by simpa using h⟩

/-- A point that finds the map unchanged. -/
theorem quiet_unchanged {m : PmMap} {id : UInt32} {rand : ℕ} :
    Quiet env m.area id m [.failure rand] := by
  refine ⟨?_, trivial⟩
  rw [memDiff_self, Bool.false_and]

theorem recordEnv_imgGen : getFiMode recordEnv = .ok .imgGen := rfl

/-- Without a hint nothing is recorded. -/
theorem replayAgrees_no_hint : ∃ s, runTarget recordEnv startLib "a.pm_pool".toList [.failure 7] = .ok s ∧
    ReplayAgrees recordEnv recordEnv.saves startLib "a.pm_pool".toList [.failure 7] s := by
  obtain ⟨t, ht, hready, -⟩ := pmfuzzInit_imgGen recordEnv "a.pm_pool".toList
    rfl rfl startLib_fresh rfl
  obtain ⟨s, hinject, -⟩ := hready.inject recordEnv_imgGen 7
  have hs : runTarget recordEnv startLib "a.pm_pool".toList [.failure 7] = .ok s := by
    rw [runTarget, ht]
    change calls recordEnv t _ = _
    rw [calls_failure, hinject]
    rfl
  have hlast : startLib.last = startLib.map.area := rfl
  refine ⟨s, hs, (replayAgrees_iff _ _ rfl rfl startLib_fresh hs).mpr ⟨?_, by decide⟩⟩
  rw [hlast]
  exact quiet_unchanged

/-- The map after `pmfuzz_ro(5)`. -/
def hintedMap : PmMap where
  area := Function.update (fun _ => 0) 5 1
  mapSize := 262144
  prevLoc := 2
  sraElemSize := 0

theorem hint_startLib : (Hint.ro 5).apply recordEnv.toMapEnv startLib.map = .ok hintedMap := rfl

/-- After a hint the first point, with id 0, is recorded. -/
theorem record_hint (path : List Char) :
    ∃ s, runTarget recordEnv startLib path [.hint (.ro 5), .failure 0] = .ok s ∧ s.Recording [0] := by
  obtain ⟨t, ht, hready, htmap, htlast, htid⟩ :=
    pmfuzzInit_imgGen recordEnv path rfl rfl startLib_fresh rfl
  obtain ⟨s, hs, -, -, hcase⟩ := (hready.withMap hintedMap).inject recordEnv_imgGen 0
  have hfires : Lib.fires recordEnv { t with map := hintedMap } 0 = true := by
    have hdiff : memDiff hintedMap.area t.last hintedMap.mapSize.toNat = true := by
      rw [htlast]
      exact memDiff_of_ne (k := 5) (by decide) (by decide)
    simp only [Lib.fires, hdiff, Bool.true_and]
    rfl
  refine ⟨s, ?_, ?_⟩
  · rw [runTarget, ht]
    change calls recordEnv t _ = _
    rw [calls_hint, htmap, hint_startLib]
    change calls recordEnv { t with map := hintedMap } _ = _
    rw [calls_failure, hs]
    rfl
  · rcases hcase with ⟨-, hrec⟩ | ⟨hno, -⟩
    · change s.Recording ([] ++ [t.failureId + 1]) at hrec
      rw [htid] at hrec
      exact hrec
    · rw [hfires] at hno; cases hno

/-- The replay of that list misses the point. -/
theorem replay_misses_recorded :
    ¬ ∀ (env : Env) (saves : UInt32 → Bool) (lib s : Lib) (path : List Char) (events : List Event),
      env.fiMode = some "IMG_GEN" → env.failureList = true → lib.Fresh →
      runTarget env lib path events = .ok s → ReplayAgrees env saves lib path events s := by
  intro h
  obtain ⟨s, hs, hrec⟩ := record_hint []
  obtain ⟨ids, hfile, r, hr, hids⟩ := h recordEnv recordEnv.saves startLib s [] _ rfl rfl startLib_fresh hs
  rw [hrec.listFile, Option.some.injEq] at hfile
  rw [← lines_injective hfile] at hids
  have hfresh : Lib.Fresh { startLib with listFile := s.listFile } := ⟨rfl, rfl, fun _ => rfl, rfl, rfl⟩
  obtain ⟨u, hu, huinit, humap, huid, hudumps, hutab⟩ :=
    pmfuzzInit_imgRep recordEnv recordEnv.saves [] rfl hfresh hrec.listFile
  have hmap : mapAfter recordEnv.toMapEnv startLib.map [.hint (.ro 5), .failure 0] = .ok hintedMap := by
    simp only [mapAfter, hint_startLib]
    rfl
  have hrep : getFiMode (recordEnv.replay recordEnv.saves) = .ok .imgRep := rfl
  have hzero : u.failureId + 1 = UInt32.ofNat 0 := by
    rw [huid]
    show (-1 : UInt32) + 1 = 0
    decide
  have hmap' : mapAfter (recordEnv.replay recordEnv.saves).toMapEnv u.map [.hint (.ro 5), .failure 0] =
      .ok hintedMap := by
    rw [humap]
    exact hmap
  obtain ⟨r', hr', hrd⟩ := calls_replay hrep huinit hzero hmap' (by decide)
  rw [runTarget, hu] at hr
  change calls (recordEnv.replay recordEnv.saves) u _ = _ at hr
  rw [hr', Except.ok.injEq] at hr
  have hnone : r.dumps.map Dump.id = [] := by
    rw [← hr, hrd, hudumps, hutab]
    change (((List.range' 0 1).filter fun i => decide (storeIds (fun _ => 0) [0] i ≠ 0 ∧ true = true)).map
      UInt32.ofNat) = []
    decide
  have := (hids 0).mpr (by simp)
  rw [hnone] at this
  exact absurd this (by simp)

end PMFuzz.Libpmfuzz
