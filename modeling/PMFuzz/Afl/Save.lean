import PMFuzz.Afl.Calibrate
import PMFuzz.Framework.Ends

/-!
# Saving an input

`save_if_interesting`: an input whose run shows something new becomes an
entry of the queue. It is calibrated and then written to `queue/`, with the map of
the last calibration run; if its own run has accessed PM, there is a copy of it and the PM map,
too. A run that hangs or crashes is saved apart, up to a limit.
-/

namespace PMFuzz.Afl

open Libpmfuzz (Mem)

/-! ## The code -/

/-- `pm_read_count`. -/
def pmReadCount (pmMap : Mem) (mapSize : ℕ) : UInt32 :=
  (List.range mapSize).foldl (fun result i => if i < mapSize / 2 ∧ pmMap i ≠ 0 then result + 1 else result) 0

/-- `pm_write_count`. -/
def pmWriteCount (pmMap : Mem) (mapSize : ℕ) : UInt32 :=
  (List.range mapSize).foldl (fun result i => if i ≥ mapSize / 2 ∧ pmMap i ≠ 0 then result + 1 else result) 0

/-- `hnb_pm`. -/
def hnbPm (env : Env) (pmMap : Mem) : Bool :=
  (decide (env.pmfuzzFocus = .ro ∨ env.pmfuzzFocus = .rw) && pmReadCount pmMap env.mapSize != 0) ||
    (decide (env.pmfuzzFocus = .wo ∨ env.pmfuzzFocus = .rw) && pmWriteCount pmMap env.mapSize != 0)

/-- `describe_op`, from what it has for an answer other than 2. -/
def describeOp (op : Str) (hnb : UInt8) : Str := if hnb = 2 then op ++ ",+cov".toList else op

/-- The first entry with the checksum has been found once more. -/
def countPath (s : Fuzzer) (cksum : UInt32) : Fuzzer :=
  match (List.range s.queuedPaths).find? fun p => (s.queue p).execCksum == cksum with
  | some p => s.modify p fun e => { e with nFuzz := e.nFuzz + 1 }
  | none => s

/-- The entry that `add_to_queue` makes. -/
def newEntry (s : Fuzzer) (fname : Name) (len : ℕ) : QueueEntry where
  fname := fname
  len := len
  calFailed := 0
  trimDone := false
  wasFuzzed := false
  hasNewCov := false
  varBehavior := false
  favored := false
  fsRedundant := false
  bitmapSize := 0
  fuzzLevel := 0
  execCksum := 0
  execUs := 0
  handicap := 0
  nFuzz := 1
  depth := s.curDepth + 1
  traceMini := none
  tcRef := 0
  newPmAccess := s.hadNewPmAccess

/-- `add_to_queue`. -/
def addToQueue (s : Fuzzer) (fname : Name) (len : ℕ) : Fuzzer :=
  { s with
    queue := Function.update s.queue s.queuedPaths (newEntry s fname len)
    hadNewPmAccess := false
    queuedPaths := s.queuedPaths + 1
    pendingNotFuzzed := s.pendingNotFuzzed + 1 }

/-- What `save_if_interesting` writes to `queue/`. -/
def writeEntry (env : Env) (s : Fuzzer) (name : Name) (mem : List UInt8) (hnbPm : Bool) : Except Abort Fuzzer := do
  let s ← createExcl s ⟨.testcase, name⟩ mem
  let s ← createExcl s ⟨.map, name⟩ (mapBytes env s.maps.traceBits)
  if hnbPm then
    let s ← createExcl s ⟨.pm, name⟩ mem
    createExcl s ⟨.pmMap, name⟩ (mapBytes env s.maps.tracePmBits)
  else return s

/-- An input with new bits. -/
def saveEntry (env : Env) (s : Fuzzer) (mem : List UInt8) (op : Str) (hnb : UInt8) (hnbPm : Bool) (cksum : UInt32) :
    Except Abort Fuzzer := do
  let name : Name := ⟨s.queuedPaths + 1, describeOp op hnb⟩
  let q := s.queuedPaths
  let s := addToQueue s name mem.length
  let s := if hnb = 2 then
      { s.modify q fun e => { e with hasNewCov := true } with queuedWithCov := s.queuedWithCov + 1 }
    else s
  let s := s.modify q fun e => { e with execCksum := cksum }
  let r ← calibrateCase env s q mem (s.queueCycle - 1).toUInt32 false
  if r.2 = .error then throw .target
  writeEntry env r.1 name mem hnbPm

/-- What a crash or a hang shows, on the simplified trace. -/
def newFault (env : Env) (s : Fuzzer) (v : Virgin) : Fuzzer × Bool :=
  if env.dumbMode then (s, true)
  else
    let r := Fuzzer.hasNewBits env
      { s with maps := { s.maps with traceBits := simplifyTrace s.maps.traceBits env.words } } v
    (r.1, r.2 != 0)

/-- A crash that is kept. -/
def keepCrash (s : Fuzzer) (mem : List UInt8) (op : Str) : Except Abort Fuzzer :=
  createExcl { s with uniqueCrashes := s.uniqueCrashes + 1 }
    ⟨.crashes, crashName s.uniqueCrashes.toNat s.killSignal op⟩ mem

/-- `keep_as_crash`. -/
def saveCrash (env : Env) (s : Fuzzer) (mem : List UInt8) (op : Str) : Except Abort Fuzzer :=
  let s := { s with totalCrashes := s.totalCrashes + 1 }
  if s.uniqueCrashes ≥ keepUniqueCrash then .ok s
  else
    let r := newFault env s .crash
    if r.2 then keepCrash r.1 mem op else .ok r.1

/-- A hang that is kept. -/
def keepHang (s : Fuzzer) (mem : List UInt8) (op : Str) : Except Abort Fuzzer :=
  createExcl { s with uniqueHangs := s.uniqueHangs + 1 } ⟨.hangs, ⟨s.uniqueHangs.toNat, op⟩⟩ mem

/-- `case FAULT_TMOUT`. -/
def saveHang (env : Env) (s : Fuzzer) (mem : List UInt8) (op : Str) : Except Abort Fuzzer :=
  let s := { s with totalTmouts := s.totalTmouts + 1 }
  if s.uniqueHangs ≥ keepUniqueHang then .ok s
  else
    let r := newFault env s .tmout
    if r.2 then
      let s := { r.1 with uniqueTmouts := r.1.uniqueTmouts + 1 }
      if env.execTmout < env.hangTmout then
        let r := runTarget env s mem env.hangTmout
        if r.1.stopSoon = false ∧ r.2 = .crash then saveCrash env r.1 mem op
        else if r.1.stopSoon ∨ r.2 ≠ .tmout then .ok r.1
        else keepHang r.1 mem op
      else keepHang s mem op
    else .ok r.1

/-- The `switch` over the fault. -/
def saveFault (env : Env) (s : Fuzzer) (mem : List UInt8) (fault : Fault) (op : Str) : Except Abort Fuzzer :=
  match fault with
  | .tmout => saveHang env s mem op
  | .crash => saveCrash env s mem op
  | .error => .error .target
  | _ => .ok s

/-- `save_if_interesting`. -/
def saveIfInteresting (env : Env) (s : Fuzzer) (mem : List UInt8) (fault : Fault) (op opFault : Str) :
    Except Abort (Fuzzer × Bool) :=
  if mem = [] then .ok (s, false)
  else
    let pm := hnbPm env s.maps.tracePmBits
    let cksum := env.hash32 s.maps.traceBits
    let s := countPath s cksum
    if fault = env.crashMode then
      let r := s.hasNewBits env .bits
      if r.2 = 0 then
        .ok ({ r.1 with
          totalCrashes := if env.crashMode = .none then r.1.totalCrashes else r.1.totalCrashes + 1 }, false)
      else do
        let s ← saveEntry env r.1 mem op r.2 pm cksum
        return (← saveFault env s mem fault opFault, true)
    else do
      return (← saveFault env s mem fault opFault, false)

/-! ## The books -/

variable {env : Env} {s s' : Fuzzer} {v v' v'' : View} {q n turns : ℕ} {mem : List UInt8} {name : Name}
  {path : FilePath} {content : List UInt8}

/-- What the rest of the fuzzer relies on while inputs are saved. -/
structure Grown (v v' : View) : Prop where
  queueCur : v'.queueCur = v.queueCur
  seekTo : v'.seekTo = v.seekTo
  paths : v.queuedPaths ≤ v'.queuedPaths
  entry : ∀ p < v.queuedPaths, v'.fname p = v.fname p ∧ v'.len p = v.len p
  /-- No file is overwritten. -/
  kept : ∀ path content, v.files path = some content → v'.files path = some content
  /-- Entries get no files later on. -/
  files : ∀ path : FilePath, path.dir.IsEntry → path.name.id ≤ v.queuedPaths →
    v'.files path.render = v.files path.render

theorem Grown.refl (v : View) : Grown v v := ⟨rfl, rfl, le_rfl, fun _ _ => ⟨rfl, rfl⟩, fun _ _ => id, fun _ _ _ => rfl⟩

theorem Grown.trans (h : Grown v v') (h' : Grown v' v'') : Grown v v'' where
  queueCur := h'.queueCur.trans h.queueCur
  seekTo := h'.seekTo.trans h.seekTo
  paths := h.paths.trans h'.paths
  entry p hp := by
    obtain ⟨hname, hlen⟩ := h.entry p hp
    obtain ⟨hname', hlen'⟩ := h'.entry p (hp.trans_le h.paths)
    exact ⟨hname'.trans hname, hlen'.trans hlen⟩
  kept path content hpath := h'.kept path content (h.kept path content hpath)
  files path hdir hid := (h'.files path hdir (hid.trans h.paths)).trans (h.files path hdir hid)

theorem Quiet.grown (h : Quiet s s') : Grown s.view s'.view := h.view.symm ▸ .refl _

theorem Calibrated.grown (h : Calibrated q v v') : Grown v v' := by
  have hkept := h.kept
  have hfiles := h.files
  obtain ⟨files, withCov, withVar, hasNewCov, varBehavior, rfl⟩ := h.eq
  refine ⟨rfl, rfl, le_rfl, fun _ _ => ⟨rfl, rfl⟩, hkept, fun path hdir _ => hfiles path fun heq => ?_⟩
  subst heq
  rcases hdir with h | h | h | h <;> cases h

/-- An entry has the input, a map, and the PM map if it has the copy. -/
structure Stored (env : Env) (v : View) (p : ℕ) : Prop where
  pos : 0 < v.len p
  /-- An entry is cut before its file is. -/
  testcase : ∃ content, v.files (FilePath.render ⟨.testcase, v.fname p⟩) = some content ∧ v.len p ≤ content.length
  map : ∃ content, v.files (FilePath.render ⟨.map, v.fname p⟩) = some content ∧ content.length = env.mapSize
  pm : (v.files (FilePath.render ⟨.pm, v.fname p⟩)).isSome = true →
    ∃ content, v.files (FilePath.render ⟨.pmMap, v.fname p⟩) = some content ∧ content.length = env.mapSize

theorem Stored.grown (h : Stored env v q) (hb : Books turns v) (hq : q < v.queuedPaths) (hg : Grown v v') :
    Stored env v' q := by
  have hid : (v.fname q).id ≤ v.queuedPaths := by
    rw [hb.fname q hq]
    exact hq
  have hfile : ∀ d : Dir, d.IsEntry → v'.files (FilePath.render ⟨d, v.fname q⟩) = v.files
    (FilePath.render ⟨d, v.fname q⟩) :=
    fun d hd => hg.files ⟨d, v.fname q⟩ hd hid
  obtain ⟨hname, hlen⟩ := hg.entry q hq
  refine ⟨hlen.symm ▸ h.pos, ?_, ?_, ?_⟩
  · rw [hname, hlen, hfile _ (.inl rfl)]
    exact h.testcase
  · rw [hname, hfile _ (.inr (.inl rfl))]
    exact h.map
  · rw [hname, hfile _ (.inr (.inr (.inl rfl))), hfile _ (.inr (.inr (.inr rfl)))]
    exact h.pm

/-- All that the run theorems say of a state. -/
structure Kept (env : Env) (turns : ℕ) (s : Fuzzer) : Prop extends Sound env turns s where
  stored : ∀ p < s.queuedPaths, Stored env s.view p

theorem Dir.IsFault.not_isEntry {d : Dir} (h : d.IsFault) : ¬ d.IsEntry := by
  rcases h with rfl | rfl <;> decide

/-- A file of an entry. -/
theorem Books.set_file (hb : Books turns v) (hq : q < v.queuedPaths) {d : Dir} (hd : d.IsEntry)
    (x : Option (List UInt8)) :
    Books turns { v with files := Function.update v.files (FilePath.render ⟨d, v.fname q⟩) x } := by
  have hother : ∀ path : FilePath, ¬ path.dir.IsEntry →
      Function.update v.files (FilePath.render ⟨d, v.fname q⟩) x path.render = v.files path.render := fun path hpath =>
    update_render_of_ne fun heq => hpath (heq ▸ hd)
  refine { hb with redundant := ?_, varying := ?_, fresh := ?_, owned := ?_, faults := ?_ }
  · intro p hp
    show (Function.update v.files _ x (FilePath.render ⟨.redundantEdges, v.fname p⟩)).isSome = v.fsRedundant p
    rw [hother ⟨_, _⟩ (by rintro (h | h | h | h) <;> cases h)]
    exact hb.redundant p hp
  · intro p hp
    show (Function.update v.files _ x (FilePath.render ⟨.variableBehavior, v.fname p⟩)).isSome = v.varBehavior p
    rw [hother ⟨_, _⟩ (by rintro (h | h | h | h) <;> cases h)]
    exact hb.varying p hp
  · intro path hpath
    refine (update_render_of_ne fun heq => ?_).trans (hb.fresh path hpath)
    subst heq
    have hid := hb.fname q hq
    rcases hd with rfl | rfl | rfl | rfl <;> exact absurd (hpath.trans_eq hid) (Nat.not_le.mpr (Nat.succ_lt_succ hq))
  · intro path hdir hpath
    by_cases heq : path = ⟨d, v.fname q⟩
    · exact ⟨q, hq, (congrArg FilePath.name heq).symm⟩
    · exact hb.owned path hdir ((congrArg Option.isSome (update_render_of_ne heq)).symm.trans hpath)
  · intro d' hd' k hk
    have hfile : ∀ name : Name, Function.update v.files (FilePath.render ⟨d, v.fname q⟩) x
      (FilePath.render ⟨d', name⟩) =
        v.files (FilePath.render ⟨d', name⟩) := fun name => hother ⟨d', name⟩ hd'.not_isEntry
    simp only [hfile]
    refine hb.faults d' hd' k (hk.trans_eq ?_)
    rcases hd' with rfl | rfl <;> rfl

/-- The file of the next number. -/
theorem faults_succ {files : Str → Option (List UInt8)} {d : Dir}
    (hold : ∀ k < n, ∃! name : Name, name.id = k ∧ (files (FilePath.render ⟨d, name⟩)).isSome = true)
    (hfresh : ∀ name : Name, n ≤ name.id → files (FilePath.render ⟨d, name⟩) = none) (hname : name.id = n) :
    ∀ k < n + 1, ∃! name' : Name, name'.id = k ∧
      (Function.update files (FilePath.render ⟨d, name⟩) (some content)
      (FilePath.render ⟨d, name'⟩)).isSome = true := by
  intro k hk
  have hfile : ∀ {name' : Name}, name' ≠ name → Function.update files (FilePath.render ⟨d, name⟩) (some content)
      (FilePath.render ⟨d, name'⟩) = files (FilePath.render ⟨d, name'⟩) := fun h =>
    update_render_of_ne fun heq => h (congrArg FilePath.name heq)
  rcases Nat.lt_or_eq_of_le (Nat.le_of_lt_succ hk) with hlt | rfl
  · have hne : ∀ {name' : Name}, name'.id = k → name' ≠ name := fun h heq => by
      rw [heq, hname] at h
      exact absurd h.symm hlt.ne
    obtain ⟨name', ⟨hid, hsome⟩, huniq⟩ := hold k hlt
    refine ⟨name', ⟨hid, by rwa [hfile (hne hid)]⟩, fun name'' ⟨hid', hsome'⟩ => huniq name'' ⟨hid', ?_⟩⟩
    rwa [hfile (hne hid')] at hsome'
  · refine ⟨name, ⟨hname, by rw [Function.update_self]; rfl⟩, fun name' ⟨hid, hsome⟩ => ?_⟩
    by_contra hne
    rw [hfile hne, hfresh name' hid.ge] at hsome
    cases hsome

/-- A crash or a hang that is counted and gets its file. -/
theorem Books.keep_fault (content : List UInt8) (hb : Books turns v) {d : Dir} (hd : d.IsFault)
    (hname : name.id = v.nextId d)
    {crashes hangs : UInt64} (hcrashes : crashes.toNat = v.uniqueCrashes.toNat + if d = .crashes then 1 else 0)
    (hhangs : hangs.toNat = v.uniqueHangs.toNat + if d = .hangs then 1 else 0)
    (hle : crashes ≤ keepUniqueCrash ∧ hangs ≤ keepUniqueHang) : Books turns { v with
      uniqueCrashes := crashes
      uniqueHangs := hangs
      files := Function.update v.files (FilePath.render ⟨d, name⟩) (some content) } := by
  have hother : ∀ path : FilePath, path.dir ≠ d →
      Function.update v.files (FilePath.render ⟨d, name⟩) (some content) path.render = v.files path.render :=
        fun path h =>
    update_render_of_ne fun heq => h (congrArg FilePath.dir heq)
  have hnext : ∀ d', View.nextId { v with
      uniqueCrashes := crashes
      uniqueHangs := hangs
      files := Function.update v.files (FilePath.render ⟨d, name⟩) (some content) } d' =
        v.nextId d' + if d' = d then 1 else 0 := fun d' => by
    rcases hd with rfl | rfl <;> cases d' <;> first | exact hcrashes | exact hhangs | rfl
  have hne : ∀ {d' : Dir}, ¬ d'.IsFault → d' ≠ d := fun h heq => h (heq ▸ hd)
  refine { hb with
    redundant := ?_, varying := ?_, fresh := ?_, owned := ?_, faults := ?_
    crashes_le := hle.1, hangs_le := hle.2 }
  · intro p hp
    dsimp only
    rw [hother ⟨.redundantEdges, v.fname p⟩ (hne (by rintro (h | h) <;> cases h))]
    exact hb.redundant p hp
  · intro p hp
    dsimp only
    rw [hother ⟨.variableBehavior, v.fname p⟩ (hne (by rintro (h | h) <;> cases h))]
    exact hb.varying p hp
  · intro path hpath
    rw [hnext] at hpath
    refine (update_render_of_ne fun heq => ?_).trans (hb.fresh path (le_trans (Nat.le_add_right ..) hpath))
    subst heq
    rw [if_pos rfl] at hpath
    exact absurd (hpath.trans_eq hname) (Nat.not_succ_le_self _)
  · intro path hdir hpath
    dsimp only at hpath
    rw [hother path (hne hdir)] at hpath
    exact hb.owned path hdir hpath
  · intro d' hd' k hk
    rw [hnext] at hk
    by_cases hdd : d' = d
    · subst hdd
      rw [if_pos rfl] at hk
      exact faults_succ (hb.faults d' hd') (fun name' h => hb.fresh ⟨d', name'⟩ h) hname k hk
    · rw [if_neg hdd] at hk
      have hfile : ∀ name' : Name, Function.update v.files (FilePath.render ⟨d, name⟩) (some content)
          (FilePath.render ⟨d', name'⟩) = v.files (FilePath.render ⟨d', name'⟩) := fun name' => hother ⟨d', name'⟩ hdd
      simp only [hfile]
      exact hb.faults d' hd' k hk

/-- A file of an entry that has just come, or of none. -/
theorem Grown.set_file (h : Grown v v') (hnone : v'.files path.render = none)
    (hnew : path.dir.IsEntry → v.queuedPaths < path.name.id) :
    Grown v { v' with files := Function.update v'.files path.render (some content) } := by
  refine { h with kept := fun path' content' hpath' => ?_, files := fun path' hdir hid => ?_ }
  · have hkept := h.kept path' content' hpath'
    refine (Function.update_of_ne (fun heq => ?_) ..).trans hkept
    subst heq
    exact Option.some_ne_none content' (hkept.symm.trans hnone)
  · refine (update_render_of_ne fun heq => ?_).trans (h.files path' hdir hid)
    subst heq
    exact absurd (hnew hdir) (Nat.not_lt.mpr hid)

/-- A new file of an entry that has just come. -/
theorem createExcl_sound (content : List UInt8) (hs : Sound env turns s) (hg : Grown v s.view) {d : Dir}
    (hd : d.IsEntry)
    (hq : q < s.queuedPaths) (hname : (s.queue q).fname = name) (hlast : v.queuedPaths ≤ q)
    (hnone : s.files (FilePath.render ⟨d, name⟩) = none) :
    ∃ s', createExcl s ⟨d, name⟩ content = .ok s' ∧
      s' = { s with files := Function.update s.files (FilePath.render ⟨d, name⟩) (some content) } ∧
      Sound env turns s' ∧ Grown v s'.view := by
  have hid : name.id = q + 1 := hname ▸ hs.books.fname q hq
  have hnew : v.queuedPaths < name.id := by omega
  subst hname
  exact ⟨_, createExcl_of_none hnone, rfl, hs.of_scores rfl (hs.books.set_file hq hd _),
    hg.set_file hnone fun _ => hnew⟩

/-! ## A new entry -/

theorem addToQueue_view (s : Fuzzer) (fname : Name) (len : ℕ) : (addToQueue s fname len).view = { s.view with
    queuedPaths := s.queuedPaths + 1
    pendingNotFuzzed := s.pendingNotFuzzed + 1
    hadNewPmAccess := false
    fname := Function.update s.view.fname s.queuedPaths fname
    len := Function.update s.view.len s.queuedPaths len
    hasNewCov := Function.update s.view.hasNewCov s.queuedPaths false
    varBehavior := Function.update s.view.varBehavior s.queuedPaths false
    favored := Function.update s.view.favored s.queuedPaths false
    fsRedundant := Function.update s.view.fsRedundant s.queuedPaths false
    wasFuzzed := Function.update s.view.wasFuzzed s.queuedPaths false
    fuzzLevel := Function.update s.view.fuzzLevel s.queuedPaths 0
    newPmAccess := Function.update s.view.newPmAccess s.queuedPaths s.hadNewPmAccess } := by
  have hfield : ∀ {α : Type} (g : QueueEntry → α), (fun p => g ((addToQueue s fname len).queue p)) =
      Function.update (fun p => g (s.queue p)) s.queuedPaths (g (newEntry s fname len)) := fun g =>
    funext fun p => Function.apply_update (fun _ => g) s.queue s.queuedPaths (newEntry s fname len) p
  simp only [Fuzzer.view, hfield]
  rfl

/-- A count with one more entry, which has the flag or not. -/
theorem count_new (flag : ℕ → Bool) (n : ℕ) (x : Bool) : Nat.count (fun p => Function.update flag n x p) (n + 1) =
    Nat.count (fun p => flag p) n + if x then 1 else 0 := by
  rw [Nat.count_succ, Function.update_self]
  congr 1
  exact count_congr fun p hp => Function.update_of_ne (Nat.ne_of_lt hp) ..

theorem addToQueue_refs (hs : Refs env s) (fname : Name) (len : ℕ) : Refs env (addToQueue s fname len) := by
  refine ⟨fun i p h => (hs.lt i p h).trans (Nat.lt_succ_self _), fun p => ?_⟩
  by_cases hp : p = s.queuedPaths
  · -- nothing is top rated that has just come
    have howned : owned env s p = 0 := Nat.count_iff_forall_not.mpr fun i _ h => Nat.lt_irrefl p (hp ▸ hs.lt i p h)
    have hentry : (addToQueue s fname len).queue p = newEntry s fname len := hp ▸ Function.update_self ..
    have hnew : owned env (addToQueue s fname len) p = 0 := howned
    rw [hentry, hnew]
    exact ⟨rfl, iff_of_false Bool.false_ne_true fun h => h rfl⟩
  · have hentry : (addToQueue s fname len).queue p = s.queue p := Function.update_of_ne hp ..
    rw [hentry]
    exact hs.counts p

theorem addToQueue_covered (hs : Covered env s) (hrefs : Refs env s) (fname : Name) (len : ℕ) :
    Covered env (addToQueue s fname len) := by
  have hold : ∀ {p}, p < s.queuedPaths → (addToQueue s fname len).queue p = s.queue p := fun hp =>
    Function.update_of_ne (Nat.ne_of_lt hp) ..
  refine hs.imp_right (Or.imp id fun hc i hi p hp => ?_)
  rw [hold (hrefs.lt i p hp)]
  refine (hc i hi p hp).imp_right fun ⟨q, hq, hfav, hcov⟩ => ⟨q, hq.trans (Nat.lt_succ_self _), ?_, ?_⟩
  · rw [hold hq]
    exact hfav
  · unfold covers
    rw [hold hq]
    exact hcov

theorem addToQueue_books (hb : Books turns s.view) (op : Str) (len : ℕ) :
    Books turns (addToQueue s ⟨s.queuedPaths + 1, op⟩ len).view := by
  have hfresh : ∀ d : Dir, d ≠ .crashes → d ≠ .hangs → s.files (FilePath.render ⟨d, s.queuedPaths + 1, op⟩) = none :=
    fun d hc hh => hb.fresh ⟨d, s.queuedPaths + 1, op⟩ (by
      cases d
      case crashes => exact absurd rfl hc
      case hangs => exact absurd rfl hh
      all_goals exact le_rfl)
  have hof : ∀ {α : Type} (g : ℕ → α) (x : α) {p : ℕ}, p < s.queuedPaths → Function.update g s.queuedPaths x p = g p :=
    fun g x p hp => Function.update_of_ne (Nat.ne_of_lt hp) ..
  have hcases : ∀ {p}, p < s.queuedPaths + 1 → p < s.queuedPaths ∨ p = s.queuedPaths := fun hp =>
    Nat.lt_or_eq_of_le (Nat.le_of_lt_succ hp)
  rw [addToQueue_view]
  constructor
  case fname =>
    intro p hp
    rcases hcases hp with h | rfl
    · exact (congrArg Name.id (hof _ _ h)).trans (hb.fname p h)
    · show (Function.update s.view.fname s.queuedPaths ⟨s.queuedPaths + 1, op⟩ s.queuedPaths).id = s.queuedPaths + 1
      rw [Function.update_self]
  case redundant =>
    intro p hp
    dsimp only
    rcases hcases hp with h | rfl
    · rw [hof _ _ h, hof _ _ h]
      exact hb.redundant p h
    · rw [Function.update_self, Function.update_self]
      exact congrArg Option.isSome (hfresh .redundantEdges (by simp) (by simp))
  case varying =>
    intro p hp
    dsimp only
    rcases hcases hp with h | rfl
    · rw [hof _ _ h, hof _ _ h]
      exact hb.varying p h
    · rw [Function.update_self, Function.update_self]
      exact congrArg Option.isSome (hfresh .variableBehavior (by simp) (by simp))
  case fresh =>
    refine fun path hpath => hb.fresh path (le_trans ?_ hpath)
    cases path.dir <;> first | exact le_rfl | exact Nat.le_succ _
  case owned =>
    intro path hdir hpath
    obtain ⟨p, hp, heq⟩ := hb.owned path hdir hpath
    exact ⟨p, Nat.lt_succ_of_lt hp, (hof _ _ hp).trans heq⟩
  case faults =>
    intro d hd k hk
    refine hb.faults d hd k (hk.trans_eq ?_)
    rcases hd with rfl | rfl <;> rfl
  case crashes_le => exact hb.crashes_le
  case hangs_le => exact hb.hangs_le
  case withCov =>
    refine hb.withCov.trans (congrArg UInt32.ofNat ?_)
    exact (count_new s.view.hasNewCov s.queuedPaths false).symm
  case withVar =>
    refine hb.withVar.trans (congrArg UInt32.ofNat ?_)
    exact (count_new s.view.varBehavior s.queuedPaths false).symm
  case unfuzzed =>
    have hcount : Nat.count (fun p => !Function.update s.view.wasFuzzed s.queuedPaths false p) (s.queuedPaths + 1) =
        Nat.count (fun p => !s.view.wasFuzzed p) s.queuedPaths + 1 := by
      rw [Nat.count_succ, Function.update_self]
      congr 1
      exact count_congr fun p hp => congrArg (!·) (hof _ _ hp)
    show s.pendingNotFuzzed + 1 = .ofNat (Nat.count _ (s.queuedPaths + 1))
    rw [hcount, UInt32.ofNat_add]
    exact congrArg (· + 1) hb.unfuzzed
  case level_le =>
    intro p
    dsimp only
    by_cases hp : p = s.queuedPaths
    · rw [hp, Function.update_self]
      exact Nat.zero_le turns
    · rw [Function.update_of_ne hp]
      exact hb.level_le p
  case level =>
    intro p
    dsimp only
    by_cases hp : p = s.queuedPaths
    · rw [hp, Function.update_self]
      exact fun h => absurd h Bool.false_ne_true
    · rw [Function.update_of_ne hp, Function.update_of_ne hp]
      exact hb.level p
  case pending =>
    dsimp only
    have hnew : ¬ (Function.update s.view.favored s.queuedPaths false s.queuedPaths &&
        !Function.update s.view.wasFuzzed s.queuedPaths false s.queuedPaths) = true := by
      rw [Function.update_self, Bool.false_and]
      exact Bool.false_ne_true
    rw [Nat.count_succ, if_neg hnew, Nat.add_zero]
    refine Eq.trans_le (count_congr fun p hp => ?_) hb.pending
    rw [hof _ _ hp, hof _ _ hp]
  case noPm =>
    refine ⟨rfl, fun p hp => ?_⟩
    dsimp only
    rcases hcases hp with h | rfl
    · rw [hof _ _ h]
      exact hb.noPm.2 p h
    · rw [Function.update_self]
      exact hb.noPm.1

theorem addToQueue_grown (s : Fuzzer) (fname : Name) (len : ℕ) : Grown s.view (addToQueue s fname len).view := by
  rw [addToQueue_view]
  refine ⟨rfl, rfl, Nat.le_succ _, fun p hp => ?_, fun _ _ => id, fun _ _ _ => rfl⟩
  exact ⟨Function.update_of_ne (Nat.ne_of_lt hp) .., Function.update_of_ne (Nat.ne_of_lt hp) ..⟩

/-! ## Writing it -/

/-- The files of an entry that is saved. -/
structure Written (env : Env) (s : Fuzzer) (name : Name) (mem : List UInt8) (hnbPm : Bool) : Prop where
  testcase : s.files (FilePath.render ⟨.testcase, name⟩) = some mem
  map : s.files (FilePath.render ⟨.map, name⟩) = some (mapBytes env s.maps.traceBits)
  pm : s.files (FilePath.render ⟨.pm, name⟩) = if hnbPm then some mem else none
  pmMap : s.files (FilePath.render ⟨.pmMap, name⟩) = if hnbPm then some (mapBytes env s.maps.tracePmBits) else none

theorem files_of_ne {d d' : Dir}
    (h : s' = { s with files := Function.update s.files (FilePath.render ⟨d', name⟩) (some content) }) (hd : d ≠ d') :
    s'.files (FilePath.render ⟨d, name⟩) = s.files (FilePath.render ⟨d, name⟩) := by
  rw [h]
  exact update_render_of_ne fun heq => hd (congrArg FilePath.dir heq)

theorem files_self (h : s' = { s with files := Function.update s.files path.render (some content) }) :
    s'.files path.render = some content := by
  rw [h]
  exact Function.update_self ..

theorem writeEntry_sound (mem : List UInt8) (hnbPm : Bool) (hs : Sound env turns s) (hg : Grown v s.view)
    (hnone : ∀ d : Dir, d.IsEntry → s.files (FilePath.render ⟨d, name⟩) = none) (hq : q < s.queuedPaths)
    (hname : (s.queue q).fname = name) (hlast : v.queuedPaths ≤ q) : ∃ s', writeEntry env s name mem hnbPm = .ok s' ∧
      (∃ files, s' = { s with files := files }) ∧ Sound env turns s' ∧ Grown v s'.view ∧
      Written env s' name mem hnbPm := by
  obtain ⟨s₁, heq₁, h₁, hs₁, hg₁⟩ := createExcl_sound mem hs hg (.inl rfl : Dir.testcase.IsEntry) hq hname hlast
    (hnone _ (.inl rfl))
  have hnone₁ := (files_of_ne h₁ (by decide : Dir.map ≠ .testcase)).trans (hnone _ (.inr (.inl rfl)))
  have hq₁ : q < s₁.queuedPaths ∧ (s₁.queue q).fname = name := by
    rw [h₁]
    exact ⟨hq, hname⟩
  obtain ⟨s₂, heq₂, h₂, hs₂, hg₂⟩ := createExcl_sound (mapBytes env s₁.maps.traceBits) hs₁ hg₁
    (.inr (.inl rfl) : Dir.map.IsEntry) hq₁.1 hq₁.2 hlast hnone₁
  have hpm₂ : ∀ d, d ≠ .testcase → d ≠ .map → d.IsEntry → s₂.files (FilePath.render ⟨d, name⟩) = none :=
    fun d h h' hd =>
    (files_of_ne h₂ h').trans ((files_of_ne h₁ h).trans (hnone d hd))
  have htest₂ := (files_of_ne h₂ (by decide : Dir.testcase ≠ .map)).trans (files_self h₁)
  have hmap₂ : s₂.files (FilePath.render ⟨.map, name⟩) = some (mapBytes env s₂.maps.traceBits) := by
    rw [files_self h₂, h₂]
  have hnonePm := hpm₂ .pm (by decide) (by decide) (.inr (.inr (.inl rfl)))
  have hnonePmMap := hpm₂ .pmMap (by decide) (by decide) (.inr (.inr (.inr rfl)))
  unfold writeEntry
  rw [heq₁]
  change ∃ s', (createExcl s₁ _ _ >>= fun s => _) = _ ∧ _
  rw [heq₂]
  cases hnbPm with
  | false => exact ⟨s₂, rfl, ⟨s₂.files, by rw [h₂, h₁]⟩, hs₂, hg₂, htest₂, hmap₂, hnonePm, hnonePmMap⟩
  | true =>
    have hq₂ : q < s₂.queuedPaths ∧ (s₂.queue q).fname = name := by
      rw [h₂]
      exact hq₁
    obtain ⟨s₃, heq₃, h₃, hs₃, hg₃⟩ := createExcl_sound mem hs₂ hg₂
      (.inr (.inr (.inl rfl)) : Dir.pm.IsEntry) hq₂.1 hq₂.2
      hlast hnonePm
    have hnone₃ := (files_of_ne h₃ (by decide : Dir.pmMap ≠ .pm)).trans hnonePmMap
    have hq₃ : q < s₃.queuedPaths ∧ (s₃.queue q).fname = name := by
      rw [h₃]
      exact hq₂
    obtain ⟨s₄, heq₄, h₄, hs₄, hg₄⟩ := createExcl_sound (mapBytes env s₃.maps.tracePmBits) hs₃ hg₃
      (.inr (.inr (.inr rfl)) : Dir.pmMap.IsEntry) hq₃.1 hq₃.2 hlast hnone₃
    have hold : ∀ d, d ≠ .pm → d ≠ .pmMap →
        s₄.files (FilePath.render ⟨d, name⟩) = s₂.files (FilePath.render ⟨d, name⟩) := fun d h h' =>
      (files_of_ne h₄ h').trans (files_of_ne h₃ h)
    have hmaps : s₄.maps = s₂.maps := by rw [h₄, h₃]
    refine ⟨s₄, ?_, ⟨s₄.files, by rw [h₄, h₃, h₂, h₁]⟩, hs₄, hg₄, ?_, ?_, ?_, ?_⟩
    · show (createExcl s₂ _ _ >>= fun s => _) = _
      rw [heq₃]
      exact heq₄
    · exact (hold _ (by decide) (by decide)).trans htest₂
    · rw [hold _ (by decide) (by decide), hmaps]
      exact hmap₂
    · exact (files_of_ne h₄ (by decide : Dir.pm ≠ .pmMap)).trans (files_self h₃)
    · rw [files_self h₄, h₄]
      rfl

/-- What a calibration leaves of the entries' names and of the queue. -/
theorem Calibrated.entries (h : Calibrated q v v') :
    v'.queuedPaths = v.queuedPaths ∧ v'.fname = v.fname ∧ v'.len = v.len := by
  obtain ⟨files, withCov, withVar, hasNewCov, varBehavior, rfl⟩ := h.eq
  exact ⟨rfl, rfl, rfl⟩

theorem length_mapBytes (env : Env) (map : Mem) : (mapBytes env map).length = env.mapSize := by
  rw [mapBytes, List.length_map, List.length_range]

theorem Written.stored {hnbPm : Bool} (h : Written env s name mem hnbPm) (hname : s.view.fname q = name)
    (hlen : s.view.len q = mem.length) (hmem : mem ≠ []) : Stored env s.view q where
  pos := hlen.symm ▸ List.length_pos_iff.mpr hmem
  testcase := ⟨mem, hname.symm ▸ h.testcase, hlen.le⟩
  map := ⟨_, hname.symm ▸ h.map, length_mapBytes ..⟩
  pm hpm := by
    have hpm' : (s.files (FilePath.render ⟨.pm, name⟩)).isSome = true := hname ▸ hpm
    rw [h.pm] at hpm'
    cases hnbPm with
    | false => cases hpm'
    | true => exact ⟨_, hname.symm ▸ h.pmMap, length_mapBytes ..⟩

/-- What saving an input comes to. -/
structure Saved (env : Env) (s s' : Fuzzer) (name : Name) (mem : List UInt8) (hnbPm : Bool) : Prop
    extends Written env s' name mem hnbPm where
  paths : s'.queuedPaths = s.queuedPaths + 1
  fname : (s'.queue s.queuedPaths).fname = name
  len : (s'.queue s.queuedPaths).len = mem.length

/-- An entry whose input is new coverage has the flag. -/
theorem setCov_sound (hs : Sound env turns s) (hq : q < s.queuedPaths) (h : (s.queue q).hasNewCov = false)
    (hnb : UInt8) :
    ∃ s', (if hnb = 2 then
        { s.modify q fun e => { e with hasNewCov := true } with queuedWithCov := s.queuedWithCov + 1 }
      else s) = s' ∧ Sound env turns s' ∧ Calibrated q s.view s'.view := by
  split
  · obtain ⟨s', heq, hs', hcal, -⟩ := hs.set_hasNewCov hq h
    exact ⟨s', heq.symm, hs', hcal⟩
  · exact ⟨s, rfl, hs, .refl ..⟩

theorem saveEntry_ends (hmem : mem ≠ []) (hs : Kept env turns s) (op : Str) (hnb : UInt8) (hnbPm : Bool)
    (cksum : UInt32) :
    Ends (· = Abort.target) (saveEntry env s mem op hnb hnbPm cksum) fun s' =>
      Kept env turns s' ∧ Grown s.view s'.view ∧
        Saved env s s' ⟨s.queuedPaths + 1, describeOp op hnb⟩ mem hnbPm := by
  obtain ⟨name, hname⟩ : ∃ name : Name, ⟨s.queuedPaths + 1, describeOp op hnb⟩ = name := ⟨_, rfl⟩
  have hid : name.id = s.queuedPaths + 1 := by rw [← hname]
  obtain ⟨s₁, h₁⟩ : ∃ s₁, addToQueue s name mem.length = s₁ := ⟨_, rfl⟩
  have hs₁ : Sound env turns s₁ := by
    rw [← h₁, ← hname]
    exact ⟨addToQueue_refs hs.refs _ _, addToQueue_covered hs.covered hs.refs _ _, addToQueue_books hs.books _ _⟩
  have hentry : s₁.queue s.queuedPaths = newEntry s name mem.length := by
    rw [← h₁]
    exact Function.update_self ..
  have hpaths₁ : s₁.queuedPaths = s.queuedPaths + 1 := by rw [← h₁]; rfl
  have hq₁ : s.queuedPaths < s₁.queuedPaths := by omega
  obtain ⟨s₂, h₂, hs₂, hcal₂⟩ := setCov_sound hs₁ hq₁ (by rw [hentry]; rfl) hnb
  have hquiet : Quiet s₂ (s₂.modify s.queuedPaths fun e => { e with execCksum := cksum }) :=
    Fuzzer.modify_quiet (fun _ => ⟨rfl, rfl, rfl, rfl, rfl, rfl, rfl, rfl, rfl⟩) fun _ => ⟨rfl, rfl⟩
  obtain ⟨s₃, h₃⟩ : ∃ s₃, (s₂.modify s.queuedPaths fun e => { e with execCksum := cksum }) = s₃ := ⟨_, rfl⟩
  rw [h₃] at hquiet
  have hcal₃ : Calibrated s.queuedPaths s₁.view s₃.view := hquiet.view.symm ▸ hcal₂
  have hq₃ : s.queuedPaths < s₃.queuedPaths := hq₁.trans_eq hcal₃.entries.1.symm
  obtain ⟨s₄, fault, h₄, hs₄, hcal₄⟩ := calibrateCase_sound mem (hquiet.sound hs₂) hq₃
    (s₃.queueCycle - 1).toUInt32 false
  unfold saveEntry
  dsimp only
  rw [hname, h₁, h₂, h₃, h₄]
  show Ends _ (if fault = .error then throw .target else writeEntry env s₄ name mem hnbPm) _
  split
  · exact Ends.error rfl
  · -- the calibration has made no file of the entry
    have hcal := hcal₃.trans hcal₄
    obtain ⟨hpaths, hfname, hlen⟩ := hcal.entries
    have hg : Grown s.view s₄.view := by
      have hadd := addToQueue_grown s name mem.length
      rw [h₁] at hadd
      exact hadd.trans hcal.grown
    have hnone : ∀ d : Dir, d.IsEntry → s₄.files (FilePath.render ⟨d, name⟩) = none := fun d hd => by
      have hold : s.files (FilePath.render ⟨d, name⟩) = none := hs.books.fresh ⟨d, name⟩ (by
        show s.view.nextId d ≤ name.id
        rw [hid]
        rcases hd with rfl | rfl | rfl | rfl <;> exact le_rfl)
      have hfiles₁ : s₁.files = s.files := by rw [← h₁]; rfl
      refine (hcal.files ⟨d, name⟩ fun heq => ?_).trans ((congrFun hfiles₁ _).trans hold)
      rcases hd with h | h | h | h <;> subst h <;> cases heq
    have hpaths₄ : s₄.queuedPaths = s.queuedPaths + 1 := hpaths.trans hpaths₁
    have hfname₄ : (s₄.queue s.queuedPaths).fname = name :=
      (congrFun hfname s.queuedPaths).trans (congrArg QueueEntry.fname hentry)
    obtain ⟨s₅, h₅, ⟨files, hfiles₅⟩, hs₅, hg₅, hwritten⟩ := writeEntry_sound mem hnbPm hs₄ hg hnone
      (hpaths₄ ▸ Nat.lt_succ_self _) hfname₄ le_rfl
    have hfname₅ : (s₅.queue s.queuedPaths).fname = name := by
      rw [hfiles₅]
      exact hfname₄
    have hlen₅ : (s₅.queue s.queuedPaths).len = mem.length := by
      rw [hfiles₅]
      exact (congrFun hlen s.queuedPaths).trans (congrArg QueueEntry.len hentry)
    have hpaths₅ : s₅.queuedPaths = s.queuedPaths + 1 := by rw [hfiles₅]; exact hpaths₄
    refine Ends.of_eq h₅ ⟨⟨hs₅, fun p hp => ?_⟩, hg₅, hwritten, hpaths₅, hfname₅, hlen₅⟩
    by_cases hp' : p = s.queuedPaths
    · subst hp'
      exact hwritten.stored hfname₅ hlen₅ hmem
    · have hlt : p < s.queuedPaths := by omega
      exact (hs.stored p hlt).grown hs.books hlt hg₅

/-! ## Faults -/

theorem newFault_quiet (env : Env) (s : Fuzzer) (m : Virgin) : Quiet s (newFault env s m).1 := by
  unfold newFault
  split
  · exact .refl s
  · exact ⟨rfl, rfl⟩

/-- A counter below its limit does not overflow. -/
theorem toNat_succ_of_lt {x limit : UInt64} (h : x < limit) (hlimit : limit.toNat < 2 ^ 64) :
    (x + 1).toNat = x.toNat + 1 ∧ x + 1 ≤ limit := by
  have hlt := UInt64.lt_iff_toNat_lt.mp h
  have hsucc : (x + 1).toNat = x.toNat + 1 := by
    rw [UInt64.toNat_add]
    exact Nat.mod_eq_of_lt (by show x.toNat + 1 < 2 ^ 64; omega)
  exact ⟨hsucc, UInt64.le_iff_toNat_le.mpr (by omega)⟩

/-- What a fault leaves: the books in order, and no new entry. -/
structure Faulted (env : Env) (turns : ℕ) (s s' : Fuzzer) : Prop where
  sound : Sound env turns s'
  grown : Grown s.view s'.view
  paths : s'.queuedPaths = s.queuedPaths

theorem Quiet.faulted (h : Quiet s s') (hs : Sound env turns s) : Faulted env turns s s' :=
  ⟨h.sound hs, h.grown, congrArg View.queuedPaths h.view⟩

theorem Faulted.of_quiet {s'' : Fuzzer} (h : Quiet s s') (h' : Faulted env turns s' s'') : Faulted env turns s s'' :=
  ⟨h'.sound, h.grown.trans h'.grown, h'.paths.trans (congrArg View.queuedPaths h.view)⟩

theorem keepCrash_faulted (mem : List UInt8) (hs : Sound env turns s) (hlt : s.uniqueCrashes < keepUniqueCrash)
    (op : Str) :
    ∃ s', keepCrash s mem op = .ok s' ∧ Faulted env turns s s' := by
  obtain ⟨hsucc, hle⟩ := toNat_succ_of_lt hlt (by decide)
  obtain ⟨name, hname⟩ : ∃ name, crashName s.uniqueCrashes.toNat s.killSignal op = name := ⟨_, rfl⟩
  have hid : name.id = s.view.nextId .crashes := by rw [← hname]; rfl
  have hnone : s.files (FilePath.render ⟨.crashes, name⟩) = none := hs.books.fresh ⟨.crashes, name⟩ hid.ge
  unfold keepCrash
  rw [hname]
  have hg : Grown s.view (Fuzzer.view { s with uniqueCrashes := s.uniqueCrashes + 1 }) :=
    ⟨rfl, rfl, le_rfl, fun _ _ => ⟨rfl, rfl⟩, fun _ _ => id, fun _ _ _ => rfl⟩
  have hnew : ¬ Dir.crashes.IsEntry := by decide
  refine ⟨_, createExcl_of_none hnone, hs.of_scores rfl ?_, hg.set_file hnone fun h => absurd h hnew, rfl⟩
  exact hs.books.keep_fault mem (.inl rfl) hid hsucc rfl ⟨hle, hs.books.hangs_le⟩

theorem keepHang_faulted (mem : List UInt8) (hs : Sound env turns s) (hlt : s.uniqueHangs < keepUniqueHang) (op : Str) :
    ∃ s', keepHang s mem op = .ok s' ∧ Faulted env turns s s' := by
  obtain ⟨hsucc, hle⟩ := toNat_succ_of_lt hlt (by decide)
  obtain ⟨name, hname⟩ : ∃ name : Name, ⟨s.uniqueHangs.toNat, op⟩ = name := ⟨_, rfl⟩
  have hid : name.id = s.view.nextId .hangs := by rw [← hname]; rfl
  have hnone : s.files (FilePath.render ⟨.hangs, name⟩) = none := hs.books.fresh ⟨.hangs, name⟩ hid.ge
  unfold keepHang
  rw [hname]
  have hg : Grown s.view (Fuzzer.view { s with uniqueHangs := s.uniqueHangs + 1 }) :=
    ⟨rfl, rfl, le_rfl, fun _ _ => ⟨rfl, rfl⟩, fun _ _ => id, fun _ _ _ => rfl⟩
  have hnew : ¬ Dir.hangs.IsEntry := by decide
  refine ⟨_, createExcl_of_none hnone, hs.of_scores rfl ?_, hg.set_file hnone fun h => absurd h hnew, rfl⟩
  exact hs.books.keep_fault mem (.inr rfl) hid rfl hsucc ⟨hs.books.crashes_le, hle⟩

theorem saveCrash_faulted (mem : List UInt8) (hs : Sound env turns s) (op : Str) :
    ∃ s', saveCrash env s mem op = .ok s' ∧ Faulted env turns s s' := by
  have hquiet : Quiet s { s with totalCrashes := s.totalCrashes + 1 } := ⟨rfl, rfl⟩
  unfold saveCrash
  dsimp only
  split
  · exact ⟨_, rfl, hquiet.faulted hs⟩
  · rename_i hlt
    have hquiet' := hquiet.trans (newFault_quiet env { s with totalCrashes := s.totalCrashes + 1 } .crash)
    split
    · have hlt' : (newFault env { s with totalCrashes := s.totalCrashes + 1 } .crash).1.view.uniqueCrashes <
          keepUniqueCrash := by
        rw [hquiet'.view]
        exact UInt64.not_le.mp hlt
      obtain ⟨s', heq, hf⟩ := keepCrash_faulted mem (hquiet'.sound hs) hlt' op
      exact ⟨s', heq, hf.of_quiet hquiet'⟩
    · exact ⟨_, rfl, hquiet'.faulted hs⟩

theorem saveHang_faulted (mem : List UInt8) (hs : Sound env turns s) (op : Str) :
    ∃ s', saveHang env s mem op = .ok s' ∧ Faulted env turns s s' := by
  have hquiet : Quiet s { s with totalTmouts := s.totalTmouts + 1 } := ⟨rfl, rfl⟩
  unfold saveHang
  dsimp only
  split
  · exact ⟨_, rfl, hquiet.faulted hs⟩
  · rename_i hlt
    have hquiet₁ := hquiet.trans (newFault_quiet env { s with totalTmouts := s.totalTmouts + 1 } .tmout)
    generalize newFault env { s with totalTmouts := s.totalTmouts + 1 } .tmout = r at hquiet₁ ⊢
    split
    · have hquiet₂ : Quiet s { r.1 with uniqueTmouts := r.1.uniqueTmouts + 1 } :=
        hquiet₁.trans ⟨rfl, rfl⟩
      have hlimit : ∀ {t : Fuzzer}, Quiet s t → t.uniqueHangs < keepUniqueHang := fun ht =>
        (congrArg View.uniqueHangs ht.view).trans_lt (UInt64.not_le.mp hlt)
      split
      · have hquiet₃ := hquiet₂.trans (runTarget_quiet env _ mem env.hangTmout)
        split
        · obtain ⟨s', heq, hf⟩ := saveCrash_faulted mem (hquiet₃.sound hs) op
          exact ⟨s', heq, hf.of_quiet hquiet₃⟩
        · split
          · exact ⟨_, rfl, hquiet₃.faulted hs⟩
          · obtain ⟨s', heq, hf⟩ := keepHang_faulted mem (hquiet₃.sound hs) (hlimit hquiet₃) op
            exact ⟨s', heq, hf.of_quiet hquiet₃⟩
      · obtain ⟨s', heq, hf⟩ := keepHang_faulted mem (hquiet₂.sound hs) (hlimit hquiet₂) op
        exact ⟨s', heq, hf.of_quiet hquiet₂⟩
    · exact ⟨_, rfl, hquiet₁.faulted hs⟩

/-! ## The whole -/

/-- A fault that adds no entry keeps what is stored. -/
theorem Faulted.kept (h : Faulted env turns s s') (hs : Kept env turns s) : Kept env turns s' where
  toSound := h.sound
  stored p hp := by
    rw [h.paths] at hp
    exact (hs.stored p hp).grown hs.books hp h.grown

theorem Quiet.kept (h : Quiet s s') (hs : Kept env turns s) : Kept env turns s' := (h.faulted hs.toSound).kept hs

theorem saveFault_ends (mem : List UInt8) (hs : Kept env turns s) (fault : Fault) (op : Str) :
    Ends (· = Abort.target) (saveFault env s mem fault op) (Faulted env turns s) := by
  cases fault with
  | tmout =>
    obtain ⟨s', heq, hf⟩ := saveHang_faulted mem hs.toSound op
    exact Ends.of_eq heq hf
  | crash =>
    obtain ⟨s', heq, hf⟩ := saveCrash_faulted mem hs.toSound op
    exact Ends.of_eq heq hf
  | error => exact Ends.error rfl
  | none => exact Ends.ok ((Quiet.refl s).faulted hs.toSound)
  | noInst => exact Ends.ok ((Quiet.refl s).faulted hs.toSound)
  | noBits => exact Ends.ok ((Quiet.refl s).faulted hs.toSound)

theorem countPath_quiet (s : Fuzzer) (cksum : UInt32) : Quiet s (countPath s cksum) := by
  unfold countPath
  split
  · exact Fuzzer.modify_quiet (fun _ => ⟨rfl, rfl, rfl, rfl, rfl, rfl, rfl, rfl, rfl⟩) fun _ => ⟨rfl, rfl⟩
  · exact .refl s

theorem countPath_maps (s : Fuzzer) (cksum : UInt32) : (countPath s cksum).maps = s.maps := by
  unfold countPath
  split <;> rfl

/-- A count that does not overflow. -/
theorem foldl_count_ne_zero (p : ℕ → Prop) [DecidablePred p] (hn : n < 2 ^ 32) :
    (List.range n).foldl (fun result i => if p i then result + 1 else result) (0 : UInt32) ≠ 0 ↔ ∃ i < n, p i := by
  have hlt : ((List.range n).countP fun i => decide (p i)) < 2 ^ 32 :=
    (List.countP_le_length.trans_eq List.length_range).trans_lt hn
  have hzero : UInt32.ofNat ((List.range n).countP fun i => decide (p i)) = 0 ↔
      ((List.range n).countP fun i => decide (p i)) = 0 := by
    rw [← UInt32.toNat_inj, UInt32.toNat_ofNat_of_lt' hlt]
    rfl
  rw [foldl_countP, UInt32.zero_add, Ne, hzero, List.countP_eq_zero]
  simp

theorem Env.mapSize_lt (env : Env) : env.mapSize < 2 ^ 32 := by
  have hwords := env.words_lt
  unfold Env.mapSize
  omega

/-- Reads have the first half of the map, writes the second. -/
theorem hnbPm_eq_true (pmMap : Mem) : hnbPm env pmMap = true ↔ ∃ i < env.mapSize, pmMap i ≠ 0 ∧
    (env.pmfuzzFocus = .ro → i < env.mapSize / 2) ∧ (env.pmfuzzFocus = .wo → env.mapSize / 2 ≤ i) := by
  have hread : pmReadCount pmMap env.mapSize ≠ 0 ↔ ∃ i < env.mapSize, i < env.mapSize / 2 ∧ pmMap i ≠ 0 :=
    foldl_count_ne_zero _ env.mapSize_lt
  have hwrite : pmWriteCount pmMap env.mapSize ≠ 0 ↔ ∃ i < env.mapSize, i ≥ env.mapSize / 2 ∧ pmMap i ≠ 0 :=
    foldl_count_ne_zero _ env.mapSize_lt
  rw [hnbPm, Bool.or_eq_true, Bool.and_eq_true, Bool.and_eq_true, bne_iff_ne, bne_iff_ne, hread, hwrite]
  cases env.pmfuzzFocus with
  | rw =>
    constructor
    · rintro (⟨-, i, hi, -, hne⟩ | ⟨-, i, hi, -, hne⟩) <;> exact ⟨i, hi, hne, by simp, by simp⟩
    · rintro ⟨i, hi, hne, -, -⟩
      rcases Nat.lt_or_ge i (env.mapSize / 2) with h | h
      · exact .inl ⟨by simp, i, hi, h, hne⟩
      · exact .inr ⟨by simp, i, hi, h, hne⟩
  | ro =>
    constructor
    · rintro (⟨-, i, hi, hlt, hne⟩ | ⟨h, -⟩)
      · exact ⟨i, hi, hne, fun _ => hlt, by simp⟩
      · simp at h
    · rintro ⟨i, hi, hne, hlt, -⟩
      exact .inl ⟨by simp, i, hi, hlt rfl, hne⟩
  | wo =>
    constructor
    · rintro (⟨h, -⟩ | ⟨-, i, hi, hge, hne⟩)
      · simp at h
      · exact ⟨i, hi, hne, by simp, fun _ => hge⟩
    · rintro ⟨i, hi, hne, -, hge⟩
      exact .inr ⟨by simp, i, hi, hge rfl, hne⟩

/-- An input that is in the queue now, as the entry after those of `s`. -/
structure Discovered (env : Env) (s s' : Fuzzer) (mem : List UInt8) (op : Str) : Prop where
  paths : s'.queuedPaths = s.queuedPaths + 1
  fname : (s'.queue s.queuedPaths).fname = ⟨s.queuedPaths + 1, describeOp op (s.hasNewBits env .bits).2⟩
  testcase : s'.files (FilePath.render ⟨.testcase, (s'.queue s.queuedPaths).fname⟩) = some mem
  /-- There is a copy exactly if the run has accessed PM. -/
  pm : s'.files (FilePath.render ⟨.pm, (s'.queue s.queuedPaths).fname⟩) =
    if hnbPm env s.maps.tracePmBits then some mem else none
  pmMap : (s'.files (FilePath.render ⟨.pmMap, (s'.queue s.queuedPaths).fname⟩)).isSome = hnbPm env s.maps.tracePmBits

theorem Saved.discovered {t : Fuzzer} {op : Str}
    (h : Saved env s t ⟨s.queuedPaths + 1, describeOp op (s.hasNewBits env .bits).2⟩ mem (hnbPm env s.maps.tracePmBits))
    (hf : Faulted env turns t s') : Discovered env s s' mem op := by
  have hlast : s.queuedPaths < t.view.queuedPaths := (Nat.lt_succ_self _).trans_eq h.paths.symm
  have hname : (s'.queue s.queuedPaths).fname = ⟨s.queuedPaths + 1, describeOp op (s.hasNewBits env .bits).2⟩ :=
    (hf.grown.entry s.queuedPaths hlast).1.trans h.fname
  have hfile : ∀ d : Dir, d.IsEntry → s'.files (FilePath.render
    ⟨d, s.queuedPaths + 1, describeOp op (s.hasNewBits env .bits).2⟩) =
      t.files (FilePath.render ⟨d, s.queuedPaths + 1, describeOp op (s.hasNewBits env .bits).2⟩) := fun d hd =>
    hf.grown.files ⟨d, _⟩ hd hlast
  refine ⟨hf.paths.trans h.paths, hname, ?_, ?_, ?_⟩
  · rw [hname, hfile _ (.inl rfl)]
    exact h.testcase
  · rw [hname, hfile _ (.inr (.inr (.inl rfl)))]
    exact h.pm
  · rw [hname, hfile _ (.inr (.inr (.inr rfl))), h.pmMap]
    split
    · rename_i hpm
      exact hpm.symm
    · rename_i hpm
      exact (Bool.eq_false_of_not_eq_true hpm).symm

/-- An input becomes an entry exactly if its run ends as runs should and shows
new bits. Nothing else is added to the queue, and no file is overwritten. -/
theorem saveIfInteresting_ends (mem : List UInt8) (hs : Kept env turns s) (fault : Fault) (op opFault : Str) :
    Ends (· = Abort.target) (saveIfInteresting env s mem fault op opFault) fun r =>
      Kept env turns r.1 ∧ Grown s.view r.1.view ∧
        (r.2 = true ↔ mem ≠ [] ∧ fault = env.crashMode ∧ (s.hasNewBits env .bits).2 ≠ 0) ∧
        (r.2 = false → r.1.queuedPaths = s.queuedPaths) ∧ (r.2 = true → Discovered env s r.1 mem op) := by
  unfold saveIfInteresting
  split
  · rename_i hmem
    exact Ends.ok ⟨hs, .refl _, iff_of_false Bool.false_ne_true fun h => h.1 hmem, fun _ => rfl,
      fun h => absurd h Bool.false_ne_true⟩
  · rename_i hmem
    dsimp only
    obtain ⟨t, ht⟩ : ∃ t, countPath s (env.hash32 s.maps.traceBits) = t := ⟨_, rfl⟩
    have hquiet : Quiet s t := ht ▸ countPath_quiet ..
    have hmaps : t.maps = s.maps := ht ▸ countPath_maps ..
    have hpaths : t.queuedPaths = s.queuedPaths := congrArg View.queuedPaths hquiet.view
    have hnb : (t.hasNewBits env .bits).2 = (s.hasNewBits env .bits).2 := by
      unfold Fuzzer.hasNewBits
      rw [hmaps]
    have hquiet' : Quiet s (t.hasNewBits env .bits).1 := hquiet.trans (hasNewBits_quiet ..)
    rw [ht]
    split
    · rename_i hfault
      split
      · rename_i h0
        have hcrash : Quiet s { (t.hasNewBits env .bits).1 with totalCrashes :=
            if env.crashMode = .none then (t.hasNewBits env .bits).1.totalCrashes
            else (t.hasNewBits env .bits).1.totalCrashes + 1 } :=
          hquiet'.trans ⟨rfl, rfl⟩
        exact Ends.ok ⟨hcrash.kept hs, hcrash.grown, iff_of_false Bool.false_ne_true fun h => h.2.2 (hnb.symm.trans h0),
          fun _ => hpaths, fun h => absurd h Bool.false_ne_true⟩
      · rename_i h0
        have hentry := saveEntry_ends hmem (hquiet'.kept hs) op (t.hasNewBits env .bits).2
          (hnbPm env s.maps.tracePmBits) (env.hash32 s.maps.traceBits)
        refine hentry.bind fun u ⟨hu, hgu, hsaved⟩ => (saveFault_ends mem hu fault opFault).bind fun u' hf => ?_
        have hpaths' : (t.hasNewBits env .bits).1.queuedPaths = s.queuedPaths := hpaths
        rw [hpaths', hnb] at hsaved
        refine Ends.ok ⟨hf.kept hu, hquiet'.grown.trans (hgu.trans hf.grown),
          iff_of_true rfl ⟨hmem, hfault, fun h => h0 (hnb.trans h)⟩, fun h => absurd h.symm Bool.false_ne_true,
          fun _ => ?_⟩
        exact Saved.discovered ⟨hsaved.toWritten, hsaved.paths.trans (congrArg (· + 1) hpaths'),
          (congrArg (fun p => (u.queue p).fname) hpaths').symm.trans hsaved.fname,
          (congrArg (fun p => (u.queue p).len) hpaths').symm.trans hsaved.len⟩ hf
    · rename_i hfault
      refine (saveFault_ends mem (hquiet.kept hs) fault opFault).bind fun u hf => ?_
      exact Ends.ok ⟨hf.kept (hquiet.kept hs), hquiet.grown.trans hf.grown,
        iff_of_false Bool.false_ne_true fun h => hfault h.2.1,
        fun _ => hf.paths.trans hpaths, fun h => absurd h Bool.false_ne_true⟩

end PMFuzz.Afl
