import PMFuzz.Afl.Books

/-!
# Calibration

`calibrate_case` runs an entry again and again: 8 times, or 3 times with
`fast_cal`, and 40 times as soon as a run has another checksum than the first.
Such runs are looked at for new bits, and the bytes in which they differ from
the first trace are marked as variable.
-/

namespace PMFuzz.Afl

open Libpmfuzz (Mem)

/-! ## The code -/

def calCycles : ℕ := 8
def calCyclesLong : ℕ := 40
def calTmoutAdd : ℕ := 50
def calTmoutPerc : ℕ := 125

/-- How often an entry is run that does the same each time. -/
def Env.cycles (env : Env) : ℕ := if env.fastCal then 3 else calCycles

/-- The variables of the loop, and whether it has gone to `abort_calibration`. -/
structure Calibration where
  state : Fuzzer
  stageCur : ℕ
  stageMax : ℕ
  newBits : UInt8
  varDetected : Bool
  fault : Fault
  aborted : Bool

/-- Bytes that differ are marked as variable. -/
def markVarBytes (env : Env) (first trace varBytes : Mem) : Mem :=
  (List.range env.mapSize).foldl (fun v i => if v i = 0 ∧ first i ≠ trace i then Function.update v i 1 else v) varBytes

/-- A run whose checksum is not that of the entry. -/
def calibrateNew (env : Env) (q : ℕ) (cksum : UInt32) (c : Calibration) : Calibration :=
  let r := c.state.hasNewBits env .bits
  let s := r.1
  let c := { c with newBits := if r.2 > c.newBits then r.2 else c.newBits }
  if (s.queue q).execCksum ≠ 0 then
    { c with
      state := { s with varBytes := markVarBytes env s.firstTrace s.maps.traceBits s.varBytes }
      varDetected := true
      stageMax := calCyclesLong }
  else
    { c with
      state := { s.modify q fun e => { e with execCksum := cksum } with firstTrace := s.maps.traceBits } }

/-- A run that is not the end of it. -/
def calibrateRun (env : Env) (q : ℕ) (c : Calibration) : Calibration :=
  let cksum := env.hash32 c.state.maps.traceBits
  let c := if (c.state.queue q).execCksum ≠ cksum then calibrateNew env q cksum c else c
  { c with stageCur := c.stageCur + 1 }

/-- A turn of the loop. -/
def calibrateTurn (env : Env) (q : ℕ) (mem : List UInt8) (useTmout : ℕ) (c : Calibration) : Calibration :=
  let r := runTarget env c.state mem useTmout
  let c := { c with state := r.1, fault := r.2 }
  if c.state.stopSoon ∨ c.fault ≠ env.crashMode then { c with aborted := true }
  else if env.dumbMode = false ∧ c.stageCur = 0 ∧ countBytes c.state.maps.traceBits env.words = 0 then
    { c with fault := .noInst, aborted := true }
  else calibrateRun env q c

/-- The loop, with the number of turns that are left at most. -/
def calibrateLoop (env : Env) (q : ℕ) (mem : List UInt8) (useTmout : ℕ) : ℕ → Calibration → Calibration
  | 0, c => c
  | n + 1, c =>
    if c.aborted = false ∧ c.stageCur < c.stageMax then
      calibrateLoop env q mem useTmout n (calibrateTurn env q mem useTmout c)
    else c

/-- `mark_as_variable`. -/
def markAsVariable (s : Fuzzer) (q : ℕ) : Except Abort Fuzzer := do
  let s ← createExcl s ⟨.variableBehavior, (s.queue q).fname⟩ []
  return s.modify q fun e => { e with varBehavior := true }

/-- The start of `calibrate_case`. -/
def calibrateStart (env : Env) (s : Fuzzer) (q : ℕ) : Calibration :=
  let s := s.modify q fun e => { e with calFailed := e.calFailed + 1 }
  { state := if (s.queue q).execCksum ≠ 0 then { s with firstTrace := s.maps.traceBits } else s
    stageCur := 0
    stageMax := env.cycles
    newBits := 0
    varDetected := false
    fault := .none
    aborted := false }

/-- What follows a loop that is not aborted. -/
def calibrateDone (env : Env) (q : ℕ) (handicap : UInt32) (startUs : UInt64) (firstRun : Bool) (c : Calibration) :
    Calibration :=
  let s := c.state.modify q fun e => { e with
    execUs := (env.curTimeUs c.state.totalExecs - startUs) / .ofNat c.stageMax
    bitmapSize := countBytes c.state.maps.traceBits env.words
    handicap := handicap.toUInt64
    calFailed := 0 }
  { c with
    state := updateBitmapScore env s q
    fault := if env.dumbMode = false ∧ firstRun ∧ c.fault = .none ∧ c.newBits = 0 then .noBits else c.fault }

/-- From `abort_calibration` on. -/
def calibrateEnd (env : Env) (q : ℕ) (c : Calibration) : Except Abort (Fuzzer × Fault) := do
  let s := c.state
  let s := if c.newBits = 2 ∧ (s.queue q).hasNewCov = false then
      { s.modify q fun e => { e with hasNewCov := true } with queuedWithCov := s.queuedWithCov + 1 }
    else s
  if c.varDetected then
    let s := { s with varByteCount := countBytes s.varBytes env.words }
    if (s.queue q).varBehavior = false then
      let s ← markAsVariable s q
      return ({ s with queuedVariable := s.queuedVariable + 1 }, c.fault)
    else return (s, c.fault)
  else return (s, c.fault)

/-- `use_tmout`. -/
def calTmout (env : Env) (fromQueue : Bool) : ℕ :=
  if fromQueue = false ∨ env.resumingFuzz then
    max (env.execTmout + calTmoutAdd) (env.execTmout * calTmoutPerc / 100)
  else env.execTmout

/-- `calibrate_case`. -/
def calibrateCase (env : Env) (s : Fuzzer) (q : ℕ) (useMem : List UInt8) (handicap : UInt32) (fromQueue : Bool) :
    Except Abort (Fuzzer × Fault) :=
  let firstRun := decide ((s.queue q).execCksum = 0)
  let startUs := env.curTimeUs s.totalExecs
  let c := calibrateLoop env q useMem (calTmout env fromQueue) calCyclesLong (calibrateStart env s q)
  calibrateEnd env q (if c.aborted then c else calibrateDone env q handicap startUs firstRun c)

/-! ## The books -/

variable {env : Env} {s s' : Fuzzer} {v v' : View} {q turns : ℕ} {mem : List UInt8} {c : Calibration}
  {r : Fuzzer × Fault}

/-- What changes in the view as an entry is calibrated. -/
structure Calibrated (q : ℕ) (v v' : View) : Prop where
  eq : ∃ files withCov withVar hasNewCov varBehavior, v' = { v with
    files := files, queuedWithCov := withCov, queuedVariable := withVar
    hasNewCov := hasNewCov, varBehavior := varBehavior }
  files : ∀ path : FilePath, path ≠ ⟨.variableBehavior, v.fname q⟩ → v'.files path.render = v.files path.render
  /-- No file is overwritten. -/
  kept : ∀ path content, v.files path = some content → v'.files path = some content

theorem Calibrated.refl (q : ℕ) (v : View) : Calibrated q v v := ⟨⟨_, _, _, _, _, rfl⟩, fun _ _ => rfl, fun _ _ => id⟩

theorem calibrateStart_quiet (env : Env) (s : Fuzzer) (q : ℕ) : Quiet s (calibrateStart env s q).state := by
  have hmodify : Quiet s (s.modify q fun e => { e with calFailed := e.calFailed + 1 }) :=
    Fuzzer.modify_quiet (fun _ => ⟨rfl, rfl, rfl, rfl, rfl, rfl, rfl, rfl, rfl⟩) fun _ => ⟨rfl, rfl⟩
  unfold calibrateStart
  dsimp only
  split
  · exact hmodify.trans ⟨rfl, rfl⟩
  · exact hmodify

theorem calibrateNew_quiet (env : Env) (q : ℕ) (cksum : UInt32) (c : Calibration) :
    Quiet c.state (calibrateNew env q cksum c).state := by
  refine (hasNewBits_quiet env c.state .bits).trans ?_
  unfold calibrateNew
  dsimp only
  split
  · exact ⟨rfl, rfl⟩
  · have hmodify : Quiet (c.state.hasNewBits env .bits).1
        ((c.state.hasNewBits env .bits).1.modify q fun e => { e with execCksum := cksum }) :=
      Fuzzer.modify_quiet (fun _ => ⟨rfl, rfl, rfl, rfl, rfl, rfl, rfl, rfl, rfl⟩) fun _ => ⟨rfl, rfl⟩
    exact hmodify.trans ⟨rfl, rfl⟩

theorem calibrateRun_quiet (env : Env) (q : ℕ) (c : Calibration) : Quiet c.state (calibrateRun env q c).state := by
  unfold calibrateRun
  dsimp only
  split
  · exact calibrateNew_quiet ..
  · exact .refl _

theorem calibrateTurn_quiet (env : Env) (q : ℕ) (mem : List UInt8) (useTmout : ℕ) (c : Calibration) :
    Quiet c.state (calibrateTurn env q mem useTmout c).state := by
  refine (runTarget_quiet env c.state mem useTmout).trans ?_
  unfold calibrateTurn
  dsimp only
  split
  · exact .refl _
  · split
    · exact .refl _
    · exact calibrateRun_quiet env q { c with state := (runTarget env c.state mem useTmout).1, fault := _ }

theorem calibrateLoop_quiet (env : Env) (q : ℕ) (mem : List UInt8) (useTmout n : ℕ) (c : Calibration) :
    Quiet c.state (calibrateLoop env q mem useTmout n c).state := by
  induction n generalizing c with
  | zero => exact .refl _
  | succ n ih =>
    rw [calibrateLoop]
    split
    · exact (calibrateTurn_quiet ..).trans (ih _)
    · exact .refl _

theorem calibrateDone_sound (handicap : UInt32) (startUs : UInt64) (firstRun : Bool) (hs : Sound env turns c.state)
    (hq : q < c.state.queuedPaths) : Sound env turns (calibrateDone env q handicap startUs firstRun c).state ∧
      (calibrateDone env q handicap startUs firstRun c).state.view = c.state.view := by
  have hmodify : Quiet c.state (c.state.modify q fun e => { e with
      execUs := (env.curTimeUs c.state.totalExecs - startUs) / .ofNat c.stageMax
      bitmapSize := countBytes c.state.maps.traceBits env.words
      handicap := handicap.toUInt64
      calFailed := 0 }) :=
    Fuzzer.modify_quiet (fun _ => ⟨rfl, rfl, rfl, rfl, rfl, rfl, rfl, rfl, rfl⟩) fun _ => ⟨rfl, rfl⟩
  exact ⟨updateBitmapScore_sound (hmodify.sound hs) hq, (updateBitmapScore_scored ..).view.trans hmodify.view⟩

/-- A flag that is set. -/
theorem count_set {flag : ℕ → Bool} {n : ℕ} (hq : q < n) (h : flag q = false) :
    Nat.count (fun p => Function.update flag q true p) n = Nat.count (fun p => flag p) n + 1 := by
  have hcount := count_update flag true true hq
  rw [h, if_neg Bool.false_ne_true, if_pos rfl] at hcount
  exact hcount

theorem Books.set_hasNewCov (hb : Books turns v) (hq : q < v.queuedPaths) (h : v.hasNewCov q = false) :
    Books turns { v with hasNewCov := Function.update v.hasNewCov q true, queuedWithCov := v.queuedWithCov + 1 } :=
  { hb with
    withCov := by
      show v.queuedWithCov + 1 = .ofNat (Nat.count (fun p => Function.update v.hasNewCov q true p) v.queuedPaths)
      rw [count_set hq h, UInt32.ofNat_add, ← hb.withCov]
      rfl }

theorem Books.set_varBehavior (hb : Books turns v) (hq : q < v.queuedPaths) (h : v.varBehavior q = false) :
    Books turns { v with
      files := Function.update v.files (FilePath.render ⟨.variableBehavior, v.fname q⟩) (some [])
      varBehavior := Function.update v.varBehavior q true
      queuedVariable := v.queuedVariable + 1 } :=
  { hb with
    redundant := fun p hp => by
      show (Function.update v.files (FilePath.render ⟨.variableBehavior, v.fname q⟩) (some [])
        (FilePath.render ⟨.redundantEdges, v.fname p⟩)).isSome = v.fsRedundant p
      rw [update_render_of_ne (by simp)]
      exact hb.redundant p hp
    varying := fun p hp => by
      show (Function.update v.files (FilePath.render ⟨.variableBehavior, v.fname q⟩) (some [])
        (FilePath.render ⟨.variableBehavior, v.fname p⟩)).isSome = Function.update v.varBehavior q true p
      by_cases hpq : p = q
      · subst hpq
        rw [Function.update_self, Function.update_self]
        rfl
      · have hne : FilePath.mk .variableBehavior (v.fname p) ≠ ⟨.variableBehavior, v.fname q⟩ := fun heq => by
          have hids := congrArg (fun path => path.name.id) heq
          dsimp only at hids
          rw [hb.fname p hp, hb.fname q hq] at hids
          omega
        rw [update_render_of_ne hne, Function.update_of_ne hpq]
        exact hb.varying p hp
    fresh := fun path hpath => by
      have hne : path ≠ ⟨.variableBehavior, v.fname q⟩ := fun heq => by
        subst heq
        change v.queuedPaths + 1 ≤ (v.fname q).id at hpath
        rw [hb.fname q hq] at hpath
        omega
      exact (update_render_of_ne hne).trans (hb.fresh path hpath)
    owned := fun path hdir hpath => by
      by_cases heq : path = ⟨.variableBehavior, v.fname q⟩
      · exact ⟨q, hq, (congrArg FilePath.name heq).symm⟩
      · exact hb.owned path hdir ((congrArg Option.isSome (update_render_of_ne heq)).symm.trans hpath)
    faults := fun d hd k hk => by
      have hfile : ∀ name : Name, Function.update v.files (FilePath.render ⟨.variableBehavior, v.fname q⟩) (some [])
          (FilePath.render ⟨d, name⟩) = v.files (FilePath.render ⟨d, name⟩) :=
            fun name => update_render_of_ne fun heq => by
        obtain ⟨rfl, -⟩ := FilePath.mk.inj heq
        rcases hd with h | h <;> cases h
      simp only [hfile]
      refine hb.faults d hd k (hk.trans_eq ?_)
      rcases hd with rfl | rfl <;> rfl
    withVar := by
      show v.queuedVariable + 1 = .ofNat (Nat.count (fun p => Function.update v.varBehavior q true p) v.queuedPaths)
      rw [count_set hq h, UInt32.ofNat_add, ← hb.withVar]
      rfl }

theorem modify_hasNewCov_view (s : Fuzzer) (q : ℕ) : (s.modify q fun e => { e with hasNewCov := true }).view =
    { s.view with hasNewCov := Function.update s.view.hasNewCov q true } := by
  rw [Fuzzer.modify_view]
  simp [Fuzzer.view]

theorem modify_varBehavior_view (s : Fuzzer) (q : ℕ) : (s.modify q fun e => { e with varBehavior := true }).view =
    { s.view with varBehavior := Function.update s.view.varBehavior q true } := by
  rw [Fuzzer.modify_view]
  simp [Fuzzer.view]

/-- What `abort_calibration` leaves of a state. -/
structure Ended (s s' : Fuzzer) : Prop where
  eq : ∃ files queue withCov withVar varByteCount, s' = { s with
    files := files, queue := queue, queuedWithCov := withCov, queuedVariable := withVar, varByteCount := varByteCount }
  entry : ∀ p, ∃ hasNewCov varBehavior, s'.queue p =
    { s.queue p with hasNewCov := hasNewCov, varBehavior := varBehavior }

theorem Ended.refl (s : Fuzzer) : Ended s s := ⟨⟨_, _, _, _, _, rfl⟩, fun _ => ⟨_, _, rfl⟩⟩

theorem Ended.trans {s'' : Fuzzer} (h : Ended s s') (h' : Ended s' s'') : Ended s s'' := by
  refine ⟨?_, fun p => ?_⟩
  · obtain ⟨_, _, _, _, _, rfl⟩ := h.eq
    obtain ⟨_, _, _, _, _, rfl⟩ := h'.eq
    exact ⟨_, _, _, _, _, rfl⟩
  · obtain ⟨_, _, heq⟩ := h.entry p
    obtain ⟨cov, var, heq'⟩ := h'.entry p
    exact ⟨cov, var, by rw [heq', heq]⟩

/-- A modification of an entry, one field or the other. -/
theorem modify_ended {f : QueueEntry → QueueEntry}
    (h : ∀ e, ∃ cov var, f e = { e with hasNewCov := cov, varBehavior := var }) : Ended s (s.modify q f) := by
  refine ⟨⟨_, _, _, _, _, rfl⟩, fun p => ?_⟩
  by_cases hpq : p = q
  · subst hpq
    rw [Fuzzer.modify_queue_self]
    exact h _
  · exact ⟨_, _, Fuzzer.modify_queue_of_ne hpq⟩

/-- An entry that is not variable has no mark. -/
theorem Books.unmarked (hb : Books turns s.view) (hq : q < s.queuedPaths) (h : (s.queue q).varBehavior = false) :
    s.files (FilePath.render ⟨.variableBehavior, (s.queue q).fname⟩) = none := by
  have hfile : (s.files (FilePath.render ⟨.variableBehavior, (s.queue q).fname⟩)).isSome = (s.queue q).varBehavior :=
    hb.varying q hq
  rwa [h, ← Bool.not_eq_true, Option.not_isSome_iff_eq_none] at hfile

/-- An entry is marked as variable once at most. -/
theorem markAsVariable_eq (hb : Books turns s.view) (hq : q < s.queuedPaths) (h : (s.queue q).varBehavior = false) :
    markAsVariable s q = .ok ({ s with
      files := Function.update s.files (FilePath.render ⟨.variableBehavior, (s.queue q).fname⟩) (some []) }.modify q
        fun e => { e with varBehavior := true }) := by
  rw [markAsVariable, createExcl_of_none (hb.unmarked hq h)]
  rfl

/-- An entry that has not had new coverage has it now. -/
theorem Sound.set_hasNewCov (hs : Sound env turns s) (hq : q < s.queuedPaths) (h : (s.queue q).hasNewCov = false) :
    ∃ s', s' = { s.modify q fun e => { e with hasNewCov := true } with queuedWithCov := s.queuedWithCov + 1 } ∧
      Sound env turns s' ∧ Calibrated q s.view s'.view ∧ Ended s s' := by
  have hview : View.hasNewCov s.view q = false := h
  have hended : Ended s (s.modify q fun e => { e with hasNewCov := true }) := modify_ended fun _ => ⟨_, _, rfl⟩
  have hset : Fuzzer.view { s.modify q fun e => { e with hasNewCov := true } with
      queuedWithCov := s.queuedWithCov + 1 } =
      { s.view with
        hasNewCov := Function.update s.view.hasNewCov q true, queuedWithCov := s.view.queuedWithCov + 1 } :=
    congrArg (fun v : View => { v with queuedWithCov := s.queuedWithCov + 1 }) (modify_hasNewCov_view s q)
  have hscores : (s.modify q fun e => { e with hasNewCov := true }).scores = s.scores :=
    Fuzzer.modify_scores fun _ => ⟨rfl, rfl, rfl⟩
  refine ⟨_, rfl, hs.of_scores hscores (hset ▸ hs.books.set_hasNewCov hq hview), ?_⟩
  · rw [hset]
    have hcal : Calibrated q s.view { s.view with
        hasNewCov := Function.update s.view.hasNewCov q true, queuedWithCov := s.view.queuedWithCov + 1 } :=
      ⟨⟨_, _, _, _, _, rfl⟩, fun _ _ => rfl, fun _ _ => id⟩
    exact ⟨hcal, hended.trans ⟨⟨_, _, _, _, _, rfl⟩, fun _ => ⟨_, _, rfl⟩⟩⟩

/-- From `abort_calibration` on, new coverage first. -/
theorem calibrateCov_sound (hs : Sound env turns s) (hq : q < s.queuedPaths) (newBits : UInt8) :
    ∃ s', (if newBits = 2 ∧ (s.queue q).hasNewCov = false then
        { s.modify q fun e => { e with hasNewCov := true } with queuedWithCov := s.queuedWithCov + 1 }
      else s) = s' ∧ Sound env turns s' ∧ Calibrated q s.view s'.view ∧ Ended s s' := by
  split
  · rename_i h
    obtain ⟨s', heq, hset⟩ := hs.set_hasNewCov hq h.2
    exact ⟨s', heq.symm, hset⟩
  · exact ⟨s, rfl, hs, .refl .., .refl s⟩

theorem calibrateVar_sound (hs : Sound env turns s) (hq : q < s.queuedPaths) (h : (s.queue q).varBehavior = false) :
    ∃ s', markAsVariable s q = .ok s' ∧ Sound env turns { s' with queuedVariable := s'.queuedVariable + 1 } ∧
      Calibrated q s.view (Fuzzer.view { s' with queuedVariable := s'.queuedVariable + 1 }) ∧
      Ended s { s' with queuedVariable := s'.queuedVariable + 1 } ∧ (s'.queue q).varBehavior = true := by
  let t : Fuzzer := { s with
    files := Function.update s.files (FilePath.render ⟨.variableBehavior, (s.queue q).fname⟩) (some []) }
  have hview : View.varBehavior s.view q = false := h
  have hset : Fuzzer.view { t.modify q fun e => { e with varBehavior := true } with
      queuedVariable := s.queuedVariable + 1 } =
      { s.view with
        files := Function.update s.view.files (FilePath.render ⟨.variableBehavior, s.view.fname q⟩) (some [])
        varBehavior := Function.update s.view.varBehavior q true
        queuedVariable := s.view.queuedVariable + 1 } :=
    congrArg (fun v : View => { v with queuedVariable := s.queuedVariable + 1 }) (modify_varBehavior_view t q)
  have hended : Ended t (t.modify q fun e => { e with varBehavior := true }) := modify_ended fun _ => ⟨_, _, rfl⟩
  have hscores : (t.modify q fun e => { e with varBehavior := true }).scores = s.scores :=
    Fuzzer.modify_scores fun _ => ⟨rfl, rfl, rfl⟩
  refine ⟨_, markAsVariable_eq hs.books hq h, hs.of_scores hscores (hset ▸ hs.books.set_varBehavior hq hview),
    ?_, ?_, ?_⟩
  · refine hset ▸ ⟨⟨_, _, _, _, _, rfl⟩, fun path hpath => update_render_of_ne hpath, fun path content hpath => ?_⟩
    refine (Function.update_of_ne (fun heq => ?_) ..).trans hpath
    subst heq
    exact Option.some_ne_none content (hpath.symm.trans (hs.books.unmarked hq h))
  · have hfiles : Ended s t := ⟨⟨_, _, _, _, _, rfl⟩, fun _ => ⟨_, _, rfl⟩⟩
    exact (hfiles.trans hended).trans ⟨⟨_, _, _, _, _, rfl⟩, fun _ => ⟨_, _, rfl⟩⟩
  · exact congrArg QueueEntry.varBehavior (t.modify_queue_self q _)

theorem Calibrated.trans {v'' : View} (h : Calibrated q v v') (h' : Calibrated q v' v'') : Calibrated q v v'' := by
  obtain ⟨⟨files, cov, var, hasCov, varBehavior, rfl⟩, hfiles, hkept⟩ := h
  obtain ⟨⟨files', cov', var', hasCov', varBehavior', rfl⟩, hfiles', hkept'⟩ := h'
  exact ⟨⟨_, _, _, _, _, rfl⟩, fun path hpath => (hfiles' path hpath).trans (hfiles path hpath),
    fun path content hpath => hkept' path content (hkept path content hpath)⟩

theorem calibrateEnd_sound (hs : Sound env turns c.state) (hq : q < c.state.queuedPaths) :
    ∃ s', calibrateEnd env q c = .ok (s', c.fault) ∧ Sound env turns s' ∧ Calibrated q c.state.view s'.view ∧
      Ended c.state s' ∧ (c.varDetected = true → (s'.queue q).varBehavior = true) := by
  obtain ⟨s₁, heq, hs₁, hcal, hended⟩ := calibrateCov_sound hs hq c.newBits
  have hq₁ : q < s₁.queuedPaths := by
    obtain ⟨_, _, _, _, _, hview⟩ := hcal.eq
    exact hq.trans_eq (congrArg View.queuedPaths hview).symm
  unfold calibrateEnd
  dsimp only
  rw [heq]
  split
  · -- only the count of the variable bytes changes before the mark
    let s₂ : Fuzzer := { s₁ with varByteCount := countBytes s₁.varBytes env.words }
    have hquiet : Quiet s₁ s₂ := ⟨rfl, rfl⟩
    have hended₂ : Ended s₁ s₂ := ⟨⟨_, _, _, _, _, rfl⟩, fun _ => ⟨_, _, rfl⟩⟩
    split
    · rename_i hvar
      obtain ⟨s₃, hmark, hs₃, hcal₃, hended₃, hvar₃⟩ := calibrateVar_sound (hquiet.sound hs₁) hq₁ hvar
      refine ⟨_, ?_, hs₃, hcal.trans hcal₃, (hended.trans hended₂).trans hended₃, fun _ => hvar₃⟩
      show (markAsVariable s₂ q >>= fun s => pure ({ s with queuedVariable := s.queuedVariable + 1 }, c.fault)) = _
      rw [hmark]
      rfl
    · rename_i hvar
      exact ⟨s₂, rfl, hquiet.sound hs₁, hcal, hended.trans hended₂, fun _ => Bool.eq_true_of_not_eq_false hvar⟩
  · rename_i hdet
    exact ⟨s₁, rfl, hs₁, hcal, hended, fun h => absurd h hdet⟩

/-- Calibration keeps the state sound, and does not end the fuzzer by itself. -/
theorem calibrateCase_sound (mem : List UInt8) (hs : Sound env turns s) (hq : q < s.queuedPaths) (handicap : UInt32)
    (fromQueue : Bool) :
    ∃ s' fault, calibrateCase env s q mem handicap fromQueue = .ok (s', fault) ∧ Sound env turns s' ∧
      Calibrated q s.view s'.view := by
  unfold calibrateCase
  dsimp only
  generalize hc : calibrateLoop env q mem _ calCyclesLong (calibrateStart env s q) = c
  have hquiet : Quiet s c.state := hc ▸ (calibrateStart_quiet env s q).trans (calibrateLoop_quiet ..)
  have hq' : q < c.state.queuedPaths := hq.trans_eq (congrArg View.queuedPaths hquiet.view).symm
  split
  · obtain ⟨s', heq, hs', hcal, -⟩ := calibrateEnd_sound (hquiet.sound hs) hq'
    exact ⟨s', c.fault, heq, hs', hquiet.view ▸ hcal⟩
  · obtain ⟨hdone, hview⟩ := calibrateDone_sound handicap (env.curTimeUs s.totalExecs)
      (decide ((s.queue q).execCksum = 0)) (hquiet.sound hs) hq'
    obtain ⟨s', heq, hs', hcal, -⟩ := calibrateEnd_sound hdone (hq'.trans_eq (congrArg View.queuedPaths hview).symm)
    exact ⟨s', _, heq, hs', (hview.trans hquiet.view) ▸ hcal⟩

end PMFuzz.Afl
