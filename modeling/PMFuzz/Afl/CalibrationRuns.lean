import PMFuzz.Afl.Session

/-!
# The runs of a calibration

`calibrateCase_runs`: how often a calibration whose runs pass runs the target, and
which bytes it marks as variable, from the traces of the runs alone (`Runs`).
The loop is followed run by run (`Calibrating`); a run that differs
from the first sets the limit to 40, and `Runs.number` is where it ends.
-/

namespace PMFuzz.Afl

open Libpmfuzz (Mem)

variable {env : Env} {s : Fuzzer} {q turns : ℕ} {mem : List UInt8} {c : Calibration}

/-- What the runs of a calibration are compared with, and the runs. -/
structure Runs where
  hash32 : Mem → UInt32
  /-- `exec_cksum` and `first_trace` at the start. -/
  cksum : UInt32
  first : Mem
  /-- The traces of the runs. -/
  trace : ℕ → Mem

namespace Runs

variable (w : Runs)

/-- `exec_cksum` before a run. -/
def cksumAt : ℕ → UInt32
  | 0 => w.cksum
  | k + 1 => if cksumAt k = 0 then w.hash32 (w.trace k) else cksumAt k

/-- `first_trace` before a run, unless `exec_cksum` is 0. -/
def firstAt : ℕ → Mem
  | 0 => w.first
  | k + 1 => if w.cksumAt k = 0 then w.trace k else firstAt k

/-- A run has another checksum. -/
def differs (k : ℕ) : Prop := w.cksumAt k ≠ 0 ∧ w.hash32 (w.trace k) ≠ w.cksumAt k

instance (k : ℕ) : Decidable (w.differs k) := inferInstanceAs (Decidable (_ ∧ _))

/-- How often the target is run. -/
def number (cycles : ℕ) : ℕ := if ∃ k < cycles, w.differs k then calCyclesLong else cycles

variable {w}

theorem number_of_differs {cycles k : ℕ} (hk : k < cycles) (h : w.differs k) : w.number cycles = calCyclesLong :=
  if_pos ⟨k, hk, h⟩

theorem number_of_not {cycles : ℕ} (h : ∀ k < cycles, ¬ w.differs k) : w.number cycles = cycles :=
  if_neg fun ⟨k, hk, hd⟩ => h k hk hd

end Runs

/-- The runs that calibrating `q` in a state makes. -/
def calibrationRuns (env : Env) (s : Fuzzer) (q : ℕ) (mem : List UInt8) (useTmout : ℕ) : Runs where
  hash32 := env.hash32
  cksum := (s.queue q).execCksum
  first := s.maps.traceBits
  trace k := env.runTrace mem useTmout (s.totalExecs + k)

/-- A run that calibration accepts. -/
def Passes (env : Env) (mem : List UInt8) (useTmout k : ℕ) : Prop :=
  (env.target k mem useTmout).fault = env.crashMode ∧ (env.target k mem useTmout).stopSoon = false

theorem markVarBytes_ne_zero (first trace varBytes : Mem) (i : ℕ) :
    markVarBytes env first trace varBytes i ≠ 0 ↔ varBytes i ≠ 0 ∨ i < env.mapSize ∧ first i ≠ trace i := by
  unfold markVarBytes
  induction env.mapSize with
  | zero => simp
  | succ n ih =>
    rw [List.range_succ, List.foldl_append, List.foldl_cons, List.foldl_nil]
    by_cases hin : i = n
    · subst hin
      have hprev : (List.range i).foldl (fun v j => if v j = 0 ∧ first j ≠ trace j then Function.update v j 1 else v)
          varBytes i ≠ 0 ↔ varBytes i ≠ 0 := ih.trans (by simp)
      split
      · rename_i h
        rw [Function.update_self]
        exact iff_of_true (by decide) (.inr ⟨Nat.lt_succ_self i, h.2⟩)
      · rename_i h
        rw [hprev]
        refine ⟨.inl, fun hor => hor.elim id fun ⟨_, hne⟩ => ?_⟩
        by_contra h0
        exact h ⟨not_not.mp (mt hprev.mp (not_not.mpr h0)), hne⟩
    · have hlt : i < n + 1 ↔ i < n := by omega
      rw [hlt, ← ih]
      split
      · rw [Function.update_of_ne hin]
      · rfl

/-- Before run number `k` of a calibration. -/
structure Calibrating (env : Env) (varBytes : Mem) (q : ℕ) (w : Runs) (cycles k : ℕ) (c : Calibration) : Prop where
  aborted : c.aborted = false
  stageCur : c.stageCur = k
  stageMax : c.stageMax = if c.varDetected then calCyclesLong else cycles
  varDetected : c.varDetected = true ↔ ∃ j < k, w.differs j
  /-- Only a run that differs keeps it going. -/
  within : k ≤ cycles ∨ ∃ j < cycles, w.differs j
  cksum : (c.state.queue q).execCksum = w.cksumAt k
  first : w.cksumAt k ≠ 0 → c.state.firstTrace = w.firstAt k
  varBytes : ∀ i < env.mapSize, c.state.varBytes i ≠ 0 ↔
    varBytes i ≠ 0 ∨ ∃ j < k, w.differs j ∧ w.firstAt j i ≠ w.trace j i

section Runs

variable {useTmout cycles k : ℕ} {w : Runs}

theorem exists_lt_succ {P : ℕ → Prop} : (∃ j < k + 1, P j) ↔ (∃ j < k, P j) ∨ P k := by
  constructor
  · rintro ⟨j, hj, h⟩
    by_cases hjk : j = k
    · exact .inr (hjk ▸ h)
    · exact .inl ⟨j, by omega, h⟩
  · rintro (⟨j, hj, h⟩ | h)
    · exact ⟨j, by omega, h⟩
    · exact ⟨k, Nat.lt_succ_self k, h⟩

/-- A turn whose run passes. -/
theorem calibrateTurn_eq {t : Fuzzer} (ht : (runTarget env c.state mem useTmout).1 = t)
    (hstop : c.state.stopSoon = false)
    (hpass : Passes env mem useTmout c.state.totalExecs)
    (hinst : c.stageCur = 0 → env.dumbMode = true ∨ countBytes t.maps.traceBits env.words ≠ 0) : t.stopSoon = false ∧
      calibrateTurn env q mem useTmout c = calibrateRun env q { c with state := t, fault := env.crashMode } := by
  have hfault : (runTarget env c.state mem useTmout).2 = env.crashMode := hpass.1
  have hstop' : t.stopSoon = false := by
    rw [← ht]
    show (c.state.stopSoon || (env.target c.state.totalExecs mem useTmout).stopSoon) = false
    rw [hstop, hpass.2]
    rfl
  have hinst' : ¬ (env.dumbMode = false ∧ c.stageCur = 0 ∧ countBytes t.maps.traceBits env.words = 0) :=
    fun ⟨hd, h0, hb⟩ =>
    (hinst h0).elim (fun h => Bool.false_ne_true (hd.symm.trans h)) fun h => h hb
  refine ⟨hstop', ?_⟩
  unfold calibrateTurn
  dsimp only
  rw [ht, hfault, if_neg (fun h => h.elim (fun h => Bool.false_ne_true (hstop'.symm.trans h)) fun h => h rfl),
    if_neg hinst']

theorem hasNewBits_state (env : Env) (s : Fuzzer) (m : Virgin) :
    ∃ maps, (s.hasNewBits env m).1 = { s with maps := maps } ∧ maps.traceBits = s.maps.traceBits := by
  refine ⟨_, rfl, ?_⟩
  unfold Afl.hasNewBits
  dsimp only
  split <;> rfl

/-- What calibration does with a run that passes. -/
structure CalibratedRun (c c' : Calibration) : Prop where
  totalExecs : c'.state.totalExecs = c.state.totalExecs
  stopSoon : c'.state.stopSoon = c.state.stopSoon
  traceBits : c'.state.maps.traceBits = c.state.maps.traceBits

theorem calibrateRun_calibrating {old : Mem} (hw : w.hash32 = env.hash32) (hc : Calibrating env old q w cycles k c)
    (hk : k < c.stageMax) (htrace : c.state.maps.traceBits = w.trace k) :
    Calibrating env old q w cycles (k + 1) (calibrateRun env q c) ∧ CalibratedRun c (calibrateRun env q c) := by
  have hwithin : k + 1 ≤ cycles ∨ ∃ j < cycles, w.differs j := by
    rcases hc.within with h | h
    · rw [hc.stageMax] at hk
      split at hk
      · rename_i hdet
        obtain ⟨j, hj, hd⟩ := hc.varDetected.mp hdet
        exact .inr ⟨j, by omega, hd⟩
      · exact .inl hk
    · exact .inr h
  obtain ⟨maps, hmaps, htrace'⟩ := hasNewBits_state env c.state .bits
  unfold calibrateRun
  dsimp only
  rw [hc.cksum, htrace, ← hw]
  split
  · rename_i hne
    unfold calibrateNew
    dsimp only
    rw [hmaps]
    dsimp only
    rw [hc.cksum, htrace', htrace]
    split
    · rename_i h0
      have hdiff : w.differs k := ⟨h0, fun h => hne h.symm⟩
      have hnext : w.cksumAt (k + 1) = w.cksumAt k := by rw [Runs.cksumAt, if_neg h0]
      refine ⟨⟨hc.aborted, congrArg (· + 1) hc.stageCur, rfl, ?_, hwithin, ?_, ?_, ?_⟩, rfl, rfl, htrace'⟩
      · exact iff_of_true rfl ⟨k, Nat.lt_succ_self k, hdiff⟩
      · exact hc.cksum.trans hnext.symm
      · intro _
        rw [Runs.firstAt, if_neg h0]
        exact hc.first h0
      · intro i hi
        refine (markVarBytes_ne_zero ..).trans ?_
        rw [hc.varBytes i hi, hc.first h0, exists_lt_succ, and_iff_right hi, or_assoc]
        exact or_congr_right (or_congr_right (and_iff_right hdiff).symm)
    · rename_i h0
      rw [not_not] at h0
      have hnot : ¬ w.differs k := fun h => h.1 h0
      refine ⟨⟨hc.aborted, congrArg (· + 1) hc.stageCur, hc.stageMax, ?_, hwithin, ?_, ?_, ?_⟩, rfl, rfl, htrace'⟩
      · rw [exists_lt_succ, or_iff_left hnot]
        exact hc.varDetected
      · rw [Runs.cksumAt, if_pos h0]
        let t : Fuzzer := { c.state with maps := maps }
        show ((t.modify q fun e => { e with execCksum := w.hash32 (w.trace k) }).queue q).execCksum = _
        rw [Fuzzer.modify_queue_self]
      · intro _
        rw [Runs.firstAt, if_pos h0]
      · intro i hi
        refine (hc.varBytes i hi).trans ?_
        rw [exists_lt_succ]
        exact or_congr_right (or_iff_left fun h => hnot h.1).symm
  · rename_i heq
    rw [not_not] at heq
    have hnot : ¬ w.differs k := fun h => h.2 heq.symm
    have hnext : w.cksumAt (k + 1) = w.cksumAt k := by
      rw [Runs.cksumAt]
      split
      · exact heq.symm
      · rfl
    refine ⟨⟨hc.aborted, congrArg (· + 1) hc.stageCur, hc.stageMax, ?_, hwithin, ?_, ?_, ?_⟩, rfl, rfl, rfl⟩
    · rw [exists_lt_succ, or_iff_left hnot]
      exact hc.varDetected
    · exact hc.cksum.trans hnext.symm
    · intro h
      rw [hnext] at h
      rw [Runs.firstAt, if_neg h]
      exact hc.first h
    · intro i hi
      refine (hc.varBytes i hi).trans ?_
      rw [exists_lt_succ]
      exact or_congr_right (or_iff_left fun h => hnot h.1).symm

/-- After run number `k`: how often the target has run, and what the last run left. -/
structure After (execs : ℕ) (w : Runs) (k : ℕ) (s : Fuzzer) : Prop where
  totalExecs : s.totalExecs = execs + k
  stopSoon : s.stopSoon = false
  traceBits : ∀ j, k = j + 1 → s.maps.traceBits = w.trace j

theorem calibrateTurn_calibrating {old : Mem} {execs : ℕ} (hw : w.hash32 = env.hash32)
    (htrace : ∀ k, w.trace k = env.runTrace mem useTmout (execs + k))
    (hinst : env.dumbMode = true ∨ countBytes (w.trace 0) env.words ≠ 0) (hpass : Passes env mem useTmout (execs + k))
    (hc : Calibrating env old q w cycles k c) (ha : After execs w k c.state) (hk : k < c.stageMax) :
    Calibrating env old q w cycles (k + 1) (calibrateTurn env q mem useTmout c) ∧
      After execs w (k + 1) (calibrateTurn env q mem useTmout c).state := by
  obtain ⟨t, ht⟩ : ∃ t, (runTarget env c.state mem useTmout).1 = t := ⟨_, rfl⟩
  have htrace' : t.maps.traceBits = w.trace k := by
    rw [← ht, htrace, ← ha.totalExecs]
    rfl
  obtain ⟨hstop, hturn⟩ := calibrateTurn_eq (q := q) ht ha.stopSoon (ha.totalExecs.symm ▸ hpass) fun h0 => by
    have hk0 : k = 0 := hc.stageCur.symm.trans h0
    rw [htrace', hk0]
    exact hinst
  have hqueue : t.queue = c.state.queue := by rw [← ht]; rfl
  have hfirst : t.firstTrace = c.state.firstTrace := by rw [← ht]; rfl
  have hvar : t.varBytes = c.state.varBytes := by rw [← ht]; rfl
  have hexecs : t.totalExecs = execs + (k + 1) := by
    rw [← ht, ← Nat.add_assoc, ← ha.totalExecs]
    rfl
  have hc' : Calibrating env old q w cycles k { c with state := t, fault := env.crashMode } :=
    { hc with
      cksum := (congrArg (fun queue => (queue q).execCksum) hqueue).trans hc.cksum
      first := fun h => hfirst.trans (hc.first h)
      varBytes := fun i hi => hvar.symm ▸ hc.varBytes i hi }
  obtain ⟨hcal, hrun⟩ := calibrateRun_calibrating hw hc' hk htrace'
  rw [hturn]
  refine ⟨hcal, hrun.totalExecs.trans hexecs, hrun.stopSoon.trans hstop, fun j hj => ?_⟩
  rw [← Nat.succ.inj hj]
  exact hrun.traceBits.trans htrace'

theorem Runs.cycles_le_number (h : cycles ≤ calCyclesLong) : cycles ≤ w.number cycles := by
  unfold Runs.number
  split
  · exact h
  · exact le_rfl

theorem Runs.number_le (h : cycles ≤ calCyclesLong) : w.number cycles ≤ calCyclesLong := by
  unfold Runs.number
  split
  · exact le_rfl
  · exact h

/-- The loop goes on up to the number of runs. -/
theorem Calibrating.lt_number {old : Mem} (h : Calibrating env old q w cycles k c) (hcycles : cycles ≤ calCyclesLong)
    (hk : k < c.stageMax) : k < w.number cycles := by
  rw [h.stageMax] at hk
  rcases h.within with hle | ⟨j, hj, hd⟩
  · split at hk
    · rename_i hdet
      obtain ⟨j, hj, hd⟩ := h.varDetected.mp hdet
      rwa [Runs.number_of_differs (hj.trans_le hle) hd]
    · exact hk.trans_le (Runs.cycles_le_number hcycles)
  · rw [Runs.number_of_differs hj hd]
    split at hk
    · exact hk
    · exact hk.trans_le hcycles

/-- It ends there. -/
theorem Calibrating.eq_number {old : Mem} (h : Calibrating env old q w cycles k c) (hcycles : cycles ≤ calCyclesLong)
    (hk : ¬ k < c.stageMax) (hle : k ≤ w.number cycles) : k = w.number cycles := by
  rw [h.stageMax] at hk
  split at hk
  · exact le_antisymm hle ((Runs.number_le hcycles).trans (Nat.le_of_not_lt hk))
  · rename_i hdet
    refine le_antisymm hle ?_
    rw [Runs.number_of_not fun j hj hd => hdet (h.varDetected.mpr ⟨j, hj.trans_le (Nat.le_of_not_lt hk), hd⟩)]
    exact Nat.le_of_not_lt hk

theorem calibrateLoop_calibrating {old : Mem} {execs : ℕ} (hw : w.hash32 = env.hash32)
    (htrace : ∀ k, w.trace k = env.runTrace mem useTmout (execs + k)) (hcycles : cycles ≤ calCyclesLong)
    (hinst : env.dumbMode = true ∨ countBytes (w.trace 0) env.words ≠ 0)
    (hpass : ∀ k < w.number cycles, Passes env mem useTmout (execs + k)) (n : ℕ) (hn : w.number cycles ≤ k + n)
    (hk : k ≤ w.number cycles) (hc : Calibrating env old q w cycles k c) (ha : After execs w k c.state) :
    Calibrating env old q w cycles (w.number cycles) (calibrateLoop env q mem useTmout n c) ∧
      After execs w (w.number cycles) (calibrateLoop env q mem useTmout n c).state := by
  induction n generalizing k c with
  | zero => exact le_antisymm hk hn ▸ ⟨hc, ha⟩
  | succ n ih =>
    rw [calibrateLoop]
    split
    · rename_i h
      have hlt : k < c.stageMax := hc.stageCur ▸ h.2
      have hnumber := hc.lt_number hcycles hlt
      obtain ⟨hc', ha'⟩ := calibrateTurn_calibrating hw htrace hinst (hpass k hnumber) hc ha hlt
      exact ih (by omega) hnumber hc' ha'
    · rename_i h
      have hnot : ¬ k < c.stageMax := fun hlt => h ⟨hc.aborted, hc.stageCur.symm ▸ hlt⟩
      exact hc.eq_number hcycles hnot hk ▸ ⟨hc, ha⟩

theorem Env.cycles_le (env : Env) : env.cycles ≤ calCyclesLong := by
  unfold Env.cycles
  split <;> decide

theorem Env.cycles_pos (env : Env) : 0 < env.cycles := by
  unfold Env.cycles
  split <;> decide

theorem calibrateStart_calibrating (hw : w = calibrationRuns env s q mem useTmout) (hstop : s.stopSoon = false) :
    Calibrating env s.varBytes q w env.cycles 0 (calibrateStart env s q) ∧
      After s.totalExecs w 0 (calibrateStart env s q).state := by
  have hcksum : ((s.modify q fun e => { e with calFailed := e.calFailed + 1 }).queue q).execCksum = w.cksumAt 0 := by
    rw [Fuzzer.modify_queue_self, hw]
    rfl
  unfold calibrateStart
  dsimp only
  split
  · refine ⟨⟨rfl, rfl, rfl, by simp, .inl (Nat.zero_le _), hcksum, fun _ => hw ▸ rfl, ?_⟩, rfl, hstop,
      fun j hj => absurd hj.symm j.succ_ne_zero⟩
    intro i _
    simp only [Nat.not_lt_zero, false_and, exists_false, or_false]
    rfl
  · rename_i h0
    rw [not_not, hcksum] at h0
    refine ⟨⟨rfl, rfl, rfl, by simp, .inl (Nat.zero_le _), hcksum, fun h => absurd h0 h, ?_⟩, rfl, hstop,
      fun j hj => absurd hj.symm j.succ_ne_zero⟩
    intro i _
    simp only [Nat.not_lt_zero, false_and, exists_false, or_false]
    rfl

/-- If its runs pass, an entry is run 8 times, or 3 times with `fast_cal`, or 40
times if one of these differs. The bytes that are marked as variable are
those in which a run that differs is not like the first. -/
theorem calibrateCase_runs (hs : Sound env turns s) (hq : q < s.queuedPaths) (hstop : s.stopSoon = false)
    (handicap : UInt32) (fromQueue : Bool) (hw : w = calibrationRuns env s q mem (calTmout env fromQueue))
    (hinst : env.dumbMode = true ∨ countBytes (w.trace 0) env.words ≠ 0)
    (hpass : ∀ k < w.number env.cycles, Passes env mem (calTmout env fromQueue) (s.totalExecs + k)) :
    ∃ s' fault, calibrateCase env s q mem handicap fromQueue = .ok (s', fault) ∧
      s'.totalExecs = s.totalExecs + w.number env.cycles ∧ (s'.queue q).calFailed = 0 ∧
      (s'.queue q).execCksum = w.cksumAt (w.number env.cycles) ∧
      s'.maps.traceBits = w.trace (w.number env.cycles - 1) ∧
      (w.number env.cycles ≠ env.cycles → (s'.queue q).varBehavior = true) ∧
      ∀ i < env.mapSize, s'.varBytes i ≠ 0 ↔
        s.varBytes i ≠ 0 ∨ ∃ k < w.number env.cycles, w.differs k ∧ w.firstAt k i ≠ w.trace k i := by
  obtain ⟨hc₀, ha₀⟩ := calibrateStart_calibrating hw hstop
  obtain ⟨hc, ha⟩ := calibrateLoop_calibrating (by rw [hw]; rfl)
    (fun k => by rw [hw]; rfl) env.cycles_le hinst hpass calCyclesLong
    ((Runs.number_le env.cycles_le).trans (Nat.le_add_left _ 0)) (Nat.zero_le _) hc₀ ha₀
  have hquiet := (calibrateStart_quiet env s q).trans
    (calibrateLoop_quiet env q mem (calTmout env fromQueue) calCyclesLong (calibrateStart env s q))
  obtain ⟨c, hloop⟩ : ∃ c, calibrateLoop env q mem (calTmout env fromQueue) calCyclesLong
    (calibrateStart env s q) = c :=
    ⟨_, rfl⟩
  rw [hloop] at hc ha hquiet
  have hqc : q < c.state.queuedPaths := hq.trans_eq (congrArg View.queuedPaths hquiet.view).symm
  let startUs := env.curTimeUs s.totalExecs
  let firstRun := decide ((s.queue q).execCksum = 0)
  obtain ⟨hdone, hview⟩ := calibrateDone_sound handicap startUs firstRun (hquiet.sound hs) hqc
  obtain ⟨s', heq, -, -, hended, hvar⟩ := calibrateEnd_sound hdone (hqc.trans_eq (congrArg View.queuedPaths hview).symm)
  obtain ⟨_, _, _, _, _, hs'⟩ := hended.eq
  obtain ⟨cov, var, hentry⟩ := hended.entry q
  -- between the loop and `abort_calibration`, the entry is assigned to and scored
  let t := c.state.modify q fun e => { e with
    execUs := (env.curTimeUs c.state.totalExecs - startUs) / .ofNat c.stageMax
    bitmapSize := countBytes c.state.maps.traceBits env.words
    handicap := handicap.toUInt64
    calFailed := 0 }
  have hscored : Scored t (calibrateDone env q handicap startUs firstRun c).state := updateBitmapScore_scored env t q
  obtain ⟨_, _, _, hscore⟩ := hscored.eq
  obtain ⟨_, _, hscoreEntry⟩ := hscored.entry q
  have hmodify : t.queue q = _ := c.state.modify_queue_self q _
  have hstate : s'.totalExecs = c.state.totalExecs ∧ s'.maps = c.state.maps ∧ s'.varBytes = c.state.varBytes := by
    rw [hs', hscore]
    exact ⟨rfl, rfl, rfl⟩
  have hfields : (s'.queue q).calFailed = 0 ∧ (s'.queue q).execCksum = (c.state.queue q).execCksum := by
    rw [hentry, hscoreEntry, hmodify]
    exact ⟨rfl, rfl⟩
  have hpos : 0 < w.number env.cycles := env.cycles_pos.trans_le (Runs.cycles_le_number env.cycles_le)
  refine ⟨s', (calibrateDone env q handicap startUs firstRun c).fault, ?_, hstate.1.trans ha.totalExecs, hfields.1,
    hfields.2.trans hc.cksum, ?_, fun hne => ?_, fun i hi => ?_⟩
  · unfold calibrateCase
    dsimp only
    rw [hloop, hc.aborted]
    exact heq
  · rw [hstate.2.1]
    exact ha.traceBits _ (Nat.succ_pred_eq_of_pos hpos).symm
  · refine hvar (hc.varDetected.mpr ?_)
    by_contra hnone
    refine hne (Runs.number_of_not fun k hk hd => hnone ⟨k, hk.trans_le (Runs.cycles_le_number env.cycles_le), hd⟩)
  · rw [hstate.2.2]
    exact hc.varBytes i hi

end Runs

/-- Its target hits another byte each time. -/
def flickerEnv : Env where
  toSetup := byteEnv.toSetup
  dumbMode := false
  crashMode := .none
  fastCal := true
  pmfuzzFocus := .rw
  resumingFuzz := false
  disableTrim := true
  byLength := false
  execTmout := 100
  hangTmout := 1000
  hash32 := byteEnv.hash32
  target k _ _ := ⟨⟨Function.update (fun _ => 0) (1 + k % 2) 1, fun _ => 0⟩, .none, none, false⟩
  curTimeUs _ := 0

theorem start_flicker : ∃ s, runFuzzer flickerEnv (byteOptions byteInputs) [] = .ok s ∧ s.stopSoon = false ∧
    s.queuedPaths = 2 ∧
    (calibrationRuns flickerEnv s 1 [66] (calTmout flickerEnv true)).number flickerEnv.cycles = 40 ∧
    countBytes ((calibrationRuns flickerEnv s 1 [66] (calTmout flickerEnv true)).trace 0) flickerEnv.words ≠ 0 := by
  have hrun : (runFuzzer flickerEnv (byteOptions byteInputs) []).toOption.map (fun s =>
      decide (s.stopSoon = false ∧ s.queuedPaths = 2 ∧
        (calibrationRuns flickerEnv s 1 [66] (calTmout flickerEnv true)).number flickerEnv.cycles = 40 ∧
        countBytes ((calibrationRuns flickerEnv s 1 [66] (calTmout flickerEnv true)).trace 0)
          flickerEnv.words ≠ 0)) = some true := by
    decide +kernel
  obtain ⟨s, hs, h⟩ := Option.map_eq_some_iff.mp hrun
  exact ⟨s, Fold.toOption_eq_some.mp hs, of_decide_eq_true h⟩

theorem calibrateCase_runs_flicker : ∃ s s' fault, runFuzzer flickerEnv (byteOptions byteInputs) [] = .ok s ∧
    calibrateCase flickerEnv s 1 [66] 0 true = .ok (s', fault) ∧ s'.totalExecs = s.totalExecs + 40 ∧
    (s'.queue 1).varBehavior = true := by
  obtain ⟨s, h, hgo, hpaths, hnumber, hinst⟩ := start_flicker
  have hs := (reached (by decide) (by decide) h).sound
  obtain ⟨s', fault, heq, hexecs, -, -, -, hvar, -⟩ := calibrateCase_runs hs (q := 1) (by omega) hgo 0 true rfl
    (.inr hinst) fun k _ => ⟨rfl, rfl⟩
  rw [hnumber] at hexecs hvar
  exact ⟨s, s', fault, h, heq, hexecs, hvar (by decide)⟩
end PMFuzz.Afl
