import PMFuzz.Afl.FuzzOne
import PMFuzz.Framework.Descriptors
import PMFuzz.Libpmfuzz.FailureInjection

/-!
# The initial inputs

Each input in `in_dir` becomes an entry under a new name (`pivot_inputs`), and
is calibrated before the main loop starts (`perform_dry_run`). The dry run also writes
two maps for each of them, both of the same trace, and leaves both files open, with
the descriptors in variables of type `s8`: so there is no main loop for more inputs
than half the descriptors below 128.
-/

namespace PMFuzz.Afl

open Libpmfuzz (strstr)

/-! ## The code -/

/-- `MAX_FILE`. -/
def maxFile : ℕ := 1024 * 1024

/-- A file of `in_dir`. Its name is not one that the fuzzer gave it in an earlier session. -/
structure InputFile where
  dName : Str
  isReg : Bool
  readable : Bool
  content : List UInt8
  dName_new : ¬ "id:".toList <+: dName

/-- How the fuzzer is started. -/
structure Options where
  inDir : Str
  /-- What `scandir` finds, shuffled or not. -/
  inputs : List InputFile
  skipTcCheck : Bool
  skipCrashes : Bool
  timeoutGiven : ℕ
  /-- The descriptors that are in use by the time the first map is written. -/
  fds : Finset ℕ
  /-- `cur_path` of the session that is resumed. -/
  curPath : Option ℕ

/-- The loop of `read_testcases`. -/
def scanInputs (o : Options) : List InputFile → Except Abort (List InputFile)
  | [] => .ok []
  | f :: fs =>
    if f.readable = false then .error .input
    else if f.isReg = false ∨ f.content = [] ∨ "/README.txt".toList <:+: o.inDir ++ '/' :: f.dName then scanInputs o fs
    else if o.skipTcCheck = false ∧ maxFile < f.content.length then .error .input
    else do return f :: (← scanInputs o fs)

/-- `read_testcases`: the inputs that go into the queue. -/
def readTestcases (o : Options) : Except Abort (List InputFile) := do
  let fs ← scanInputs o o.inputs
  if fs = [] then throw .input
  return fs

/-- `use_name`. -/
def useName (rsl : Str) : Str :=
  match strstr ",orig:".toList rsl with
  | some i => rsl.drop (i + 6)
  | none => rsl

/-- `add_to_queue` and `pivot_inputs` for one input. Nothing reads its old name in between. -/
def pivotInput (s : Fuzzer) (f : InputFile) : Except Abort Fuzzer :=
  let name : Name := ⟨s.queuedPaths + 1, "time:0,orig:".toList ++ useName f.dName⟩
  createExcl (addToQueue s name f.content.length) ⟨.testcase, name⟩ f.content

/-- `pivot_inputs`. -/
def pivotInputs (s : Fuzzer) (fs : List InputFile) : Except Abort Fuzzer := fs.foldlM pivotInput s

/-- `open` for a new map, with the descriptor in an `s8`, and what is written to it. -/
def createMap (env : Env) (s : Fuzzer) (fds : Finset ℕ) (path : FilePath) : Except Abort (Fuzzer × Finset ℕ) := do
  let fd := lowestFree fds
  if 128 ≤ fd % 256 then throw .file
  -- what is written goes to another file if the descriptor is cut off
  let s ← createExcl s path (if fd < 256 then mapBytes env s.maps.traceBits else [])
  return (s, insert fd fds)

/-- The file of an entry is read, calibrated, and its maps are written. -/
def dryRunEntry (env : Env) (s : Fuzzer) (fds : Finset ℕ) (q : ℕ) : Except Abort (Fuzzer × Finset ℕ × Fault) :=
  match s.files (FilePath.render ⟨.testcase, (s.queue q).fname⟩) with
  | none => .error .file
  | some content =>
    if content.length < (s.queue q).len then .error .input
    else do
      let r ← calibrateCase env s q (content.take (s.queue q).len) 0 true
      let m ← createMap env r.1 fds ⟨.map, (s.queue q).fname⟩
      let m ← createMap env m.1 m.2 ⟨.pmMap, (s.queue q).fname⟩
      return (m.1, m.2, r.2)

/-- The `switch` over the fault, and whether the entry is skipped from now on. -/
def dryRunFault (env : Env) (o : Options) : Fault → Except Abort Bool
  | .none => if env.crashMode = .none then .ok false else .error .input
  | .tmout => if o.timeoutGiven > 1 then .ok true else .error .input
  | .crash => if env.crashMode ≠ .none then .ok false else if o.skipCrashes then .ok true else .error .input
  | .error => .error .target
  | .noInst => .error .input
  | .noBits => .ok false

/-- The loop, with `cal_failures` if it is gone through to the end. -/
def dryRunLoop (env : Env) (o : Options) : List ℕ → Fuzzer → Finset ℕ → ℕ → Except Abort (Fuzzer × Option ℕ)
  | [], s, _, calFailures => .ok (s, some calFailures)
  | q :: qs, s, fds, calFailures => do
    let r ← dryRunEntry env s fds q
    if r.1.stopSoon then return (r.1, none)
    let skip ← dryRunFault env o r.2.2
    if skip then dryRunLoop env o qs (r.1.modify q fun e => { e with calFailed := calChances }) r.2.1 (calFailures + 1)
    else dryRunLoop env o qs r.1 r.2.1 calFailures

/-- `perform_dry_run`. -/
def performDryRun (env : Env) (o : Options) (s : Fuzzer) : Except Abort Fuzzer := do
  let r ← dryRunLoop env o (List.range s.queuedPaths) s o.fds 0
  if r.2 = some s.queuedPaths ∧ s.queuedPaths ≠ 0 then throw .input
  return r.1

/-- `find_start_position`. -/
def findStartPosition (env : Env) (o : Options) (s : Fuzzer) : ℕ :=
  match o.curPath with
  | none => 0
  | some ret => if env.resumingFuzz = false ∨ ret ≥ s.queuedPaths then 0 else ret

/-- An entry that there is not. -/
def QueueEntry.zero : QueueEntry where
  fname := ⟨0, []⟩
  len := 0
  calFailed := 0
  trimDone := false
  wasFuzzed := false
  hasNewCov := false
  varBehavior := false
  favored := false
  fsRedundant := false
  bitmapSize := 0
  fuzzLevel := 0
  execCksum := 0
  execUs := 0
  handicap := 0
  nFuzz := 0
  depth := 0
  traceMini := none
  tcRef := 0
  newPmAccess := false

/-- `afl_state_t` with an empty output directory. -/
def Fuzzer.initial : Fuzzer where
  maps := .initial
  totalExecs := 0
  stopSoon := false
  killSignal := 0
  files := fun _ => none
  queue := fun _ => .zero
  queuedPaths := 0
  queueCur := none
  queueCycle := 0
  seekTo := 0
  curDepth := 0
  topRated := fun _ => none
  scoreChanged := false
  hadNewPmAccess := false
  queuedFavored := 0
  pendingFavored := 0
  pendingNotFuzzed := 0
  queuedWithCov := 0
  queuedVariable := 0
  totalCrashes := 0
  uniqueCrashes := 0
  totalTmouts := 0
  uniqueTmouts := 0
  uniqueHangs := 0
  firstTrace := fun _ => 0
  varBytes := fun _ => 0
  varByteCount := 0

/-- `main` up to the main loop. -/
def startFuzzer (env : Env) (o : Options) : Except Abort Fuzzer := do
  let fs ← readTestcases o
  let s ← pivotInputs .initial fs
  let s ← performDryRun env o s
  let s ← cullQueue env s
  return { s with seekTo := findStartPosition env o s }

/-- `main`. -/
def runFuzzer (env : Env) (o : Options) (ts : List Turn) : Except Abort Fuzzer := do
  let s ← startFuzzer env o
  if s.stopSoon then return s else fuzz env ts s

/-! ## What has been set up -/

variable {env : Env} {o : Options} {s s' : Fuzzer} {v v' : View} {q turns : ℕ} {qs : List ℕ} {fds : Finset ℕ}
  {path : FilePath} {map : List UInt8}

/-- The two maps of an initial input are one. -/
def Twin (env : Env) (v : View) (p : ℕ) : Prop :=
  ∃ map, v.files (FilePath.render ⟨.map, v.fname p⟩) = some map ∧
    v.files (FilePath.render ⟨.pmMap, v.fname p⟩) = some map ∧ map.length = env.mapSize

/-- The files of the initial inputs, while some of these are still to be run. -/
structure Drying (env : Env) (qs : List ℕ) (v : View) : Prop where
  nodup : qs.Nodup
  lt : ∀ q ∈ qs, q < v.queuedPaths
  testcase : ∀ p < v.queuedPaths, 0 < v.len p ∧
    ∃ content, v.files (FilePath.render ⟨.testcase, v.fname p⟩) = some content ∧ v.len p = content.length
  unwritten : ∀ q ∈ qs, v.files (FilePath.render ⟨.map, v.fname q⟩) = none ∧
    v.files (FilePath.render ⟨.pmMap, v.fname q⟩) = none
  written : ∀ p < v.queuedPaths, p ∉ qs → Twin env v p
  /-- No initial input is copied for its PM accesses. -/
  pm : ∀ p < v.queuedPaths, v.files (FilePath.render ⟨.pm, v.fname p⟩) = none

theorem Drying.stored (h : Drying env [] v) (hq : q < v.queuedPaths) : Stored env v q := by
  obtain ⟨hpos, content, hcontent, hlen⟩ := h.testcase q hq
  obtain ⟨map, hmap, -, hsize⟩ := h.written q hq List.not_mem_nil
  refine ⟨hpos, ⟨content, hcontent, hlen.le⟩, ⟨map, hmap, hsize⟩, fun hpm => ?_⟩
  rw [h.pm q hq] at hpm
  cases hpm

/-- The files of the entries decide. -/
theorem Drying.of_files (h : Drying env qs v) (hpaths : v'.queuedPaths = v.queuedPaths) (hname : v'.fname = v.fname)
    (hlen : v'.len = v.len) (hfiles : ∀ (d : Dir) (name : Name), d.IsEntry →
      v'.files (FilePath.render ⟨d, name⟩) = v.files (FilePath.render ⟨d, name⟩)) : Drying env qs v' := by
  have htest := fun name => hfiles .testcase name (.inl rfl)
  have hmap := fun name => hfiles .map name (.inr (.inl rfl))
  have hpm := fun name => hfiles .pm name (.inr (.inr (.inl rfl)))
  have hpmMap := fun name => hfiles .pmMap name (.inr (.inr (.inr rfl)))
  refine ⟨h.nodup, ?_, ?_, ?_, ?_, ?_⟩
  · simpa only [hpaths] using h.lt
  · simpa only [hpaths, hlen, hname, htest] using h.testcase
  · simpa only [hname, hmap, hpmMap] using h.unwritten
  · simpa only [hpaths, Twin, hname, hmap, hpmMap] using h.written
  · simpa only [hpaths, hname, hpm] using h.pm

theorem Calibrated.drying (h : Calibrated q v v') (hd : Drying env qs v) : Drying env qs v' := by
  obtain ⟨hpaths, hname, hlen⟩ := h.entries
  refine hd.of_files hpaths hname hlen fun d name hentry => h.files ⟨d, name⟩ fun heq => ?_
  obtain ⟨rfl, -⟩ := FilePath.mk.inj heq
  rcases hentry with h | h | h | h <;> cases h

theorem Books.fname_ne (hb : Books turns v) {p : ℕ} (hp : p < v.queuedPaths) (hq : q < v.queuedPaths) (h : p ≠ q) :
    v.fname p ≠ v.fname q := fun heq => by
  have hid := congrArg Name.id heq
  rw [hb.fname p hp, hb.fname q hq] at hid
  omega

/-- The next input has been run. -/
theorem Drying.write (h : Drying env (q :: qs) v) (hb : Books turns v) (hmap : map.length = env.mapSize) :
    Drying env qs { v with
      files := Function.update (Function.update v.files (FilePath.render ⟨.map, v.fname q⟩) (some map))
        (FilePath.render ⟨.pmMap, v.fname q⟩) (some map) } := by
  obtain ⟨hnotMem, hnodup⟩ := List.nodup_cons.mp h.nodup
  have hq : q < v.queuedPaths := h.lt q List.mem_cons_self
  generalize hf : Function.update (Function.update v.files (FilePath.render ⟨.map, v.fname q⟩) (some map))
    (FilePath.render ⟨.pmMap, v.fname q⟩) (some map) = files
  have hother : ∀ path : FilePath, path ≠ ⟨.map, v.fname q⟩ → path ≠ ⟨.pmMap, v.fname q⟩ →
      files path.render = v.files path.render := fun path h₁ h₂ => by
    rw [← hf, update_render_of_ne h₂, update_render_of_ne h₁]
  have hname : ∀ (d : Dir) {p}, p < v.queuedPaths → p ≠ q →
      files (FilePath.render ⟨d, v.fname p⟩) = v.files (FilePath.render ⟨d, v.fname p⟩) := fun d p hp hpq => by
    have hne := hb.fname_ne hp hq hpq
    exact hother _ (fun heq => hne (congrArg FilePath.name heq)) fun heq => hne (congrArg FilePath.name heq)
  have hdir : ∀ (d : Dir) (name : Name), d ≠ .map → d ≠ .pmMap →
      files (FilePath.render ⟨d, name⟩) = v.files (FilePath.render ⟨d, name⟩) := fun d name h₁ h₂ =>
    hother _ (fun heq => h₁ (congrArg FilePath.dir heq)) fun heq => h₂ (congrArg FilePath.dir heq)
  refine ⟨hnodup, fun p hp => h.lt p (List.mem_cons_of_mem q hp), fun p hp => ?_, fun p hp => ?_, fun p hp hnot => ?_,
    fun p hp => ?_⟩
  · dsimp only
    rw [hdir _ _ (by decide) (by decide)]
    exact h.testcase p hp
  · have hlt := h.lt p (List.mem_cons_of_mem q hp)
    have hpq : p ≠ q := fun heq => hnotMem (heq ▸ hp)
    dsimp only
    rw [hname _ hlt hpq, hname _ hlt hpq]
    exact h.unwritten p (List.mem_cons_of_mem q hp)
  · by_cases hpq : p = q
    · subst hpq
      refine ⟨map, ?_, ?_, hmap⟩
      · show files _ = _
        rw [← hf, update_render_of_ne (by simp)]
        exact Function.update_self ..
      · show files _ = _
        rw [← hf]
        exact Function.update_self ..
    · obtain ⟨map', hmap', hpmMap', hsize⟩ := h.written p hp (by simp [hpq, hnot])
      exact ⟨map', (hname _ hp hpq).trans hmap', (hname _ hp hpq).trans hpmMap', hsize⟩
  · dsimp only
    rw [hdir _ _ (by decide) (by decide)]
    exact h.pm p hp

/-! ## One input -/

/-- A map is created, unless all the low descriptors are in use. -/
theorem createMap_cases (env : Env) (hfds : fds ⊆ Finset.range 128) (hnone : s.files path.render = none) :
    (fds.card < 128 ∧ insert (lowestFree fds) fds ⊆ Finset.range 128 ∧ createMap env s fds path =
      .ok ({ s with files := Function.update s.files path.render (some (mapBytes env s.maps.traceBits)) },
        insert (lowestFree fds) fds)) ∨
    (fds.card = 128 ∧ createMap env s fds path = .error .file) := by
  have hle : fds.card ≤ 128 := (Finset.card_le_card hfds).trans_eq (Finset.card_range 128)
  have hiff := lowestFree_lt_iff hfds
  unfold createMap
  rcases hle.lt_or_eq with hlt | heq
  · have hfd := hiff.mpr hlt
    have hmod : ¬ 128 ≤ lowestFree fds % 256 := by omega
    have hbyte : lowestFree fds < 256 := by omega
    refine .inl ⟨hlt, insert_lowestFree_subset hfds hlt, ?_⟩
    rw [if_neg hmod, if_pos hbyte, createExcl_of_none hnone]
    rfl
  · have hrange : fds = Finset.range 128 := Finset.eq_of_subset_of_card_le hfds (by rw [Finset.card_range, heq])
    have hfd : lowestFree fds = 128 := by
      have hge : 128 ≤ lowestFree fds := Nat.not_lt.mp fun h => (hiff.mp h).ne heq
      have hfree : 128 ∉ fds := fun hmem => absurd (Finset.mem_range.mp (hfds hmem)) (Nat.lt_irrefl 128)
      exact Nat.le_antisymm (lowestFree_le hfree) hge
    refine .inr ⟨heq, ?_⟩
    rw [hfd]
    rfl

/-- What the dry run does to an input and its two maps. -/
theorem dryRunEntry_ends (hs : Sound env turns s) (hd : Drying env (q :: qs) s.view) (hfds : fds ⊆ Finset.range 128) :
    Ends (fun a => a = Abort.file ∧ 128 < fds.card + 2) (dryRunEntry env s fds q) fun r =>
      Sound env turns r.1 ∧ Drying env qs r.1.view ∧ r.2.1 ⊆ Finset.range 128 ∧ r.2.1.card = fds.card + 2 ∧
      r.1.queuedPaths = s.queuedPaths ∧ r.1.queueCur = s.queueCur := by
  have hq : q < s.queuedPaths := hd.lt q List.mem_cons_self
  obtain ⟨-, content, hcontent, hlen⟩ := hd.testcase q hq
  have hfile : s.files (FilePath.render ⟨.testcase, (s.queue q).fname⟩) = some content := hcontent
  have hlen' : ¬ content.length < (s.queue q).len := Nat.not_lt.mpr hlen.le
  obtain ⟨s₁, fault, heq, hs₁, hcal⟩ := calibrateCase_sound (content.take (s.queue q).len) hs hq 0 true
  have hd₁ := hcal.drying hd
  obtain ⟨hpaths, hname, -⟩ := hcal.entries
  have hq₁ : q < s₁.queuedPaths := hq.trans_eq hpaths.symm
  have hname₁ : (s.queue q).fname = s₁.view.fname q := (congrFun hname q).symm
  obtain ⟨hmap, hpmMap⟩ := hd₁.unwritten q List.mem_cons_self
  unfold dryRunEntry
  rw [hfile]
  dsimp only
  rw [if_neg hlen', heq, hname₁]
  show Ends _ (createMap env s₁ fds _ >>= _) _
  rcases createMap_cases env hfds hmap with ⟨hcard₁, hfds₁, heq₁⟩ | ⟨hcard₁, heq₁⟩
  · rw [heq₁]
    let s₂ : Fuzzer := { s₁ with
      files := Function.update s₁.files (FilePath.render ⟨.map, s₁.view.fname q⟩)
        (some (mapBytes env s₁.maps.traceBits)) }
    have hs₂ : Sound env turns s₂ := hs₁.of_scores rfl (hs₁.books.set_file hq₁ (.inr (.inl rfl)) _)
    have hpmMap₂ : s₂.files (FilePath.render ⟨.pmMap, s₁.view.fname q⟩) = none :=
      (files_of_ne (rfl : s₂ = _) (by decide : Dir.pmMap ≠ .map)).trans hpmMap
    show Ends _ (createMap env s₂ (insert (lowestFree fds) fds) _ >>= _) _
    rcases createMap_cases env hfds₁ hpmMap₂ with ⟨hcard₂, hfds₂, heq₂⟩ | ⟨hcard₂, heq₂⟩
    · rw [heq₂]
      have hs₃ := hs₂.books.set_file hq₁ (.inr (.inr (.inr rfl)) : Dir.pmMap.IsEntry)
        (some (mapBytes env s₂.maps.traceBits))
      refine Ends.ok ⟨hs₂.of_scores rfl hs₃, hd₁.write hs₁.books (length_mapBytes ..), hfds₂, ?_, hpaths,
        hcal.grown.queueCur⟩
      rw [card_insert_lowestFree, card_insert_lowestFree]
    · rw [heq₂]
      rw [card_insert_lowestFree] at hcard₂
      exact Ends.error ⟨rfl, by omega⟩
  · rw [heq₁]
    exact Ends.error ⟨rfl, by omega⟩

/-! ## All of them -/

/-- What ends the fuzzer before the main loop, where so many low descriptors would be in use. -/
def StartAborts (n : ℕ) (a : Abort) : Prop := a = .target ∨ a = .input ∨ a = .file ∧ 128 < n

theorem StartAborts.mono {m n : ℕ} {a : Abort} (h : StartAborts m a) (hmn : m ≤ n) : StartAborts n a :=
  h.imp_right (Or.imp_right (And.imp_right fun hm => hm.trans_le hmn))

theorem dryRunFault_ends (env : Env) (o : Options) (fault : Fault) :
    Ends (fun a => a = Abort.target ∨ a = .input) (dryRunFault env o fault) fun _ => True := by
  cases fault with
  | none | tmout =>
    unfold dryRunFault
    dsimp only
    split
    · exact trivial
    · exact Ends.error (.inr rfl)
  | crash =>
    unfold dryRunFault
    dsimp only
    split
    · exact trivial
    · split
      · exact trivial
      · exact Ends.error (.inr rfl)
  | error => exact Ends.error (.inl rfl)
  | noInst => exact Ends.error (.inr rfl)
  | noBits => exact trivial

/-- What the dry run leaves, if it is gone through to the end or if it is not. -/
structure DryRun (env : Env) (turns n : ℕ) (s s' : Fuzzer) (complete : Bool) : Prop where
  sound : Sound env turns s'
  paths : s'.queuedPaths = s.queuedPaths
  queueCur : s'.queueCur = s.queueCur
  stopped : complete = false → s'.stopSoon = true
  dried : complete = true → Drying env [] s'.view ∧ n ≤ 128

theorem dryRunLoop_ends (o : Options) (hs : Sound env turns s) (hd : Drying env qs s.view)
    (hfds : fds ⊆ Finset.range 128)
    (calFailures : ℕ) : Ends (StartAborts (fds.card + 2 * qs.length)) (dryRunLoop env o qs s fds calFailures) fun r =>
      DryRun env turns (fds.card + 2 * qs.length) s r.1 r.2.isSome := by
  induction qs generalizing s fds calFailures with
  | nil =>
    have hle := (Finset.card_le_card hfds).trans_eq (Finset.card_range 128)
    exact Ends.ok ⟨hs, rfl, rfl, fun h => (by cases h), fun _ => ⟨hd, hle⟩⟩
  | cons q qs ih =>
    have hnext : ∀ {c}, c = fds.card + 2 → fds.card + 2 * (q :: qs).length = c + 2 * qs.length := fun hc => by
      rw [List.length_cons]
      omega
    rw [dryRunLoop]
    have hentry : Ends (StartAborts (fds.card + 2 * (q :: qs).length)) (dryRunEntry env s fds q) _ :=
      (dryRunEntry_ends hs hd hfds).imp fun a ⟨ha, hlt⟩ => .inr (.inr ⟨ha, by rw [hnext rfl]; omega⟩)
    refine hentry.bind fun r ⟨hs', hd', hfds', hcard, hpaths, hcur⟩ => ?_
    split
    · rename_i hstop
      exact Ends.ok ⟨hs', hpaths, hcur, fun _ => hstop, fun h => (by cases h)⟩
    · rw [hnext hcard]
      refine ((dryRunFault_ends env o r.2.2).imp fun a ha => ha.imp_right .inl).bind fun skip _ => ?_
      have hthen : ∀ {t}, Quiet r.1 t → ∀ n, Ends (StartAborts (r.2.1.card + 2 * qs.length))
        (dryRunLoop env o qs t r.2.1 n)
          fun r' => DryRun env turns (r.2.1.card + 2 * qs.length) s r'.1 r'.2.isSome := fun ht n =>
        (ih (ht.sound hs') (ht.view ▸ hd') hfds' n).mono fun r' h =>
          ⟨h.sound, h.paths.trans ((congrArg View.queuedPaths ht.view).trans hpaths),
            h.queueCur.trans ((congrArg View.queueCur ht.view).trans hcur), h.stopped, h.dried⟩
      split
      · have hquiet : Quiet r.1 (r.1.modify q fun e => { e with calFailed := calChances }) :=
          Fuzzer.modify_quiet (fun _ => ⟨rfl, rfl, rfl, rfl, rfl, rfl, rfl, rfl, rfl⟩) fun _ => ⟨rfl, rfl⟩
        exact hthen hquiet _
      · exact hthen (.refl _) _

theorem performDryRun_ends (o : Options) (hs : Sound env turns s) (hd : Drying env (List.range s.queuedPaths) s.view)
    (hfds : o.fds ⊆ Finset.range 128) : Ends (StartAborts (o.fds.card + 2 * s.queuedPaths))
    (performDryRun env o s) fun s' =>
      ∃ complete, DryRun env turns (o.fds.card + 2 * s.queuedPaths) s s' complete := by
  have hloop := dryRunLoop_ends o hs hd hfds 0
  rw [List.length_range] at hloop
  unfold performDryRun
  refine hloop.bind fun r hr => ?_
  split
  · exact Ends.error (.inr (.inl rfl))
  · exact Ends.ok ⟨_, hr⟩

/-! ## The queue at the start -/

theorem scanInputs_ends (o : Options) (fs : List InputFile) :
    Ends (· = Abort.input) (scanInputs o fs) fun fs => ∀ f ∈ fs, f.content ≠ [] := by
  induction fs with
  | nil => exact Ends.ok fun f hf => by cases hf
  | cons f fs ih =>
    rw [scanInputs]
    split
    · exact Ends.error rfl
    · split
      · exact ih
      · rename_i hskip
        split
        · exact Ends.error rfl
        · refine ih.bind fun fs' hfs' => Ends.ok fun f' hf' => ?_
          rcases List.mem_cons.mp hf' with rfl | hf'
          · exact fun hnil => hskip (.inr (.inl hnil))
          · exact hfs' f' hf'

theorem readTestcases_ends (o : Options) : Ends (· = Abort.input) (readTestcases o) fun fs =>
    fs ≠ [] ∧ ∀ f ∈ fs, f.content ≠ [] := by
  unfold readTestcases
  refine (scanInputs_ends o o.inputs).bind fun fs hfs => ?_
  split
  · exact Ends.error rfl
  · rename_i hne
    exact Ends.ok ⟨hne, hfs⟩

theorem initial_refs (env : Env) : Refs env .initial := by
  have howned : ∀ p, owned env .initial p = 0 := fun p => Nat.count_iff_forall_not.mpr fun _ _ h => by cases h
  refine ⟨fun i p (h : none = some p) => absurd h (by simp), fun p => ?_⟩
  rw [howned]
  exact ⟨rfl, iff_of_false Bool.false_ne_true fun h => h rfl⟩

theorem initial_books : Books 0 Fuzzer.initial.view where
  fname _ h := absurd h (Nat.not_lt_zero _)
  redundant _ h := absurd h (Nat.not_lt_zero _)
  varying _ h := absurd h (Nat.not_lt_zero _)
  fresh _ _ := rfl
  owned _ _ h := absurd h Bool.false_ne_true
  faults d hd k hk := by rcases hd with rfl | rfl <;> exact absurd hk (Nat.not_lt_zero k)
  crashes_le := UInt64.le_iff_toNat_le.mpr (Nat.zero_le _)
  hangs_le := UInt64.le_iff_toNat_le.mpr (Nat.zero_le _)
  withCov := rfl
  withVar := rfl
  unfuzzed := rfl
  level_le _ := le_rfl
  level _ h := by cases h
  pending := Nat.zero_le _
  noPm := ⟨rfl, fun _ h => absurd h (Nat.not_lt_zero _)⟩

theorem initial_sound (env : Env) : Sound env 0 .initial :=
  ⟨initial_refs env, .inr (.inr fun _ _ p (h : none = some p) => absurd h (by simp)), initial_books⟩

theorem addToQueue_sound (hs : Sound env turns s) (op : Str) (len : ℕ) :
    Sound env turns (addToQueue s ⟨s.queuedPaths + 1, op⟩ len) :=
  ⟨addToQueue_refs hs.refs _ len, addToQueue_covered hs.covered hs.refs _ len, addToQueue_books hs.books op len⟩

/-- One more input is in the queue. -/
theorem Drying.add {name : Name} {content : List UInt8} (hd : Drying env (List.range s.queuedPaths) s.view)
    (hb : Books turns s.view) (hname : name.id = s.queuedPaths + 1) (hne : content ≠ []) :
    Drying env (List.range (s.queuedPaths + 1)) (Fuzzer.view { addToQueue s name content.length with
      files := Function.update s.files (FilePath.render ⟨.testcase, name⟩) (some content) }) := by
  generalize hv : Fuzzer.view { addToQueue s name content.length with
    files := Function.update s.files (FilePath.render ⟨.testcase, name⟩) (some content) } = v
  have hview := addToQueue_view s name content.length
  have hpaths : v.queuedPaths = s.queuedPaths + 1 := hv ▸ rfl
  have hfname : v.fname = Function.update s.view.fname s.queuedPaths name := hv ▸ congrArg View.fname hview
  have hlen : v.len = Function.update s.view.len s.queuedPaths content.length := hv ▸ congrArg View.len hview
  have hold : ∀ {p}, p < s.queuedPaths → v.fname p = s.view.fname p ∧ v.len p = s.view.len p := fun hp => by
    rw [hfname, hlen, Function.update_of_ne (Nat.ne_of_lt hp), Function.update_of_ne (Nat.ne_of_lt hp)]
    exact ⟨rfl, rfl⟩
  have hnew : v.fname s.queuedPaths = name ∧ v.len s.queuedPaths = content.length := by
    rw [hfname, hlen, Function.update_self, Function.update_self]
    exact ⟨rfl, rfl⟩
  have hself : v.files (FilePath.render ⟨.testcase, name⟩) = some content := by
    rw [← hv]
    exact Function.update_self ..
  have hother : ∀ path : FilePath, path ≠ ⟨.testcase, name⟩ → v.files path.render = s.view.files path.render :=
    fun path h => by
    rw [← hv]
    exact update_render_of_ne h
  have hoff : ∀ (d : Dir) {p}, p < s.queuedPaths → v.files (FilePath.render ⟨d, s.view.fname p⟩) =
      s.view.files (FilePath.render ⟨d, s.view.fname p⟩) := fun d p hp => hother _ fun heq => by
    have hid := congrArg (fun path => path.name.id) heq
    change (s.view.fname p).id = name.id at hid
    rw [hb.fname p hp, hname] at hid
    omega
  have hnone : ∀ d : Dir, d.IsEntry → d ≠ .testcase → v.files (FilePath.render ⟨d, name⟩) = none := fun d hd h => by
    rw [hother _ fun heq => h (congrArg FilePath.dir heq)]
    refine hb.fresh ⟨d, name⟩ (hname.symm ▸ ?_)
    rcases hd with rfl | rfl | rfl | rfl <;> exact le_rfl
  have hcases : ∀ {p}, p < v.queuedPaths → p < s.queuedPaths ∨ p = s.queuedPaths := fun hp =>
    Nat.lt_or_eq_of_le (Nat.le_of_lt_succ (hp.trans_eq hpaths))
  refine ⟨List.nodup_range, fun p hp => hpaths ▸ List.mem_range.mp hp, fun p hp => ?_, fun p hp => ?_,
    fun p hp hnot => absurd (List.mem_range.mpr (hpaths ▸ hp)) hnot, fun p hp => ?_⟩
  · rcases hcases hp with h | rfl
    · rw [(hold h).1, (hold h).2, hoff _ h]
      exact hd.testcase p h
    · rw [hnew.1, hnew.2]
      exact ⟨List.length_pos_iff.mpr hne, content, hself, rfl⟩
  · rcases hcases (hpaths ▸ List.mem_range.mp hp) with h | rfl
    · rw [(hold h).1, hoff _ h, hoff _ h]
      exact hd.unwritten p (List.mem_range.mpr h)
    · rw [hnew.1]
      exact ⟨hnone _ (.inr (.inl rfl)) (by decide), hnone _ (.inr (.inr (.inr rfl))) (by decide)⟩
  · rcases hcases hp with h | rfl
    · rw [(hold h).1, hoff _ h]
      exact hd.pm p h
    · rw [hnew.1]
      exact hnone _ (.inr (.inr (.inl rfl))) (by decide)

theorem initial_drying (env : Env) : Drying env (List.range Fuzzer.initial.queuedPaths) Fuzzer.initial.view where
  nodup := List.nodup_range
  lt _ h := absurd h List.not_mem_nil
  testcase _ h := absurd h (Nat.not_lt_zero _)
  unwritten _ h := absurd h List.not_mem_nil
  written _ h := absurd h (Nat.not_lt_zero _)
  pm _ h := absurd h (Nat.not_lt_zero _)

/-- The queue while the inputs are put into it. -/
structure Pivoted (env : Env) (n : ℕ) (fs : List InputFile) (s : Fuzzer) : Prop where
  sound : Sound env 0 s
  drying : Drying env (List.range s.queuedPaths) s.view
  queueCur : s.queueCur = none
  paths : s.queuedPaths + fs.length = n
  nonempty : ∀ f ∈ fs, f.content ≠ []

theorem pivotInput_pivoted {n : ℕ} {f : InputFile} {fs : List InputFile} (hs : Pivoted env n (f :: fs) s) :
    ∃ s', pivotInput s f = .ok s' ∧ Pivoted env n fs s' := by
  let name : Name := ⟨s.queuedPaths + 1, "time:0,orig:".toList ++ useName f.dName⟩
  have hadd := addToQueue_sound hs.sound ("time:0,orig:".toList ++ useName f.dName) f.content.length
  have hnone : (addToQueue s name f.content.length).files (FilePath.render ⟨.testcase, name⟩) = none :=
    hs.sound.books.fresh ⟨.testcase, name⟩ le_rfl
  refine ⟨_, createExcl_of_none hnone, ?_, ?_, hs.queueCur, ?_,
    fun f' hf' => hs.nonempty f' (List.mem_cons_of_mem f hf')⟩
  · have hname : (addToQueue s name f.content.length).view.fname s.queuedPaths = name := by
      rw [addToQueue_view]
      exact Function.update_self ..
    have hbooks := hadd.books.set_file (Nat.lt_succ_self _) (.inl rfl : Dir.testcase.IsEntry) (some f.content)
    rw [hname] at hbooks
    exact hadd.of_scores rfl hbooks
  · exact hs.drying.add hs.sound.books rfl (hs.nonempty f List.mem_cons_self)
  · have hpaths := hs.paths
    rw [List.length_cons] at hpaths
    show s.queuedPaths + 1 + fs.length = n
    omega

theorem pivotInputs_pivoted (env : Env) {fs : List InputFile} (hfs : ∀ f ∈ fs, f.content ≠ []) :
    ∃ s, pivotInputs .initial fs = .ok s ∧ Pivoted env fs.length [] s := by
  have hstart : Pivoted env fs.length fs .initial :=
    ⟨initial_sound env, initial_drying env, rfl, Nat.zero_add _, hfs⟩
  have hloop : Ends (fun _ => False) (pivotInputs .initial fs) (Pivoted env fs.length []) :=
    Ends.foldlM (Pivoted env fs.length) (fun f fs s hs => by
      obtain ⟨s', heq, hs'⟩ := pivotInput_pivoted hs
      rw [heq]
      exact hs') hstart
  cases heq : pivotInputs .initial fs with
  | error a => exact absurd hloop (by rw [heq]; exact id)
  | ok s => exact ⟨s, rfl, hloop.of_ok heq⟩

/-! ## The start of the fuzzer -/

/-- The inputs that go into the queue. -/
def Options.queued (o : Options) : List InputFile :=
  match readTestcases o with
  | .ok fs => fs
  | .error _ => []

theorem Twin.moved {p : ℕ} (h : Twin env v p) (hm : Moved v v') (hp : p < v.queuedPaths) : Twin env v' p := by
  obtain ⟨map, hmap, hpmMap, hsize⟩ := h
  have hname := hm.fname p hp
  refine ⟨map, ?_, ?_, hsize⟩
  · rw [hname]
    exact hm.kept ⟨.map, v.fname p⟩ (by simp) (by simp) map hmap
  · rw [hname]
    exact hm.kept ⟨.pmMap, v.fname p⟩ (by simp) (by simp) map hpmMap

theorem findStartPosition_lt (o : Options) (h : 0 < s.queuedPaths) : findStartPosition env o s < s.queuedPaths := by
  unfold findStartPosition
  split
  · exact h
  · split
    · exact h
    · rename_i hret
      exact Nat.not_le.mp fun hle => hret (.inr hle)

/-- The queue as the main loop finds it. -/
structure Started (env : Env) (o : Options) (s : Fuzzer) : Prop where
  ready : Ready env 0 s
  paths : s.queuedPaths = o.queued.length
  descriptors : o.fds.card + 2 * o.queued.length ≤ 128
  twin : ∀ p < s.queuedPaths, Twin env s.view p

/-- `cull_queue` does not look at what has stopped the fuzzer. -/
theorem cullQueue_stopSoon (hs : Sound env turns s) : ∃ s', cullQueue env s = .ok s' ∧ Sound env turns s' ∧
    s'.stopSoon = s.stopSoon ∧ s'.queuedPaths = s.queuedPaths := by
  obtain ⟨s', heq, hs', hcase⟩ := cullQueue_sound hs
  refine ⟨s', heq, hs', ?_⟩
  split at hcase
  · rw [hcase]
    exact ⟨rfl, rfl⟩
  · obtain ⟨_, _, rfl, -⟩ := hcase.eq
    exact ⟨rfl, rfl⟩

theorem startFuzzer_ends (env : Env) (o : Options) (hfds : o.fds ⊆ Finset.range 128) :
    Ends (StartAborts (o.fds.card + 2 * o.queued.length)) (startFuzzer env o) fun s =>
      Sound env 0 s ∧ (s.stopSoon = false → Started env o s) := by
  have hread := readTestcases_ends o
  unfold startFuzzer
  cases heq : readTestcases o with
  | error a =>
    have ha : a = .input := hread.of_error heq
    exact Ends.error (.inr (.inl ha))
  | ok fs =>
    obtain ⟨hne, hcontent⟩ := hread.of_ok heq
    have hqueued : o.queued = fs := by rw [Options.queued, heq]
    obtain ⟨s, hpivot, hs⟩ := pivotInputs_pivoted env hcontent
    have hpaths : s.queuedPaths = fs.length := hs.paths
    have hpos : 0 < s.queuedPaths := hpaths.symm ▸ List.length_pos_iff.mpr hne
    rw [hqueued, ← hpaths]
    show Ends _ (pivotInputs .initial fs >>= _) _
    rw [hpivot]
    refine (performDryRun_ends o hs.sound hs.drying hfds).bind fun t ⟨complete, ht⟩ => ?_
    obtain ⟨u, hcull, hu, hstop, hpathsu⟩ := cullQueue_stopSoon ht.sound
    rw [hcull]
    have hposu : 0 < u.queuedPaths := by rwa [hpathsu, ht.paths]
    refine Ends.ok ⟨hu.of_scores rfl { hu.books with }, fun hgo => ?_⟩
    have hcomplete : complete = true := Bool.eq_true_of_not_eq_false fun h => by
      have htstop := ht.stopped h
      rw [← hstop] at htstop
      exact Bool.false_ne_true (hgo.symm.trans htstop)
    obtain ⟨hdried, hle⟩ := ht.dried hcomplete
    have hkept : Kept env 0 t := ⟨ht.sound, fun p hp => hdried.stored hp⟩
    obtain ⟨u', hcull', hgoes, -⟩ := cullQueue_goes hkept
    obtain rfl : u = u' := Except.ok.inj (hcull.symm.trans hcull')
    have hcur : u.queueCur = none := hgoes.queueCur.trans (ht.queueCur.trans hs.queueCur)
    refine ⟨⟨hgoes.kept.set_queueCur u.queueCur u.queueCycle _, fun q hq => ?_, findStartPosition_lt o hposu⟩, ?_, ?_,
      fun p hp => ?_⟩
    · exact absurd (hcur.symm.trans hq) (by simp)
    · rw [hqueued]
      exact hpathsu.trans (ht.paths.trans hpaths)
    · rw [hqueued, ← hpaths]
      exact hle
    · have hp' : p < t.queuedPaths := hp.trans_eq hpathsu
      have htwin : Twin env u.view p := (hdried.written p hp' List.not_mem_nil).moved hgoes.moved hp'
      exact htwin

end PMFuzz.Afl
