import PMFuzz.Afl.Trim

/-!
# The main loop

`fuzz_one` and the loop around it. What the mutations come up with, what other
fuzzers have found, and the random numbers are inputs of a turn, so a list of turns is any
run that the fuzzer may make.

`fuzz_ready`: whatever the target does and however the run goes, what the fuzzer
relies on holds after it, and only a target that cannot be executed ends the
fuzzer.
-/

namespace PMFuzz.Afl

/-! ## The code -/

def skipToNewProb : ℕ := 99
def skipNfavOldProb : ℕ := 95
def skipNfavNewProb : ℕ := 75
def calChances : ℕ := 3
def tmoutLimit : ℕ := 250

/-- An input that is run, with its descriptions and whether the user skips after it. -/
structure Input where
  mem : List UInt8
  op : Str
  opFault : Str
  skipRequested : Bool

/-- What `fuzz_one` does not decide itself. -/
structure Choices where
  /-- `rand_below(afl, 100)`. -/
  rand : ℕ
  /-- `calculate_score` is 0. -/
  noScore : Bool
  /-- What the stages run. -/
  inputs : List Input

/-- `common_fuzz_stuff`: the state, `subseq_tmouts`, and what it returns. -/
def commonFuzzStuff (env : Env) (s : Fuzzer) (subseqTmouts : ℕ) (i : Input) : Except Abort (Fuzzer × ℕ × Bool) :=
  let r := runTarget env s i.mem env.execTmout
  if r.1.stopSoon then .ok (r.1, subseqTmouts, true)
  else
    let tmouts := if r.2 = .tmout then subseqTmouts + 1 else 0
    if r.2 = .tmout ∧ subseqTmouts > tmoutLimit then .ok (r.1, tmouts, true)
    else if i.skipRequested then .ok (r.1, tmouts, true)
    else do
      let r ← saveIfInteresting env r.1 i.mem r.2 i.op i.opFault
      return (r.1, tmouts, false)

/-- The stages, and whether they are gone through to the end. -/
def fuzzStages (env : Env) : List Input → Fuzzer → ℕ → Except Abort (Fuzzer × Bool)
  | [], s, _ => .ok (s, true)
  | i :: is, s, subseqTmouts => do
    let r ← commonFuzzStuff env s subseqTmouts i
    if r.2.2 then return (r.1, false) else fuzzStages env is r.1 r.2.1

/-- `abandon_entry`. -/
def abandonEntry (s : Fuzzer) (q : ℕ) : Fuzzer :=
  let e := s.queue q
  let s := if s.stopSoon = false ∧ e.calFailed = 0 ∧ (e.wasFuzzed = false ∨ e.fuzzLevel = 0) then
      { s.modify q fun e => { e with wasFuzzed := true } with
        pendingNotFuzzed := s.pendingNotFuzzed - 1
        pendingFavored := if e.favored then s.pendingFavored - 1 else s.pendingFavored }
    else s
  s.modify q fun e => { e with fuzzLevel := e.fuzzLevel + 1 }

/-- The percentage of the times that an entry is skipped. -/
def skipProb (env : Env) (s : Fuzzer) (e : QueueEntry) : ℕ :=
  if s.pendingFavored ≠ 0 then
    if e.wasFuzzed ∨ e.fuzzLevel > 0 ∨ e.favored = false then skipToNewProb else 0
  else if env.dumbMode = false ∧ e.favored = false ∧ s.queuedPaths > 10 then
    if s.queueCycle > 1 ∧ (e.fuzzLevel = 0 ∨ e.wasFuzzed) then skipNfavNewProb else skipNfavOldProb
  else 0

/-- The entry is mapped into memory: `in_buf`. -/
def mapEntry (s : Fuzzer) (e : QueueEntry) : Except Abort (List UInt8) :=
  match s.files (FilePath.render ⟨.testcase, e.fname⟩) with
  | none => .error .file
  | some content =>
    if e.len = 0 then .error .file
    else if content.length < e.len then .error .null
    else .ok (content.take e.len)

/-- Calibration if it failed earlier on, and whether the entry is given up. -/
def fuzzCalibrate (env : Env) (s : Fuzzer) (q : ℕ) (inBuf : List UInt8) : Except Abort (Fuzzer × Bool) :=
  if (s.queue q).calFailed = 0 then .ok (s, false)
  else if (s.queue q).calFailed < calChances then do
    let r ← calibrateCase env s q inBuf (s.queueCycle - 1).toUInt32 false
    if r.2 = .error then throw .target
    return (r.1, r.1.stopSoon || decide (r.2 ≠ env.crashMode))
  else .ok (s, s.stopSoon || decide (Fault.tmout ≠ env.crashMode))

/-- Trimming, and whether the entry is given up. -/
def fuzzTrim (env : Env) (s : Fuzzer) (q : ℕ) (inBuf : List UInt8) : Except Abort (Fuzzer × Bool) :=
  if env.dumbMode = false ∧ (s.queue q).trimDone = false ∧ env.disableTrim = false then
    let r := trimCase env s q inBuf
    if r.2.1 = .error then .error .target
    else if r.1.stopSoon then .ok (r.1, true)
    else .ok (r.1.modify q fun e => { e with trimDone := true }, false)
  else .ok (s, false)

/-- `fuzz_one` from the calibration on. -/
def fuzzEntry (env : Env) (s : Fuzzer) (q : ℕ) (inBuf : List UInt8) (c : Choices) : Except Abort (Fuzzer × Bool) := do
  let r ← fuzzCalibrate env s q inBuf
  if r.2 then return (abandonEntry r.1 q, true)
  let r ← fuzzTrim env r.1 q inBuf
  if r.2 ∨ c.noScore then return (abandonEntry r.1 q, true)
  let r ← fuzzStages env c.inputs r.1 0
  return (abandonEntry r.1 q, !r.2)

/-- `fuzz_one`: the state, and whether it returns 1. -/
def fuzzOne (env : Env) (s : Fuzzer) (c : Choices) : Except Abort (Fuzzer × Bool) :=
  match s.queueCur with
  | none => .error .null
  | some q =>
    if c.rand < skipProb env s (s.queue q) then .ok (s, true)
    else do
      let inBuf ← mapEntry s (s.queue q)
      fuzzEntry env { s with curDepth := (s.queue q).depth } q inBuf c

/-- What `sync_fuzzers` does with what it finds of another fuzzer. -/
def importParty (env : Env) : Fuzzer → List Input → Except Abort Fuzzer
  | s, [] => .ok s
  | s, i :: is =>
    let r := runTarget env s i.mem env.execTmout
    if r.1.stopSoon then .ok r.1
    else do
      let r ← saveIfInteresting env r.1 i.mem r.2 i.op i.opFault
      importParty env r.1 is

/-- `sync_fuzzers`, one fuzzer after the other. -/
def syncFuzzers (env : Env) (parties : List (List Input)) (s : Fuzzer) : Except Abort Fuzzer :=
  parties.foldlM (importParty env) { s with curDepth := 0 }

/-- `sync_fuzzers`, or not. -/
def syncIf (env : Env) (parties : Option (List (List Input))) (s : Fuzzer) : Except Abort Fuzzer :=
  match parties with
  | some parties => syncFuzzers env parties s
  | none => .ok s

/-- A turn of the main loop. -/
structure Turn where
  /-- What is found as the first cycle starts. -/
  importFirst : Option (List (List Input))
  choices : Choices
  /-- What is found after the entry. -/
  imported : Option (List (List Input))
  /-- The user or a limit ends it. -/
  stop : Bool

/-- A new queue cycle. -/
def nextCycle (s : Fuzzer) : Fuzzer :=
  { s with
    queueCycle := s.queueCycle + 1
    queueCur := if s.seekTo < s.queuedPaths then some s.seekTo else none
    seekTo := 0 }

/-- `queue_cur->next`. -/
def nextEntry (s : Fuzzer) : Fuzzer :=
  { s with queueCur := match s.queueCur with
      | none => none
      | some q => if q + 1 < s.queuedPaths then some (q + 1) else none }

/-- A new cycle, if there is no entry left. -/
def startCycle (env : Env) (s : Fuzzer) (t : Turn) : Except Abort Fuzzer :=
  match s.queueCur with
  | some _ => .ok s
  | none => syncIf env t.importFirst (nextCycle s)

/-- A turn of the main loop, and whether there is another one. -/
def fuzzTurn (env : Env) (s : Fuzzer) (t : Turn) : Except Abort (Fuzzer × Bool) := do
  let s ← cullQueue env s
  let s ← startCycle env (cullQueuePm s) t
  let r ← fuzzOne env s t.choices
  let s ← syncIf env (if r.2 = false ∧ r.1.stopSoon = false then t.imported else none) r.1
  if s.stopSoon ∨ t.stop then return (s, false)
  return (nextEntry s, true)

/-- The main loop. -/
def fuzz (env : Env) : List Turn → Fuzzer → Except Abort Fuzzer
  | [], s => .ok s
  | t :: ts, s => do
    let r ← fuzzTurn env s t
    if r.2 then fuzz env ts r.1 else return r.1

/-! ## A turn -/

variable {env : Env} {s s' s'' : Fuzzer} {v v' : View} {q turns : ℕ} {inBuf : List UInt8}

/-- What the parts of a turn keep. -/
structure Goes (env : Env) (turns : ℕ) (s s' : Fuzzer) : Prop where
  kept : Kept env turns s'
  moved : Moved s.view s'.view
  queueCur : s'.queueCur = s.queueCur
  seekTo : s'.seekTo = s.seekTo

theorem Goes.refl (hs : Kept env turns s) : Goes env turns s s := ⟨hs, .refl _, rfl, rfl⟩

theorem Goes.trans {turns' : ℕ} (h : Goes env turns s s') (h' : Goes env turns' s' s'') : Goes env turns' s s'' :=
  ⟨h'.kept, h.moved.trans h'.moved, h'.queueCur.trans h.queueCur, h'.seekTo.trans h.seekTo⟩

theorem Quiet.goes (h : Quiet s s') (hs : Kept env turns s) : Goes env turns s s' :=
  ⟨h.kept hs, h.moved, congrArg View.queueCur h.view, congrArg View.seekTo h.view⟩

theorem Grown.goes (h : Grown s.view s'.view) (hs : Kept env turns s') : Goes env turns s s' :=
  ⟨hs, h.moved, h.queueCur, h.seekTo⟩

/-- The entry stays in the queue. -/
theorem Goes.lt (h : Goes env turns s s') (hq : q < s.queuedPaths) : q < s'.queuedPaths := hq.trans_le h.moved.paths

theorem commonFuzzStuff_goes (hs : Kept env turns s) (subseqTmouts : ℕ) (i : Input) :
    Ends (· = Abort.target) (commonFuzzStuff env s subseqTmouts i) fun r => Goes env turns s r.1 := by
  have hquiet := runTarget_quiet env s i.mem env.execTmout
  unfold commonFuzzStuff
  dsimp only
  split
  · exact Ends.ok (hquiet.goes hs)
  · split
    · exact Ends.ok (hquiet.goes hs)
    · split
      · exact Ends.ok (hquiet.goes hs)
      · refine (saveIfInteresting_ends i.mem (hquiet.kept hs) _ i.op i.opFault).bind fun r ⟨hkept, hgrown, _⟩ => ?_
        exact Ends.ok ((hquiet.grown.trans hgrown).goes hkept)

theorem fuzzStages_goes (is : List Input) (hs : Kept env turns s) (subseqTmouts : ℕ) :
    Ends (· = Abort.target) (fuzzStages env is s subseqTmouts) fun r => Goes env turns s r.1 := by
  induction is generalizing s subseqTmouts with
  | nil => exact Ends.ok (.refl hs)
  | cons i is ih =>
    rw [fuzzStages]
    refine (commonFuzzStuff_goes hs subseqTmouts i).bind fun r hr => ?_
    split
    · exact Ends.ok hr
    · exact (ih hr.kept _).mono fun _ h => hr.trans h

theorem importParty_goes (is : List Input) (hs : Kept env turns s) :
    Ends (· = Abort.target) (importParty env s is) (Goes env turns s) := by
  induction is generalizing s with
  | nil => exact Ends.ok (.refl hs)
  | cons i is ih =>
    have hquiet := runTarget_quiet env s i.mem env.execTmout
    rw [importParty]
    split
    · exact Ends.ok (hquiet.goes hs)
    · refine (saveIfInteresting_ends i.mem (hquiet.kept hs) _ i.op i.opFault).bind fun r ⟨hkept, hgrown, _⟩ => ?_
      exact (ih hkept).mono fun _ h => ((hquiet.grown.trans hgrown).goes hkept).trans h

theorem syncFuzzers_goes (parties : List (List Input)) (hs : Kept env turns s) :
    Ends (· = Abort.target) (syncFuzzers env parties s) (Goes env turns s) := by
  have hquiet : Quiet s { s with curDepth := 0 } := ⟨rfl, rfl⟩
  refine Ends.foldlM (fun _ => Goes env turns s) (fun is _ t ht => ?_) (hquiet.goes hs)
  exact (importParty_goes is ht.kept).mono fun _ h => ht.trans h

theorem syncIf_goes (parties : Option (List (List Input))) (hs : Kept env turns s) :
    Ends (· = Abort.target) (syncIf env parties s) (Goes env turns s) := by
  cases parties with
  | none => exact Ends.ok (.refl hs)
  | some parties => exact syncFuzzers_goes parties hs

/-- The file of an entry has the input, and there is one. -/
theorem mapEntry_eq (hs : Kept env turns s) (hq : q < s.queuedPaths) :
    ∃ inBuf, mapEntry s (s.queue q) = .ok inBuf ∧ Mapped s q inBuf := by
  have hstored := hs.stored q hq
  obtain ⟨content, hcontent, hlen⟩ := hstored.testcase
  have hcontent' : s.files (FilePath.render ⟨.testcase, (s.queue q).fname⟩) = some content := hcontent
  have hpos : ¬ (s.queue q).len = 0 := Nat.ne_of_gt hstored.pos
  refine ⟨content.take (s.queue q).len, ?_, List.length_take_of_le hlen, content, hcontent, List.take_sublist ..⟩
  unfold mapEntry
  rw [hcontent']
  dsimp only
  have hlen' : ¬ content.length < (s.queue q).len := Nat.not_lt.mpr hlen
  rw [if_neg hpos, if_neg hlen']

theorem fuzzCalibrate_goes (hs : Kept env turns s) (hq : q < s.queuedPaths) (hbuf : Mapped s q inBuf) :
    Ends (· = Abort.target) (fuzzCalibrate env s q inBuf) fun r => Goes env turns s r.1 ∧ Mapped r.1 q inBuf := by
  unfold fuzzCalibrate
  split
  · exact Ends.ok ⟨.refl hs, hbuf⟩
  · split
    · obtain ⟨s', fault, heq, hs', hcal⟩ := calibrateCase_sound inBuf hs.toSound hq (s.queueCycle - 1).toUInt32 false
      have hf : Faulted env turns s s' := ⟨hs', hcal.grown, hcal.entries.1⟩
      rw [heq]
      show Ends _ (if fault = .error then throw Abort.target else _) _
      split
      · exact Ends.error rfl
      · obtain ⟨-, hfname, hlen⟩ := hcal.entries
        obtain ⟨content, hcontent, hsub⟩ := hbuf.file
        refine Ends.ok ⟨hcal.grown.goes (hf.kept hs), hbuf.len.trans (congrFun hlen q).symm, content, ?_, hsub⟩
        have hname : (s'.queue q).fname = (s.queue q).fname := congrFun hfname q
        rw [hname]
        exact (hcal.files ⟨.testcase, (s.queue q).fname⟩ (by simp)).trans hcontent
    · exact Ends.ok ⟨.refl hs, hbuf⟩

theorem fuzzTrim_goes (hs : Kept env turns s) (hq : q < s.queuedPaths) (hbuf : Mapped s q inBuf) :
    Ends (· = Abort.target) (fuzzTrim env s q inBuf) fun r => Goes env turns s r.1 := by
  unfold fuzzTrim
  split
  · obtain ⟨hkept, hmoved, htrimmed⟩ := trimCase_kept hs hq hbuf
    have hgoes : Goes env turns s (trimCase env s q inBuf).1 := ⟨hkept, hmoved, htrimmed.queueCur, htrimmed.seekTo⟩
    dsimp only
    split
    · exact Ends.error rfl
    · split
      · exact Ends.ok hgoes
      · have hquiet : Quiet (trimCase env s q inBuf).1
          ((trimCase env s q inBuf).1.modify q fun e => { e with trimDone := true }) :=
          Fuzzer.modify_quiet (fun _ => ⟨rfl, rfl, rfl, rfl, rfl, rfl, rfl, rfl, rfl⟩) fun _ => ⟨rfl, rfl⟩
        exact Ends.ok (hgoes.trans (hquiet.goes hkept))
  · exact Ends.ok (.refl hs)

/-! ## Leaving an entry -/

theorem Books.mono {turns' : ℕ} (hb : Books turns v) (h : turns ≤ turns') : Books turns' v :=
  { hb with level_le := fun p => (hb.level_le p).trans h }

theorem Kept.mono {turns' : ℕ} (hs : Kept env turns s) (h : turns ≤ turns') : Kept env turns' s :=
  ⟨⟨hs.refs, hs.covered, hs.books.mono h⟩, hs.stored⟩

/-- A level that is not too high goes up by one. -/
theorem level_succ (hb : Books turns v) (hturns : turns + 1 < 2 ^ 32) (q : ℕ) :
    (v.fuzzLevel q + 1).toNat = (v.fuzzLevel q).toNat + 1 ∧ v.fuzzLevel q + 1 ≠ 0 := by
  have hle := hb.level_le q
  have hsucc : (v.fuzzLevel q + 1).toNat = (v.fuzzLevel q).toNat + 1 := by
    rw [UInt32.toNat_add]
    exact Nat.mod_eq_of_lt (by show (v.fuzzLevel q).toNat + 1 < 2 ^ 32; omega)
  refine ⟨hsucc, fun h0 => ?_⟩
  rw [h0] at hsucc
  exact Nat.succ_ne_zero _ hsucc.symm

theorem level_le_update (hb : Books turns v) (hturns : turns + 1 < 2 ^ 32) (q p : ℕ) :
    (Function.update v.fuzzLevel q (v.fuzzLevel q + 1) p).toNat ≤ turns + 1 := by
  by_cases hpq : p = q
  · subst hpq
    rw [Function.update_self, (level_succ hb hturns p).1]
    exact Nat.succ_le_succ (hb.level_le p)
  · rw [Function.update_of_ne hpq]
    exact (hb.level_le p).trans (Nat.le_succ _)

/-- An entry that has been looked at. -/
theorem Books.leveled (hb : Books turns v) (hturns : turns + 1 < 2 ^ 32) (q : ℕ) :
    Books (turns + 1) { v with fuzzLevel := Function.update v.fuzzLevel q (v.fuzzLevel q + 1) } :=
  { hb with
    level_le := level_le_update hb hturns q
    level := fun p hp => by
      show Function.update v.fuzzLevel q (v.fuzzLevel q + 1) p ≠ 0
      by_cases hpq : p = q
      · subst hpq
        rw [Function.update_self]
        exact (level_succ hb hturns p).2
      · rw [Function.update_of_ne hpq]
        exact hb.level p hp }

/-- A flag that is taken back. -/
theorem count_unset (flag : ℕ → Bool) {n : ℕ} (hq : q < n) : Nat.count (fun p => Function.update flag q false p) n +
    (if flag q then 1 else 0) = Nat.count (fun p => flag p) n := by
  have hcount := count_update flag false true hq
  rw [if_neg Bool.false_ne_true, Nat.add_zero] at hcount
  exact hcount

/-- An entry that has been fuzzed for the first time. -/
theorem Books.fuzzed (hb : Books turns v) (hturns : turns + 1 < 2 ^ 32) (hq : q < v.queuedPaths)
    (h : v.wasFuzzed q = false) : Books (turns + 1) { v with
      wasFuzzed := Function.update v.wasFuzzed q true
      fuzzLevel := Function.update v.fuzzLevel q (v.fuzzLevel q + 1)
      pendingNotFuzzed := v.pendingNotFuzzed - 1
      pendingFavored := if v.favored q then v.pendingFavored - 1 else v.pendingFavored } :=
  { hb with
    unfuzzed := by
      have hunset := count_unset (fun p => !v.wasFuzzed p) hq
      have hflag : ∀ p, (!Function.update v.wasFuzzed q true p) = Function.update
        (fun p => !v.wasFuzzed p) q false p := fun p =>
        Function.apply_update (fun _ b => !b) v.wasFuzzed q true p
      show v.pendingNotFuzzed - 1 = .ofNat (Nat.count (fun p => !Function.update v.wasFuzzed q true p) v.queuedPaths)
      rw [hb.unfuzzed, ← hunset, h, count_congr fun p _ => hflag p]
      rw [if_pos (by rfl), UInt32.ofNat_add]
      exact UInt32.add_sub_cancel _ _
    level_le := level_le_update hb hturns q
    level := fun p hp => by
      show Function.update v.fuzzLevel q (v.fuzzLevel q + 1) p ≠ 0
      by_cases hpq : p = q
      · subst hpq
        rw [Function.update_self]
        exact (level_succ hb hturns p).2
      · rw [Function.update_of_ne hpq]
        refine hb.level p ?_
        change Function.update v.wasFuzzed q true p = true at hp
        rwa [Function.update_of_ne hpq] at hp
    pending := by
      have hunset := count_unset (fun p => v.favored p && !v.wasFuzzed p) hq
      have hflag : ∀ p, (v.favored p && !Function.update v.wasFuzzed q true p) =
          Function.update (fun p => v.favored p && !v.wasFuzzed p) q false p := fun p => by
        by_cases hpq : p = q
        · subst hpq
          rw [Function.update_self, Function.update_self]
          exact Bool.and_false _
        · rw [Function.update_of_ne hpq, Function.update_of_ne hpq]
      have hpending := hb.pending
      show Nat.count (fun p => v.favored p && !Function.update v.wasFuzzed q true p) v.queuedPaths ≤
        (if v.favored q then v.pendingFavored - 1 else v.pendingFavored).toNat
      rw [count_congr fun p _ => hflag p]
      rw [h] at hunset
      cases hfav : v.favored q with
      | false =>
        rw [hfav] at hunset
        rw [if_neg Bool.false_ne_true]
        exact hunset.trans_le hpending
      | true =>
        rw [hfav, if_pos (by rfl)] at hunset
        have hpos : (1 : UInt32) ≤ v.pendingFavored := UInt32.le_iff_toNat_le.mpr (by show 1 ≤ _; omega)
        rw [if_pos rfl, UInt32.toNat_sub_of_le _ _ hpos]
        show _ ≤ v.pendingFavored.toNat - 1
        omega }

theorem modify_fuzzLevel_view (s : Fuzzer) (q : ℕ) :
    (s.modify q fun e => { e with fuzzLevel := e.fuzzLevel + 1 }).view =
    { s.view with fuzzLevel := Function.update s.view.fuzzLevel q (s.view.fuzzLevel q + 1) } := by
  rw [Fuzzer.modify_view]
  simp [Fuzzer.view]

theorem modify_wasFuzzed_view (s : Fuzzer) (q : ℕ) : (s.modify q fun e => { e with wasFuzzed := true }).view =
    { s.view with wasFuzzed := Function.update s.view.wasFuzzed q true } := by
  rw [Fuzzer.modify_view]
  simp [Fuzzer.view]

/-- Only the books of the entry change. -/
theorem goes_of_view {turns' : ℕ} (hs : Kept env turns s) (hscores : s'.scores = s.scores) (hb : Books turns' s'.view)
    (hview : ∃ wasFuzzed fuzzLevel pendingNotFuzzed pendingFavored, s'.view = { s.view with
      wasFuzzed := wasFuzzed, fuzzLevel := fuzzLevel
      pendingNotFuzzed := pendingNotFuzzed, pendingFavored := pendingFavored }) : Goes env turns' s s' := by
  obtain ⟨wasFuzzed, fuzzLevel, pendingNotFuzzed, pendingFavored, hview⟩ := hview
  refine ⟨⟨hs.toSound.of_scores hscores hb, fun p hp => ?_⟩, ?_, congrArg View.queueCur hview,
    congrArg View.seekTo hview⟩
  · have hstored := hs.stored p (hp.trans_eq (congrArg View.queuedPaths hview))
    rw [hview]
    exact ⟨hstored.pos, hstored.testcase, hstored.map, hstored.pm⟩
  · rw [hview]
    exact .of_eq rfl rfl rfl

theorem abandonEntry_goes (hs : Kept env turns s) (hturns : turns + 1 < 2 ^ 32) (hq : q < s.queuedPaths) :
    Goes env (turns + 1) s (abandonEntry s q) := by
  unfold abandonEntry
  dsimp only
  have hlevel : ∀ t : Fuzzer, (t.modify q fun e => { e with fuzzLevel := e.fuzzLevel + 1 }).scores = t.scores :=
    fun t =>
    Fuzzer.modify_scores fun _ => ⟨rfl, rfl, rfl⟩
  split
  · rename_i hcond
    have hfuzzed : s.view.wasFuzzed q = false := by
      rcases hcond.2.2 with h | h
      · exact h
      · exact Bool.eq_false_of_not_eq_true fun htrue => hs.books.level q htrue h
    let t : Fuzzer := { s.modify q fun e => { e with wasFuzzed := true } with
      pendingNotFuzzed := s.pendingNotFuzzed - 1
      pendingFavored := if (s.queue q).favored then s.pendingFavored - 1 else s.pendingFavored }
    have hscores : t.scores = s.scores :=
      Fuzzer.modify_scores (s := s) (f := fun e => { e with wasFuzzed := true }) fun _ => ⟨rfl, rfl, rfl⟩
    have ht : t.view = { s.view with
        wasFuzzed := Function.update s.view.wasFuzzed q true
        pendingNotFuzzed := s.view.pendingNotFuzzed - 1
        pendingFavored := if s.view.favored q then s.view.pendingFavored - 1 else s.view.pendingFavored } :=
      congrArg (fun v : View => { v with
        pendingNotFuzzed := s.pendingNotFuzzed - 1
        pendingFavored := if (s.queue q).favored then s.pendingFavored - 1 else s.pendingFavored })
        (modify_wasFuzzed_view s q)
    have hview := modify_fuzzLevel_view t q
    rw [ht] at hview
    refine goes_of_view hs ((hlevel t).trans hscores) ?_ ⟨_, _, _, _, hview⟩
    rw [hview]
    exact hs.books.fuzzed hturns hq hfuzzed
  · have hview := modify_fuzzLevel_view s q
    refine goes_of_view hs (hlevel s) ?_ ⟨_, _, _, _, hview⟩
    rw [hview]
    exact hs.books.leveled hturns q

/-! ## The loop -/

theorem fuzzEntry_goes (hs : Kept env turns s) (hturns : turns + 1 < 2 ^ 32) (hq : q < s.queuedPaths)
    (hbuf : Mapped s q inBuf) (c : Choices) :
    Ends (· = Abort.target) (fuzzEntry env s q inBuf c) fun r => Goes env (turns + 1) s r.1 := by
  have habandon : ∀ {t}, Goes env turns s t → Goes env (turns + 1) s (abandonEntry t q) := fun ht =>
    ht.trans (abandonEntry_goes ht.kept hturns (ht.lt hq))
  unfold fuzzEntry
  refine (fuzzCalibrate_goes hs hq hbuf).bind fun r ⟨hr, hbuf'⟩ => ?_
  split
  · exact Ends.ok (habandon hr)
  · refine (fuzzTrim_goes hr.kept (hr.lt hq) hbuf').bind fun r' hr' => ?_
    split
    · exact Ends.ok (habandon (hr.trans hr'))
    · refine (fuzzStages_goes c.inputs hr'.kept 0).bind fun r'' hr'' => ?_
      exact Ends.ok (habandon ((hr.trans hr').trans hr''))

theorem fuzzOne_goes (hs : Kept env turns s) (hturns : turns + 1 < 2 ^ 32) (hcur : s.queueCur = some q)
    (hq : q < s.queuedPaths) (c : Choices) :
    Ends (· = Abort.target) (fuzzOne env s c) fun r => Goes env (turns + 1) s r.1 := by
  unfold fuzzOne
  split
  · rename_i hnone
    cases hnone.symm.trans hcur
  · rename_i p hp
    obtain rfl : p = q := Option.some.inj (hp.symm.trans hcur)
    split
    · exact Ends.ok ⟨hs.mono (Nat.le_succ _), .refl _, rfl, rfl⟩
    · obtain ⟨inBuf, hmap, hbuf⟩ := mapEntry_eq hs hq
      have hquiet : Quiet s { s with curDepth := (s.queue p).depth } := ⟨rfl, rfl⟩
      rw [hmap]
      exact (fuzzEntry_goes (hquiet.kept hs) hturns hq ⟨hbuf.len, hbuf.file⟩ c).mono fun _ h => (hquiet.goes hs).trans h

theorem Culled.goes (h : Culled env s s') (hs : Kept env turns s) : Goes env turns s s' := by
  have hsound := h.sound hs.toSound
  obtain ⟨files, queue, rfl, -, hentry, hfiles⟩ := h.eq
  have hfield : ∀ {α : Type} (g : QueueEntry → α), (∀ e favored mark,
      g { e with favored := favored, fsRedundant := mark } = g e) → ∀ p, g (queue p) = g (s.queue p) := fun g hg p => by
    obtain ⟨favored, mark, heq⟩ := hentry p
    rw [heq, hg]
  have hname := hfield QueueEntry.fname fun _ _ _ => rfl
  have hlen := hfield QueueEntry.len fun _ _ _ => rfl
  have hother : ∀ path : FilePath, path.dir ≠ .redundantEdges → files path.render = s.files path.render :=
    fun path hdir =>
    hfiles path fun p _ heq => hdir (congrArg FilePath.dir heq)
  refine ⟨⟨hsound, fun p hp => ?_⟩, ⟨le_rfl, fun p _ => hname p, fun path _ hdir content hpath => ?_,
    fun path hdir content hpath => ⟨content, ?_, .refl _⟩, fun path hdir _ hpath => ?_⟩, rfl, rfl⟩
  · obtain ⟨hpos, htest, hmap, hpm⟩ := hs.stored p hp
    refine ⟨?_, ?_, ?_, ?_⟩
    · show 0 < (queue p).len
      rw [hlen]
      exact hpos
    · show ∃ content, files (FilePath.render ⟨.testcase, (queue p).fname⟩) = some content ∧
        (queue p).len ≤ content.length
      rw [hname, hlen, hother _ (by simp)]
      exact htest
    · show ∃ content, files (FilePath.render ⟨.map, (queue p).fname⟩) = some content ∧ content.length = env.mapSize
      rw [hname, hother _ (by simp)]
      exact hmap
    · show (files (FilePath.render ⟨.pm, (queue p).fname⟩)).isSome = true →
        ∃ content, files (FilePath.render ⟨.pmMap, (queue p).fname⟩) = some content ∧ content.length = env.mapSize
      rw [hname, hother _ (by simp), hother _ (by simp)]
      exact hpm
  · exact (hother path hdir).trans hpath
  · exact (hother path (by rw [hdir]; simp)).trans hpath
  · exact (hother path fun heq => absurd (heq ▸ hdir) (by decide : ¬ Dir.redundantEdges.IsEntry)).trans hpath

/-- After `cull_queue`, the favored entries are up to date. -/
theorem cullQueue_goes (hs : Kept env turns s) : ∃ s', cullQueue env s = .ok s' ∧ Goes env turns s s' ∧
    (env.dumbMode = true ∨ s'.scoreChanged = false) := by
  obtain ⟨s', heq, -, hcase⟩ := cullQueue_sound hs.toSound
  refine ⟨s', heq, ?_⟩
  split at hcase
  · rename_i hnone
    subst hcase
    rw [Bool.or_eq_true, Bool.not_eq_true'] at hnone
    exact ⟨.refl hs, hnone⟩
  · refine ⟨hcase.goes hs, .inr ?_⟩
    obtain ⟨_, _, rfl, -⟩ := hcase.eq
    rfl

/-- The entry that is fuzzed is there, and so is the one that the next cycle starts with. -/
structure Ready (env : Env) (turns : ℕ) (s : Fuzzer) : Prop where
  kept : Kept env turns s
  queueCur : ∀ q, s.queueCur = some q → q < s.queuedPaths
  seekTo : s.seekTo < s.queuedPaths

theorem Goes.ready {turns' : ℕ} (h : Goes env turns' s s') (hs : Ready env turns s) : Ready env turns' s' where
  kept := h.kept
  queueCur q hq := h.lt (hs.queueCur q (h.queueCur.symm.trans hq))
  seekTo := (h.seekTo.trans_lt hs.seekTo).trans_le h.moved.paths

/-- The queue is stepped through by its positions alone. -/
theorem Kept.set_queueCur (hs : Kept env turns s) (queueCur : Option ℕ) (queueCycle : UInt64) (seekTo : ℕ) :
    Kept env turns { s with queueCur := queueCur, queueCycle := queueCycle, seekTo := seekTo } where
  toSound := hs.toSound.of_scores rfl { hs.books with }
  stored p hp := ⟨(hs.stored p hp).pos, (hs.stored p hp).testcase, (hs.stored p hp).map, (hs.stored p hp).pm⟩

/-- The entry that the next turn is about. -/
def Fuzzer.turn (s : Fuzzer) : ℕ := s.queueCur.getD s.seekTo

theorem Goes.turn (h : Goes env turns s s') : s'.turn = s.turn := by
  unfold Fuzzer.turn
  rw [h.queueCur, h.seekTo]

theorem nextCycle_ready (hs : Ready env turns s) :
    Ready env turns (nextCycle s) ∧ (nextCycle s).queueCur = some s.seekTo := by
  have hpos : 0 < s.queuedPaths := Nat.zero_lt_of_lt hs.seekTo
  have hcur : (nextCycle s).queueCur = some s.seekTo := if_pos hs.seekTo
  refine ⟨⟨hs.kept.set_queueCur .., fun q hq => ?_, hpos⟩, hcur⟩
  rw [hcur] at hq
  cases hq
  exact hs.seekTo

theorem nextEntry_queueCur (hcur : s.queueCur = some q) :
    (nextEntry s).queueCur = if q + 1 < s.queuedPaths then some (q + 1) else none := by
  unfold nextEntry
  rw [hcur]

theorem nextEntry_ready (hs : Ready env turns s) (hcur : s.queueCur = some q) : Ready env turns (nextEntry s) := by
  refine ⟨hs.kept.set_queueCur .., fun p hp => ?_, hs.seekTo⟩
  rw [nextEntry_queueCur hcur] at hp
  split at hp
  · rename_i h
    cases hp
    exact h
  · cases hp

theorem startCycle_ready (hs : Ready env turns s) (t : Turn) : Ends (· = Abort.target) (startCycle env s t) fun s' =>
    Ready env turns s' ∧ Moved s.view s'.view ∧ s'.queueCur = some s.turn := by
  unfold startCycle
  split
  · rename_i q hq
    have hturn : s.turn = q := by rw [Fuzzer.turn, hq, Option.getD_some]
    exact Ends.ok ⟨hs, .refl _, hturn.symm ▸ hq⟩
  · rename_i hnone
    obtain ⟨hready, hcur⟩ := nextCycle_ready hs
    have hturn : s.turn = s.seekTo := by rw [Fuzzer.turn, hnone, Option.getD_none]
    have hmoved : Moved s.view (nextCycle s).view := .of_eq rfl rfl rfl
    exact (syncIf_goes t.importFirst hready.kept).mono fun s' h =>
      ⟨h.ready hready, hmoved.trans h.moved, hturn.symm ▸ h.queueCur.trans hcur⟩

/-- What a turn does to the entry that is fuzzed. -/
theorem fuzzTurn_ready (hs : Ready env turns s) (hturns : turns + 1 < 2 ^ 32) (t : Turn) :
    Ends (· = Abort.target) (fuzzTurn env s t) fun r => Ready env (turns + 1) r.1 ∧ Moved s.view r.1.view ∧
      if r.2 then r.1.queueCur = if s.turn + 1 < r.1.queuedPaths then some (s.turn + 1) else none
      else r.1.stopSoon = true ∨ t.stop = true := by
  obtain ⟨s₁, hcull, hgoes₁, -⟩ := cullQueue_goes hs.kept
  have hready₁ := hgoes₁.ready hs
  unfold fuzzTurn
  rw [hcull]
  show Ends _ (startCycle env (cullQueuePm s₁) t >>= _) _
  rw [cullQueuePm_eq hready₁.kept.books]
  refine (startCycle_ready hready₁ t).bind fun s₂ ⟨hready₂, hmoved₂, hcur₂⟩ => ?_
  refine (fuzzOne_goes hready₂.kept hturns hcur₂ (hready₂.queueCur _ hcur₂) t.choices).bind fun r hr => ?_
  refine (syncIf_goes _ hr.kept).bind fun s₃ hgoes₃ => ?_
  have hready₃ := (hr.trans hgoes₃).ready hready₂
  have hmoved₃ := hgoes₁.moved.trans (hmoved₂.trans (hr.trans hgoes₃).moved)
  have hcur₃ : s₃.queueCur = some s.turn := (hr.trans hgoes₃).queueCur.trans (hgoes₁.turn ▸ hcur₂)
  split
  · rename_i hstop
    exact Ends.ok ⟨hready₃, hmoved₃, hstop⟩
  · exact Ends.ok ⟨nextEntry_ready hready₃ hcur₃, hmoved₃.trans (.of_eq rfl rfl rfl), nextEntry_queueCur hcur₃⟩

/-- Whatever the target does and however the run goes, only a target that cannot be
executed ends the fuzzer. -/
theorem fuzz_ready (ts : List Turn) (hs : Ready env turns s) (hturns : turns + ts.length < 2 ^ 32) :
    Ends (· = Abort.target) (fuzz env ts s) fun s' => Ready env (turns + ts.length) s' ∧ Moved s.view s'.view := by
  induction ts generalizing turns s with
  | nil => exact Ends.ok ⟨hs, .refl _⟩
  | cons t ts ih =>
    rw [List.length_cons] at hturns ⊢
    rw [fuzz]
    refine (fuzzTurn_ready hs (by omega) t).bind fun r ⟨hready, hmoved, _⟩ => ?_
    split
    · refine (ih hready (by omega)).mono fun s' ⟨hready', hmoved'⟩ => ⟨?_, hmoved.trans hmoved'⟩
      rwa [Nat.add_assoc, Nat.add_comm 1] at hready'
    · exact Ends.ok ⟨⟨hready.kept.mono (by omega), hready.queueCur, hready.seekTo⟩, hmoved⟩

end PMFuzz.Afl
