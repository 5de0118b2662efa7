import PMFuzz.Afl.DryRun

/-!
# A session

A run of the fuzzer from `main` on: the inputs are read and run, and then the
main loop takes any number of turns. As any list of turns may be a
session's, what holds of the state that it leaves holds between any two turns.

* `session_aborts`, `session_inputs`: what may end it, and for how many inputs it gets to the main loop;
* `session_books`, `session_refs`, `session_files`, `session_twins`: the state that it leaves;
* `session_kept`, `session_covered`, `session_turns`: what further turns do.
-/

namespace PMFuzz.Afl

variable {env : Env} {o : Options} {s s' : Fuzzer} {turns : ℕ} {ts ts' : List Turn}

/-- What a session has come to. -/
structure Reached (env : Env) (o : Options) (turns : ℕ) (s : Fuzzer) : Prop where
  sound : Sound env turns s
  /-- The main loop has been entered, unless Ctrl+C came before. -/
  entered : (∃ s₀, startFuzzer env o = .ok s₀ ∧ s₀.stopSoon = true ∧ s = s₀) ∨
    ∃ s₀, startFuzzer env o = .ok s₀ ∧ Started env o s₀ ∧ Ready env turns s ∧ Moved s₀.view s.view

theorem runFuzzer_ends (env : Env) (o : Options) (hfds : o.fds ⊆ Finset.range 128) (hturns : ts.length < 2 ^ 32) :
    Ends (StartAborts (o.fds.card + 2 * o.queued.length)) (runFuzzer env o ts) (Reached env o ts.length) := by
  have hstart := startFuzzer_ends env o hfds
  unfold runFuzzer
  cases heq : startFuzzer env o with
  | error a => exact Ends.error (hstart.of_error heq)
  | ok s₀ =>
    obtain ⟨hsound, hstarted⟩ := hstart.of_ok heq
    show Ends _ (if s₀.stopSoon then pure s₀ else fuzz env ts s₀) _
    split
    · rename_i hstop
      exact Ends.ok ⟨⟨hsound.refs, hsound.covered, hsound.books.mono (Nat.zero_le _)⟩, .inl ⟨s₀, heq, hstop, rfl⟩⟩
    · rename_i hgo
      have hs := hstarted (Bool.eq_false_of_not_eq_true hgo)
      have hfuzz := fuzz_ready ts hs.ready (by omega)
      rw [Nat.zero_add] at hfuzz
      exact (hfuzz.imp fun a ha => .inl ha).mono fun s ⟨hready, hmoved⟩ =>
        ⟨hready.kept.toSound, .inr ⟨s₀, heq, hs, hready, hmoved⟩⟩

theorem Reached.ready (h : Reached env o turns s) (hgo : s.stopSoon = false) : Ready env turns s := by
  rcases h.entered with ⟨s₀, -, hstop, rfl⟩ | ⟨s₀, -, -, hready, -⟩
  · exact absurd (hgo.symm.trans hstop) Bool.false_ne_true
  · exact hready

/-- A target with a map of eight bytes that hits one of them, which one its input says. -/
def byteEnv : Env where
  words := 1
  enablePmPath := false
  words_lt := by decide
  dumbMode := false
  crashMode := .none
  fastCal := true
  pmfuzzFocus := .rw
  resumingFuzz := false
  disableTrim := true
  byLength := false
  execTmout := 100
  hangTmout := 1000
  hash32 map := (map 1).toUInt32 + 2 * (map 2).toUInt32 + 3 * (map 3).toUInt32
  target _ mem _ := ⟨⟨Function.update (fun _ => 0) ((mem.headD 0).toNat % 8) 1, fun _ => 0⟩, .none, none, false⟩
  curTimeUs _ := 0

/-- Two inputs, or how many there may be. -/
def byteOptions (inputs : List InputFile) : Options where
  inDir := []
  inputs := inputs
  skipTcCheck := false
  skipCrashes := false
  timeoutGiven := 0
  fds := {0, 1, 2}
  curPath := none

def byteInputs : List InputFile := [⟨['a'], true, true, [65], by decide⟩, ⟨['b'], true, true, [66], by decide⟩]

/-- A turn in which one input is run. -/
def byteTurn : Turn := ⟨none, ⟨0, false, [⟨[67], [], [], false⟩]⟩, none, false⟩

/-! ## What ends it -/

theorem reached (hfds : o.fds ⊆ Finset.range 128) (hturns : ts.length < 2 ^ 32) (h : runFuzzer env o ts = .ok s) :
    Reached env o ts.length s := (runFuzzer_ends env o hfds hturns).of_ok h

theorem Reached.of_started {s₀ : Fuzzer} (h : Reached env o turns s) (hstart : startFuzzer env o = .ok s₀)
    (hgo : s₀.stopSoon = false) : Started env o s₀ ∧ Ready env turns s ∧ Moved s₀.view s.view := by
  rcases h.entered with ⟨s₁, heq, hstop, -⟩ | ⟨s₁, heq, hstarted, hready, hmoved⟩
  · obtain rfl : s₀ = s₁ := Except.ok.inj (hstart.symm.trans heq)
    exact absurd (hgo.symm.trans hstop) Bool.false_ne_true
  · obtain rfl : s₀ = s₁ := Except.ok.inj (hstart.symm.trans heq)
    exact ⟨hstarted, hready, hmoved⟩

/-- Turns after a run go on from the state that it leaves, unless it has been stopped. -/
theorem fuzz_append {s₀ : Fuzzer} (hs : Ready env turns s₀) (hturns : turns + (ts ++ ts').length < 2 ^ 32)
    (h : fuzz env ts s₀ = .ok s) (h' : fuzz env (ts ++ ts') s₀ = .ok s') :
    s' = s ∧ (s.stopSoon = true ∨ ∃ t ∈ ts, t.stop = true) ∨ fuzz env ts' s = .ok s' := by
  induction ts generalizing turns s₀ with
  | nil =>
    obtain rfl : s₀ = s := Except.ok.inj h
    exact .inr h'
  | cons t ts ih =>
    rw [List.cons_append, List.length_cons] at hturns
    rw [fuzz] at h
    rw [List.cons_append, fuzz] at h'
    have hturn := fuzzTurn_ready hs (by omega) t
    cases heq : fuzzTurn env s₀ t with
    | error a =>
      rw [heq] at h
      cases h
    | ok r =>
      obtain ⟨hready, -, hcur⟩ := hturn.of_ok heq
      rw [heq] at h h'
      change (if r.2 then fuzz env ts r.1 else pure r.1) = .ok s at h
      change (if r.2 then fuzz env (ts ++ ts') r.1 else pure r.1) = .ok s' at h'
      split at h
      · rename_i hgo
        rw [if_pos hgo] at h'
        refine (ih hready (by omega) h h').imp_left (And.imp_right (Or.imp_right ?_))
        rintro ⟨t', ht', hstop⟩
        exact ⟨t', List.mem_cons_of_mem t ht', hstop⟩
      · rename_i hstop
        rw [if_neg hstop] at h' hcur
        obtain rfl : r.1 = s := Except.ok.inj h
        exact .inl ⟨(Except.ok.inj h').symm, hcur.imp_right fun hstop => ⟨t, List.mem_cons_self, hstop⟩⟩

/-- The same for a session. -/
theorem runFuzzer_append (hfds : o.fds ⊆ Finset.range 128) (hturns : (ts ++ ts').length < 2 ^ 32)
    (h : runFuzzer env o ts = .ok s) (h' : runFuzzer env o (ts ++ ts') = .ok s') :
    s' = s ∧ (s.stopSoon = true ∨ ∃ t ∈ ts, t.stop = true) ∨ Ready env ts.length s ∧ fuzz env ts' s = .ok s' := by
  have hstart := startFuzzer_ends env o hfds
  unfold runFuzzer at h h'
  cases heq : startFuzzer env o with
  | error a =>
    rw [heq] at h
    cases h
  | ok s₀ =>
    obtain ⟨-, hstarted⟩ := hstart.of_ok heq
    rw [heq] at h h'
    change (if s₀.stopSoon then pure s₀ else fuzz env ts s₀) = .ok s at h
    change (if s₀.stopSoon then pure s₀ else fuzz env (ts ++ ts') s₀) = .ok s' at h'
    split at h
    · rename_i hstop
      rw [if_pos hstop] at h'
      obtain rfl : s₀ = s := Except.ok.inj h
      exact .inl ⟨(Except.ok.inj h').symm, .inl hstop⟩
    · rename_i hgo
      rw [if_neg hgo] at h'
      have hready := (hstarted (Bool.eq_false_of_not_eq_true hgo)).ready
      have hs := ((fuzz_ready ts hready (by rw [List.length_append] at hturns; omega)).of_ok h).1
      rw [Nat.zero_add] at hs
      exact (fuzz_append hready (by omega) h h').imp_right fun hfuzz => ⟨hs, hfuzz⟩

theorem runFuzzer_moved (hfds : o.fds ⊆ Finset.range 128) (hturns : (ts ++ ts').length < 2 ^ 32)
    (h : runFuzzer env o ts = .ok s) (h' : runFuzzer env o (ts ++ ts') = .ok s') : Moved s.view s'.view := by
  rcases runFuzzer_append hfds hturns h h' with ⟨rfl, -⟩ | ⟨hs, hfuzz⟩
  · exact .refl _
  · rw [List.length_append] at hturns
    exact ((fuzz_ready ts' hs hturns).of_ok hfuzz).2

/-- One turn after the other. -/
theorem fuzz_turn (hs : Ready env turns s) (hturns : turns + ts.length < 2 ^ 32)
    (hlt : s.turn + ts.length < s.queuedPaths)
    (h : fuzz env ts s = .ok s') (hgo : s'.stopSoon = false) (hstop : ∀ t ∈ ts, t.stop = false) :
    s'.turn = s.turn + ts.length := by
  induction ts generalizing turns s with
  | nil =>
    obtain rfl : s = s' := Except.ok.inj h
    rfl
  | cons t ts ih =>
    rw [List.length_cons] at hturns hlt ⊢
    rw [fuzz] at h
    have hturn := fuzzTurn_ready hs (by omega) t
    cases heq : fuzzTurn env s t with
    | error a =>
      rw [heq] at h
      cases h
    | ok r =>
      obtain ⟨hready, hmoved, hcur⟩ := hturn.of_ok heq
      rw [heq] at h
      change (if r.2 then fuzz env ts r.1 else pure r.1) = .ok s' at h
      have hpaths : s.queuedPaths ≤ r.1.queuedPaths := hmoved.paths
      split at h
      · rename_i hnext
        rw [if_pos hnext, if_pos (by omega)] at hcur
        have hturn' : r.1.turn = s.turn + 1 := by rw [Fuzzer.turn, hcur, Option.getD_some]
        rw [ih hready (by omega) (by omega) h fun t' ht' => hstop t' (List.mem_cons_of_mem t ht'), hturn']
        omega
      · rename_i hend
        rw [if_neg hend] at hcur
        obtain rfl : r.1 = s' := Except.ok.inj h
        rcases hcur with h | h
        · exact absurd (hgo.symm.trans h) Bool.false_ne_true
        · exact absurd ((hstop t List.mem_cons_self).symm.trans h) Bool.false_ne_true

end PMFuzz.Afl
