import PMFuzz.Afl.Save

/-!
# Trimming

`trim_case` cuts chunks out of an entry's input, in steps that get smaller, and keeps
what has been cut as long as the checksum of the trace stays the same.
At the end the file of the entry is written anew.

`trimCase_kept`: what is left is the input with some bytes gone; a run of just that has had
the checksum of the entry, and the file has it. Both loops end by themselves
(`trimInner_done`, `trimOuter_done`).
-/

namespace PMFuzz.Afl

open Libpmfuzz (Mem)

/-! ## The code -/

def trimMinBytes : ℕ := 4
def trimStartSteps : ℕ := 16
def trimEndSteps : ℕ := 1024

/-- The variables of the loops, with the clean trace if there is one. -/
structure Trim where
  state : Fuzzer
  inBuf : List UInt8
  lenP2 : ℕ
  removeLen : ℕ
  removePos : ℕ
  cleanTrace : Option Mem
  fault : Fault
  aborted : Bool

/-- `next_pow2` of a length. -/
def lenPow2 (len : ℕ) : ℕ := (nextPow2 (.ofNat len)).toUInt32.toNat

/-- What `write_with_gap` writes, and what `memmove` leaves. -/
def withGap (mem : List UInt8) (skipAt skipLen : ℕ) : List UInt8 := mem.take skipAt ++ mem.drop (skipAt + skipLen)

/-- A turn of the inner loop. -/
def trimTurn (env : Env) (q : ℕ) (t : Trim) : Trim :=
  let len := (t.state.queue q).len
  let trimAvail := min t.removeLen (len - t.removePos)
  let cut := withGap t.inBuf t.removePos trimAvail
  let r := runTarget env t.state cut env.execTmout
  let t := { t with state := r.1, fault := r.2 }
  if t.state.stopSoon ∨ t.fault = .error then { t with aborted := true }
  else if env.hash32 t.state.maps.traceBits = (t.state.queue q).execCksum then
    { t with
      state := t.state.modify q fun e => { e with len := len - trimAvail }
      inBuf := cut
      lenP2 := lenPow2 (len - trimAvail)
      cleanTrace := match t.cleanTrace with
        | some clean => some clean
        | none => some t.state.maps.traceBits }
  else { t with removePos := t.removePos + t.removeLen }

/-- The inner loop, with the number of turns that are left at most. -/
def trimInner (env : Env) (q : ℕ) : ℕ → Trim → Trim
  | 0, t => t
  | n + 1, t =>
    if t.aborted = false ∧ t.removePos < (t.state.queue q).len then trimInner env q n (trimTurn env q t) else t

/-- A turn of the outer loop. -/
def trimStep (env : Env) (q : ℕ) (t : Trim) : Trim :=
  let t := trimInner env q (t.state.queue q).len { t with removePos := t.removeLen }
  if t.aborted then t else { t with removeLen := t.removeLen / 2 }

/-- The outer loop. -/
def trimOuter (env : Env) (q : ℕ) : ℕ → Trim → Trim
  | 0, t => t
  | n + 1, t =>
    if t.aborted = false ∧ t.removeLen ≥ max (t.lenP2 / trimEndSteps) trimMinBytes then
      trimOuter env q n (trimStep env q t)
    else t

/-- What follows the loops. -/
def trimEnd (env : Env) (q : ℕ) (t : Trim) : Fuzzer :=
  if t.aborted then t.state
  else match t.cleanTrace with
    | none => t.state
    | some clean =>
      updateBitmapScore env { t.state with
        files := Function.update t.state.files (FilePath.render ⟨.testcase, (t.state.queue q).fname⟩) (some t.inBuf)
        maps := { t.state.maps with traceBits := clean } } q

/-- `trim_case`: the state, what it returns, and `in_buf`. -/
def trimCase (env : Env) (s : Fuzzer) (q : ℕ) (inBuf : List UInt8) : Fuzzer × Fault × List UInt8 :=
  let len := (s.queue q).len
  if len < 5 then (s, .none, inBuf)
  else
    let removeLen := max (lenPow2 len / trimStartSteps) trimMinBytes
    let t := trimOuter env q removeLen
      { state := s, inBuf := inBuf, lenP2 := lenPow2 len, removeLen := removeLen, removePos := 0
        cleanTrace := none, fault := .none, aborted := false }
    (trimEnd env q t, t.fault, t.inBuf)

/-! ## The loops end -/

variable {env : Env} {s s' : Fuzzer} {v v' v'' : View} {q n turns : ℕ} {inBuf : List UInt8} {t : Trim}

theorem trimTurn_removeLen (env : Env) (q : ℕ) (t : Trim) : (trimTurn env q t).removeLen = t.removeLen := by
  unfold trimTurn
  dsimp only
  split
  · rfl
  · split <;> rfl

theorem trimInner_removeLen (env : Env) (q n : ℕ) (t : Trim) : (trimInner env q n t).removeLen = t.removeLen := by
  induction n generalizing t with
  | zero => rfl
  | succ n ih =>
    rw [trimInner]
    split
    · rw [ih, trimTurn_removeLen]
    · rfl

/-- A turn comes closer to the end of the input. -/
theorem trimTurn_lt (env : Env) (hlen : 0 < t.removeLen) (hpos : t.removePos < (t.state.queue q).len) :
    (trimTurn env q t).aborted = true ∨
      ((trimTurn env q t).state.queue q).len - (trimTurn env q t).removePos < (t.state.queue q).len - t.removePos := by
  unfold trimTurn
  dsimp only
  split
  · exact .inl rfl
  · right
    split
    · dsimp only
      rw [Fuzzer.modify_queue_self]
      dsimp only
      omega
    · show (t.state.queue q).len - (t.removePos + t.removeLen) < _
      omega

/-- The number of turns does not end the inner loop. -/
theorem trimInner_done (hlen : 0 < t.removeLen) (n : ℕ) (hn : (t.state.queue q).len - t.removePos ≤ n) :
    (trimInner env q n t).aborted = true ∨
      ((trimInner env q n t).state.queue q).len ≤ (trimInner env q n t).removePos := by
  induction n generalizing t with
  | zero => exact .inr (Nat.sub_eq_zero_iff_le.mp (Nat.le_zero.mp hn))
  | succ n ih =>
    rw [trimInner]
    split
    · rename_i h
      rcases trimTurn_lt env hlen h.2 with haborted | hlt
      · -- the loop stops where it was aborted
        left
        cases n with
        | zero => exact haborted
        | succ n =>
          rw [trimInner, if_neg fun h' => Bool.false_ne_true (h'.1.symm.trans haborted)]
          exact haborted
      · exact ih ((trimTurn_removeLen env q t).symm ▸ hlen) (by omega)
    · rename_i h
      by_cases haborted : t.aborted = true
      · exact .inl haborted
      · exact .inr (Nat.le_of_not_lt fun hlt => h ⟨Bool.eq_false_of_not_eq_true haborted, hlt⟩)

/-- Nor the outer loop. -/
theorem trimOuter_done (n : ℕ) (hn : t.removeLen ≤ n) : (trimOuter env q n t).aborted = true ∨
    (trimOuter env q n t).removeLen < max ((trimOuter env q n t).lenP2 / trimEndSteps) trimMinBytes := by
  induction n generalizing t with
  | zero => exact .inr (lt_max_of_lt_right (hn.trans_lt (by decide)))
  | succ n ih =>
    rw [trimOuter]
    split
    · rename_i h
      have hmin : 4 ≤ t.removeLen := le_trans (le_max_right _ _) h.2
      by_cases haborted : (trimStep env q t).aborted = true
      · left
        cases n with
        | zero => exact haborted
        | succ n =>
          rw [trimOuter, if_neg fun h' => Bool.false_ne_true (h'.1.symm.trans haborted)]
          exact haborted
      · refine ih ?_
        have hhalf : (trimStep env q t).removeLen = t.removeLen / 2 := by
          unfold trimStep at haborted ⊢
          dsimp only at haborted ⊢
          split at haborted
          · rename_i h'
            exact absurd h' haborted
          · rename_i h'
            rw [if_neg h']
            dsimp only
            rw [trimInner_removeLen]
        omega
    · rename_i h
      by_cases haborted : t.aborted = true
      · exact .inl haborted
      · exact .inr (Nat.lt_of_not_ge fun hge => h ⟨Bool.eq_false_of_not_eq_true haborted, hge⟩)

/-! ## What is cut -/

theorem withGap_sublist (mem : List UInt8) (skipAt skipLen : ℕ) : (withGap mem skipAt skipLen).Sublist mem := by
  have hdrop : (mem.drop (skipAt + skipLen)).Sublist (mem.drop skipAt) := by
    rw [← List.drop_drop]
    exact List.drop_sublist _ _
  have hgap := (List.Sublist.refl (mem.take skipAt)).append hdrop
  rwa [List.take_append_drop] at hgap

theorem length_withGap {mem : List UInt8} {skipAt skipLen : ℕ} (h : skipAt + skipLen ≤ mem.length) :
    (withGap mem skipAt skipLen).length = mem.length - skipLen := by
  rw [withGap, List.length_append, List.length_take, List.length_drop]
  omega

/-- What holds while an entry is trimmed. -/
structure Trimming (env : Env) (s : Fuzzer) (q : ℕ) (inBuf : List UInt8) (t : Trim) : Prop where
  view : t.state.view = { s.view with len := Function.update s.view.len q t.inBuf.length }
  scores : t.state.scores = s.scores
  cksum : (t.state.queue q).execCksum = (s.queue q).execCksum
  execs : s.totalExecs ≤ t.state.totalExecs
  sublist : t.inBuf.Sublist inBuf
  pos : 0 < inBuf.length → 0 < t.inBuf.length
  unchanged : t.cleanTrace = none → t.inBuf = inBuf
  /-- A run of just what is left has had the checksum. -/
  changed : t.cleanTrace.isSome = true → ∃ k, s.totalExecs ≤ k ∧ k < t.state.totalExecs ∧
    env.hash32 (env.runTrace t.inBuf env.execTmout k) = (s.queue q).execCksum
  clean : ∀ clean, t.cleanTrace = some clean → env.hash32 clean = (s.queue q).execCksum
  aborted : t.aborted = true → t.state.stopSoon = true ∨ t.fault = .error

theorem Trimming.len (h : Trimming env s q inBuf t) : (t.state.queue q).len = t.inBuf.length :=
  (congrArg (fun v : View => v.len q) h.view).trans (Function.update_self ..)

theorem Trimming.removePos (h : Trimming env s q inBuf t) (pos removeLen : ℕ) :
    Trimming env s q inBuf { t with removePos := pos, removeLen := removeLen } := { h with }

/-- A run changes nothing that trimming looks at. -/
theorem Trimming.run (h : Trimming env s q inBuf t) (mem : List UInt8) (fault : Fault) (haborted : t.aborted = false) :
    Trimming env s q inBuf { t with state := (runTarget env t.state mem env.execTmout).1, fault := fault } :=
  { h with
    execs := h.execs.trans (Nat.le_succ _)
    changed := fun hc => by
      obtain ⟨k, hk, hlt, hhash⟩ := h.changed hc
      exact ⟨k, hk, hlt.trans (Nat.lt_succ_self _), hhash⟩
    aborted := fun h' => absurd (haborted.symm.trans h') Bool.false_ne_true }

theorem modify_len_view (s : Fuzzer) (q len : ℕ) : (s.modify q fun e => { e with len := len }).view =
    { s.view with len := Function.update s.view.len q len } := by
  rw [Fuzzer.modify_view]
  simp [Fuzzer.view]

theorem modify_len_scores (s : Fuzzer) (q len : ℕ) : (s.modify q fun e => { e with len := len }).scores = s.scores :=
  Fuzzer.modify_scores fun _ => ⟨rfl, rfl, rfl⟩

theorem modify_len_execCksum (s : Fuzzer) (q len : ℕ) :
    ((s.modify q fun e => { e with len := len }).queue q).execCksum = (s.queue q).execCksum :=
  s.modify_congr QueueEntry.execCksum rfl q

theorem trimTurn_trimming (h : Trimming env s q inBuf t) (haborted : t.aborted = false) (hpos₀ : 0 < t.removePos)
    (hpos : t.removePos < (t.state.queue q).len) : Trimming env s q inBuf (trimTurn env q t) := by
  obtain ⟨cut, hcut⟩ : ∃ cut, withGap t.inBuf t.removePos
    (min t.removeLen ((t.state.queue q).len - t.removePos)) = cut :=
    ⟨_, rfl⟩
  have hlen := h.len
  have hlenCut : cut.length = (t.state.queue q).len - min t.removeLen ((t.state.queue q).len - t.removePos) := by
    rw [← hcut, length_withGap (by omega), hlen]
  obtain ⟨r, hr⟩ : ∃ r, runTarget env t.state cut env.execTmout = r := ⟨_, rfl⟩
  have hrun := h.run cut r.2 haborted
  have htrace : r.1.maps.traceBits = env.runTrace cut env.execTmout t.state.totalExecs := by rw [← hr]; rfl
  have hexecs : r.1.totalExecs = t.state.totalExecs + 1 := by rw [← hr]; rfl
  rw [hr] at hrun
  unfold trimTurn
  dsimp only
  rw [hcut, hr]
  split
  · rename_i hstop
    exact { hrun with aborted := fun _ => hstop }
  · split
    · rename_i hhash
      have hsame : env.hash32 r.1.maps.traceBits = (s.queue q).execCksum := hhash.trans hrun.cksum
      refine ⟨?_, ?_, ?_, hrun.execs, ?_, fun _ => ?_, fun hc => ?_, fun _ => ?_, fun clean hc => ?_, ?_⟩
      · dsimp only
        rw [modify_len_view, hrun.view, hlenCut]
        dsimp only
        rw [Function.update_idem]
      · exact (modify_len_scores r.1 q _).trans hrun.scores
      · exact (modify_len_execCksum r.1 q _).trans hrun.cksum
      · exact (hcut ▸ withGap_sublist ..).trans h.sublist
      · -- what is before the chunk stays
        show 0 < cut.length
        omega
      · cases hclean : t.cleanTrace <;> simp [hclean] at hc
      · refine ⟨t.state.totalExecs, h.execs, ?_, ?_⟩
        · show t.state.totalExecs < r.1.totalExecs
          omega
        · rw [← htrace]
          exact hsame
      · cases hclean : t.cleanTrace with
        | none =>
          rw [hclean] at hc
          cases hc
          exact hsame
        | some old =>
          rw [hclean] at hc
          cases hc
          exact h.clean _ hclean
      · exact fun h' => absurd (haborted.symm.trans h') Bool.false_ne_true
    · exact hrun.removePos _ _

theorem removePos_le (env : Env) (q : ℕ) (t : Trim) : t.removePos ≤ (trimTurn env q t).removePos := by
  unfold trimTurn
  dsimp only
  split
  · exact le_rfl
  · split
    · exact le_rfl
    · exact Nat.le_add_right ..

theorem trimInner_trimming (n : ℕ) (h : Trimming env s q inBuf t) (hpos : 0 < t.removePos) :
    Trimming env s q inBuf (trimInner env q n t) := by
  induction n generalizing t with
  | zero => exact h
  | succ n ih =>
    rw [trimInner]
    split
    · rename_i hcond
      exact ih (trimTurn_trimming h hcond.1 hpos hcond.2) (hpos.trans_le (removePos_le env q t))
    · exact h

theorem trimOuter_trimming (n : ℕ) (h : Trimming env s q inBuf t) : Trimming env s q inBuf (trimOuter env q n t) := by
  induction n generalizing t with
  | zero => exact h
  | succ n ih =>
    rw [trimOuter]
    split
    · rename_i hcond
      have hmin : 4 ≤ t.removeLen := le_trans (le_max_right _ _) hcond.2
      refine ih ?_
      have hinner := trimInner_trimming (t.state.queue q).len (h.removePos t.removeLen t.removeLen)
        (by show 0 < t.removeLen; omega)
      unfold trimStep
      dsimp only
      split
      · exact hinner
      · exact hinner.removePos _ _
    · exact h

/-! ## The books -/

/-- What never changes once it is there: the names of entries, and the files other
than the inputs, which are trimmed, and the marks of redundant entries. -/
structure Moved (v v' : View) : Prop where
  paths : v.queuedPaths ≤ v'.queuedPaths
  fname : ∀ p < v.queuedPaths, v'.fname p = v.fname p
  kept : ∀ path : FilePath, path.dir ≠ .testcase → path.dir ≠ .redundantEdges → ∀ content,
    v.files path.render = some content → v'.files path.render = some content
  /-- An input loses bytes at most. -/
  testcase : ∀ path : FilePath, path.dir = .testcase → ∀ content, v.files path.render = some content →
    ∃ content', v'.files path.render = some content' ∧ content'.Sublist content
  /-- No entry gets one of its files later on. -/
  late : ∀ path : FilePath, path.dir.IsEntry → path.name.id ≤ v.queuedPaths → v.files path.render = none →
    v'.files path.render = none

/-- The same files and names. -/
theorem Moved.of_eq (hpaths : v'.queuedPaths = v.queuedPaths) (hfname : v'.fname = v.fname)
    (hfiles : v'.files = v.files) :
    Moved v v' := by
  refine ⟨hpaths.ge, fun _ _ => congrFun hfname _, fun _ _ _ _ h => ?_, fun _ _ content h => ⟨content, ?_, .refl _⟩,
    fun _ _ _ h => ?_⟩
  · rwa [hfiles]
  · rwa [hfiles]
  · rwa [hfiles]

theorem Moved.refl (v : View) : Moved v v := .of_eq rfl rfl rfl

theorem Moved.trans (h : Moved v v') (h' : Moved v' v'') : Moved v v'' where
  paths := h.paths.trans h'.paths
  fname p hp := (h'.fname p (hp.trans_le h.paths)).trans (h.fname p hp)
  kept path hdir hdir' content hpath := h'.kept path hdir hdir' content (h.kept path hdir hdir' content hpath)
  testcase path hdir content hpath := by
    obtain ⟨content', hpath', hsub⟩ := h.testcase path hdir content hpath
    obtain ⟨content'', hpath'', hsub'⟩ := h'.testcase path hdir content' hpath'
    exact ⟨content'', hpath'', hsub'.trans hsub⟩
  late path hdir hid hpath := h'.late path hdir (hid.trans h.paths) (h.late path hdir hid hpath)

theorem Grown.moved (h : Grown v v') : Moved v v' where
  paths := h.paths
  fname p hp := (h.entry p hp).1
  kept path _ _ content := h.kept path.render content
  testcase path _ content hpath := ⟨content, h.kept path.render content hpath, .refl _⟩
  late path hdir hid := (h.files path hdir hid).trans

theorem Quiet.moved (h : Quiet s s') : Moved s.view s'.view := h.grown.moved

/-- The input that an entry has in a file is replaced, or is too long. -/
theorem Trimming.kept (h : Trimming env s q inBuf t) (hs : Kept env turns s) (hq : q < s.queuedPaths)
    (hbuf : inBuf.length = (s.queue q).len) : Kept env turns t.state ∧ Moved s.view t.state.view := by
  have hle : t.inBuf.length ≤ s.view.len q := h.sublist.length_le.trans_eq hbuf
  have hview := h.view
  refine ⟨⟨hs.toSound.of_scores h.scores ?_, fun p hp => ?_⟩, ?_⟩
  · rw [hview]
    exact { hs.books with }
  · have hp' : p < s.queuedPaths := hp.trans_eq (congrArg View.queuedPaths hview)
    have hstored := hs.stored p hp'
    rw [hview]
    refine ⟨?_, ?_, hstored.map, hstored.pm⟩
    · show 0 < Function.update s.view.len q t.inBuf.length p
      by_cases hpq : p = q
      · subst hpq
        rw [Function.update_self]
        exact h.pos (hstored.pos.trans_eq hbuf.symm)
      · rw [Function.update_of_ne hpq]
        exact hstored.pos
    obtain ⟨content, hcontent, hlen⟩ := hstored.testcase
    refine ⟨content, hcontent, ?_⟩
    show Function.update s.view.len q t.inBuf.length p ≤ content.length
    by_cases hpq : p = q
    · subst hpq
      rw [Function.update_self]
      exact hle.trans hlen
    · rw [Function.update_of_ne hpq]
      exact hlen
  · rw [hview]
    exact .of_eq rfl rfl rfl

/-- The file of an entry is written anew. -/
theorem Kept.set_testcase (hs : Kept env turns s) (hq : q < s.queuedPaths) (hlen : (s.queue q).len = inBuf.length)
    {content : List UInt8} (hcontent : s.files (FilePath.render ⟨.testcase, (s.queue q).fname⟩) = some content)
    (hsub : inBuf.Sublist content) (maps : Maps) : ∃ s', s' = { s with
      files := Function.update s.files (FilePath.render ⟨.testcase, (s.queue q).fname⟩) (some inBuf), maps := maps } ∧
      Kept env turns s' ∧ Moved s.view s'.view := by
  have hother : ∀ path : FilePath, path ≠ ⟨.testcase, (s.queue q).fname⟩ →
      Function.update s.files (FilePath.render ⟨.testcase, (s.queue q).fname⟩) (some inBuf) path.render =
        s.files path.render := fun path hne => update_render_of_ne hne
  refine ⟨_, rfl, ⟨hs.toSound.of_scores rfl ?_, fun p hp => ?_⟩, ?_⟩
  · exact hs.books.set_file hq (.inl rfl) (some inBuf)
  · have hstored := hs.stored p hp
    refine ⟨hstored.pos, ?_, ?_, ?_⟩
    · by_cases hpq : p = q
      · subst hpq
        exact ⟨inBuf, Function.update_self .., hlen.le⟩
      · obtain ⟨content, hcontent, hlen'⟩ := hstored.testcase
        refine ⟨content, (hother ⟨.testcase, (s.queue p).fname⟩ fun heq => ?_).trans hcontent, hlen'⟩
        exact hpq (hs.books.distinct p hp q hq (congrArg FilePath.name heq))
    · obtain ⟨content, hcontent, hlen'⟩ := hstored.map
      exact ⟨content, (hother ⟨.map, (s.queue p).fname⟩ (by simp)).trans hcontent, hlen'⟩
    · intro hpm
      have hpm' : (s.files (FilePath.render ⟨.pm, (s.queue p).fname⟩)).isSome = true :=
        (congrArg Option.isSome (hother ⟨.pm, (s.queue p).fname⟩ (by simp))).symm.trans hpm
      obtain ⟨content, hcontent, hlen'⟩ := hstored.pm hpm'
      exact ⟨content, (hother ⟨.pmMap, (s.queue p).fname⟩ (by simp)).trans hcontent, hlen'⟩
  · refine ⟨le_rfl, fun _ _ => rfl, fun path hdir _ content hpath => ?_, fun path _ content' hpath => ?_,
      fun path _ _ hpath => ?_⟩
    · exact (hother path fun heq => hdir (congrArg FilePath.dir heq)).trans hpath
    · by_cases heq : path = ⟨.testcase, (s.queue q).fname⟩
      · subst heq
        obtain rfl : content' = content := Option.some.inj (hpath.symm.trans hcontent)
        exact ⟨inBuf, Function.update_self .., hsub⟩
      · exact ⟨content', (hother path heq).trans hpath, .refl _⟩
    · refine (hother path fun heq => ?_).trans hpath
      subst heq
      exact absurd (hcontent.symm.trans hpath) (Option.some_ne_none content)

theorem Scored.kept (h : Scored s s') (hs : Kept env turns s) (hs' : Sound env turns s') : Kept env turns s' where
  toSound := hs'
  stored p hp := by
    rw [h.view]
    exact hs.stored p (hp.trans_eq h.queuedPaths)

/-! ## The whole -/

/-- `in_buf`, as the entry is mapped. -/
structure Mapped (s : Fuzzer) (q : ℕ) (inBuf : List UInt8) : Prop where
  len : inBuf.length = (s.queue q).len
  file : ∃ content, s.files (FilePath.render ⟨.testcase, (s.queue q).fname⟩) = some content ∧ inBuf.Sublist content

/-- What trimming an entry comes to. -/
structure Trimmed (env : Env) (s : Fuzzer) (q : ℕ) (inBuf : List UInt8) (s' : Fuzzer) (fault : Fault)
    (out : List UInt8) :
    Prop where
  queueCur : s'.queueCur = s.queueCur
  seekTo : s'.seekTo = s.seekTo
  sublist : out.Sublist inBuf
  len : (s'.queue q).len = out.length
  /-- Unless it is stopped, the file has what is left, of which a run has had the
  checksum of the entry. -/
  file : s'.stopSoon = false → fault ≠ .error → (out = inBuf ∧ s'.files = s.files) ∨
    s'.files (FilePath.render ⟨.testcase, (s.queue q).fname⟩) = some out ∧ ∃ k, s.totalExecs ≤ k ∧ k < s'.totalExecs ∧
      env.hash32 (env.runTrace out env.execTmout k) = (s.queue q).execCksum

/-- A state in which nothing has been cut yet. -/
theorem Trimming.refl (hbuf : inBuf.length = (s.queue q).len) (lenP2 removeLen : ℕ) : Trimming env s q inBuf
    { state := s, inBuf := inBuf, lenP2 := lenP2, removeLen := removeLen, removePos := 0
      cleanTrace := none, fault := .none, aborted := false } where
  view := by
    have hself : Function.update s.view.len q inBuf.length = s.view.len := by
      rw [hbuf]
      exact Function.update_eq_self ..
    rw [hself]
  scores := rfl
  cksum := rfl
  execs := le_rfl
  sublist := .refl _
  pos := id
  unchanged _ := rfl
  changed h := absurd h Bool.false_ne_true
  clean clean h := absurd h.symm (Option.some_ne_none clean)
  aborted h := absurd h Bool.false_ne_true

theorem trimEnd_kept (h : Trimming env s q inBuf t) (hs : Kept env turns s) (hq : q < s.queuedPaths)
    (hbuf : Mapped s q inBuf) : Kept env turns (trimEnd env q t) ∧ Moved s.view (trimEnd env q t).view ∧
      Trimmed env s q inBuf (trimEnd env q t) t.fault t.inBuf := by
  obtain ⟨hkept, hmoved⟩ := h.kept hs hq hbuf.len
  have hqt : q < t.state.queuedPaths := hq.trans_eq (congrArg View.queuedPaths h.view).symm
  have hcur : t.state.queueCur = s.queueCur := congrArg View.queueCur h.view
  have hseek : t.state.seekTo = s.seekTo := congrArg View.seekTo h.view
  have hfname : (t.state.queue q).fname = (s.queue q).fname := congrFun (congrArg View.fname h.view) q
  unfold trimEnd
  split
  · rename_i haborted
    refine ⟨hkept, hmoved, hcur, hseek, h.sublist, h.len, fun hstop hfault => ?_⟩
    rcases h.aborted haborted with hs' | hf
    · exact absurd (hs'.symm.trans hstop) Bool.false_ne_true.symm
    · exact absurd hf hfault
  · split
    · rename_i hclean
      exact ⟨hkept, hmoved, hcur, hseek, h.sublist, h.len, fun _ _ =>
        .inl ⟨h.unchanged hclean, congrArg View.files h.view⟩⟩
    · rename_i clean hclean
      obtain ⟨content, hcontent, hsub⟩ := hbuf.file
      have hcontent' : t.state.files (FilePath.render ⟨.testcase, (t.state.queue q).fname⟩) = some content := by
        rw [hfname]
        exact (congrFun (congrArg View.files h.view) _).trans hcontent
      obtain ⟨u, hu, hkept', hmoved'⟩ := hkept.set_testcase hqt h.len hcontent' (h.sublist.trans hsub)
        { t.state.maps with traceBits := clean }
      have hscored : Scored u (updateBitmapScore env u q) := updateBitmapScore_scored env u q
      have hqu : q < u.queuedPaths := by rw [hu]; exact hqt
      rw [← hu]
      obtain ⟨queue, topRated, scoreChanged, heq⟩ := hscored.eq
      have hlen : ((updateBitmapScore env u q).queue q).len = (u.queue q).len := by
        obtain ⟨tcRef, traceMini, hentry⟩ := hscored.entry q
        rw [hentry]
      refine ⟨hscored.kept hkept' (updateBitmapScore_sound hkept'.toSound hqu), ?_, ?_, ?_, h.sublist, ?_,
        fun _ _ => .inr ⟨?_, ?_⟩⟩
      · rw [hscored.view]
        exact hmoved.trans hmoved'
      · rw [heq, hu]
        exact hcur
      · rw [heq, hu]
        exact hseek
      · rw [hlen, hu]
        exact h.len
      · rw [heq, hu, ← hfname]
        exact Function.update_self ..
      · obtain ⟨k, hk, hlt, hhash⟩ := h.changed (by rw [hclean]; rfl)
        refine ⟨k, hk, ?_, hhash⟩
        rw [heq, hu]
        exact hlt

/-- Trimming keeps all that the fuzzer relies on. What is left of the input has been
run by itself, with the checksum of the entry. -/
theorem trimCase_kept (hs : Kept env turns s) (hq : q < s.queuedPaths) (hbuf : Mapped s q inBuf) :
    Kept env turns (trimCase env s q inBuf).1 ∧ Moved s.view (trimCase env s q inBuf).1.view ∧
      Trimmed env s q inBuf (trimCase env s q inBuf).1 (trimCase env s q inBuf).2.1 (trimCase env s q inBuf).2.2 := by
  unfold trimCase
  dsimp only
  split
  · exact ⟨hs, .refl _, rfl, rfl, .refl _, hbuf.len.symm, fun _ _ => .inl ⟨rfl, rfl⟩⟩
  · exact trimEnd_kept (trimOuter_trimming _ (.refl hbuf.len ..)) hs hq hbuf

end PMFuzz.Afl
