import PMFuzz.Afl.TopRated
import PMFuzz.Framework.Cover

/-!
# Favored entries

`cull_queue` makes entries favored that together hit what is hit: it goes
through the locations and takes the top rated entry of each that no
entry taken before hits (`Cover.chosen`), by the traces that the entries
keep. The others are marked as redundant by a file each. `cullQueue_eq`
is what a call that does something comes to; with the references right it
does not end the fuzzer.
-/

namespace PMFuzz.Afl

open Libpmfuzz (Mem bitTest bitSet bitTest_bitSet bitTest_eq)

/-! ## The code -/

/-- The bits of an entry are removed from `temp_v`. -/
def clearBits (env : Env) (mini tempV : Mem) : Mem :=
  (List.range env.words).foldr
    (fun j v => if mini j ≠ 0 then Function.update v j (v j &&& ~~~mini j) else v) tempV

/-- The entry has not been fuzzed. -/
def notFuzzed (e : QueueEntry) : Bool := e.fuzzLevel == 0 || !e.wasFuzzed

/-- The winner of a location is favored. -/
def favor (s : Fuzzer) (p : ℕ) : Fuzzer :=
  { s.modify p fun e => { e with favored := true } with
    queuedFavored := s.queuedFavored + 1
    pendingFavored := if notFuzzed (s.queue p) then s.pendingFavored + 1 else s.pendingFavored }

/-- A turn of the loop over the locations: `temp_v` and the state. -/
def cullLocation (env : Env) (c : Mem × Fuzzer) (i : ℕ) : Except Abort (Mem × Fuzzer) :=
  match c.2.topRated i with
  | none => .ok c
  | some p =>
    if bitTest c.1 i then
      match (c.2.queue p).traceMini with
      | none => .error .null
      | some mini => .ok (clearBits env mini c.1, favor c.2 p)
    else .ok c

/-- `mark_as_redundant`. -/
def markAsRedundant (s : Fuzzer) (q : ℕ) (state : Bool) : Except Abort Fuzzer :=
  if state = (s.queue q).fsRedundant then .ok s
  else
    let s := s.modify q fun e => { e with fsRedundant := state }
    if state then createExcl s ⟨.redundantEdges, (s.queue q).fname⟩ [] else unlink s
    ⟨.redundantEdges, (s.queue q).fname⟩

/-- `q->favored = 0` for all. -/
def clearFavored (s : Fuzzer) : Fuzzer :=
  (List.range s.queuedPaths).foldl (fun s q => s.modify q fun e => { e with favored := false }) s

/-- `cull_queue`. -/
def cullQueue (env : Env) (s : Fuzzer) : Except Abort Fuzzer :=
  if env.dumbMode || !s.scoreChanged then .ok s
  else do
    let s := clearFavored { s with scoreChanged := false, queuedFavored := 0, pendingFavored := 0 }
    let c ← (List.range env.mapSize).foldlM (cullLocation env) (fun _ => 255, s)
    (List.range c.2.queuedPaths).foldlM (fun s q => markAsRedundant s q (!(s.queue q).favored)) c.2

/-- `cull_queue_pm`. -/
def cullQueuePm (s : Fuzzer) : Fuzzer :=
  (List.range s.queuedPaths).foldl (fun s q =>
    if (s.queue q).newPmAccess ∧ (s.queue q).favored = false then
      { s.modify q fun e => { e with favored := true } with queuedFavored := s.queuedFavored + 1 }
    else s) s

/-! ## Bits -/

variable {env : Env} {s s' : Fuzzer} {src mini tempV : Mem} {i n p q : ℕ} {taken : List ℕ}

theorem bitTest_zero (b : ℕ) : bitTest (fun _ => 0) b = false := by
  rw [bitTest_eq]
  exact Nat.zero_testBit _

/-- A trace of bits has a bit for each location that is hit. -/
theorem bitTest_minimizeBits (src : Mem) (n i : ℕ) :
    bitTest (minimizeBits (fun _ => 0) src n) i = (decide (i < n) && src i != 0) := by
  unfold minimizeBits
  induction n with
  | zero => exact bitTest_zero i
  | succ n ih =>
    rw [List.range_succ, List.foldl_append, List.foldl_cons, List.foldl_nil, minimizeBit]
    by_cases hin : i = n
    · subst hin
      split
      · rename_i h
        rw [bitTest_bitSet, decide_eq_true rfl, Bool.true_or, decide_eq_true (Nat.lt_succ_self i), Bool.true_and]
        exact (bne_iff_ne.mpr h).symm
      · rename_i h
        rw [ih, decide_eq_false (Nat.lt_irrefl i), Bool.false_and, not_not.mp h]
        exact (Bool.and_false _).symm
    · have hlt : decide (i < n + 1) = decide (i < n) := decide_eq_decide.mpr (by omega)
      rw [hlt]
      split
      · rw [bitTest_bitSet, decide_eq_false hin, Bool.false_or, ih]
      · exact ih

theorem bitTest_and_not (v m : UInt8) {j : ℕ} (hj : j < 8) :
    (v &&& ~~~m).toNat.testBit j = (v.toNat.testBit j && !m.toNat.testBit j) := by
  rw [UInt8.toNat_and, Nat.testBit_and]
  congr 1
  rw [← UInt8.toNat_toBitVec, UInt8.toBitVec_not, BitVec.testBit_toNat, BitVec.getLsbD_not, decide_eq_true hj,
    Bool.true_and]
  rfl

/-- The bits of the entry go, those behind the map stay. -/
theorem bitTest_clearBits (hi : i < env.mapSize) :
    bitTest (clearBits env mini tempV) i = (bitTest tempV i && !bitTest mini i) := by
  have hloop : ∀ n, ∀ v : Mem, bitTest ((List.range n).foldr
      (fun j v => if mini j ≠ 0 then Function.update v j (v j &&& ~~~mini j) else v) v) i =
        (bitTest v i && !(decide (i / 8 < n) && bitTest mini i)) := by
    intro n
    induction n with
    | zero => exact fun v => (Bool.and_true _).symm
    | succ n ih =>
      intro v
      rw [List.range_succ, List.foldr_append, List.foldr_cons, List.foldr_nil, ih]
      by_cases hn : i / 8 = n
      · have hstep : bitTest (if mini n ≠ 0 then Function.update v n (v n &&& ~~~mini n) else v) i =
            (bitTest v i && !bitTest mini i) := by
          rw [bitTest_eq mini, hn]
          split
          · rw [bitTest_eq, hn, Function.update_self, bitTest_and_not _ _ (Nat.mod_lt i (by decide)), bitTest_eq v, hn]
          · rename_i h
            rw [not_not.mp h, UInt8.toNat_zero, Nat.zero_testBit]
            exact (Bool.and_true _).symm
        rw [hstep, decide_eq_false (by omega), decide_eq_true (by omega), Bool.false_and, Bool.true_and, Bool.not_false,
          Bool.and_true]
      · have hstep : bitTest (if mini n ≠ 0 then Function.update v n (v n &&& ~~~mini n) else v) i = bitTest v i := by
          split
          · rw [bitTest_eq, bitTest_eq, Function.update_of_ne hn]
          · rfl
        have hlt : decide (i / 8 < n + 1) = decide (i / 8 < n) := decide_eq_decide.mpr (by omega)
        rw [hstep, hlt]
  unfold Env.mapSize at hi
  rw [clearBits, hloop, decide_eq_true (by omega), Bool.true_and]

/-! ## The loop over the locations -/

/-- The trace that an entry keeps has a bit for the location. -/
def covers (s : Fuzzer) (p i : ℕ) : Bool :=
  match (s.queue p).traceMini with
  | none => false
  | some mini => bitTest mini i

/-- The state with some of the entries taken. -/
def favorAll (s : Fuzzer) (taken : List ℕ) : Fuzzer :=
  { s with
    queue := fun p => { s.queue p with favored := decide (p ∈ taken) || (s.queue p).favored }
    queuedFavored := s.queuedFavored + .ofNat taken.length
    pendingFavored := s.pendingFavored + .ofNat (taken.countP fun p => notFuzzed (s.queue p)) }

theorem favorAll_nil (s : Fuzzer) : favorAll s [] = s := by
  unfold favorAll
  simp

theorem favor_favorAll (s : Fuzzer) (taken : List ℕ) (p : ℕ) :
    favor (favorAll s taken) p = favorAll s (taken ++ [p]) := by
  have hqueue : (favor (favorAll s taken) p).queue = (favorAll s (taken ++ [p])).queue := by
    funext q
    show (Function.update _ p _) q = _
    by_cases hqp : q = p
    · subst hqp
      rw [Function.update_self]
      simp [favorAll]
    · rw [Function.update_of_ne hqp]
      simp [favorAll, hqp]
  have hqueued : s.queuedFavored + .ofNat taken.length + 1 = s.queuedFavored + .ofNat (taken ++ [p]).length := by
    rw [List.length_append, UInt32.ofNat_add, UInt32.add_assoc]
    rfl
  have hpending : (if notFuzzed ((favorAll s taken).queue p) then (favorAll s taken).pendingFavored + 1
      else (favorAll s taken).pendingFavored) = (favorAll s (taken ++ [p])).pendingFavored := by
    show (if notFuzzed (s.queue p) then _ else _) = s.pendingFavored + _
    rw [List.countP_append, List.countP_singleton]
    split
    · rw [UInt32.ofNat_add, ← UInt32.add_assoc]
      rfl
    · rfl
  exact congr (congr (congrArg
    (fun queue queued pending => { s with queue := queue, queuedFavored := queued, pendingFavored := pending }) hqueue)
    hqueued) hpending

/-- `temp_v` has the locations that no entry taken covers. -/
def Uncovered (env : Env) (s : Fuzzer) (taken : List ℕ) (tempV : Mem) : Prop :=
  ∀ i < env.mapSize, bitTest tempV i = !taken.any fun p => covers s p i

/-- A turn takes the entry that the greedy choice takes. -/
theorem cullLocation_eq (hs : Refs env s) (hi : i < env.mapSize) (htemp : Uncovered env s taken tempV) :
    ∃ tempV', cullLocation env (tempV, favorAll s taken) i =
        .ok (tempV', favorAll s (Cover.choose s.topRated (covers s) taken i)) ∧
      Uncovered env s (Cover.choose s.topRated (covers s) taken i) tempV' := by
  unfold cullLocation
  cases htop : s.topRated i with
  | none =>
    rw [Cover.choose_of_none htop]
    refine ⟨tempV, ?_, htemp⟩
    show (match s.topRated i with | none => _ | some p => _) = _
    rw [htop]
  | some p =>
    have hany := htemp i hi
    cases hcov : taken.any fun p => covers s p i with
    | true =>
      rw [hcov] at hany
      rw [Cover.choose_of_covered hcov]
      refine ⟨tempV, ?_, htemp⟩
      show (match s.topRated i with | none => _ | some p => _) = _
      rw [htop]
      exact if_neg (Bool.eq_false_iff.mp hany)
    | false =>
      rw [hcov] at hany
      -- the owner of a location keeps its trace
      have howned : owned env s p ≠ 0 := fun h0 => Nat.count_iff_forall_not.mp h0 i hi htop
      obtain ⟨mini, hmini⟩ := Option.isSome_iff_exists.mp ((hs.counts p).mini.mpr howned)
      rw [Cover.choose_of_not htop hcov]
      refine ⟨clearBits env mini tempV, ?_, fun j hj => ?_⟩
      · show (match s.topRated i with | none => _ | some p => _) = _
        rw [htop]
        show (if bitTest tempV i = true then
          match (s.queue p).traceMini with
          | none => Except.error Abort.null
          | some mini => Except.ok (clearBits env mini tempV, favor (favorAll s taken) p)
          else _) = _
        have hset : bitTest tempV i = true := hany
        rw [if_pos hset, hmini, favor_favorAll]
      · rw [bitTest_clearBits hj, htemp j hj, List.any_append, Bool.not_or]
        simp [covers, hmini]

/-- The loop takes what the greedy choice takes, and does not end the fuzzer. -/
theorem foldlM_cullLocation (hs : Refs env s) (n : ℕ) (hn : n ≤ env.mapSize) : ∃ tempV,
    (List.range n).foldlM (cullLocation env) (fun _ => 255, s) =
        .ok (tempV, favorAll s (Cover.chosen s.topRated (covers s) (List.range n))) ∧
      Uncovered env s (Cover.chosen s.topRated (covers s) (List.range n)) tempV := by
  induction n with
  | zero =>
    refine ⟨fun _ => 255, ?_, fun i _ => ?_⟩
    · show Except.ok (_, s) = Except.ok (_, favorAll s [])
      rw [favorAll_nil]
    · rw [bitTest_eq]
      exact (by decide : ∀ j < 8, (255 : UInt8).toNat.testBit j = true) _ (Nat.mod_lt i (by decide))
  | succ n ih =>
    obtain ⟨tempV, hfold, htemp⟩ := ih (by omega)
    obtain ⟨tempV', hstep, htemp'⟩ := cullLocation_eq (i := n) hs (by omega) htemp
    rw [List.range_succ, List.foldlM_append, hfold, Cover.chosen_append_singleton]
    refine ⟨tempV', ?_, htemp'⟩
    show (cullLocation env (tempV, _) n >>= fun c => .ok c) = _
    rw [hstep]
    rfl

/-! ## Marks -/

/-- No two entries have one name. -/
def Distinct (s : Fuzzer) : Prop :=
  ∀ p < s.queuedPaths, ∀ q < s.queuedPaths, (s.queue p).fname = (s.queue q).fname → p = q

/-- The entries that have a flag are those with a file in a directory. -/
def Marks (dir : Dir) (flag : QueueEntry → Bool) (s : Fuzzer) : Prop :=
  ∀ p < s.queuedPaths, (s.files (FilePath.render ⟨dir, (s.queue p).fname⟩)).isSome = flag (s.queue p)

/-- The entries marked as redundant. -/
def RedundantMarks (s : Fuzzer) : Prop := Marks .redundantEdges QueueEntry.fsRedundant s

/-- The state with the mark of an entry. -/
def setMark (s : Fuzzer) (q : ℕ) (state : Bool) : Fuzzer :=
  { s.modify q fun e => { e with fsRedundant := state } with
    files := Function.update s.files (FilePath.render ⟨.redundantEdges, (s.queue q).fname⟩)
      (if state then some [] else none) }

/-- With the marks right, a file is neither created twice nor removed twice. -/
theorem markAsRedundant_eq (hs : RedundantMarks s) (hq : q < s.queuedPaths) (state : Bool) :
    markAsRedundant s q state = .ok (if state = (s.queue q).fsRedundant then s else setMark s q state) := by
  unfold markAsRedundant
  split
  · rfl
  · rename_i hne
    have hfile := hs q hq
    have hname : ((s.modify q fun e => { e with fsRedundant := state }).queue q).fname = (s.queue q).fname := by
      rw [Fuzzer.modify_queue_self]
    dsimp only
    rw [hname]
    cases state with
    | true =>
      have hunmarked : (s.queue q).fsRedundant = false := by
        cases h : (s.queue q).fsRedundant with
        | false => rfl
        | true => exact absurd h.symm hne
      rw [hunmarked] at hfile
      rw [if_pos rfl]
      exact createExcl_of_none (Option.not_isSome_iff_eq_none.mp (Bool.eq_false_iff.mp hfile))
    | false =>
      have hmarked : (s.queue q).fsRedundant = true := by
        cases h : (s.queue q).fsRedundant with
        | true => rfl
        | false => exact absurd h.symm hne
      rw [hmarked] at hfile
      rw [if_neg Bool.false_ne_true]
      exact unlink_of_some hfile

theorem setMark_fname (s : Fuzzer) (q : ℕ) (state : Bool) (p : ℕ) :
    ((setMark s q state).queue p).fname = (s.queue p).fname :=
  s.modify_congr (q := q) (f := fun e => { e with fsRedundant := state }) QueueEntry.fname rfl p

theorem setMark_marks (hd : Distinct s) (hs : RedundantMarks s) (hq : q < s.queuedPaths) (state : Bool) :
    RedundantMarks (setMark s q state) := by
  intro p hp
  rw [setMark_fname]
  show (Function.update s.files _ _ _).isSome = (Function.update s.queue q _ p).fsRedundant
  by_cases hpq : p = q
  · subst hpq
    rw [Function.update_self, Function.update_self]
    cases state <;> rfl
  · have hne : FilePath.mk .redundantEdges (s.queue p).fname ≠ ⟨.redundantEdges, (s.queue q).fname⟩ := fun h =>
      hpq (hd p hp q hq (congrArg FilePath.name h))
    rw [update_render_of_ne hne, Function.update_of_ne hpq]
    exact hs p hp

/-- What the loop over the marks leaves. -/
structure Marked (s s' : Fuzzer) (n : ℕ) : Prop where
  marks : RedundantMarks s'
  eq : ∃ files queue, s' = { s with files := files, queue := queue } ∧
    (∀ p, ∃ mark, queue p = { s.queue p with fsRedundant := mark } ∧ (p < n → mark = !(s.queue p).favored)) ∧
    ∀ path : FilePath, (∀ p < n, path ≠ ⟨.redundantEdges, (s.queue p).fname⟩) →
      files path.render = s.files path.render

theorem foldlM_markAsRedundant (hd : Distinct s) (hs : RedundantMarks s) (n : ℕ) (hn : n ≤ s.queuedPaths) : ∃ s',
    (List.range n).foldlM (fun s q => markAsRedundant s q (!(s.queue q).favored)) s = .ok s' ∧ Marked s s' n := by
  induction n with
  | zero =>
    refine ⟨s, rfl, hs, s.files, s.queue, rfl, fun p => ⟨_, rfl, fun h => ?_⟩, fun _ _ => rfl⟩
    cases h
  | succ n ih =>
    obtain ⟨s', hfold, hmarked⟩ := ih (by omega)
    obtain ⟨files, queue, rfl, hqueue, hfiles⟩ := hmarked.eq
    have hn' : n < s.queuedPaths := hn
    have hstep := markAsRedundant_eq hmarked.marks hn' (!(queue n).favored)
    have hkept : ∀ p, (queue p).favored = (s.queue p).favored ∧ (queue p).fname = (s.queue p).fname := fun p => by
      obtain ⟨mark, hmark, -⟩ := hqueue p
      rw [hmark]
      exact ⟨rfl, rfl⟩
    have hd' : Distinct { s with files := files, queue := queue } := fun p hp q hq h =>
      hd p hp q hq ((hkept p).2.symm.trans (h.trans (hkept q).2))
    rw [List.range_succ, List.foldlM_append, hfold]
    refine ⟨_, (by show (markAsRedundant _ n _ >>= fun s => .ok s) = _; rw [hstep]; rfl), ?_⟩
    split
    · rename_i hsame
      refine ⟨hmarked.marks, files, queue, rfl, fun p => ?_,
        fun path hpath => hfiles path fun p hp => hpath p (by omega)⟩
      obtain ⟨m, hm, hval⟩ := hqueue p
      refine ⟨m, hm, fun hp => ?_⟩
      by_cases hpn : p = n
      · subst hpn
        rw [(hkept p).1] at hsame
        rw [hsame]
        exact (congrArg QueueEntry.fsRedundant hm).symm
      · exact hval (by omega)
    · refine ⟨setMark_marks hd' hmarked.marks hn' _, _, _, rfl, fun p => ?_, fun path hpath => ?_⟩
      · by_cases hpn : p = n
        · subst hpn
          obtain ⟨mark, hmark, -⟩ := hqueue p
          refine ⟨_, ?_, fun _ => congrArg (!·) (hkept p).1⟩
          exact (Fuzzer.modify_queue_self _ _ _).trans
            (congrArg (fun e => { e with fsRedundant := !(queue p).favored }) hmark)
        · obtain ⟨m, hm, hval⟩ := hqueue p
          exact ⟨m, (Function.update_of_ne hpn ..).trans hm, fun hp => hval (by omega)⟩
      · have hne : path ≠ ⟨.redundantEdges, (queue n).fname⟩ := by
          rw [(hkept n).2]
          exact hpath n (Nat.lt_succ_self n)
        exact (update_render_of_ne hne).trans (hfiles path fun p hp => hpath p (by omega))

/-! ## The whole -/

theorem clearFavored_eq (s : Fuzzer) : clearFavored s = { s with
    queue := fun p => if p < s.queuedPaths then { s.queue p with favored := false } else s.queue p } := by
  have hloop : ∀ n, (List.range n).foldl (fun s q => s.modify q fun e => { e with favored := false }) s =
      { s with queue := fun p => if p < n then { s.queue p with favored := false } else s.queue p } := by
    intro n
    induction n with
    | zero => rfl
    | succ n ih =>
      rw [List.range_succ, List.foldl_append, ih]
      refine congrArg (fun queue => { s with queue := queue }) (funext fun p => ?_)
      by_cases hpn : p = n
      · subst hpn
        refine (Function.update_self ..).trans ?_
        simp
      · have hlt : p < n + 1 ↔ p < n := by omega
        refine (Function.update_of_ne hpn ..).trans ?_
        simp only [hlt]
  exact hloop s.queuedPaths

/-- The entries that a call takes. -/
def favorites (env : Env) (s : Fuzzer) : List ℕ := Cover.chosen s.topRated (covers s) (List.range env.mapSize)

/-- What a call that does something comes to: the favorites are favored, and
the rest is marked as redundant. -/
structure Culled (env : Env) (s s' : Fuzzer) : Prop where
  marks : RedundantMarks s'
  eq : ∃ files queue, s' = { s with
    files := files, queue := queue, scoreChanged := false
    queuedFavored := .ofNat (favorites env s).length
    pendingFavored := .ofNat ((favorites env s).countP fun p => notFuzzed (s.queue p)) } ∧
    (∀ p < s.queuedPaths, queue p = { s.queue p with
      favored := decide (p ∈ favorites env s), fsRedundant := !decide (p ∈ favorites env s) }) ∧
    (∀ p, ∃ favored mark, queue p = { s.queue p with favored := favored, fsRedundant := mark }) ∧
    ∀ path : FilePath, (∀ p < s.queuedPaths, path ≠ ⟨.redundantEdges, (s.queue p).fname⟩) →
      files path.render = s.files path.render

theorem Refs.of_eq {t : Fuzzer} (hs : Refs env s) (htop : t.topRated = s.topRated)
    (hpaths : t.queuedPaths = s.queuedPaths)
    (hentry : ∀ p, (t.queue p).tcRef = (s.queue p).tcRef ∧ (t.queue p).traceMini = (s.queue p).traceMini) :
    Refs env t := by
  have howned : ∀ p, owned env t p = owned env s p := fun p => by
    unfold owned
    rw [htop]
  refine ⟨fun i p h => ?_, fun p => ⟨?_, ?_⟩⟩
  · rw [hpaths]
    exact hs.lt i p (htop ▸ h)
  · rw [(hentry p).1, howned]
    exact (hs.counts p).tcRef
  · rw [(hentry p).2, howned]
    exact (hs.counts p).mini

theorem Distinct.of_eq {t : Fuzzer} (hs : Distinct s) (hpaths : t.queuedPaths = s.queuedPaths)
    (hname : ∀ p < s.queuedPaths, (t.queue p).fname = (s.queue p).fname) : Distinct t := by
  intro p hp q hq h
  rw [hpaths] at hp hq
  rw [hname p hp, hname q hq] at h
  exact hs p hp q hq h

theorem Marks.of_eq {t : Fuzzer} {dir : Dir} {flag : QueueEntry → Bool} (hs : Marks dir flag s)
    (hpaths : t.queuedPaths = s.queuedPaths) (hfiles : t.files = s.files)
    (hentry : ∀ p < s.queuedPaths, (t.queue p).fname = (s.queue p).fname ∧ flag (t.queue p) = flag (s.queue p)) :
    Marks dir flag t := by
  intro p hp
  rw [hpaths] at hp
  rw [(hentry p hp).1, (hentry p hp).2, hfiles]
  exact hs p hp

/-- What the loop over the locations starts with. -/
def unfavored (s : Fuzzer) : Fuzzer :=
  clearFavored { s with scoreChanged := false, queuedFavored := 0, pendingFavored := 0 }

theorem unfavored_queue (s : Fuzzer) (p : ℕ) : (unfavored s).queue p =
    if p < s.queuedPaths then { s.queue p with favored := false } else s.queue p := by
  rw [unfavored, clearFavored_eq]

theorem unfavored_refs (hs : Refs env s) : Refs env (unfavored s) := by
  refine hs.of_eq ?_ ?_ fun p => ?_
  · rw [unfavored, clearFavored_eq]
  · rw [unfavored, clearFavored_eq]
  · rw [unfavored_queue]
    split <;> exact ⟨rfl, rfl⟩

theorem favorites_unfavored (env : Env) (s : Fuzzer) : favorites env (unfavored s) = favorites env s := by
  have hcovers : covers (unfavored s) = covers s := funext fun p => by
    have hmini : ((unfavored s).queue p).traceMini = (s.queue p).traceMini := by
      rw [unfavored_queue]
      split <;> rfl
    unfold covers
    rw [hmini]
  have htop : (unfavored s).topRated = s.topRated := by rw [unfavored, clearFavored_eq]
  rw [favorites, favorites, hcovers, htop]

theorem favorAll_unfavored (s : Fuzzer) (taken : List ℕ) : ∃ queue, favorAll (unfavored s) taken = { s with
      scoreChanged := false, queue := queue
      queuedFavored := .ofNat taken.length
      pendingFavored := .ofNat (taken.countP fun p => notFuzzed (s.queue p)) } ∧
    (∀ p < s.queuedPaths, queue p = { s.queue p with favored := decide (p ∈ taken) }) ∧
    ∀ p, ∃ favored, queue p = { s.queue p with favored := favored } := by
  refine ⟨(favorAll (unfavored s) taken).queue, ?_, fun p hp => ?_, fun p => ?_⟩
  · have hpending : (0 : UInt32) + .ofNat (taken.countP fun p => notFuzzed ((unfavored s).queue p)) =
        .ofNat (taken.countP fun p => notFuzzed (s.queue p)) := by
      rw [UInt32.zero_add]
      refine congrArg UInt32.ofNat (List.countP_congr fun p _ => ?_)
      rw [unfavored_queue]
      split <;> rfl
    rw [← hpending, ← UInt32.zero_add (.ofNat taken.length), unfavored, clearFavored_eq]
    rfl
  · show { (unfavored s).queue p with favored := decide (p ∈ taken) || ((unfavored s).queue p).favored } = _
    rw [unfavored_queue, if_pos hp]
    simp
  · refine ⟨decide (p ∈ taken) || ((unfavored s).queue p).favored, ?_⟩
    show { (unfavored s).queue p with favored := decide (p ∈ taken) || ((unfavored s).queue p).favored } =
      { s.queue p with favored := decide (p ∈ taken) || ((unfavored s).queue p).favored }
    rw [unfavored_queue]
    split <;> rfl

/-- With the references and the marks right, a call does not end the fuzzer. -/
theorem cullQueue_eq (hrefs : Refs env s) (hd : Distinct s) (hmarks : RedundantMarks s) :
    ∃ s', cullQueue env s = .ok s' ∧ if env.dumbMode || !s.scoreChanged then s' = s else Culled env s s' := by
  unfold cullQueue
  split
  · exact ⟨s, rfl, rfl⟩
  · obtain ⟨tempV, hloop, -⟩ := foldlM_cullLocation (unfavored_refs hrefs) env.mapSize le_rfl
    obtain ⟨queue₁, hfavor, hqueue₁, hentry₁⟩ := favorAll_unfavored s (favorites env s)
    have hname₁ : ∀ p, (queue₁ p).fname = (s.queue p).fname := fun p => by
      obtain ⟨favored, heq⟩ := hentry₁ p
      rw [heq]
    change _ = Except.ok (_, favorAll _ (favorites env (unfavored s))) at hloop
    rw [favorites_unfavored, hfavor] at hloop
    let t : Fuzzer := { s with
      scoreChanged := false, queue := queue₁
      queuedFavored := .ofNat (favorites env s).length
      pendingFavored := .ofNat ((favorites env s).countP fun p => notFuzzed (s.queue p)) }
    have hd₁ : Distinct t := hd.of_eq rfl fun p _ => hname₁ p
    have hmarks₁ : RedundantMarks t := hmarks.of_eq rfl rfl fun p hp => by
      show (queue₁ p).fname = _ ∧ (queue₁ p).fsRedundant = _
      rw [hqueue₁ p hp]
      exact ⟨rfl, rfl⟩
    obtain ⟨s', hfold, hmarked⟩ := foldlM_markAsRedundant hd₁ hmarks₁ _ le_rfl
    refine ⟨s', ?_, hmarked.marks, ?_⟩
    · show (do
        let c ← (List.range env.mapSize).foldlM (cullLocation env) (fun _ => 255, unfavored s)
        (List.range c.2.queuedPaths).foldlM (fun s q => markAsRedundant s q (!(s.queue q).favored)) c.2) = _
      rw [hloop]
      exact hfold
    · obtain ⟨files, queue, heq, hqueue, hfiles⟩ := hmarked.eq
      refine ⟨files, queue, heq, fun p hp => ?_, fun p => ?_, fun path hpath => hfiles path fun p hp => ?_⟩
      · obtain ⟨mark, hmark, hval⟩ := hqueue p
        have hval' : mark = !(queue₁ p).favored := hval hp
        rw [hmark, hval']
        show { queue₁ p with fsRedundant := !(queue₁ p).favored } = _
        rw [hqueue₁ p hp]
      · obtain ⟨mark, hmark, -⟩ := hqueue p
        obtain ⟨favored, heq'⟩ := hentry₁ p
        refine ⟨favored, mark, hmark.trans ?_⟩
        show { queue₁ p with fsRedundant := mark } = _
        rw [heq']
      · show path ≠ ⟨.redundantEdges, (queue₁ p).fname⟩
        rw [hname₁]
        exact hpath p hp

/-! ## What is favored -/

variable {files : Str → Option (List UInt8)} {queue : ℕ → QueueEntry}

theorem mem_favorites (hrefs : Refs env s) (h : p ∈ favorites env s) :
    p < s.queuedPaths ∧ ∃ i < env.mapSize, s.topRated i = some p := by
  obtain ⟨i, hi, ho⟩ := Cover.exists_slot h
  exact ⟨hrefs.lt i p ho, i, List.mem_range.mp hi, ho⟩

/-- Every location that has a winner is hit by a favored entry, by the trace that
it keeps, unless its winner is favored. -/
theorem Culled.covers (h : Culled env s s') (hrefs : Refs env s) (hi : i < env.mapSize) (htop : s.topRated i = some p) :
    (s'.queue p).favored = true ∨ ∃ q < s'.queuedPaths, (s'.queue q).favored = true ∧ covers s' q i = true := by
  obtain ⟨files, queue, rfl, hqueue, -⟩ := h.eq
  have hfavored : ∀ q ∈ favorites env s, (queue q).favored = true ∧ (queue q).traceMini = (s.queue q).traceMini :=
    fun q hq => by
      rw [hqueue q (mem_favorites hrefs hq).1]
      exact ⟨decide_eq_true hq, rfl⟩
  rcases Cover.chosen_covers (List.mem_range.mpr hi) htop with hp | ⟨q, hq, hc⟩
  · exact .inl (hfavored p hp).1
  · obtain ⟨hfav, hmini⟩ := hfavored q hq
    refine .inr ⟨q, (mem_favorites hrefs hq).1, hfav, ?_⟩
    unfold Afl.covers at hc ⊢
    show (match (queue q).traceMini with | none => false | some mini => bitTest mini i) = true
    rw [hmini]
    exact hc

end PMFuzz.Afl
