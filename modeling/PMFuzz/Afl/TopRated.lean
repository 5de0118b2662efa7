import PMFuzz.Afl.State
import Mathlib.Data.Nat.Count

/-!
# Top rated entries

`update_bitmap_score`: for each location of the map, `top_rated` has the
entry that does best of those that hit it. An entry counts the locations it
is top rated for, and keeps its trace, one bit a location, as long as
there are any. `Refs` says so of a state, and `updateBitmapScore_refs` that it stays so.
-/

namespace PMFuzz.Afl

open Libpmfuzz (Mem bitTest bitSet bitTest_bitSet)

/-! ## The code -/

/-- `next_pow2`. -/
def nextPow2 (x : UInt64) : UInt64 :=
  if x = 0 then 0
  else
    let out := x - 1
    let out := out ||| out >>> 1
    let out := out ||| out >>> 2
    let out := out ||| out >>> 4
    let out := out ||| out >>> 8
    let out := out ||| out >>> 16
    out + 1

/-- A turn of `minimize_bits`. -/
def minimizeBit (src dst : Mem) (i : ℕ) : Mem := if src i ≠ 0 then bitSet dst i else dst

/-- `minimize_bits`. -/
def minimizeBits (dst src : Mem) (mapSize : ℕ) : Mem :=
  (List.range mapSize).foldl (fun dst i => minimizeBit src dst i) dst

/-- `fav_factor`. -/
def favFactor (env : Env) (q : QueueEntry) : UInt64 :=
  if env.byLength then (UInt32.ofNat q.len <<< 2).toUInt64 else q.execUs * (UInt32.ofNat q.len).toUInt64

/-- The one who rates `q` keeps its place. -/
def keepsPlace (env : Env) (top q : QueueEntry) : Bool :=
  if nextPow2 q.nFuzz > nextPow2 top.nFuzz then true
  else if nextPow2 q.nFuzz = nextPow2 top.nFuzz ∧ favFactor env q > favFactor env top then true
  else decide (favFactor env q > favFactor env top)

/-- The previous winner has one location less. -/
def decRef (e : QueueEntry) : QueueEntry :=
  let tcRef := e.tcRef - 1
  { e with tcRef := tcRef, traceMini := if tcRef = 0 then none else e.traceMini }

/-- The new winner has one more. -/
def incRef (env : Env) (trace : Mem) (e : QueueEntry) : QueueEntry :=
  { e with
    tcRef := e.tcRef + 1
    traceMini := match e.traceMini with
      | some mini => some mini
      | none => some (minimizeBits (fun _ => 0) trace env.mapSize) }

/-- `q` becomes the winner of a location. -/
def insertWinner (env : Env) (q : ℕ) (s : Fuzzer) (i : ℕ) : Fuzzer :=
  { s.modify q (incRef env s.maps.traceBits) with
    topRated := Function.update s.topRated i (some q)
    scoreChanged := true }

/-- A turn of `update_bitmap_score`. -/
def scoreLocation (env : Env) (q : ℕ) (s : Fuzzer) (i : ℕ) : Fuzzer :=
  if s.maps.traceBits i ≠ 0 then
    match s.topRated i with
    | some p =>
      if keepsPlace env (s.queue p) (s.queue q) then s else insertWinner env q (s.modify p decRef) i
    | none => insertWinner env q s i
  else s

/-- `update_bitmap_score`. -/
def updateBitmapScore (env : Env) (s : Fuzzer) (q : ℕ) : Fuzzer :=
  (List.range env.mapSize).foldl (scoreLocation env q) s

/-! ## References -/

variable {env : Env} {s : Fuzzer} {i j n p q : ℕ}

/-- How many locations an entry is top rated for. -/
def owned (env : Env) (s : Fuzzer) (p : ℕ) : ℕ := Nat.count (fun i => s.topRated i = some p) env.mapSize

/-- An entry that is top rated for `n` locations. -/
structure Counts (n : ℕ) (e : QueueEntry) : Prop where
  tcRef : e.tcRef.toNat = n
  mini : e.traceMini.isSome = true ↔ n ≠ 0

/-- The references of all entries are right. -/
structure Refs (env : Env) (s : Fuzzer) : Prop where
  lt : ∀ i p, s.topRated i = some p → p < s.queuedPaths
  counts : ∀ p, Counts (owned env s p) (s.queue p)

theorem owned_lt (env : Env) (s : Fuzzer) (p : ℕ) : owned env s p < 2 ^ 32 := by
  have hle : owned env s p ≤ env.mapSize := Nat.count_le _
  have hwords := env.words_lt
  unfold Env.mapSize at hle
  omega

/-- One slot of a table changes hands. -/
theorem count_update {α : Type*} [DecidableEq α] (t : ℕ → α) (x y : α) (hi : i < n) :
    Nat.count (fun j => Function.update t i x j = y) n + (if t i = y then 1 else 0) =
      Nat.count (fun j => t j = y) n + if x = y then 1 else 0 := by
  induction n with
  | zero => cases hi
  | succ n ih =>
    rw [Nat.count_succ, Nat.count_succ]
    by_cases hin : i = n
    · have hsame : Nat.count (fun j => Function.update t i x j = y) n = Nat.count (fun j => t j = y) n := by
        rw [Nat.count_eq_card_filter_range, Nat.count_eq_card_filter_range]
        refine congrArg Finset.card (Finset.filter_congr fun j hj => ?_)
        have hlt := Finset.mem_range.mp hj
        rw [Function.update_of_ne (by omega)]
      subst hin
      rw [hsame, Function.update_self]
      omega
    · have hrest := ih (by omega)
      rw [Function.update_of_ne (fun h => hin h.symm)]
      omega

theorem owned_update {s s' : Fuzzer} {i q : ℕ} (h : s'.topRated = Function.update s.topRated i (some q))
    (hi : i < env.mapSize) (p : ℕ) : owned env s' p + (if s.topRated i = some p then 1 else 0) =
      owned env s p + if q = p then 1 else 0 := by
  have hcount := count_update s.topRated (some q) (some p) hi
  rw [← h] at hcount
  simp only [Option.some_inj] at hcount
  exact hcount

theorem Counts.dec {e : QueueEntry} (h : Counts (n + 1) e) : Counts n (decRef e) := by
  have hle : (1 : UInt32) ≤ e.tcRef := by
    rw [UInt32.le_iff_toNat_le, h.tcRef]
    exact Nat.le_add_left 1 n
  have hdec : (e.tcRef - 1).toNat = n := by
    rw [UInt32.toNat_sub_of_le _ _ hle, h.tcRef]
    rfl
  have hzero : e.tcRef - 1 = 0 ↔ n = 0 := by rw [← UInt32.toNat_inj, hdec]; rfl
  refine ⟨hdec, ?_⟩
  show (if e.tcRef - 1 = 0 then none else e.traceMini).isSome = true ↔ n ≠ 0
  split
  · rename_i h0
    exact iff_of_false Bool.false_ne_true (not_not.mpr (hzero.mp h0))
  · rename_i h0
    exact iff_of_true (h.mini.mpr n.succ_ne_zero) (mt hzero.mpr h0)

theorem Counts.inc {e : QueueEntry} (h : Counts n e) (hn : n + 1 < 2 ^ 32) (trace : Mem) :
    Counts (n + 1) (incRef env trace e) := by
  constructor
  · show (e.tcRef + 1).toNat = n + 1
    rw [UInt32.toNat_add, h.tcRef]
    exact Nat.mod_eq_of_lt hn
  · refine iff_of_true ?_ n.succ_ne_zero
    unfold incRef
    dsimp only
    split <;> rfl

theorem Refs.of_update {s' : Fuzzer} (hs : Refs env s) (hq : q < s.queuedPaths)
    (htop : s'.topRated = Function.update s.topRated i (some q)) (hpaths : s'.queuedPaths = s.queuedPaths)
    (hcounts : ∀ p, Counts (owned env s' p) (s'.queue p)) : Refs env s' := by
  refine ⟨fun j p hj => ?_, hcounts⟩
  rw [hpaths]
  rw [htop] at hj
  by_cases hji : j = i
  · rw [hji, Function.update_self] at hj
    cases hj
    exact hq
  · rw [Function.update_of_ne hji] at hj
    exact hs.lt j p hj

/-- A location that nobody was top rated for. -/
theorem insertWinner_refs (hs : Refs env s) (hi : i < env.mapSize) (hq : q < s.queuedPaths)
    (hnone : s.topRated i = none) :
    Refs env (insertWinner env q s i) := by
  refine hs.of_update hq rfl rfl fun p => ?_
  have htop : (insertWinner env q s i).topRated = Function.update s.topRated i (some q) := rfl
  have hown := owned_update htop hi p
  have hlt := owned_lt env (insertWinner env q s i) p
  rw [if_neg (by rw [hnone]; exact Option.some_ne_none p |>.symm), Nat.add_zero] at hown
  by_cases hpq : q = p
  · subst hpq
    rw [if_pos rfl] at hown
    rw [hown] at hlt ⊢
    rw [show (insertWinner env q s i).queue q = incRef env s.maps.traceBits (s.queue q) from s.modify_queue_self q _]
    exact (hs.counts q).inc hlt _
  · rw [if_neg hpq, Nat.add_zero] at hown
    rw [hown, show (insertWinner env q s i).queue p = s.queue p from Fuzzer.modify_queue_of_ne fun h => hpq h.symm]
    exact hs.counts p

/-- A location with a winner so far, which may be `q` itself. -/
theorem replaceWinner_refs {w : ℕ} (hs : Refs env s) (hi : i < env.mapSize) (hq : q < s.queuedPaths)
    (hsome : s.topRated i = some w) : Refs env (insertWinner env q (s.modify w decRef) i) := by
  refine hs.of_update hq rfl rfl fun p => ?_
  have htop : (insertWinner env q (s.modify w decRef) i).topRated = Function.update s.topRated i (some q) := rfl
  have hown := owned_update htop hi p
  have hlt := owned_lt env (insertWinner env q (s.modify w decRef) i) p
  simp only [hsome, Option.some_inj] at hown
  have hself : ∀ t : Fuzzer, (insertWinner env q t i).queue q = incRef env t.maps.traceBits (t.queue q) := fun t =>
    t.modify_queue_self q _
  have hother : ∀ t : Fuzzer, p ≠ q → (insertWinner env q t i).queue p = t.queue p := fun t h =>
    Fuzzer.modify_queue_of_ne h
  by_cases hpq : p = q
  · subst hpq
    rw [if_pos rfl] at hown
    rw [hself]
    by_cases hw : w = p
    · -- it loses the location and wins it back
      subst hw
      rw [if_pos rfl] at hown
      obtain ⟨n, hn⟩ : ∃ n, owned env s w = n + 1 := by
        refine Nat.exists_eq_add_one.mpr (Nat.pos_of_ne_zero fun h0 => ?_)
        exact Nat.count_iff_forall_not.mp h0 i hi hsome
      have hcounts := hs.counts w
      rw [hn] at hcounts
      rw [show owned env (insertWinner env w (s.modify w decRef) i) w = n + 1 by omega, Fuzzer.modify_queue_self]
      exact hcounts.dec.inc (by omega) _
    · rw [if_neg hw, Nat.add_zero] at hown
      rw [hown] at hlt ⊢
      rw [Fuzzer.modify_queue_of_ne fun h => hw h.symm]
      exact (hs.counts p).inc hlt _
  · have hqp : ¬ q = p := fun h => hpq h.symm
    rw [if_neg hqp, Nat.add_zero] at hown
    rw [hother _ hpq]
    by_cases hw : w = p
    · subst hw
      rw [if_pos rfl] at hown
      have hcounts := hs.counts w
      rw [← hown] at hcounts
      rw [Fuzzer.modify_queue_self]
      exact hcounts.dec
    · rw [if_neg hw, Nat.add_zero] at hown
      rw [hown, Fuzzer.modify_queue_of_ne fun h => hw h.symm]
      exact hs.counts p

theorem scoreLocation_refs (hs : Refs env s) (hi : i < env.mapSize) (hq : q < s.queuedPaths) :
    Refs env (scoreLocation env q s i) := by
  unfold scoreLocation
  split
  · split
    · rename_i w hw
      split
      · exact hs
      · exact replaceWinner_refs hs hi hq hw
    · rename_i hnone
      exact insertWinner_refs hs hi hq hnone
  · exact hs

/-- What scoring an entry changes. -/
structure Scored (s s' : Fuzzer) : Prop where
  eq : ∃ queue topRated scoreChanged, s' = { s with queue := queue, topRated := topRated, scoreChanged := scoreChanged }
  entry : ∀ p, ∃ tcRef traceMini, s'.queue p = { s.queue p with tcRef := tcRef, traceMini := traceMini }

theorem Scored.refl (s : Fuzzer) : Scored s s := ⟨⟨_, _, _, rfl⟩, fun _ => ⟨_, _, rfl⟩⟩

theorem Scored.trans {s' s'' : Fuzzer} (h : Scored s s') (h' : Scored s' s'') : Scored s s'' := by
  refine ⟨?_, fun p => ?_⟩
  · obtain ⟨queue, topRated, scoreChanged, rfl⟩ := h.eq
    obtain ⟨queue', topRated', scoreChanged', rfl⟩ := h'.eq
    exact ⟨_, _, _, rfl⟩
  · obtain ⟨tcRef, traceMini, heq⟩ := h.entry p
    obtain ⟨tcRef', traceMini', heq'⟩ := h'.entry p
    exact ⟨tcRef', traceMini', by rw [heq', heq]⟩

theorem Scored.queuedPaths {s' : Fuzzer} (h : Scored s s') : s'.queuedPaths = s.queuedPaths := by
  obtain ⟨queue, topRated, scoreChanged, rfl⟩ := h.eq
  rfl

theorem modify_scored {f : QueueEntry → QueueEntry}
    (h : ∀ e, ∃ tcRef traceMini, f e = { e with tcRef := tcRef, traceMini := traceMini }) :
    Scored s (s.modify q f) := by
  refine ⟨⟨_, _, _, rfl⟩, fun p => ?_⟩
  by_cases hpq : p = q
  · subst hpq
    rw [Fuzzer.modify_queue_self]
    exact h _
  · exact ⟨_, _, Fuzzer.modify_queue_of_ne hpq⟩

theorem insertWinner_scored (env : Env) (q : ℕ) (s : Fuzzer) (i : ℕ) : Scored s (insertWinner env q s i) := by
  have hmodify : Scored s (s.modify q (incRef env s.maps.traceBits)) := modify_scored fun _ => ⟨_, _, rfl⟩
  exact hmodify.trans ⟨⟨_, _, _, rfl⟩, fun _ => ⟨_, _, rfl⟩⟩

theorem scoreLocation_scored (env : Env) (q : ℕ) (s : Fuzzer) (i : ℕ) : Scored s (scoreLocation env q s i) := by
  unfold scoreLocation
  split
  · split
    · rename_i w _
      split
      · exact .refl s
      · have hdec : Scored s (s.modify w decRef) := modify_scored fun _ => ⟨_, _, rfl⟩
        exact hdec.trans (insertWinner_scored ..)
    · exact insertWinner_scored ..
  · exact .refl s

theorem updateBitmapScore_scored (env : Env) (s : Fuzzer) (q : ℕ) : Scored s (updateBitmapScore env s q) := by
  unfold updateBitmapScore
  induction env.mapSize with
  | zero => exact .refl s
  | succ n ih =>
    rw [List.range_succ, List.foldl_append]
    exact ih.trans (scoreLocation_scored ..)

/-- A score that changes anything says so. -/
theorem scoreLocation_changed (env : Env) (q : ℕ) (s : Fuzzer) (i : ℕ) :
    scoreLocation env q s i = s ∨ (scoreLocation env q s i).scoreChanged = true := by
  unfold scoreLocation
  split
  · split
    · split
      · exact .inl rfl
      · exact .inr rfl
    · exact .inr rfl
  · exact .inl rfl

theorem updateBitmapScore_changed (env : Env) (s : Fuzzer) (q : ℕ) :
    updateBitmapScore env s q = s ∨ (updateBitmapScore env s q).scoreChanged = true := by
  unfold updateBitmapScore
  induction env.mapSize with
  | zero => exact .inl rfl
  | succ n ih =>
    rw [List.range_succ, List.foldl_append]
    rcases scoreLocation_changed env q ((List.range n).foldl (scoreLocation env q) s) n with heq | hchanged
    · exact ih.imp heq.trans (congrArg Fuzzer.scoreChanged heq).trans
    · exact .inr hchanged

/-- The references stay right. -/
theorem updateBitmapScore_refs (hs : Refs env s) (hq : q < s.queuedPaths) : Refs env (updateBitmapScore env s q) := by
  have hloop : ∀ n ≤ env.mapSize, Refs env ((List.range n).foldl (scoreLocation env q) s) ∧
      ((List.range n).foldl (scoreLocation env q) s).queuedPaths = s.queuedPaths := by
    intro n
    induction n with
    | zero => exact fun _ => ⟨hs, rfl⟩
    | succ n ih =>
      intro hn
      obtain ⟨hrefs, hpaths⟩ := ih (by omega)
      rw [List.range_succ, List.foldl_append, List.foldl_cons, List.foldl_nil]
      refine ⟨scoreLocation_refs hrefs (by omega) (hpaths.symm ▸ hq), Eq.trans ?_ hpaths⟩
      exact (scoreLocation_scored env q _ n).queuedPaths
  exact (hloop env.mapSize le_rfl).1

end PMFuzz.Afl
