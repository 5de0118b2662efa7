import PMFuzz.Driver.Progress
import Mathlib.Data.Set.Finite.Basic
import Mathlib.Order.Bounds.Basic

/-!
# Syncing again

One `State` is synced while the result directory changes. A `sync` counts the
stages anew, but it keeps `_dedup_exists` of the one before
(`resync_ok`). `collect_statistics` goes through the same names another way
(`statistics_ok`).
-/

namespace PMFuzz.Driver

open Names Run

/-! ## The code -/

/-- `sync`, of a `State` with this `_dedup_exists`. -/
def resync (os : Listing) (names : Finset Str) (dedupExists : Bool) : Except Stop StateInf :=
  (os.listdir names).foldlM syncRound ⟨0, 0, dedupExists⟩

theorem sync_eq_resync (os : Listing) (files : Finset Path) : sync os files = resync os (entries files) false := rfl

/-- One round of the loop of `collect_statistics`. -/
def statisticsRound (stages : List (ℕ × List ℕ)) (d : Str) : Except Stop (List (ℕ × List ℕ)) :=
  if "stage".toList <+: d then do
    let inf ← getStageInf d
    return Fold.insertGroup stages inf.1 inf.2
  else .ok stages

/-- `max(stages.keys())` and `max(stages[stage_max])`. -/
def statisticsMax (stages : List (ℕ × List ℕ)) : Option (ℕ × ℕ) := do
  let stageMax ← (stages.map Prod.fst).max?
  let iterids ← stages.lookup stageMax
  let iteridMax ← iterids.max?
  return (stageMax, iteridMax)

/-- What `collect_statistics` computes, if there are stages. -/
def statistics (os : Listing) (names : Finset Str) : Except Stop (Option (ℕ × ℕ)) := do
  let stages ← (os.listdir names).foldlM statisticsRound []
  return statisticsMax stages

/-! ## Result directories -/

/-- An output directory: special entries, and directories that
`get_outdir_name` names. -/
structure ResultDir where
  names : Finset Str
  named : ∀ n ∈ names, n.head? = some '@' ∨ ∃ stage iterId, getOutdirName stage iterId = .ok n

namespace ResultDir

/-- The stages that are there, with their iterations. -/
def positions (dir : ResultDir) : Set (ℕ × ℕ) := {p | stageDir p.1 p.2 ∈ dir.names}

def HasDedup (dir : ResultDir) : Prop := "@dedup".toList ∈ dir.names

instance (dir : ResultDir) : Decidable dir.HasDedup := inferInstanceAs (Decidable (_ ∈ _))

theorem named' (dir : ResultDir) {n : Str} (h : n ∈ dir.names) :
    n.head? = some '@' ∨ ∃ p ∈ dir.positions, n = stageDir p.1 p.2 := by
  refine (dir.named n h).imp_right fun ⟨stage, iterId, hn⟩ => ?_
  have hname : n = stageDir stage iterId := by
    unfold getOutdirName at hn
    split at hn
    · cases hn
    · split at hn
      · cases hn
      · cases hn
        rfl
  exact ⟨(stage, iterId), show stageDir stage iterId ∈ dir.names from hname ▸ h, hname⟩

theorem finite_positions (dir : ResultDir) : dir.positions.Finite := by
  have hinj : Function.Injective fun p : ℕ × ℕ => stageDir p.1 p.2 := fun p q h =>
    Prod.ext (stageDir_inj h).1 (stageDir_inj h).2
  exact dir.names.finite_toSet.preimage hinj.injOn

end ResultDir

/-- What `sync` is to report. -/
structure Reports (dir : ResultDir) (state : StateInf) : Prop where
  /-- The last stage and its last iteration, or `(0, 0)`. -/
  greatest : IsGreatest (insert (toLex (0, 0)) (Set.image toLex dir.positions)) (toLex state.position)
  /-- They are those of the statistics, in whatever order these list. -/
  statistics : ∀ os, ∃ r, statistics os dir.names = .ok r ∧ (r = none ↔ dir.positions = ∅) ∧
    ∀ p ∈ r, p = state.position
  dedup : state.dedupExists = true ↔ dir.HasDedup

/-! ## One `sync` -/

theorem syncRound_dedup {state state' : StateInf} {n : Str} (h : syncRound state n = .ok state') :
    state'.dedupExists = true ↔ state.dedupExists = true ∨ n = "@dedup".toList := by
  unfold syncRound at h
  split at h
  · cases h
  · cases h
    split
    · simp_all
    · simp_all
  · rename_i hne
    have hn : n ≠ "@dedup".toList := fun heq => hne _ heq
    obtain ⟨inf, -, h⟩ := Fold.bind_eq_ok.mp h
    cases h
    rw [or_iff_left hn]
    split
    · rfl
    · split <;> rfl

theorem syncLoop_dedup {names : List Str} {state state' : StateInf} (h : names.foldlM syncRound state = .ok state') :
    state'.dedupExists = true ↔ state.dedupExists = true ∨ "@dedup".toList ∈ names := by
  induction names generalizing state with
  | nil =>
    cases Fold.foldlM_nil_eq_ok.mp h
    simp
  | cons n names ih =>
    obtain ⟨u, hu, h⟩ := Fold.foldlM_cons_eq_ok.mp h
    rw [ih h, syncRound_dedup hu, List.mem_cons, or_assoc, eq_comm (a := n)]

/-- The stages are those that are there, in any order; `@dedup` stays once it
is seen. -/
theorem resync_ok (os : Listing) (dir : ResultDir) (seen : Bool) :
    ∃ state, resync os dir.names seen = .ok state ∧
      IsGreatest (insert (toLex (0, 0)) (Set.image toLex dir.positions)) (toLex state.position) ∧
      (state.dedupExists = true ↔ seen = true ∨ dir.HasDedup) := by
  have hfin := dir.finite_positions
  have hmem : ∀ {p}, p ∈ hfin.toFinset.toList ↔ p ∈ dir.positions := by simp
  have hnames : ∀ n ∈ os.listdir dir.names, n.head? = some '@' ∨
      ∃ p ∈ hfin.toFinset.toList, n = stageDir p.1 p.2 := by
    intro n hn
    refine (dir.named' (os.mem_listdir.mp hn)).imp_right ?_
    rintro ⟨p, hp, heq⟩
    exact ⟨p, hmem.mpr hp, heq⟩
  obtain ⟨state, hsync, hle, hall, hfrom⟩ := syncLoop_ok hnames ⟨0, 0, seen⟩
  refine ⟨state, hsync, ⟨?_, ?_⟩, ?_⟩
  · exact hfrom.imp (congrArg toLex) fun h => ⟨_, hmem.mp h, rfl⟩
  · rintro _ (rfl | ⟨p, hp, rfl⟩)
    · exact hle
    · exact hall p (hmem.mpr hp) (os.mem_listdir.mpr hp)
  · rw [syncLoop_dedup hsync, os.mem_listdir]
    rfl

/-! ## The statistics -/

/-- What the loop has gone through. -/
def Gathers (names : List Str) (stages : List (ℕ × List ℕ)) : Prop :=
  ∃ ps : List (ℕ × ℕ), ∃ d, Fold.Groups Prod.fst ps d ∧ stages = d.map (fun g => (g.1, g.2.map Prod.snd)) ∧
    ∀ p, p ∈ ps ↔ stageDir p.1 p.2 ∈ names

theorem statisticsLoop_ok {names seen : List Str} {stages : List (ℕ × List ℕ)}
    (hnames : ∀ n ∈ names, n.head? = some '@' ∨ ∃ p : ℕ × ℕ, n = stageDir p.1 p.2) (h : Gathers seen stages) :
    ∃ stages', names.foldlM statisticsRound stages = .ok stages' ∧ Gathers (seen ++ names) stages' := by
  induction names generalizing seen stages with
  | nil => exact ⟨stages, rfl, by rwa [List.append_nil]⟩
  | cons n names ih =>
    have hround : ∃ u, statisticsRound stages n = .ok u ∧ Gathers (seen ++ [n]) u := by
      obtain ⟨ps, d, hd, rfl, hmem⟩ := h
      rcases hnames n List.mem_cons_self with hn | ⟨p, rfl⟩
      · refine ⟨_, if_neg ?_, ps, d, hd, rfl, fun q => ?_⟩
        · rintro ⟨t, rfl⟩
          cases hn
        · have hne : stageDir q.1 q.2 ≠ n := fun heq => by
            rw [← heq, head?_stageDir] at hn
            cases hn
          rw [hmem, List.mem_append, List.mem_singleton, or_iff_left hne]
      · have hpre : "stage".toList <+: stageDir p.1 p.2 := by
          rw [stageDir_eq, List.append_assoc]
          exact List.prefix_append _ _
        refine ⟨_, ?_, ps ++ [p], _, hd.insert p, (Fold.insertGroup_map Prod.snd d p.1 p), fun q => ?_⟩
        · rw [statisticsRound, if_pos hpre, getStageInf_stageDir]
          rfl
        · rw [List.mem_append, hmem, List.mem_append, List.mem_singleton, List.mem_singleton]
          refine or_congr_right ⟨fun heq => heq ▸ rfl, fun heq => ?_⟩
          exact Prod.ext (stageDir_inj heq).1 (stageDir_inj heq).2
    obtain ⟨u, hu, hgather⟩ := hround
    obtain ⟨stages', hloop, h'⟩ := ih (fun m hm => hnames m (List.mem_cons_of_mem n hm)) hgather
    refine ⟨stages', Fold.foldlM_cons_eq_ok.mpr ⟨u, hu, hloop⟩, ?_⟩
    rwa [List.append_assoc, List.singleton_append] at h'

/-- Of the pairs that are gathered, one is found to be the greatest. -/
theorem exists_max {ps : List (ℕ × ℕ)} {d : List (ℕ × List (ℕ × ℕ))} {a : ℕ × ℕ} (hd : Fold.Groups Prod.fst ps d)
    (ha : a ∈ ps) : ∃ p ∈ ps, statisticsMax (d.map fun g => (g.1, g.2.map Prod.snd)) = some p ∧
      ∀ q ∈ ps, toLex q ≤ toLex p := by
  have hkeys : (d.map fun g => (g.1, g.2.map Prod.snd)).map Prod.fst = d.map Prod.fst := by
    rw [List.map_map]
    rfl
  -- the stage
  obtain ⟨s, hs⟩ := Option.isSome_iff_exists.mp (List.isSome_max?_of_mem (hd.covers a ha))
  obtain ⟨hsmem, hsmax⟩ := List.max?_eq_some_iff.mp hs
  -- its iterations
  have hlook : ∃ is, (d.map fun g => (g.1, g.2.map Prod.snd)).lookup s = some is := by
    refine Option.isSome_iff_exists.mp (List.lookup_isSome_iff.mpr ?_)
    obtain ⟨g, hg, rfl⟩ := List.mem_map.mp hsmem
    exact ⟨_, List.mem_map_of_mem hg, beq_self_eq_true _⟩
  obtain ⟨is, his⟩ := hlook
  have hisMem : ∀ i, i ∈ is ↔ (s, i) ∈ ps := by
    obtain ⟨l₁, l₂, hl, -⟩ := List.lookup_eq_some_iff.mp his
    have hin : (s, is) ∈ d.map fun g => (g.1, g.2.map Prod.snd) := by
      rw [hl]
      exact List.mem_append_right _ List.mem_cons_self
    obtain ⟨g, hg, heq⟩ := List.mem_map.mp hin
    cases heq
    intro i
    rw [hd.eq_filter g hg]
    simp [and_comm]
  have hisNe : is ≠ [] := by
    obtain ⟨g, hg, rfl⟩ := List.mem_map.mp hsmem
    obtain ⟨p, hp⟩ := List.exists_mem_of_ne_nil _ (hd.ne_nil g hg)
    rw [hd.eq_filter g hg] at hp
    obtain ⟨hp, hps⟩ := List.mem_filter.mp hp
    have hps' : p.1 = g.1 := of_decide_eq_true hps
    exact List.ne_nil_of_mem ((hisMem p.2).mpr (hps' ▸ hp))
  obtain ⟨i, hi⟩ := Option.isSome_iff_exists.mp (List.isSome_max?_of_ne_nil hisNe)
  obtain ⟨himem, himax⟩ := List.max?_eq_some_iff.mp hi
  refine ⟨(s, i), (hisMem i).mp himem, ?_, fun q hq => ?_⟩
  · simp only [statisticsMax, hkeys, hs, his, hi, bind, Option.bind]
    rfl
  · refine Prod.Lex.toLex_le_toLex.mpr ?_
    rcases (hsmax q.1 (hd.covers q hq)).lt_or_eq with hlt | heq
    · exact .inl hlt
    · exact .inr ⟨heq, himax q.2 ((hisMem q.2).mpr (heq ▸ hq))⟩

/-- The greatest stage with its greatest iteration. -/
theorem statisticsMax_ok {names : List Str} {stages : List (ℕ × List ℕ)} (h : Gathers names stages) :
    (statisticsMax stages = none ↔ ∀ p : ℕ × ℕ, stageDir p.1 p.2 ∉ names) ∧
      ∀ p ∈ statisticsMax stages, stageDir p.1 p.2 ∈ names ∧
        ∀ q : ℕ × ℕ, stageDir q.1 q.2 ∈ names → toLex q ≤ toLex p := by
  obtain ⟨ps, d, hd, rfl, hmem⟩ := h
  simp only [← hmem]
  rcases List.eq_nil_or_concat' ps with rfl | ⟨ps', a, rfl⟩
  · have hnil : d = [] := by
      refine List.eq_nil_iff_forall_not_mem.mpr fun g hg => hd.ne_nil g hg ?_
      rw [hd.eq_filter g hg, List.filter_nil]
    subst hnil
    exact ⟨iff_of_true rfl fun _ => List.not_mem_nil, nofun⟩
  · obtain ⟨p, hp, hmax, hle⟩ := exists_max hd (List.mem_append_right ps' List.mem_cons_self)
    rw [hmax]
    refine ⟨iff_of_false nofun fun hno => hno p hp, fun q hq => ?_⟩
    cases Option.some.inj hq
    exact ⟨hp, hle⟩

theorem statistics_ok (os : Listing) (dir : ResultDir) :
    ∃ r, statistics os dir.names = .ok r ∧ (r = none ↔ dir.positions = ∅) ∧
      ∀ p ∈ r, p ∈ dir.positions ∧ ∀ q ∈ dir.positions, toLex q ≤ toLex p := by
  have hnil : Gathers [] [] := ⟨[], [], Fold.group_groups Prod.fst [], rfl, by simp⟩
  have hnames : ∀ n ∈ os.listdir dir.names, n.head? = some '@' ∨ ∃ p : ℕ × ℕ, n = stageDir p.1 p.2 := by
    intro n hn
    refine (dir.named' (os.mem_listdir.mp hn)).imp_right ?_
    rintro ⟨p, -, heq⟩
    exact ⟨p, heq⟩
  obtain ⟨stages, hloop, hgather⟩ := statisticsLoop_ok hnames hnil
  have hmem : ∀ p : ℕ × ℕ, stageDir p.1 p.2 ∈ [] ++ os.listdir dir.names ↔ p ∈ dir.positions :=
    fun p => os.mem_listdir
  obtain ⟨hnone, hmax⟩ := statisticsMax_ok hgather
  simp only [hmem] at hnone hmax
  refine ⟨statisticsMax stages, ?_, hnone.trans Set.eq_empty_iff_forall_notMem.symm, hmax⟩
  simp only [statistics, hloop, bind, Except.bind]
  rfl

/-- A `sync` reports the directory unless it is without a `@dedup` that was
seen. -/
theorem reports_iff (os : Listing) (dir : ResultDir) (seen : Bool) :
    ∃ state, resync os dir.names seen = .ok state ∧ (Reports dir state ↔ (seen = true → dir.HasDedup)) ∧
      (state.dedupExists = true ↔ seen = true ∨ dir.HasDedup) := by
  obtain ⟨state, hsync, hgreatest, hdedup⟩ := resync_ok os dir seen
  refine ⟨state, hsync, ⟨fun h hseen => ?_, fun h => ⟨hgreatest, fun os' => ?_, ?_⟩⟩, hdedup⟩
  · exact h.dedup.mp (hdedup.mpr (.inl hseen))
  · obtain ⟨r, hr, hnone, hmax⟩ := statistics_ok os' dir
    refine ⟨r, hr, hnone, fun p hp => ?_⟩
    obtain ⟨hin, hle⟩ := hmax p hp
    have hzero : toLex ((0, 0) : ℕ × ℕ) ≤ toLex p := by
      refine Prod.Lex.toLex_le_toLex.mpr ?_
      show 0 < p.1 ∨ 0 = p.1 ∧ 0 ≤ p.2
      omega
    have hp' : IsGreatest (insert (toLex (0, 0)) (Set.image toLex dir.positions)) (toLex p) := by
      refine ⟨.inr ⟨p, hin, rfl⟩, ?_⟩
      rintro _ (rfl | ⟨q, hq, rfl⟩)
      · exact hzero
      · exact hle q hq
    exact toLex.injective (hp'.unique hgreatest)
  · rw [hdedup]
    exact ⟨fun h' => h'.elim h id, .inr⟩

/-! ## Runs -/

/-- What happens to the output directory and a `State`. -/
inductive Event
  | change (dir : ResultDir)
  /-- A `sync` that lists in this order. -/
  | sync (os : Listing)

/-- The output directory and the `State`. -/
structure Watched where
  dir : ResultDir
  state : StateInf

/-- A `State` that was never synced. -/
def Watched.new (dir : ResultDir) : Watched := ⟨dir, ⟨0, 0, false⟩⟩

def Watched.step (w : Watched) : Event → Except Stop Watched
  | .change dir => .ok { w with dir := dir }
  | .sync os => do
    let state ← resync os w.dir.names w.state.dedupExists
    return { w with state := state }

/-- After each `sync`, the `State` reports the directory. -/
def Reliable (w : Watched) (events : List Event) : Prop :=
  ∀ pre os, pre ++ [.sync os] <+: events →
    ∃ w', (pre ++ [.sync os]).foldlM Watched.step w = .ok w' ∧ Reports w'.dir w'.state

/-- The directories that are synced, in order. -/
def synced : ResultDir → List Event → List ResultDir
  | _, [] => []
  | _, .change dir :: events => synced dir events
  | dir, .sync _ :: events => dir :: synced dir events

theorem reliable_change {w : Watched} {dir : ResultDir} {events : List Event} :
    Reliable w (.change dir :: events) ↔ Reliable { w with dir := dir } events := by
  constructor
  · intro h pre os hpre
    obtain ⟨w', hrun, hrep⟩ := h (.change dir :: pre) os (List.cons_prefix_cons.mpr ⟨rfl, hpre⟩)
    obtain ⟨_, hu, hrun⟩ := Fold.foldlM_cons_eq_ok.mp hrun
    cases hu
    exact ⟨w', hrun, hrep⟩
  · intro h pre os hpre
    cases pre with
    | nil => cases (List.cons_prefix_cons.mp hpre).1
    | cons e pre =>
      obtain ⟨rfl, hrest⟩ := List.cons_prefix_cons.mp hpre
      obtain ⟨w', hrun, hrep⟩ := h pre os hrest
      exact ⟨w', Fold.foldlM_cons_eq_ok.mpr ⟨_, rfl, hrun⟩, hrep⟩

theorem reliable_sync {w w' : Watched} {os : Listing} {events : List Event} (hstep : w.step (.sync os) = .ok w') :
    Reliable w (.sync os :: events) ↔ Reports w'.dir w'.state ∧ Reliable w' events := by
  constructor
  · intro h
    refine ⟨?_, fun pre os' hpre => ?_⟩
    · obtain ⟨u, hrun, hrep⟩ := h [] os (List.cons_prefix_cons.mpr ⟨rfl, List.nil_prefix⟩)
      obtain ⟨v, hv, hrun⟩ := Fold.foldlM_cons_eq_ok.mp hrun
      cases Fold.foldlM_nil_eq_ok.mp hrun
      cases hstep.symm.trans hv
      exact hrep
    · obtain ⟨u, hrun, hrep⟩ := h (.sync os :: pre) os' (List.cons_prefix_cons.mpr ⟨rfl, hpre⟩)
      obtain ⟨v, hv, hrun⟩ := Fold.foldlM_cons_eq_ok.mp hrun
      cases hstep.symm.trans hv
      exact ⟨u, hrun, hrep⟩
  · rintro ⟨hrep, h⟩ pre os' hpre
    cases pre with
    | nil =>
      cases (List.cons_prefix_cons.mp hpre).1
      exact ⟨w', Fold.foldlM_cons_eq_ok.mpr ⟨w', hstep, rfl⟩, hrep⟩
    | cons e pre =>
      obtain ⟨rfl, hrest⟩ := List.cons_prefix_cons.mp hpre
      obtain ⟨u, hrun, hrep⟩ := h pre os' hrest
      exact ⟨u, Fold.foldlM_cons_eq_ok.mpr ⟨w', hstep, hrun⟩, hrep⟩

/-- From any `State`: what it has seen must stay, too. -/
theorem reliable_from (w : Watched) (events : List Event) :
    Reliable w events ↔ (w.state.dedupExists = true → ∀ dir ∈ synced w.dir events, dir.HasDedup) ∧
      (synced w.dir events).Pairwise fun dir dir' => dir.HasDedup → dir'.HasDedup := by
  induction events generalizing w with
  | nil => exact iff_of_true (fun pre os hpre => by simp at hpre) ⟨fun _ => by simp [synced], .nil⟩
  | cons e events ih =>
    cases e with
    | change dir => exact reliable_change.trans (ih _)
    | sync os =>
      obtain ⟨state, hsync, hrep, hdedup⟩ := reports_iff os w.dir w.state.dedupExists
      have hstep : w.step (.sync os) = .ok { w with state := state } := by
        simp only [Watched.step, hsync, bind, Except.bind]
        rfl
      rw [reliable_sync hstep, ih]
      simp only [hrep, hdedup, synced, List.forall_mem_cons, List.pairwise_cons]
      grind

/-- A `State` reports the directory after every `sync` if and only if none of
them is without `@dedup` after one with it. -/
theorem reliable_iff (dir : ResultDir) (events : List Event) : Reliable (.new dir) events ↔
    (synced dir events).Pairwise fun dir dir' => dir.HasDedup → dir'.HasDedup :=
  (reliable_from _ _).trans (and_iff_right nofun)

/-- A result directory with `@dedup`, and nothing else. -/
def onlyDedup : ResultDir where
  names := {"@dedup".toList}
  named n h := by
    cases Finset.mem_singleton.mp h
    exact .inl rfl

/-- `@dedup` is removed after a `sync`. -/
def removal : List Event :=
  [.sync .sorted, .change ⟨∅, fun _ h => absurd h (Finset.notMem_empty _)⟩, .sync .sorted]

theorem not_reliable_removal : ¬ Reliable (.new onlyDedup) removal := by
  rw [reliable_from]
  rintro ⟨-, h⟩
  have hgone := List.rel_of_pairwise_cons h (List.mem_singleton.mpr rfl) (Finset.mem_singleton.mpr rfl)
  exact absurd hgone (Finset.notMem_empty _)

end PMFuzz.Driver
