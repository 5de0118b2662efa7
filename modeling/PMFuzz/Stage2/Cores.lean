import PMFuzz.Stage2.Completed
import PMFuzz.Stage2.Live

/-!
# The cores of a stage-2 iteration

`Bounded` bounds the instances by the cores. A step that starts an instance
keeps it where `StartsSafely` holds: an instance whose timer had expired
when `get_run_count` looked is not in `run_count`, and must be gone by then.
`instances_le_cores` is the bound in every state of a run.
-/

namespace PMFuzz.Stage2

open Names Dedup Run

variable {cfg : Config} {s t : Schedule} {k : Kind} {job : Str} {todo : List Str} {rc : ℕ}
  {known : Finset Str}

/-- Every running instance of a kind is in `run_count`, or still to be
looked at, or has an expired timer; in the loop of `resume` the last are
still to be killed. -/
def Counts (s : Schedule) : Phase → Prop
  | .count k todo runCount known => known.card ≤ runCount ∧
    ∀ job ∈ s.live k, job ∈ known ∨ job ∈ todo ∨ (s.timers job).expired s.now = true
  | .visit k todo runCount known => known.card ≤ runCount ∧
    ∀ job ∈ s.live k, job ∈ known ∨ (s.timers job).expired s.now = true ∧ job ∈ todo
  | _ => True

/-- The instances of a kind fit its slots, and all fit the cores. -/
structure Bounded (cfg : Config) (s : Schedule) : Prop extends Live cfg s where
  slots : ∀ k, (s.live k).card ≤ cfg.slots k
  cores : s.instances ≤ cfg.cores
  counts : Counts s s.phase

/-- The next job of the loop is started safely: no running instance of its
kind that `get_run_count` left out remains to be visited, and the one core of
a stage with failure injection is not taken by the other kind. -/
def SafeAt (cfg : Config) (s : Schedule) : Phase → Prop
  | .visit k (job :: todo) runCount known =>
    (s.timers job).isNew = true → runCount < cfg.slots k →
      (∀ m ∈ todo, m ∈ s.live k → m ∈ known) ∧
      (cfg.finjEnabled = false ∨ 2 ≤ cfg.cores ∨ s.live k.other = ∅)
  | _ => True

/-- The step starts no instance, or starts it safely. -/
def StartsSafely (cfg : Config) (s : Schedule) : Action → Prop
  | .tick _ => SafeAt cfg s s.phase
  | _ => True

instance (cfg : Config) (s : Schedule) : DecidablePred (SafeAt cfg s)
  | .visit _ (_ :: _) _ _ => inferInstanceAs (Decidable (_ → _ → _))
  | .visit _ [] _ _ | .idle | .count _ _ _ _ | .killing _ | .terminated | .cleared => .isTrue trivial

instance (cfg : Config) (s : Schedule) : DecidablePred (StartsSafely cfg s)
  | .tick _ => inferInstanceAs (Decidable (SafeAt cfg s s.phase))
  | .resume _ _ | .finish _ | .wait _ | .queue _ => .isTrue trivial

theorem bounded_init (loc : Dir) (now : {q : ℚ // 0 < q}) : Bounded cfg (init loc now) where
  toLive := live_init loc now
  slots _ := Nat.zero_le _
  cores := Nat.zero_le _
  counts := trivial

/-! ## Slots -/

theorem slots_add_slots (hfinj : cfg.finjEnabled = true) (h : 2 ≤ cfg.cores) :
    cfg.slots .tc + cfg.slots .cs ≤ cfg.cores := by
  have hhalf : cfg.cores / 2 ≠ 0 := by omega
  simp only [Config.slots, hfinj, if_true, hhalf, if_false]
  omega

theorem slots_le_cores (cfg : Config) (k : Kind) : cfg.slots k ≤ cfg.cores := by
  have hpos := cfg.cores_pos
  have hhalf : (if cfg.cores / 2 = 0 then 1 else cfg.cores / 2) ≤ cfg.cores := by split <;> omega
  unfold Config.slots
  cases cfg.finjEnabled with
  | false => cases k <;> simp
  | true => exact hhalf

/-- With room in its kind, and the one core not taken, an instance may be
started. -/
theorem instances_lt_cores (hslots : ∀ k, (s.live k).card ≤ cfg.slots k)
    (hcore : cfg.finjEnabled = false ∨ 2 ≤ cfg.cores ∨ s.live k.other = ∅)
    (hroom : (s.live k).card < cfg.slots k) : s.instances < cfg.cores := by
  unfold Schedule.instances
  have htc := hslots .tc
  have hcs := hslots .cs
  cases hf : cfg.finjEnabled with
  | false =>
    have hzero : cfg.slots .cs = 0 := by simp [Config.slots, hf]
    have hle := slots_le_cores cfg .tc
    cases k <;> omega
  | true =>
    rcases hcore with hno | htwo | hempty
    · rw [hf] at hno; cases hno
    · have := slots_add_slots hf htwo
      cases k <;> omega
    · have hle := slots_le_cores cfg k
      have hzero : (s.live k.other).card = 0 := by rw [hempty]; rfl
      cases k
      · have : (s.live .cs).card = 0 := hzero
        omega
      · have : (s.live .tc).card = 0 := hzero
        omega

/-! ## Steps -/

/-- A step that starts nothing. -/
theorem Bounded.of_subset (h : Bounded cfg s) (hl : Live cfg t) (hlive : ∀ k, t.live k ⊆ s.live k)
    (hcounts : Counts t t.phase) : Bounded cfg t where
  toLive := hl
  slots k := (Finset.card_le_card (hlive k)).trans (h.slots k)
  cores := le_trans (Nat.add_le_add (Finset.card_le_card (hlive _)) (Finset.card_le_card (hlive _)))
    h.cores
  counts := hcounts

/-- Time passes. -/
theorem Counts.wait {p : Phase} (h : Counts s p) {now : {q : ℚ // 0 < q}}
    (hle : (s.now : ℚ) ≤ now) : Counts { s with now := now } p := by
  cases p with
  | count k todo rc known =>
    exact ⟨h.1, fun job hj => (h.2 job hj).imp_right (.imp_right (PTimer.expired_mono · hle))⟩
  | visit k todo rc known =>
    exact ⟨h.1, fun job hj => (h.2 job hj).imp_right fun hj => ⟨PTimer.expired_mono hj.1 hle, hj.2⟩⟩
  | _ => trivial

/-- An instance is started: safely, so `run_count` counts all of its kind. -/
theorem Bounded.start (h : Bounded cfg s) (hp : s.phase = .visit k (job :: todo) rc known)
    (hroom : rc < cfg.slots k) (hleft : ∀ m ∈ todo, m ∈ s.live k → m ∈ known)
    (hcore : cfg.finjEnabled = false ∨ 2 ≤ cfg.cores ∨ s.live k.other = ∅)
    (hnew : (s.timers job).isNew = true)
    (hl : Live cfg { s.start cfg k job with phase := .visit k todo (rc + 1) (insert job known) }) :
    Bounded cfg { s.start cfg k job with phase := .visit k todo (rc + 1) (insert job known) } := by
  have hcounts := h.counts
  rw [hp] at hcounts
  obtain ⟨hcard, hcover⟩ := hcounts
  have hknown : s.live k ⊆ known := fun m hm => by
    rcases hcover m hm with hk | ⟨-, ht⟩
    · exact hk
    · rcases List.mem_cons.mp ht with rfl | ht
      · rw [h.started k m hm] at hnew; cases hnew
      · exact hleft m ht hm
  have hlt : (s.live k).card < cfg.slots k := by
    have := Finset.card_le_card hknown
    omega
  have hins : (insert job (s.live k)).card ≤ (s.live k).card + 1 := Finset.card_insert_le _ _
  have hlive : ∀ {j n}, n ∈ (s.start cfg k job).live j → j = k ∧ n = job ∨ n ∈ s.live j :=
    mem_start_live.mp
  refine ⟨hl, fun j => ?_, ?_, ?_, fun m hm => ?_⟩
  · show ((s.start cfg k job).live j).card ≤ cfg.slots j
    rw [start_live]
    split
    · rename_i hj; subst hj; omega
    · exact h.slots j
  · have hinst := instances_lt_cores h.slots hcore hlt
    unfold Schedule.instances at hinst ⊢
    show ((s.start cfg k job).live .tc).card + ((s.start cfg k job).live .cs).card ≤ cfg.cores
    rw [start_live, start_live]
    cases k
    · show (insert job (s.live .tc)).card + (s.live .cs).card ≤ cfg.cores
      omega
    · show (s.live .tc).card + (insert job (s.live .cs)).card ≤ cfg.cores
      omega
  · exact (Finset.card_insert_le _ _).trans (Nat.add_le_add_right hcard 1)
  · rcases hlive hm with ⟨-, rfl⟩ | hm
    · exact .inl (Finset.mem_insert_self _ _)
    · exact .inl (Finset.mem_insert_of_mem (hknown hm))

theorem Bounded.ticks {os : Os Place} (h : Bounded cfg s) (hc : StartsSafely cfg s (.tick os))
    (ht : Ticks cfg s t) : Bounded cfg t := by
  have hl := h.toLive.ticks ht
  have hcounts := h.counts
  have hsame : ∀ k, s.live k ⊆ s.live k := fun k => Finset.Subset.refl _
  cases ht with
  | counted hp =>
    rw [hp] at hcounts
    refine h.of_subset hl hsame ⟨(Finset.card_insert_le _ _).trans (Nat.add_le_add_right hcounts.1 1),
      fun m hm => ?_⟩
    rcases hcounts.2 m hm with hk | ht | he
    · exact .inl (Finset.mem_insert_of_mem hk)
    · rcases List.mem_cons.mp ht with rfl | ht
      · exact .inl (Finset.mem_insert_self _ _)
      · exact .inr (.inl ht)
    · exact .inr (.inr he)
  | notCounted hp hno =>
    rw [hp] at hcounts
    refine h.of_subset hl hsame ⟨hcounts.1, fun m hm => ?_⟩
    rcases hcounts.2 m hm with hk | ht | he
    · exact .inl hk
    · rcases List.mem_cons.mp ht with rfl | ht
      · refine .inr (.inr (hno.resolve_left fun hnew => ?_))
        rw [h.started _ m hm] at hnew; cases hnew
      · exact .inr (.inl ht)
    · exact .inr (.inr he)
  | countEnds os hp hjobs =>
    rw [hp] at hcounts
    refine h.of_subset hl hsame ⟨hcounts.1, fun m hm => ?_⟩
    rcases hcounts.2 m hm with hk | ht | he
    · exact .inl hk
    · exact absurd ht List.not_mem_nil
    · exact .inr ⟨he, (mem_jobsOf hjobs).mpr (h.job _ m hm)⟩
  | passes hp hno =>
    rw [hp] at hcounts
    refine h.of_subset hl hsame ⟨hcounts.1, fun m hm => (hcounts.2 m hm).imp_right fun ⟨he, ht⟩ => ⟨he, ?_⟩⟩
    rcases List.mem_cons.mp ht with rfl | ht
    · rcases hno with hnew | hexp
      · rw [h.started _ m hm] at hnew; cases hnew
      · rw [hexp] at he; cases he
    · exact ht
  | kills hp =>
    rw [hp] at hcounts
    refine h.of_subset hl (fun k => by rw [terminate_live]; exact Finset.erase_subset _ _)
      ⟨hcounts.1, fun m hm => ?_⟩
    have hm' := hm
    rw [terminate_live, Finset.mem_erase] at hm'
    rw [terminate_timers, terminate_now]
    exact (hcounts.2 m hm'.2).imp_right fun ⟨he, ht⟩ => ⟨he, (List.mem_cons.mp ht).resolve_left hm'.1⟩
  | starts hp hnew hroom =>
    rw [StartsSafely, hp] at hc
    obtain ⟨hleft, hcore⟩ := hc hnew hroom
    exact h.start hp hroom hleft hcore hnew hl
  | crashSites os hp hjobs =>
    exact h.of_subset hl hsame ⟨Nat.zero_le _, fun m hm =>
      .inr (.inl ((mem_jobsOf hjobs).mpr (h.job _ m hm)))⟩
  | killAllKills hp =>
    exact h.of_subset hl (fun k => by rw [terminate_live]; exact Finset.erase_subset _ _) trivial
  | returns hp | killAllPasses hp _ | collects hp | clears hp => exact h.of_subset hl hsame trivial

theorem Bounded.step {a : Action} (h : Bounded cfg s) (hc : StartsSafely cfg s a)
    (ht : step cfg s a = some t) : Bounded cfg t := by
  have hl := h.toLive.step ht
  cases a with
  | resume os loc =>
    obtain ⟨-, tcs, css, htcs, -, rfl⟩ := resume_eq_some ht
    exact h.of_subset hl (fun k => Finset.Subset.refl _) ⟨Nat.zero_le _, fun m hm =>
      .inr (.inl ((mem_jobsOf htcs).mpr (hl.job _ m hm)))⟩
  | finish os =>
    obtain ⟨-, ht⟩ := Option.ite_none_right_eq_some.mp ht
    cases ht
    exact h.of_subset hl (fun k => Finset.Subset.refl _) trivial
  | tick os => exact h.ticks hc (ticks_of_tick ht)
  | wait dt =>
    cases ht
    exact h.of_subset hl (fun k => Finset.Subset.refl _)
      (h.counts.wait (le_add_of_nonneg_right dt.2))
  | queue job =>
    obtain ⟨-, ht⟩ := Option.ite_none_right_eq_some.mp ht
    cases ht
    exact h.of_subset hl (fun k => Finset.Subset.refl _) h.counts

/-- In every state of a run that starts its instances safely, no more run
than there are cores. -/
theorem instances_le_cores (cfg : Config) (loc : Dir) (now : {q : ℚ // 0 < q}) {as : List Action}
    (hc : Along (step cfg) (StartsSafely cfg) (init loc now) as)
    (h : exec (step cfg) (init loc now) as = some s) : s.instances ≤ cfg.cores :=
  (exec_inv_along (step cfg) (fun hs hc ht => hs.step hc ht) (bounded_init loc now) hc h).cores

/-! ## Runs -/

/-- The first testcase, and a crash site of it. -/
def testcaseAndSite : Dir := [⟨tc1.testcase, [1]⟩, ⟨site1, [2]⟩].toFinmap

/-- One call of `resume`, up to the start of the second instance. -/
def startBoth : List Action :=
  let os := Os.sorted Place 0
  .resume os testcaseAndSite :: List.replicate 7 (.tick os)

/-- Two cores, one for each kind. -/
theorem instances_two_cores : ∃ s, exec (step ⟨2, by decide, true, none, 60⟩)
    (init testcaseAndSite ⟨100, by decide⟩) startBoth = some s ∧ s.instances ≤ 2 := by
  have hsome : (exec (step ⟨2, by decide, true, none, 60⟩) (init testcaseAndSite ⟨100, by decide⟩)
    startBoth).isSome = true := by decide +kernel
  obtain ⟨s, h⟩ := Option.isSome_iff_exists.mp hsome
  exact ⟨s, h, instances_le_cores _ _ _ (by decide +kernel) h⟩

/-- A second more than the timer of a job. -/
def expiry : ℚ≥0 := 61

/-- A testcase runs on the one core, its timer expires, and then comes a
testcase that is listed before it. -/
def startFirst : List Action :=
  let os := Os.sorted Place 0
  let second : Dir := [⟨tc2.testcase, [2]⟩].toFinmap
  let both : Dir := [⟨tc1.testcase, [1]⟩, ⟨tc2.testcase, [2]⟩].toFinmap
  .resume os second :: List.replicate 4 (.tick os) ++ .wait expiry :: .resume os both ::
    List.replicate 4 (.tick os)

/-- One core with failure injection takes one instance of each kind, and one
core without takes two testcases. -/
theorem cores_exceeded :
    (∃ s, exec (step ⟨1, by decide, true, none, 60⟩) (init testcaseAndSite ⟨100, by decide⟩)
      startBoth = some s ∧ s.instances = 2) ∧
    ∃ s, exec (step ⟨1, by decide, false, none, 60⟩) (init ∅ ⟨100, by decide⟩) startFirst = some s ∧
      s.instances = 2 := by
  have hboth : (exec (step ⟨1, by decide, true, none, 60⟩) (init testcaseAndSite ⟨100, by decide⟩)
    startBoth).map Schedule.instances = some 2 := by decide +kernel
  have hfirst : (exec (step ⟨1, by decide, false, none, 60⟩) (init ∅ ⟨100, by decide⟩)
    startFirst).map Schedule.instances = some 2 := by decide +kernel
  exact ⟨Option.map_eq_some_iff.mp hboth, Option.map_eq_some_iff.mp hfirst⟩

end PMFuzz.Stage2
