import PMFuzz.Driver.Model
import Mathlib.Data.List.Chain
import Mathlib.Data.Prod.Lex

/-!
# Progress

What `State.sync` reads in a run of `run_pmfuzz` that is interrupted and
started again.

* `sync_of_at`: from a result directory of a position (`At`), it reads the
  position;
* `Here`, `Gap`: what holds at each point of the program, and the rules that
  carry it through `makedirs` and `work`;
* `turn_ok`, `runPmfuzz_ok`: the program has it;
* `progress_kept`: the readings follow the transitions, in every run that is
  not interrupted between the removal of a stage directory and the making of
  the next;
* `progress_lost`: a run that is.
-/

namespace PMFuzz.Driver

open Names Interrupt Run

def StateInf.position (state : StateInf) : ℕ × ℕ := (state.stage, state.iterId)

/-- The transitions of the state machine. -/
inductive Advance : ℕ × ℕ → ℕ × ℕ → Prop
  | stage1 : Advance (0, 0) (1, 1)
  | stage2 : Advance (1, 1) (2, 1)
  | iteration (k : ℕ) : Advance (2, k) (2, k + 1)

/-- A reading and the one before it. -/
def Follows (new old : ℕ × ℕ) : Prop := new = old ∨ Advance old new

/-- The stage directories that go with a position. -/
def stageDirs : ℕ × ℕ → List (ℕ × ℕ)
  | (0, _) => []
  | (1, _) => [(1, 1)]
  | (s, i) => [(1, 1), (s, i)]

/-- A result directory that is at a position. -/
structure At (files : Finset Path) (r : ℕ × ℕ) : Prop where
  position : r = (0, 0) ∨ r = (1, 1) ∨ ∃ k, r = (2, k + 1)
  named : ∀ n, [n] ∈ files → n.head? = some '@' ∨ ∃ d ∈ stageDirs r, n = stageDir d.1 d.2
  there : ∀ d ∈ stageDirs r, [stageDir d.1 d.2] ∈ files

/-- The process has removed a stage directory, and has made none since. -/
def cleared (done : List FsOp) : Bool :=
  match done.find? fun o => !o.inside with
  | some (.remove _) => true
  | _ => false

variable {os : Listing} {w w' : Outdir} {l : List StateInf} {r r' seen : ℕ × ℕ} {k : ℕ} {n dir : Str}
  {files files' : Finset Path} {o : FsOp} {p : Path} {done : List FsOp}

/-! ## `sync` -/

theorem mem_entries : n ∈ entries files ↔ [n] ∈ files := by
  unfold entries
  rw [Finset.mem_image]
  constructor
  · rintro ⟨p, hp, rfl⟩
    obtain ⟨hp, hlen⟩ := Finset.mem_filter.mp hp
    obtain ⟨m, rfl⟩ := List.length_eq_one_iff.mp hlen
    exact hp
  · exact fun h => ⟨[n], Finset.mem_filter.mpr ⟨h, rfl⟩, rfl⟩

/-- A special entry changes no position. -/
theorem syncRound_special (state : StateInf) (h : n.head? = some '@') :
    ∃ state', syncRound state n = .ok state' ∧ state'.position = state.position := by
  obtain ⟨rest, rfl⟩ : ∃ rest, n = '@' :: rest := by
    cases n with
    | nil => cases h
    | cons c rest => cases h; exact ⟨rest, rfl⟩
  refine ⟨_, rfl, ?_⟩
  split <;> rfl

/-- A stage directory's numbers are compared with the largest until then. -/
theorem syncRound_stageDir (state : StateInf) (d : ℕ × ℕ) :
    ∃ state', syncRound state (stageDir d.1 d.2) = .ok state' ∧
      toLex state.position ≤ toLex state'.position ∧ toLex d ≤ toLex state'.position ∧
      (state'.position = state.position ∨ state'.position = d) := by
  obtain ⟨rest, hrest⟩ : ∃ rest, stageDir d.1 d.2 = 's' :: rest := ⟨_, rfl⟩
  have hround : syncRound state (stageDir d.1 d.2) =
      .ok (if state.stage < d.1 then { state with stage := d.1, iterId := d.2 }
        else if d.1 = state.stage ∧ state.iterId < d.2 then { state with iterId := d.2 } else state) := by
    rw [hrest]
    unfold syncRound
    rw [← hrest, getStageInf_stageDir]
    rfl
  refine ⟨_, hround, ?_⟩
  simp only [Prod.Lex.toLex_le_toLex, Prod.ext_iff, StateInf.position]
  by_cases hlt : state.stage < d.1
  · rw [if_pos hlt]
    exact ⟨.inl hlt, .inr ⟨rfl, le_refl _⟩, .inr ⟨rfl, rfl⟩⟩
  · rw [if_neg hlt]
    by_cases heq : d.1 = state.stage ∧ state.iterId < d.2
    · rw [if_pos heq]
      exact ⟨.inr ⟨rfl, heq.2.le⟩, .inr ⟨heq.1, le_refl _⟩, .inr ⟨heq.1.symm, rfl⟩⟩
    · rw [if_neg heq]
      refine ⟨.inr ⟨rfl, le_refl _⟩, ?_, .inl ⟨rfl, rfl⟩⟩
      show d.1 < state.stage ∨ d.1 = state.stage ∧ d.2 ≤ state.iterId
      omega

/-- The loop of `sync` finds the largest position, in any order. -/
theorem syncLoop_ok {names : List Str} {ds : List (ℕ × ℕ)}
    (hnames : ∀ n ∈ names, n.head? = some '@' ∨ ∃ d ∈ ds, n = stageDir d.1 d.2) (state : StateInf) :
    ∃ state', names.foldlM syncRound state = .ok state' ∧
      toLex state.position ≤ toLex state'.position ∧
      (∀ d ∈ ds, stageDir d.1 d.2 ∈ names → toLex d ≤ toLex state'.position) ∧
      (state'.position = state.position ∨ state'.position ∈ ds) := by
  induction names generalizing state with
  | nil => exact ⟨state, rfl, le_refl _, fun d _ hd => absurd hd List.not_mem_nil, .inl rfl⟩
  | cons n names ih =>
    obtain ⟨hn, hrest⟩ := List.forall_mem_cons.mp hnames
    rcases hn with hn | ⟨d, hd, rfl⟩
    · obtain ⟨u, hu, hpos⟩ := syncRound_special state hn
      obtain ⟨v, hv, hle, hall, hfrom⟩ := ih hrest u
      rw [hpos] at hle hfrom
      refine ⟨v, Fold.foldlM_cons_eq_ok.mpr ⟨u, hu, hv⟩, hle, fun e he hin => ?_, hfrom⟩
      rcases List.mem_cons.mp hin with rfl | hin
      · cases hn
      · exact hall e he hin
    · obtain ⟨u, hu, hstate, hd', hpos⟩ := syncRound_stageDir state d
      obtain ⟨v, hv, hle, hall, hfrom⟩ := ih hrest u
      refine ⟨v, Fold.foldlM_cons_eq_ok.mpr ⟨u, hu, hv⟩, hstate.trans hle, fun e he hin => ?_, ?_⟩
      · rcases List.mem_cons.mp hin with heq | hin
        · obtain ⟨h₁, h₂⟩ := stageDir_inj heq
          exact (Prod.ext h₁ h₂ : e = d) ▸ hd'.trans hle
        · exact hall e he hin
      · rcases hfrom with hfrom | hfrom
        · rcases hpos with hpos | hpos
          · exact .inl (hfrom.trans hpos)
          · exact .inr (hfrom.trans hpos ▸ hd)
        · exact .inr hfrom

/-- `sync` reads the position that the result directory is at. -/
theorem sync_of_at (os : Listing) (h : At files r) :
    ∃ state, sync os files = .ok state ∧ state.position = r := by
  have hmem : ∀ {n}, n ∈ os.listdir (entries files) ↔ [n] ∈ files :=
    os.mem_listdir.trans mem_entries
  obtain ⟨state, hsync, -, hall, hfrom⟩ :=
    syncLoop_ok (fun n hn => h.named n (hmem.mp hn)) ⟨0, 0, false⟩
  refine ⟨state, hsync, ?_⟩
  have hle : ∀ d ∈ stageDirs r, toLex d ≤ toLex state.position := fun d hd =>
    hall d hd (hmem.mpr (h.there d hd))
  have hmax : ∀ {d : ℕ × ℕ}, toLex d ≤ toLex state.position →
      d.1 < state.position.1 ∨ d.1 = state.position.1 ∧ d.2 ≤ state.position.2 :=
    Prod.Lex.toLex_le_toLex.mp
  rcases h.position with rfl | rfl | ⟨k, rfl⟩
  · exact hfrom.resolve_right List.not_mem_nil
  · have := hmax (hle (1, 1) (by simp [stageDirs]))
    rcases hfrom with hfrom | hfrom
    · rw [hfrom] at this
      exact absurd this (by simp [StateInf.position])
    · exact List.mem_singleton.mp hfrom
  · have := hmax (hle (2, k + 1) (by simp [stageDirs]))
    simp only [stageDirs, List.mem_cons, List.not_mem_nil, or_false] at hfrom
    rcases hfrom with hfrom | hfrom | hfrom
    · rw [hfrom] at this
      exact absurd this (by simp [StateInf.position])
    · rw [hfrom] at this
      exact absurd this (by simp)
    · exact hfrom

/-! ## Operations -/

theorem mem_files_of_apply (h : o.apply w = some w') {q : Path} (hq : q ≠ o.path) :
    q ∈ w'.files ↔ q ∈ w.files := by
  cases o <;> obtain ⟨-, h⟩ := Option.ite_none_right_eq_some.mp h <;> cases h
  · exact Finset.mem_insert.trans (or_iff_right hq)
  · exact Finset.mem_insert.trans (or_iff_right hq)
  · exact Finset.mem_erase.trans (and_iff_right hq)

theorem done_of_apply (h : o.apply w = some w') : w'.done = o :: w.done := by
  cases o <;> obtain ⟨-, h⟩ := Option.ite_none_right_eq_some.mp h <;> cases h <;> rfl

/-- An operation inside changes no entry but special ones. -/
theorem path_ne_of_inside (ho : o.inside = true) (hn : n.head? ≠ some '@') : [n] ≠ o.path := by
  unfold FsOp.inside at ho
  rintro heq
  rw [← heq] at ho
  exact hn (of_decide_eq_true ho)

theorem cleared_inside (ho : o.inside = true) : cleared (o :: done) = cleared done := by
  rw [cleared, List.find?_cons_of_neg (by rw [ho]; decide), cleared]

theorem inside_mkdir (hn : n.head? ≠ some '@') : (FsOp.mkdir [n]).inside = false :=
  decide_eq_false hn

theorem inside_remove (hn : n.head? ≠ some '@') : (FsOp.remove [n]).inside = false :=
  decide_eq_false hn

theorem cleared_mkdir (hn : n.head? ≠ some '@') : cleared (.mkdir [n] :: done) = false := by
  rw [cleared, List.find?_cons_of_pos (by rw [inside_mkdir hn]; rfl)]

theorem cleared_remove (hn : n.head? ≠ some '@') : cleared (.remove [n] :: done) = true := by
  rw [cleared, List.find?_cons_of_pos (by rw [inside_remove hn]; rfl)]

theorem head?_stageDir_ne {s i : ℕ} : (stageDir s i).head? ≠ some '@' := by
  rw [head?_stageDir]
  decide

/-- The position depends on the stage directories alone. -/
theorem At.congr (h : At files r) (hsame : ∀ n, n.head? ≠ some '@' → ([n] ∈ files' ↔ [n] ∈ files)) :
    At files' r where
  position := h.position
  named n hn := by
    by_cases hhead : n.head? = some '@'
    · exact .inl hhead
    · exact h.named n ((hsame n hhead).mp hn)
  there d hd := (hsame _ head?_stageDir_ne).mpr (h.there d hd)

theorem At.inside (h : At w.files r) (ho : o.inside = true) (happly : o.apply w = some w') :
    At w'.files r :=
  h.congr fun _ hn => mem_files_of_apply happly (path_ne_of_inside ho hn)

/-- Making the next directory advances the position. -/
theorem At.mkdir (h : At w.files r) (hnext : r = (0, 0) ∧ r' = (1, 1) ∨ r = (1, 1) ∧ ∃ k, r' = (2, k + 1))
    (happly : (FsOp.mkdir [stageDir r'.1 r'.2]).apply w = some w') : At w'.files r' := by
  obtain ⟨-, heq⟩ := Option.ite_none_right_eq_some.mp happly
  cases heq
  have hmem : ∀ {q : Path}, q ∈ insert [stageDir r'.1 r'.2] w.files ↔
      q = [stageDir r'.1 r'.2] ∨ q ∈ w.files := Finset.mem_insert
  have hdirs : ∀ d, d ∈ stageDirs r' ↔ d = r' ∨ d ∈ stageDirs r := by
    rcases hnext with ⟨rfl, rfl⟩ | ⟨rfl, k, rfl⟩ <;> intro d <;> simp [stageDirs, or_comm]
  refine ⟨?_, fun n hn => ?_, fun d hd => ?_⟩
  · rcases hnext with ⟨-, rfl⟩ | ⟨-, k, rfl⟩
    · exact .inr (.inl rfl)
    · exact .inr (.inr ⟨k, rfl⟩)
  · rcases hmem.mp hn with heq | hn
    · exact .inr ⟨r', (hdirs r').mpr (.inl rfl), (List.cons.inj heq).1⟩
    · exact (h.named n hn).imp_right fun ⟨d, hd, heq⟩ => ⟨d, (hdirs d).mpr (.inr hd), heq⟩
  · rcases (hdirs d).mp hd with rfl | hd
    · exact hmem.mpr (.inl rfl)
    · exact hmem.mpr (.inr (h.there d hd))

/-- Removing an iteration's directory leaves that of the first stage. -/
theorem At.remove (h : At w.files (2, k + 1))
    (happly : (FsOp.remove [stageDir 2 (k + 1)]).apply w = some w') : At w'.files (1, 1) := by
  have hsame : ∀ {n : Str}, n ≠ stageDir 2 (k + 1) → ([n] ∈ w'.files ↔ [n] ∈ w.files) := fun hn =>
    mem_files_of_apply happly fun heq => hn (List.cons.inj heq).1
  have hgone : [stageDir 2 (k + 1)] ∉ w'.files := by
    obtain ⟨-, heq⟩ := Option.ite_none_right_eq_some.mp happly
    cases heq
    exact Finset.notMem_erase _ _
  have hdirs : ∀ d, d ∈ stageDirs (2, k + 1) ↔ d ∈ stageDirs (1, 1) ∨ d = (2, k + 1) := by
    simp [stageDirs]
  refine ⟨.inr (.inl rfl), fun n hn => ?_, fun d hd => ?_⟩
  · have hne : n ≠ stageDir 2 (k + 1) := fun heq => hgone (heq ▸ hn)
    refine (h.named n ((hsame hne).mp hn)).imp_right fun ⟨d, hd, heq⟩ => ⟨d, ?_, heq⟩
    refine ((hdirs d).mp hd).resolve_right fun hd => hne ?_
    rw [heq, hd]
  · have hne : stageDir d.1 d.2 ≠ stageDir 2 (k + 1) := fun heq => by
      cases List.mem_singleton.mp hd
      exact absurd (stageDir_inj heq).1 (by decide)
    exact (hsame hne).mpr (h.there d ((hdirs d).mpr (.inl hd)))

/-! ## Points of the program -/

/-- The readings follow each other. -/
def Chained (l : List StateInf) : Prop := (l.map StateInf.position).IsChain Follows

/-- Between two turns. -/
def Settled (w : Outdir) (l : List StateInf) : Prop :=
  cleared w.done = false ∧ ∃ r, At w.files r ∧ ((r :: l.map StateInf.position).IsChain Follows)

/-- Wherever the program may be interrupted. -/
def Recorded (w : Outdir) (l : List StateInf) : Prop :=
  Chained l ∧ (cleared w.done = false → Settled w l)

/-- In a turn that read `seen`, the result directory is at `r`. -/
structure Here (seen r : ℕ × ℕ) (w : Outdir) (l : List StateInf) : Prop where
  here : At w.files r
  made : cleared w.done = false
  chained : Chained l
  last : (l.map StateInf.position).head? = some seen
  follows : Follows r seen

/-- In a turn that read `(2, k + 1)`, the directory of the iteration is
removed, and that of the next is not made yet. -/
structure Gap (k : ℕ) (w : Outdir) (l : List StateInf) : Prop where
  here : At w.files (1, 1)
  removed : cleared w.done = true
  chained : Chained l
  last : (l.map StateInf.position).head? = some (2, k + 1)

/-- The assertion holds where the program may be interrupted, and operations
inside keep it. -/
structure Stable (J : Outdir → List StateInf → Prop) : Prop where
  recorded : ∀ {w l}, J w l → Recorded w l
  inside : ∀ {o : FsOp} {w w' l}, o.inside = true → J w l → o.apply w = some w' → J w' l

theorem settled_stable : Stable Settled where
  recorded {_ l} h := by
    obtain ⟨hcl, r, hat, hchain⟩ := h
    exact ⟨hchain.tail, fun _ => ⟨hcl, r, hat, hchain⟩⟩
  inside ho h happly := by
    obtain ⟨hcl, r, hat, hchain⟩ := h
    refine ⟨?_, r, hat.inside ho happly, hchain⟩
    rw [done_of_apply happly, cleared_inside ho, hcl]

theorem Here.settled (h : Here seen r w l) : Settled w l :=
  ⟨h.made, r, h.here, List.isChain_cons.mpr ⟨fun y hy => by
    rw [h.last] at hy
    cases hy
    exact h.follows, h.chained⟩⟩

theorem here_stable : Stable (Here seen r) where
  recorded h := settled_stable.recorded h.settled
  inside ho h happly := by
    refine ⟨h.here.inside ho happly, ?_, h.chained, h.last, h.follows⟩
    rw [done_of_apply happly, cleared_inside ho, h.made]

theorem gap_stable : Stable (Gap k) where
  recorded h := ⟨h.chained, fun hcl => by
    rw [h.removed] at hcl
    cases hcl⟩
  inside ho h happly := by
    refine ⟨h.here.inside ho happly, ?_, h.chained, h.last⟩
    rw [done_of_apply happly, cleared_inside ho, h.removed]

/-! ## Rules -/

/-- The program may be interrupted at every point, and returns with `Q`. -/
abbrev Ensures {α : Type} (os : Listing) (Q : α → Outdir → List StateInf → Prop) (c : Cmd α)
    (w : Outdir) (l : List StateInf) : Prop := wp (system os).toStore Recorded Q c w l

variable {J J' : Outdir → List StateInf → Prop} {Q : Outdir → List StateInf → Prop} {α : Type}

theorem ensures_busy (hJ : Stable J) {allowed : FsOp → Bool}
    (hin : ∀ o, allowed o = true → o.inside = true) (h : J w l) :
    Ensures os (fun _ => J) (Prog.busy allowed) w l :=
  wp_busy (I := fun w => J w l) h (fun o _ _ ho h happly => hJ.inside (hin o ho) h happly)
    fun _ h => ⟨hJ.recorded h, h⟩

theorem ensures_work (hJ : Stable J) (h : J w l) : Ensures os (fun _ => J) work w l :=
  ensures_busy hJ (fun _ => id) h

/-- Directories inside, and such that are there. -/
theorem ensures_mkdirs (hJ : Stable J) {qs : List Path}
    (hqs : ∀ q ∈ qs, (FsOp.mkdir q).inside = true ∨ ∀ w l, J w l → q ∈ w.files) (h : J w l) :
    Ensures os (fun _ => J) (qs.forM mkdir) w l := by
  induction qs generalizing w l with
  | nil => exact h
  | cons q qs ih =>
    obtain ⟨hq, hqs⟩ := List.forall_mem_cons.mp hqs
    refine wp_bind (wp_bind (wp_perform (hJ.recorded h) (fun w' happly => ?_) fun _ => ih hqs h))
    rcases hq with hq | hq
    · exact ih hqs (hJ.inside hq h happly)
    · obtain ⟨hnew, -⟩ := Option.ite_none_right_eq_some.mp happly
      exact absurd (hq w l h) hnew.2.1

theorem makedirs_cons (dir : Str) (rest : Path) : makedirs (dir :: rest) =
    ([dir] :: rest.inits.tail.map (dir :: ·)).forM mkdir := by
  cases rest <;> rfl

/-- The directories on the way are below the first. -/
theorem inside_below {rest : Path} {q : Path} (hq : q ∈ rest.inits.tail.map (dir :: ·)) :
    (FsOp.mkdir q).inside = true := by
  obtain ⟨x, hx, rfl⟩ := List.mem_map.mp hq
  cases x with
  | nil => exact absurd hx (by cases rest <;> simp)
  | cons => rfl

/-- The first of the directories is special or there. -/
theorem ensures_makedirs (hJ : Stable J) {rest : Path}
    (hdir : dir.head? = some '@' ∨ ∀ w l, J w l → [dir] ∈ w.files) (h : J w l) :
    Ensures os (fun _ => J) (makedirs (dir :: rest)) w l := by
  rw [makedirs_cons]
  refine ensures_mkdirs hJ (fun q hq => ?_) h
  rcases List.mem_cons.mp hq with rfl | hq
  · exact hdir.imp_left fun hdir => decide_eq_true hdir
  · exact .inl (inside_below hq)

/-- The first of the directories is made. -/
theorem ensures_makedirs_new (hJ : Stable J) (hJ' : Stable J') {rest : Path} (hnot : [dir] ∉ w.files)
    (hnew : ∀ w', (FsOp.mkdir [dir]).apply w = some w' → J' w' l) (h : J w l) :
    Ensures os (fun _ => J') (makedirs (dir :: rest)) w l := by
  rw [makedirs_cons]
  refine wp_bind (wp_bind (wp_perform (hJ.recorded h) (fun w' happly => ?_) fun hfail => ?_))
  · exact ensures_mkdirs hJ' (fun q hq => .inl (inside_below hq)) (hnew w' happly)
  · have hcan : CanMake w.files [dir] := ⟨List.cons_ne_nil _ _, hnot, .inl rfl⟩
    cases (if_pos hcan : (FsOp.mkdir [dir]).apply w = some _).symm.trans hfail

theorem ensures_seq {c : Cmd Unit} {d : Unit → Cmd α} {R : α → Outdir → List StateInf → Prop}
    (hc : Ensures os (fun _ => J) c w l) (hd : ∀ w l, J w l → Ensures os R (d ()) w l) :
    Ensures os R (c >>= d) w l :=
  wp_bind (wp_mono (fun _ w l => hd w l) hc)

/-- The name of an iteration's directory. -/
theorem ensures_outdirName {s i : ℕ} (hs : 1 ≤ s) (hi : 1 ≤ i) {f : Str → Cmd α}
    {R : α → Outdir → List StateInf → Prop} (h : Ensures os R (f (stageDir s i)) w l) :
    Ensures os R (Prog.lift (getOutdirName s i) >>= f) w l := by
  rw [getOutdirName_of_pos hs hi]
  exact h

/-- `sync` reads the position. -/
theorem ensures_look (h : Settled w l) {R : StateInf → Outdir → List StateInf → Prop}
    (hR : ∀ state r, state.position = r → Here r r w (state :: l) → R state w (state :: l)) :
    Ensures os R Prog.look w l := by
  refine wp_look (settled_stable.recorded h) fun state hobs => ?_
  obtain ⟨hcl, r, hat, hchain⟩ := h
  obtain ⟨state', hsync, hpos⟩ := sync_of_at os hat
  cases hsync.symm.trans (Fold.toOption_eq_some.mp hobs)
  refine hR state r hpos ⟨hat, hcl, ?_, ?_, .inl rfl⟩
  · show List.IsChain Follows (state.position :: l.map StateInf.position)
    rw [hpos]
    exact hchain
  · show some state.position = some r
    rw [hpos]

/-! ## Stages -/

theorem stage1Init_ok (hJ : Stable J) (hthere : ∀ w l, J w l → [stageDir 1 1] ∈ w.files)
    (h : Ensures os (fun _ => J) (makedirs [stageDir 1 1, ".afl-results".toList]) w l) :
    Ensures os (fun _ => J) stage1Init w l := by
  refine ensures_outdirName (le_refl 1) (le_refl 1) (ensures_seq h fun w l h => ?_)
  refine ensures_seq (ensures_makedirs hJ (.inr hthere) h) fun w l h => ?_
  refine ensures_seq (ensures_makedirs hJ (.inr hthere) h) fun w l h => ?_
  refine ensures_seq (ensures_makedirs hJ (.inr hthere) h) fun w l h => ?_
  exact ensures_makedirs hJ (.inr hthere) h

theorem dedupInit_ok (hJ : Stable J) (hJ' : Stable J') {s i : ℕ} (hs : 1 ≤ s) (hi : 1 ≤ i)
    (hthere : ∀ w l, J' w l → [stageDir s i] ∈ w.files)
    (hnext : ∀ w l, J w l → Ensures os (fun _ => J') (makedirs [stageDir s i, "@dedup_sync".toList]) w l)
    (h : J w l) : Ensures os (fun _ => J') (dedupInit s i) w l := by
  refine ensures_outdirName hs hi (ensures_seq (ensures_makedirs hJ (.inl rfl) h) fun w l h => ?_)
  refine ensures_seq (hnext w l h) fun w l h => ?_
  refine ensures_seq (ensures_makedirs hJ' (.inr hthere) h) fun w l h => ?_
  refine ensures_seq (ensures_makedirs hJ' (.inl rfl) h) fun w l h => ?_
  exact ensures_makedirs hJ' (.inr hthere) h

theorem stage2Init_ok (hJ : Stable J) (hJ' : Stable J') {s i : ℕ} (hs : 1 ≤ s) (hi : 1 ≤ i)
    (hthere : ∀ w l, J' w l → [stageDir s i] ∈ w.files)
    (hnext : ∀ w l, J w l → Ensures os (fun _ => J') (makedirs [stageDir s i, "@dedup_sync".toList]) w l)
    (h : J w l) : Ensures os (fun _ => J') (stage2Init s i) w l := by
  refine ensures_outdirName hs hi (ensures_seq (dedupInit_ok hJ hJ' hs hi hthere hnext h) fun w l h => ?_)
  exact ensures_makedirs hJ' (.inr hthere) h

/-- The directory of an iteration that is there stays. -/
theorem dedupInit_stable (hJ : Stable J) {s i : ℕ} (hs : 1 ≤ s) (hi : 1 ≤ i)
    (hthere : ∀ w l, J w l → [stageDir s i] ∈ w.files) (h : J w l) :
    Ensures os (fun _ => J) (dedupInit s i) w l :=
  dedupInit_ok hJ hJ hs hi hthere (fun _ _ h => ensures_makedirs hJ (.inr hthere) h) h

theorem runDedup_stable (hJ : Stable J) {s i : ℕ} (hs : 1 ≤ s) (hi : 1 ≤ i)
    (hthere : ∀ w l, J w l → [stageDir s i] ∈ w.files) (h : J w l) :
    Ensures os (fun _ => J) (runDedup s i) w l :=
  ensures_seq (dedupInit_stable hJ hs hi hthere h) fun _ _ h => ensures_work hJ h

/-- The first stage's directory is there after it. -/
theorem Here.stage1 (h : Here seen r w l) (hr : r ≠ (0, 0)) : [stageDir 1 1] ∈ w.files := by
  refine h.here.there (1, 1) ?_
  rcases h.here.position with rfl | rfl | ⟨k, rfl⟩
  · exact absurd rfl hr
  · exact List.mem_singleton.mpr rfl
  · exact List.mem_cons_self

theorem collectStage1_ok (hr : r ≠ (0, 0)) (disableStage2 : Bool) (h : Here seen r w l) :
    Ensures os (fun _ => Here seen r) (collectStage1 disableStage2) w l := by
  have hJ : Stable (Here seen r) := here_stable
  have hthere : ∀ w l, Here seen r w l → [stageDir 1 1] ∈ w.files := fun _ _ h => h.stage1 hr
  refine ensures_seq (stage1Init_ok hJ hthere (ensures_makedirs hJ (.inr hthere) h)) fun w l h => ?_
  refine ensures_seq (runDedup_stable hJ (le_refl 1) (le_refl 1) hthere h) fun w l h => ?_
  refine ensures_seq (ensures_work hJ h) fun w l h => ?_
  refine ensures_seq (dedupInit_stable hJ (le_refl 1) (le_refl 1) hthere h) fun w l h => ?_
  refine ensures_seq (ensures_work hJ h) fun w l h => ?_
  cases disableStage2
  · exact h
  · exact ensures_work hJ h

/-- A directory that is not there leads to the next position. -/
theorem Here.advance (h : Here r r w l) (hr : r = (0, 0) ∧ r' = (1, 1) ∨ r = (1, 1) ∧ r' = (2, 1))
    {rest : Path} : Ensures os (fun _ => Here r r') (makedirs (stageDir r'.1 r'.2 :: rest)) w l := by
  refine ensures_makedirs_new here_stable here_stable (fun hin => ?_) (fun w' happly => ?_) h
  · rcases h.here.named _ hin with hhead | ⟨d, hd, heq⟩
    · exact head?_stageDir_ne hhead
    · obtain ⟨h₁, h₂⟩ := stageDir_inj heq
      rcases hr with ⟨rfl, rfl⟩ | ⟨rfl, rfl⟩
      · exact absurd hd List.not_mem_nil
      · cases List.mem_singleton.mp hd
        exact absurd h₁ (by decide)
  · have hnext : r = (0, 0) ∧ r' = (1, 1) ∨ r = (1, 1) ∧ ∃ k, r' = (2, k + 1) :=
      hr.imp_right fun hr => ⟨hr.1, 0, hr.2⟩
    refine ⟨h.here.mkdir hnext happly, ?_, h.chained, h.last, .inr ?_⟩
    · rw [done_of_apply happly, cleared_mkdir head?_stageDir_ne]
    · rcases hr with ⟨rfl, rfl⟩ | ⟨rfl, rfl⟩
      · exact .stage1
      · exact .stage2

/-- Making the next iteration's directory ends the gap. -/
theorem Gap.advance (h : Gap k w l) {rest : Path} :
    Ensures os (fun _ => Here (2, k + 1) (2, k + 2)) (makedirs (stageDir 2 (k + 2) :: rest)) w l := by
  refine ensures_makedirs_new gap_stable here_stable (fun hin => ?_) (fun w' happly => ?_) h
  · rcases h.here.named _ hin with hhead | ⟨d, hd, heq⟩
    · exact head?_stageDir_ne hhead
    · cases List.mem_singleton.mp hd
      exact absurd (stageDir_inj heq).1 (by decide)
  · have hat := @At.mkdir _ _ _ (2, k + 2) h.here (.inr ⟨rfl, k + 1, rfl⟩) happly
    refine ⟨hat, ?_, h.chained, h.last, .inr (.iteration (k + 1))⟩
    rw [done_of_apply happly, cleared_mkdir head?_stageDir_ne]

/-- `clear` opens it. -/
theorem clear_ok (h : Here (2, k + 1) (2, k + 1) w l) :
    Ensures os (fun _ => Gap k) (clear 2 (k + 1)) w l := by
  have hJ : Stable (Here (2, k + 1) (2, k + 1)) := here_stable
  have hbelow : ∀ o, FsOp.removesBelow (stageDir 2 (k + 1)) o = true → o.inside = true := by
    intro o ho
    match o, ho with
    | .remove (d :: _ :: _), _ => rfl
  refine ensures_outdirName (by decide) (by omega) (ensures_seq (ensures_busy hJ hbelow h) fun w l h => ?_)
  refine wp_bind (wp_perform (hJ.recorded h) (fun w' happly => ?_) fun _ => hJ.recorded h)
  have hremoved : (FsOp.remove [stageDir 2 (k + 1)]).apply w = some w' := happly
  refine ⟨h.here.remove hremoved, ?_, h.chained, h.last⟩
  rw [done_of_apply hremoved, cleared_remove head?_stageDir_ne]

/-! ## `run_pmfuzz` -/

theorem runStage2_ok (h : Settled w l) : Ensures os (fun _ => Settled) runStage2 w l := by
  refine wp_bind (ensures_look h fun state r hpos h => ?_)
  have hsettled : ∀ {seen r} w l, Here seen r w l → Settled w l := fun _ _ h => h.settled
  obtain ⟨stage, iterId, dedupExists⟩ := state
  rcases h.here.position with rfl | rfl | ⟨k, rfl⟩ <;> cases hpos
  · -- no stage: `get_outdir_name` aborts
    exact settled_stable.recorded h.settled
  · have hthere : ∀ w l, Here (1, 1) (2, 1) w l → [stageDir 2 1] ∈ w.files := fun w l h =>
      h.here.there (2, 1) (by simp [stageDirs])
    show Ensures os _ (stage2Init 2 1 >>= fun _ => work) w _
    refine ensures_seq (stage2Init_ok here_stable here_stable (by decide) (by decide) hthere
      (fun w l h => h.advance (.inr ⟨rfl, rfl⟩)) h) fun w l h => ?_
    exact wp_mono (fun _ => hsettled) (ensures_work here_stable h)
  · have hJ : Stable (Here (2, k + 1) (2, k + 1)) := here_stable
    have hthere : ∀ w l, Here (2, k + 1) (2, k + 1) w l → [stageDir 2 (k + 1)] ∈ w.files := fun w l h =>
      h.here.there (2, k + 1) (by simp [stageDirs])
    have hnext : ∀ w l, Here (2, k + 1) (2, k + 2) w l → [stageDir 2 (k + 2)] ∈ w.files := fun w l h =>
      h.here.there (2, k + 2) (by simp [stageDirs])
    have htwo : 1 ≤ 2 := by decide
    have hpos : 1 ≤ k + 1 := by omega
    refine ensures_seq (stage2Init_ok hJ hJ htwo hpos hthere
      (fun w l h => ensures_makedirs hJ (.inr hthere) h) h) fun w l h => ?_
    refine ensures_seq (ensures_work hJ h) fun w l h => ?_
    refine wp_bind (wp_ask (hJ.recorded h) fun completed => ?_)
    cases completed
    · exact wp_mono (fun _ => hsettled) (ensures_work hJ h)
    · refine ensures_seq (ensures_work hJ h) fun w l h => ?_
      refine ensures_seq (runDedup_stable hJ htwo hpos hthere h) fun w l h => ?_
      refine ensures_seq (clear_ok h) fun w l h => ?_
      show Ensures os _ (stage2Init 2 (k + 2) >>= fun _ => work) w _
      refine ensures_seq (stage2Init_ok gap_stable here_stable htwo (by omega) hnext
        (fun w l h => h.advance) h) fun w l h => ?_
      exact wp_mono (fun _ => hsettled) (ensures_work here_stable h)

theorem turn_ok (disableStage2 : Bool) (h : Settled w l) :
    Ensures os (fun _ => Settled) (turn disableStage2) w l := by
  refine wp_bind (ensures_look h fun state r hpos h => ?_)
  have hsettled : ∀ {seen r} w l, Here seen r w l → Settled w l := fun _ _ h => h.settled
  obtain ⟨stage, iterId, dedupExists⟩ := state
  rcases h.here.position with rfl | rfl | ⟨k, rfl⟩ <;> cases hpos
  · refine ensures_seq (J := Here (0, 0) (0, 0)) h fun w l h => ?_
    have hthere : ∀ w l, Here (0, 0) (1, 1) w l → [stageDir 1 1] ∈ w.files := fun w l h =>
      h.stage1 (by decide)
    have hrun : Ensures os (fun _ => Here (0, 0) (1, 1)) runStage1 w l :=
      ensures_seq (stage1Init_ok here_stable hthere (h.advance (.inl ⟨rfl, rfl⟩))) fun _ _ h =>
        ensures_work here_stable h
    refine ensures_seq hrun fun w l h => ?_
    exact wp_mono (fun _ => hsettled) (ensures_work here_stable h)
  · refine ensures_seq (collectStage1_ok (by decide) disableStage2 h) fun w l h => ?_
    cases disableStage2
    · refine ensures_seq (ensures_work here_stable h) fun w l h => ?_
      refine wp_bind (wp_ask (here_stable.recorded h) fun expired => ?_)
      cases expired
      · exact h.settled
      · exact runStage2_ok h.settled
    · exact h.settled
  · refine ensures_seq (collectStage1_ok (by simp) disableStage2 h) fun w l h => ?_
    cases disableStage2
    · exact runStage2_ok h.settled
    · exact h.settled

/-- Started again, the program goes on from where it is. -/
theorem runPmfuzz_ok (disableStage2 : Bool) (h : Settled w l) :
    Ensures os (fun _ => Settled) (runPmfuzz disableStage2) w l := by
  have hJ := settled_stable
  have hcreate : ∀ name w l, Settled w l → Ensures os (fun _ => Settled) (createInfo name) w l := by
    intro name w l h
    refine wp_bind (wp_perform (hJ.recorded h) (fun w' happly => ?_) fun _ => h)
    have hin : (FsOp.create ["@info".toList, name]).inside = true := rfl
    exact hJ.inside hin h happly
  refine ensures_seq (J := Settled) ?_ fun w l h => ?_
  · refine ensures_seq (ensures_makedirs hJ (.inl rfl) h) fun w l h => ?_
    refine ensures_seq (hcreate _ w l h) fun w l h => ?_
    exact ensures_seq (hcreate _ w l h) fun w l h => hcreate _ w l h
  · refine wp_bind (ensures_look h fun state r _ h => ?_)
    refine ensures_seq (J := Settled) ?_ fun w l h => ?_
    · split
      · exact hJ.recorded h.settled
      · exact h.settled
    · split
      · refine wp_bind (wp_ask (hJ.recorded h) fun resume => ?_)
        cases resume
        · exact hJ.recorded h
        · exact h
      · exact h

theorem Follows.le {new old : ℕ × ℕ} (h : Follows new old) : toLex old ≤ toLex new := by
  rcases h with rfl | h
  · exact le_refl _
  · cases h <;> simp [Prod.Lex.toLex_le_toLex]

/-- In every run on a result directory that is at a position, in which no
interruption falls between the removal of an iteration's directory and the
making of the next, the readings follow the transitions and never
decrease. -/
theorem progress_kept {disableStage2 : Bool} {as : List (Action FsOp Bool)}
    {m : Machine Outdir FsOp StateInf Bool} (h : At w.files r)
    (hc : Along (system os).step (fun m a => a.interrupts = true → cleared m.store.done = false)
      ((system os).start w disableStage2) as)
    (hrun : exec (system os).step ((system os).start w disableStage2) as = some m) :
    (m.seen.map StateInf.position).IsChain Follows ∧
      (m.seen.map StateInf.position).Pairwise fun new old => toLex old ≤ toLex new := by
  have hstart : Settled { w with done := [] } [] := ⟨rfl, r, h, List.isChain_singleton r⟩
  have hm : Holds (system os) Recorded Settled ((system os).start w disableStage2) :=
    runPmfuzz_ok disableStage2 hstart
  have hkept : Recorded m.store m.seen := by
    refine exec_inv_wp (C := fun w => cleared w.done = false) (fun _ _ => settled_stable.recorded)
      (fun b _ _ => turn_ok b) (fun b w l hrec hcl => ?_) hm hc hrun
    obtain ⟨-, r, hat, hchain⟩ := hrec.2 hcl
    exact runPmfuzz_ok b ⟨rfl, r, hat, hchain⟩
  have : Trans (fun new old : ℕ × ℕ => toLex old ≤ toLex new) (fun new old => toLex old ≤ toLex new)
      (fun new old => toLex old ≤ toLex new) := ⟨fun h₁ h₂ => h₂.trans h₁⟩
  exact ⟨hkept.1, List.isChain_iff_pairwise.mp (hkept.1.imp fun _ _ h => h.le)⟩

/-! ## Runs -/

/-- The run of a process on an empty result directory. -/
def runOf (as : List (Action FsOp Bool)) : Option (Machine Outdir FsOp StateInf Bool) :=
  exec (system .sorted).step ((system .sorted).start ⟨∅, []⟩ false) as

/-- `update_info`, and the first `sync`. -/
def startUp : List (Action FsOp Bool) := List.replicate 5 .next

/-- A turn that starts the first stage. -/
def firstTurn : List (Action FsOp Bool) := List.replicate 14 .next ++ [.leave, .leave]

def collectTurn : List (Action FsOp Bool) :=
  List.replicate 20 .next ++ [.leave, .leave] ++ List.replicate 8 .next ++ [.leave]

/-- A turn that starts the first iteration. -/
def secondTurn : List (Action FsOp Bool) :=
  [.next, .next] ++ collectTurn ++ [.leave, .choose true, .next] ++ List.replicate 10 .next ++ [.leave]

/-- A turn that completes it, up to the removal of its directory. -/
def clearingTurn : List (Action FsOp Bool) :=
  [.next, .next] ++ collectTurn ++ [.next] ++ List.replicate 10 .next ++ [.leave, .choose true, .leave] ++
    List.replicate 8 .next ++ [.leave] ++
    ["@dedup_sync", "testcases", "pm_images", ".afl-results"].map
      (fun name => .work (.remove [stageDir 2 1, name.toList])) ++ [.leave, .next]

theorem at_empty : At ∅ (0, 0) :=
  ⟨.inl rfl, fun _ hn => absurd hn (Finset.notMem_empty _), fun _ hd => absurd hd List.not_mem_nil⟩

/-- Interrupted in the first iteration, the program goes on with it. -/
theorem progress_kept_firstIteration : ∃ m,
    runOf (startUp ++ firstTurn ++ secondTurn ++ [.interrupt false] ++ startUp) = some m ∧
      m.seen.map StateInf.position = [(2, 1), (1, 1), (1, 1), (0, 0), (0, 0)] ∧
      (m.seen.map StateInf.position).IsChain Follows := by
  have hrun : (runOf (startUp ++ firstTurn ++ secondTurn ++ [.interrupt false] ++ startUp)).map
      (fun m => m.seen.map StateInf.position) = some [(2, 1), (1, 1), (1, 1), (0, 0), (0, 0)] := by
    decide +kernel
  obtain ⟨m, hm, hseen⟩ := Option.map_eq_some_iff.mp hrun
  exact ⟨m, hm, hseen, (progress_kept at_empty (by decide +kernel) hm).1⟩

/-- Interrupted after the removal of the first iteration's directory, the
program is back at the first stage. -/
theorem progress_lost : ∃ m,
    runOf (startUp ++ firstTurn ++ secondTurn ++ clearingTurn ++ [.interrupt false] ++ startUp) = some m ∧
      ¬ (m.seen.map StateInf.position).IsChain Follows ∧
      ¬ (m.seen.map StateInf.position).Pairwise fun new old => toLex old ≤ toLex new := by
  have hrun : (runOf (startUp ++ firstTurn ++ secondTurn ++ clearingTurn ++ [.interrupt false] ++ startUp)).map
      (fun m => m.seen.map StateInf.position) =
        some [(1, 1), (2, 1), (2, 1), (1, 1), (1, 1), (0, 0), (0, 0)] := by
    decide +kernel
  obtain ⟨m, hm, hseen⟩ := Option.map_eq_some_iff.mp hrun
  refine ⟨m, hm, ?_⟩
  rw [hseen]
  constructor
  · intro h
    rcases (List.isChain_cons_cons.mp h).1 with h | h <;> cases h
  · intro h
    have := (List.pairwise_cons.mp h).1 (2, 1) List.mem_cons_self
    exact absurd this (by decide)

end PMFuzz.Driver
