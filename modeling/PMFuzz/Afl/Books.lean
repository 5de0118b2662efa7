import PMFuzz.Afl.Cull

/-!
# The books

What the fuzzer counts and which files it has made, against its queue. They
are kept of a `View` of the state: the fields that matter, those of the
entries field by field. `Sound` says that they are right, and the references, too.

What changes other fields only leaves the view as it was (`Fuzzer.view_of_books`),
and `cullQueue_sound` is the first of the theorems that say of the parts of the fuzzer
that they keep a state sound and end the fuzzer for no reason of its own.
-/

namespace PMFuzz.Afl

/-! ## Views -/

/-- What the books are about. -/
structure View where
  files : Str → Option (List UInt8)
  queuedPaths : ℕ
  queueCur : Option ℕ
  seekTo : ℕ
  uniqueCrashes : UInt64
  uniqueHangs : UInt64
  queuedWithCov : UInt32
  queuedVariable : UInt32
  pendingNotFuzzed : UInt32
  pendingFavored : UInt32
  hadNewPmAccess : Bool
  fname : ℕ → Name
  len : ℕ → ℕ
  hasNewCov : ℕ → Bool
  varBehavior : ℕ → Bool
  favored : ℕ → Bool
  fsRedundant : ℕ → Bool
  wasFuzzed : ℕ → Bool
  fuzzLevel : ℕ → UInt32
  newPmAccess : ℕ → Bool

def Fuzzer.view (s : Fuzzer) : View where
  files := s.files
  queuedPaths := s.queuedPaths
  queueCur := s.queueCur
  seekTo := s.seekTo
  uniqueCrashes := s.uniqueCrashes
  uniqueHangs := s.uniqueHangs
  queuedWithCov := s.queuedWithCov
  queuedVariable := s.queuedVariable
  pendingNotFuzzed := s.pendingNotFuzzed
  pendingFavored := s.pendingFavored
  hadNewPmAccess := s.hadNewPmAccess
  fname := fun p => (s.queue p).fname
  len := fun p => (s.queue p).len
  hasNewCov := fun p => (s.queue p).hasNewCov
  varBehavior := fun p => (s.queue p).varBehavior
  favored := fun p => (s.queue p).favored
  fsRedundant := fun p => (s.queue p).fsRedundant
  wasFuzzed := fun p => (s.queue p).wasFuzzed
  fuzzLevel := fun p => (s.queue p).fuzzLevel
  newPmAccess := fun p => (s.queue p).newPmAccess

variable {env : Env} {s s' : Fuzzer} {v : View} {q n : ℕ} {f : QueueEntry → QueueEntry}

/-- The view of a state with another entry. -/
theorem Fuzzer.modify_view (s : Fuzzer) (q : ℕ) (f : QueueEntry → QueueEntry) : (s.modify q f).view = { s.view with
    fname := Function.update s.view.fname q (f (s.queue q)).fname
    len := Function.update s.view.len q (f (s.queue q)).len
    hasNewCov := Function.update s.view.hasNewCov q (f (s.queue q)).hasNewCov
    varBehavior := Function.update s.view.varBehavior q (f (s.queue q)).varBehavior
    favored := Function.update s.view.favored q (f (s.queue q)).favored
    fsRedundant := Function.update s.view.fsRedundant q (f (s.queue q)).fsRedundant
    wasFuzzed := Function.update s.view.wasFuzzed q (f (s.queue q)).wasFuzzed
    fuzzLevel := Function.update s.view.fuzzLevel q (f (s.queue q)).fuzzLevel
    newPmAccess := Function.update s.view.newPmAccess q (f (s.queue q)).newPmAccess } := by
  have hfield : ∀ {α : Type} (g : QueueEntry → α),
      (fun p => g ((s.modify q f).queue p)) = Function.update (fun p => g (s.queue p)) q (g (f (s.queue q))) := fun g =>
    funext fun p => Function.apply_update (fun _ => g) s.queue q (f (s.queue q)) p
  simp only [Fuzzer.view, hfield]
  rfl

/-- A modification that the view does not show. -/
theorem Fuzzer.modify_view_of_eq (h : ∀ e, (f e).fname = e.fname ∧ (f e).len = e.len ∧ (f e).hasNewCov = e.hasNewCov ∧
    (f e).varBehavior = e.varBehavior ∧ (f e).favored = e.favored ∧ (f e).fsRedundant = e.fsRedundant ∧
    (f e).wasFuzzed = e.wasFuzzed ∧ (f e).fuzzLevel = e.fuzzLevel ∧ (f e).newPmAccess = e.newPmAccess) :
    (s.modify q f).view = s.view := by
  obtain ⟨h1, h2, h3, h4, h5, h6, h7, h8, h9⟩ := h (s.queue q)
  rw [Fuzzer.modify_view, h1, h2, h3, h4, h5, h6, h7, h8, h9]
  simp [Fuzzer.view]

/-! ## Scores -/

/-- What the references are about, and what is favored. -/
structure Scores where
  topRated : ℕ → Option ℕ
  scoreChanged : Bool
  queuedPaths : ℕ
  tcRef : ℕ → UInt32
  traceMini : ℕ → Option Libpmfuzz.Mem
  favored : ℕ → Bool

def Fuzzer.scores (s : Fuzzer) : Scores where
  topRated := s.topRated
  scoreChanged := s.scoreChanged
  queuedPaths := s.queuedPaths
  tcRef := fun p => (s.queue p).tcRef
  traceMini := fun p => (s.queue p).traceMini
  favored := fun p => (s.queue p).favored

theorem Fuzzer.modify_scores (h : ∀ e, (f e).tcRef = e.tcRef ∧ (f e).traceMini = e.traceMini ∧
    (f e).favored = e.favored) :
    (s.modify q f).scores = s.scores := by
  have hfield : ∀ {α : Type} (g : QueueEntry → α), (∀ e, g (f e) = g e) →
      (fun p => g ((s.modify q f).queue p)) = fun p => g (s.queue p) := fun g hg =>
    funext fun p => s.modify_congr g (hg _) p
  simp only [Fuzzer.scores]
  rw [hfield _ fun e => (h e).1, hfield _ fun e => (h e).2.1, hfield _ fun e => (h e).2.2]
  rfl

/-- The references of a state with the same scores. -/
theorem Refs.of_scores (hs : Refs env s) (h : s'.scores = s.scores) : Refs env s' :=
  hs.of_eq (congrArg Scores.topRated h) (congrArg Scores.queuedPaths h) fun p =>
    ⟨congrFun (congrArg Scores.tcRef h) p, congrFun (congrArg Scores.traceMini h) p⟩

/-- Unless the scores have changed since, the favored entries together hit every
location that has a winner, by the traces that they keep. -/
def Covered (env : Env) (s : Fuzzer) : Prop :=
  env.dumbMode = true ∨ s.scoreChanged = true ∨ ∀ i < env.mapSize, ∀ p, s.topRated i = some p →
    (s.queue p).favored = true ∨ ∃ q < s.queuedPaths, (s.queue q).favored = true ∧ covers s q i = true

theorem Covered.of_scores (hs : Covered env s) (h : s'.scores = s.scores) : Covered env s' := by
  have hfavored : ∀ p, (s'.queue p).favored = (s.queue p).favored := congrFun (congrArg Scores.favored h)
  have hmini : ∀ p, (s'.queue p).traceMini = (s.queue p).traceMini := congrFun (congrArg Scores.traceMini h)
  have htop : s'.topRated = s.topRated := congrArg Scores.topRated h
  have hpaths : s'.queuedPaths = s.queuedPaths := congrArg Scores.queuedPaths h
  refine hs.imp_right (Or.imp (fun hc => (congrArg Scores.scoreChanged h).trans hc) fun hc i hi p hp => ?_)
  rw [htop] at hp
  rw [hfavored, hpaths]
  refine (hc i hi p hp).imp_right fun ⟨q, hq, hfav, hcov⟩ => ⟨q, hq, (hfavored q).trans hfav, ?_⟩
  unfold covers
  rw [hmini]
  exact hcov

/-! ## Books -/

/-- The first number that no file in the directory has. -/
def View.nextId (v : View) : Dir → ℕ
  | .crashes => v.uniqueCrashes.toNat
  | .hangs => v.uniqueHangs.toNat
  | _ => v.queuedPaths + 1

/-- The files that belong to an entry by its number, marks apart. -/
def Dir.IsEntry (d : Dir) : Prop := d = .testcase ∨ d = .map ∨ d = .pm ∨ d = .pmMap

/-- The files that have numbers of their own. -/
def Dir.IsFault (d : Dir) : Prop := d = .crashes ∨ d = .hangs

instance : DecidablePred Dir.IsEntry := fun _ => inferInstanceAs (Decidable (_ ∨ _ ∨ _ ∨ _))

/-- `KEEP_UNIQUE_CRASH`. -/
def keepUniqueCrash : UInt64 := 5000
/-- `KEEP_UNIQUE_HANG`. -/
def keepUniqueHang : UInt64 := 500

/-- What holds after so many turns of the main loop. -/
structure Books (turns : ℕ) (v : View) : Prop where
  /-- An entry is named after its place. -/
  fname : ∀ p < v.queuedPaths, (v.fname p).id = p + 1
  redundant : ∀ p < v.queuedPaths,
    (v.files (FilePath.render ⟨.redundantEdges, v.fname p⟩)).isSome = v.fsRedundant p
  varying : ∀ p < v.queuedPaths,
    (v.files (FilePath.render ⟨.variableBehavior, v.fname p⟩)).isSome = v.varBehavior p
  /-- No file has a number that is not given out yet. -/
  fresh : ∀ path : FilePath, v.nextId path.dir ≤ path.name.id → v.files path.render = none
  /-- Each file in `queue/` is one of an entry. -/
  owned : ∀ path : FilePath, ¬ path.dir.IsFault → (v.files path.render).isSome = true →
    ∃ p < v.queuedPaths, v.fname p = path.name
  /-- A crash or a hang that is counted has one file. -/
  faults : ∀ d : Dir, d.IsFault → ∀ k < v.nextId d,
    ∃! name : Name, name.id = k ∧ (v.files (FilePath.render ⟨d, name⟩)).isSome = true
  crashes_le : v.uniqueCrashes ≤ keepUniqueCrash
  hangs_le : v.uniqueHangs ≤ keepUniqueHang
  withCov : v.queuedWithCov = .ofNat (Nat.count (fun p => v.hasNewCov p) v.queuedPaths)
  withVar : v.queuedVariable = .ofNat (Nat.count (fun p => v.varBehavior p) v.queuedPaths)
  unfuzzed : v.pendingNotFuzzed = .ofNat (Nat.count (fun p => !v.wasFuzzed p) v.queuedPaths)
  /-- An entry is fuzzed at most once a turn. -/
  level_le : ∀ p, (v.fuzzLevel p).toNat ≤ turns
  level : ∀ p, v.wasFuzzed p = true → v.fuzzLevel p ≠ 0
  /-- The favored entries that have not been fuzzed are counted, some maybe twice. -/
  pending : Nat.count (fun p => v.favored p && !v.wasFuzzed p) v.queuedPaths ≤ v.pendingFavored.toNat
  /-- `had_new_pm_access` is read and reset, and never set. -/
  noPm : v.hadNewPmAccess = false ∧ ∀ p < v.queuedPaths, v.newPmAccess p = false

/-- The references, what is favored and the books are right. -/
structure Sound (env : Env) (turns : ℕ) (s : Fuzzer) : Prop where
  refs : Refs env s
  covered : Covered env s
  books : Books turns s.view

/-- The books decide, where the scores stay. -/
theorem Sound.of_scores {turns' : ℕ} (hs : Sound env turns s) (h : s'.scores = s.scores) (hb : Books turns' s'.view) :
    Sound env turns' s' := ⟨hs.refs.of_scores h, hs.covered.of_scores h, hb⟩

variable {turns : ℕ}

theorem Books.distinct (h : Books turns s.view) : Distinct s := fun p hp q hq heq => by
  have hids := congrArg Name.id heq
  have hidp := h.fname p hp
  have hidq := h.fname q hq
  change (s.queue p).fname.id = p + 1 at hidp
  change (s.queue q).fname.id = q + 1 at hidq
  omega

theorem Books.redundantMarks (h : Books turns s.view) : RedundantMarks s := h.redundant

theorem Books.notFuzzed_eq (h : Books turns s.view) (p : ℕ) : notFuzzed (s.queue p) = !(s.queue p).wasFuzzed := by
  unfold notFuzzed
  cases hfuzzed : (s.queue p).wasFuzzed with
  | false => exact Bool.or_true _
  | true =>
    have hlevel : ((s.queue p).fuzzLevel == 0) = false := beq_eq_false_iff_ne.mpr (h.level p hfuzzed)
    rw [hlevel]
    rfl

/-- What the fuzzer does to its maps. -/
structure Quiet (s s' : Fuzzer) : Prop where
  view : s'.view = s.view
  scores : s'.scores = s.scores

theorem Quiet.refl (s : Fuzzer) : Quiet s s := ⟨rfl, rfl⟩

theorem Quiet.trans {t : Fuzzer} (h : Quiet s s') (h' : Quiet s' t) : Quiet s t :=
  ⟨h'.view.trans h.view, h'.scores.trans h.scores⟩

theorem Quiet.sound (h : Quiet s s') (hs : Sound env turns s) : Sound env turns s' :=
  hs.of_scores h.scores (h.view ▸ hs.books)

theorem runTarget_quiet (env : Env) (s : Fuzzer) (mem : List UInt8) (timeout : ℕ) :
    Quiet s (runTarget env s mem timeout).1 := ⟨rfl, rfl⟩

theorem hasNewBits_quiet (env : Env) (s : Fuzzer) (m : Virgin) : Quiet s (s.hasNewBits env m).1 :=
  ⟨rfl, rfl⟩

/-- An entry changes where neither the books nor the references show it. -/
theorem Fuzzer.modify_quiet (h : ∀ e, (f e).fname = e.fname ∧ (f e).len = e.len ∧ (f e).hasNewCov = e.hasNewCov ∧
    (f e).varBehavior = e.varBehavior ∧ (f e).favored = e.favored ∧ (f e).fsRedundant = e.fsRedundant ∧
    (f e).wasFuzzed = e.wasFuzzed ∧ (f e).fuzzLevel = e.fuzzLevel ∧ (f e).newPmAccess = e.newPmAccess)
    (href : ∀ e, (f e).tcRef = e.tcRef ∧ (f e).traceMini = e.traceMini) : Quiet s (s.modify q f) where
  view := Fuzzer.modify_view_of_eq h
  scores := Fuzzer.modify_scores fun e => ⟨(href e).1, (href e).2, (h e).2.2.2.2.1⟩

/-! ## Scores -/

/-- The books do not show the scores. -/
theorem Scored.view (h : Scored s s') : s'.view = s.view := by
  have hentry := h.entry
  obtain ⟨queue, topRated, scoreChanged, rfl⟩ := h.eq
  have hfield : ∀ {α : Type} (g : QueueEntry → α), (∀ e tcRef traceMini,
      g { e with tcRef := tcRef, traceMini := traceMini } = g e) →
        (fun p => g (queue p)) = fun p => g (s.queue p) := fun g hg => funext fun p => by
    obtain ⟨tcRef, traceMini, heq⟩ := hentry p
    have heq' : queue p = _ := heq
    rw [heq', hg]
  simp only [Fuzzer.view]
  rw [hfield QueueEntry.fname fun _ _ _ => rfl, hfield QueueEntry.len fun _ _ _ => rfl,
    hfield QueueEntry.hasNewCov fun _ _ _ => rfl,
    hfield QueueEntry.varBehavior fun _ _ _ => rfl, hfield QueueEntry.favored fun _ _ _ => rfl,
    hfield QueueEntry.fsRedundant fun _ _ _ => rfl, hfield QueueEntry.wasFuzzed fun _ _ _ => rfl,
    hfield QueueEntry.fuzzLevel fun _ _ _ => rfl, hfield QueueEntry.newPmAccess fun _ _ _ => rfl]

theorem updateBitmapScore_sound (hs : Sound env turns s) (hq : q < s.queuedPaths) :
    Sound env turns (updateBitmapScore env s q) where
  refs := updateBitmapScore_refs hs.refs hq
  covered := by
    rcases updateBitmapScore_changed env s q with heq | hchanged
    · rw [heq]
      exact hs.covered
    · exact .inr (.inl hchanged)
  books := (updateBitmapScore_scored env s q).view.symm ▸ hs.books

/-! ## Culling -/

theorem length_favorites_lt (env : Env) (s : Fuzzer) : (favorites env s).length < 2 ^ 32 := by
  have hle : (favorites env s).length ≤ (List.range env.mapSize).length := Cover.length_chosen_le _
  have hwords := env.words_lt
  rw [List.length_range] at hle
  unfold Env.mapSize at hle
  omega

/-- Those of a list that are in the queue are at most as many as the list has. -/
theorem count_mem_le (taken : List ℕ) (flag : ℕ → Bool) (n : ℕ) :
    Nat.count (fun p => decide (p ∈ taken) && flag p) n ≤ taken.countP flag := by
  rw [Nat.count_eq_card_filter_range, List.countP_eq_length_filter]
  refine (Finset.card_le_card fun p hp => ?_).trans (List.toFinset_card_le _)
  have hflag := (Finset.mem_filter.mp hp).2
  rw [Bool.and_eq_true, decide_eq_true_iff] at hflag
  exact List.mem_toFinset.mpr (List.mem_filter.mpr hflag)

/-- A count is one of the entries in the queue. -/
theorem count_congr {flag flag' : ℕ → Bool} (h : ∀ p < n, flag p = flag' p) :
    Nat.count (fun p => flag p) n = Nat.count (fun p => flag' p) n := by
  rw [Nat.count_eq_card_filter_range, Nat.count_eq_card_filter_range]
  refine congrArg Finset.card (Finset.filter_congr fun p hp => ?_)
  rw [h p (Finset.mem_range.mp hp)]

theorem Culled.books (h : Culled env s s') (hb : Books turns s.view) : Books turns s'.view := by
  have hmarks := h.marks
  obtain ⟨files, queue, rfl, hqueue, hentry, hfiles⟩ := h.eq
  have hfield : ∀ {α : Type} (g : QueueEntry → α), (∀ e favored mark,
      g { e with favored := favored, fsRedundant := mark } = g e) → ∀ p, g (queue p) = g (s.queue p) := fun g hg p => by
    obtain ⟨favored, mark, heq⟩ := hentry p
    rw [heq, hg]
  have hname := hfield QueueEntry.fname fun _ _ _ => rfl
  have hcov := hfield QueueEntry.hasNewCov fun _ _ _ => rfl
  have hvar := hfield QueueEntry.varBehavior fun _ _ _ => rfl
  have hfuzzed := hfield QueueEntry.wasFuzzed fun _ _ _ => rfl
  have hlevel := hfield QueueEntry.fuzzLevel fun _ _ _ => rfl
  have hpm := hfield QueueEntry.newPmAccess fun _ _ _ => rfl
  have hcount : ∀ {flag flag' : ℕ → Bool}, (∀ p, flag p = flag' p) →
      Nat.count (fun p => flag p) s.queuedPaths = Nat.count (fun p => flag' p) s.queuedPaths := fun hflag =>
    count_congr fun p _ => hflag p
  constructor
  case fname => exact fun p hp => (congrArg Name.id (hname p)).trans (hb.fname p hp)
  case redundant => exact hmarks
  case varying =>
    intro p hp
    show (files (FilePath.render ⟨.variableBehavior, (queue p).fname⟩)).isSome = (queue p).varBehavior
    rw [hname, hvar, hfiles _ fun _ _ => by simp]
    exact hb.varying p hp
  case fresh =>
    intro path hpath
    show files path.render = none
    rw [hfiles path fun p hp heq => ?_]
    · exact hb.fresh path hpath
    · have hid := hb.fname p hp
      subst heq
      change s.queuedPaths + 1 ≤ (s.queue p).fname.id at hpath
      change (s.queue p).fname.id = p + 1 at hid
      have hlt : p < s.queuedPaths := hp
      omega
  case owned =>
    intro path hdir hpath
    by_cases hmark : ∃ p < s.queuedPaths, path = ⟨.redundantEdges, (s.queue p).fname⟩
    · obtain ⟨p, hp, rfl⟩ := hmark
      exact ⟨p, hp, hname p⟩
    · have hfile := hfiles path fun p hp heq => hmark ⟨p, hp, heq⟩
      obtain ⟨p, hp, heq⟩ := hb.owned path hdir ((congrArg Option.isSome hfile).symm.trans hpath)
      exact ⟨p, hp, (hname p).trans heq⟩
  case faults =>
    intro d hd k hk
    have hfile : ∀ name : Name, files (FilePath.render ⟨d, name⟩) = s.files (FilePath.render ⟨d, name⟩) := fun name =>
      hfiles ⟨d, name⟩ fun p _ heq => by
        obtain ⟨rfl, -⟩ := FilePath.mk.inj heq
        rcases hd with h | h <;> cases h
    show ∃! name : Name, name.id = k ∧ (files (FilePath.render ⟨d, name⟩)).isSome = true
    simp only [hfile]
    refine hb.faults d hd k (hk.trans_eq ?_)
    rcases hd with rfl | rfl <;> rfl
  case crashes_le => exact hb.crashes_le
  case hangs_le => exact hb.hangs_le
  case withCov => exact hb.withCov.trans (congrArg UInt32.ofNat (hcount fun p => (hcov p).symm))
  case withVar => exact hb.withVar.trans (congrArg UInt32.ofNat (hcount fun p => (hvar p).symm))
  case unfuzzed => exact hb.unfuzzed.trans (congrArg UInt32.ofNat (hcount fun p => congrArg (!·) (hfuzzed p).symm))
  case level_le => exact fun p => (congrArg UInt32.toNat (hlevel p)).trans_le (hb.level_le p)
  case level => exact fun p hp => (hlevel p).trans_ne (hb.level p ((hfuzzed p).symm.trans hp))
  case pending =>
    show Nat.count (fun p => (queue p).favored && !(queue p).wasFuzzed) s.queuedPaths ≤
      (UInt32.ofNat ((favorites env s).countP fun p => notFuzzed (s.queue p))).toNat
    rw [UInt32.toNat_ofNat_of_lt' ((List.countP_le_length).trans_lt (length_favorites_lt env s))]
    calc Nat.count (fun p => (queue p).favored && !(queue p).wasFuzzed) s.queuedPaths
      _ = Nat.count (fun p => decide (p ∈ favorites env s) && notFuzzed (s.queue p)) s.queuedPaths :=
          count_congr fun p hp => by rw [hqueue p hp, hb.notFuzzed_eq]
      _ ≤ (favorites env s).countP fun p => notFuzzed (s.queue p) := count_mem_le ..
  case noPm => exact ⟨hb.noPm.1, fun p hp => (hpm p).trans (hb.noPm.2 p hp)⟩

theorem Culled.sound (h : Culled env s s') (hs : Sound env turns s) : Sound env turns s' where
  refs := by
    obtain ⟨files, queue, rfl, hqueue, hentry, hfiles⟩ := h.eq
    refine hs.refs.of_eq rfl rfl fun p => ?_
    obtain ⟨favored, mark, heq⟩ := hentry p
    show (queue p).tcRef = _ ∧ (queue p).traceMini = _
    rw [heq]
    exact ⟨rfl, rfl⟩
  covered := .inr (.inr fun i hi p hp => by
    obtain ⟨files, queue, heq, -⟩ := h.eq
    exact h.covers hs.refs hi (by rw [heq] at hp; exact hp))
  books := h.books hs.books

/-- `cull_queue` does not end the fuzzer. -/
theorem cullQueue_sound (hs : Sound env turns s) : ∃ s', cullQueue env s = .ok s' ∧ Sound env turns s' ∧
    if env.dumbMode || !s.scoreChanged then s' = s else Culled env s s' := by
  obtain ⟨s', heq, hcase⟩ := cullQueue_eq hs.refs hs.books.distinct hs.books.redundantMarks
  refine ⟨s', heq, ?_, hcase⟩
  split at hcase
  · exact hcase.symm ▸ hs
  · exact hcase.sound hs

/-- No entry is ever favored for its accesses to PM: `cull_queue_pm` does nothing. -/
theorem cullQueuePm_eq (hb : Books turns s.view) : cullQueuePm s = s := by
  have hloop : ∀ n ≤ s.queuedPaths, (List.range n).foldl (fun s q =>
      if (s.queue q).newPmAccess ∧ (s.queue q).favored = false then
        { s.modify q fun e => { e with favored := true } with queuedFavored := s.queuedFavored + 1 }
      else s) s = s := by
    intro n
    induction n with
    | zero => exact fun _ => rfl
    | succ n ih =>
      intro hn
      rw [List.range_succ, List.foldl_append, ih (by omega)]
      have hpm : (s.queue n).newPmAccess = false := hb.noPm.2 n hn
      show (if (s.queue n).newPmAccess ∧ _ then _ else s) = s
      rw [hpm]
      exact if_neg fun h => Bool.false_ne_true h.1
  exact hloop s.queuedPaths le_rfl

end PMFuzz.Afl
