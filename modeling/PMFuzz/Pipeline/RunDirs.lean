import PMFuzz.Names.SiteNames
import PMFuzz.Pipeline.Parents

/-!
# Image directories of crash-site runs

`_run_cs` makes a directory in `img_loc` with `mkdtemp`, whose name is the
crash site's and eight more characters, and `_terminate_cs` looks for it by
that prefix. The pipeline runs with the entries of `img_loc` beside it
(`runStep`):

* `RunInv`, `runInv_step`: a crash-site run that is not terminated has the
  directory that was made for it;
* `findsOwn_iff`: all runs find theirs, and no other, exactly when no running
  crash site's name is a prefix of another's, and of no directory that an
  iteration left behind;
* `nested_sites`: a crash site found on a crash site, and both are run.
-/

namespace PMFuzz.Pipeline

open Names Str Glob Dedup Stage2 Run

/-- `pmfuzz.img_loc`, a path without wildcards. -/
structure ImgLoc where
  path : Str
  literal : ∀ z ∈ path, z ∉ "*?[".toList

/-- The prefix of the directories that `_run_cs` makes. -/
def runPrefix (csname : Str) : Str := "pmfuzz-cs-run-".toList ++ csname

/-- `tempfile.mkdtemp`: the entries after it, if the name is a new one. -/
def mkdtemp (pre : Str) (r : TempName) (entries : List Str) : Option (List Str) :=
  if pre ++ r.chars ∈ entries then none else some ((pre ++ r.chars) :: entries)

/-- The image directory of `_terminate_cs`: the entries of `img_loc` after it
is removed. -/
def removeImage (loc : ImgLoc) (entries : List Str) (csname : Str) : Except Stop (List Str) :=
  let imgdir := loc.path ++ "/".toList
  let imgpm := join imgdir (runPrefix csname)
  match glob (entries.map (loc.path ++ '/' :: ·)) (imgpm ++ "*".toList) with
  | [] => .error (.abort ("Unable to find anything with glob ".toList ++ imgpm ++ "*".toList))
  | [dir2del] => .ok (entries.erase (basename dir2del))
  | _ => .error (.abort ("Too many matches for glob ".toList ++ imgpm ++ "*".toList))

/-- The pipeline and `img_loc`. -/
structure RunState where
  s : State
  entries : List Str
  /-- The directory made for the last run of a crash site. -/
  imgdir : Str → Str

def noRuns : RunState := ⟨init, [], fun _ => []⟩

inductive Act
  /-- A call, and what `mkdtemp` adds to a name if it makes a directory. -/
  | call (op : Op) (r : TempName)
  /-- Another program makes an entry of `img_loc`, or removes it. -/
  | other (name : Str)

/-- `img_loc` after a call. -/
def imgDirs (loc : ImgLoc) (R : RunState) (r : TempName) : Op → Option (List Str × (Str → Str))
  | .run .cs file =>
    (mkdtemp (runPrefix (csName file)) r R.entries).map fun entries =>
      (entries, Function.update R.imgdir (csName file) (runPrefix (csName file) ++ r.chars))
  | .terminate .cs file _ _ =>
    (removeImage loc R.entries (csName file)).toOption.map fun entries => (entries, R.imgdir)
  | _ => some (R.entries, R.imgdir)

def runStep (loc : ImgLoc) (p : Paths) (R : RunState) : Act → Option RunState
  | .call op r =>
    (imgDirs loc R r op).bind fun dirs => (step p R.s op).map fun s => ⟨s, dirs.1, dirs.2⟩
  | .other name =>
    if "pmfuzz-cs-run-".toList <+: name ∨ '/' ∈ name then none
    else some { R with entries :=
      if name ∈ R.entries then R.entries.erase name else name :: R.entries }

/-- A crash site of `@dedup_sync` is run. -/
def Running (R : RunState) (c : Str) : Prop :=
  ∃ file ∈ R.s.loc, isCmprCrashSite file = true ∧ csName file = c ∧ R.s.jobs c = .running

/-- `_terminate_cs` finds the directory of the run and removes it. -/
structure FindsOwn (loc : ImgLoc) (R : RunState) (c : Str) : Prop where
  found : glob (R.entries.map (loc.path ++ '/' :: ·))
    (join (loc.path ++ "/".toList) (runPrefix c) ++ "*".toList) = [loc.path ++ '/' :: R.imgdir c]
  removed : removeImage loc R.entries c = .ok (R.entries.erase (R.imgdir c))

/-- No running crash site's name is a prefix of another's. -/
def PrefixFree (R : RunState) : Prop :=
  ∀ c c', Running R c → Running R c' → c <+: c' → c = c'

/-- The entry is not the directory of a run: its iteration ended before the
run was terminated. -/
def LeftBehind (R : RunState) (n : Str) : Prop :=
  n ∈ R.entries ∧ ∀ c, Running R c → n ≠ R.imgdir c

variable {loc : ImgLoc} {R R' : RunState} {p : Paths} {s s' : State} {op : Op} {act : Act} {acts : List Act}
  {c c' : Str}

/-! ## Runs and their directories -/

structure RunInv (R : RunState) : Prop where
  inv : Inv R.s
  nodup : R.entries.Nodup
  slash : ∀ n ∈ R.entries, '/' ∉ n
  made : ∀ c, IsSiteClean c → R.s.jobs c = .running →
    R.imgdir c ∈ R.entries ∧ ∃ r : TempName, R.imgdir c = runPrefix c ++ r.chars

theorem Running.isSiteClean (h : Running R c) (hi : Inv R.s) : IsSiteClean c := by
  obtain ⟨file, hin, hch, rfl, -⟩ := h
  exact (hi.synced.jobImage (k := .cs) hin hch).isJob

theorem Running.job (h : Running R c) : R.s.jobs c = .running := by
  obtain ⟨-, -, -, -, hrun⟩ := h
  exact hrun

theorem slash_notMem_runPrefix (hc : IsSiteClean c) : '/' ∉ runPrefix c := fun h =>
  (List.mem_append.mp h).elim (by decide) (hc.isClean.notMem (by decide))

theorem runPrefix_append (c r : Str) : runPrefix c ++ r = "pmfuzz-cs-run-".toList ++ (c ++ r) :=
  List.append_assoc ..

theorem runPrefix_prefix {r : Str} : runPrefix c <+: runPrefix c' ++ r ↔ c <+: c' ++ r := by
  rw [runPrefix_append]
  exact List.prefix_append_right_inj _

/-- A name with eight more characters says what it was made from. -/
theorem runPrefix_inj {r r' : TempName} (h : runPrefix c ++ r.chars = runPrefix c' ++ r'.chars) :
    c = c' := by
  obtain ⟨hpre, -⟩ := List.append_inj' h (r.length.trans r'.length.symm)
  exact List.append_cancel_left hpre

/-- Only `_run_cs` starts a run of a crash site. -/
theorem running_of_step (hi : Inv s) (h : step p s op = some s') (hop : ∀ file, op ≠ .run .cs file)
    (hc : IsSiteClean c) (hrun : s'.jobs c = .running) :
    s.jobs c = .running ∧ ∀ file os queue, op = .terminate .cs file os queue → c ≠ csName file := by
  cases op with
  | collectStage1 | updateGlobalStage1 | updateLocal | dedupEngine | updateGlobal | deduplicateGbl =>
    obtain ⟨x, -, rfl⟩ := Fold.toOption_map_eq_some.mp h
    exact ⟨hrun, nofun⟩
  | run k file =>
    obtain ⟨⟨hin, hch, -⟩, h⟩ := Option.ite_none_right_eq_some.mp h
    cases h
    cases k with
    | cs => exact absurd rfl (hop file)
    | tc =>
      have hjob : c ≠ jobName .tc file := by
        rintro rfl
        exact (hi.synced.jobImage hin hch).isJob.not_isSiteClean hc
      refine ⟨?_, nofun⟩
      rwa [← Function.update_of_ne hjob JobState.running s.jobs]
  | terminate k file os queue =>
    obtain ⟨-, h⟩ := Option.ite_none_right_eq_some.mp h
    obtain ⟨dirs, -, rfl⟩ := Fold.toOption_map_eq_some.mp h
    have hjob : c ≠ jobName k file := by
      rintro rfl
      exact absurd hrun (by simp)
    refine ⟨?_, ?_⟩
    · rwa [← Function.update_of_ne hjob JobState.terminated s.jobs]
    · rintro _ _ _ ⟨⟩
      exact hjob
  | deduplicateLcl os db fdedup minTc minCorpus =>
    obtain ⟨imgDir, -, rfl | ⟨-, tcDir, gbl, -, rfl⟩⟩ := deduplicateLcl_ok (Fold.toOption_eq_some.mp h)
    all_goals exact ⟨hrun, nofun⟩
  | collect queues =>
    obtain ⟨-, h⟩ := Option.ite_none_right_eq_some.mp h
    obtain ⟨dirs, -, rfl⟩ := Fold.toOption_map_eq_some.mp h
    have hno : (if s.jobs c = .new then JobState.new else .terminated) = .running := hrun
    split at hno <;> cases hno
  | clear =>
    cases h
    cases hrun

/-! ## What the glob finds -/

theorem pattern_eq (loc : ImgLoc) (hc : IsSiteClean c) :
    join (loc.path ++ "/".toList) (runPrefix c) ++ "*".toList = loc.path ++ '/' :: (runPrefix c ++ ['*']) := by
  rw [join_of_notMem (slash_notMem_runPrefix hc), if_pos (.inr (List.getLast?_concat ..))]
  simp

/-- The entries whose names go on from the crash site's. -/
theorem glob_runPrefix (loc : ImgLoc) (hc : IsSiteClean c) {entries : List Str}
    (hslash : ∀ n ∈ entries, '/' ∉ n) :
    glob (entries.map (loc.path ++ '/' :: ·)) (join (loc.path ++ "/".toList) (runPrefix c) ++ "*".toList) =
      (entries.filter (runPrefix c <+: ·)).map (loc.path ++ '/' :: ·) := by
  have hplain : ∀ z ∈ runPrefix c, z ≠ '*' ∧ z ≠ '?' ∧ z ≠ '/' := by
    intro z hz
    rcases List.mem_append.mp hz with hz | hz
    · have hall : ("pmfuzz-cs-run-".toList.all fun z => decide (z ≠ '*' ∧ z ≠ '?' ∧ z ≠ '/')) = true := by
        decide
      exact of_decide_eq_true (List.all_eq_true.mp hall z hz)
    · refine ⟨?_, ?_, ?_⟩ <;> rintro rfl <;> exact absurd hz (hc.isClean.notMem (by decide))
  rw [pattern_eq loc hc, glob_star hplain (List.append_ne_nil_of_left_ne_nil (by decide) _) hslash]

theorem path_inj {m n : Str} : loc.path ++ '/' :: m = loc.path ++ '/' :: n ↔ m = n := by
  rw [List.append_right_inj, List.cons_inj_right]

/-- A run finds its own directory exactly when no other entry goes on from
its prefix. -/
theorem RunInv.findsOwn (h : RunInv R) (hc : IsSiteClean c) (hrun : R.s.jobs c = .running) :
    FindsOwn loc R c ↔ ∀ n ∈ R.entries, runPrefix c <+: n → n = R.imgdir c := by
  obtain ⟨hmem, r, hr⟩ := h.made c hc hrun
  have hglob := glob_runPrefix loc hc h.slash
  constructor
  · intro hf n hn hpre
    have hin : loc.path ++ '/' :: n ∈ (R.entries.filter (runPrefix c <+: ·)).map (loc.path ++ '/' :: ·) :=
      List.mem_map_of_mem (List.mem_filter.mpr ⟨hn, decide_eq_true hpre⟩)
    rw [← hglob, hf.found, List.mem_singleton] at hin
    exact path_inj.mp hin
  · intro hown
    have hfilter : R.entries.filter (runPrefix c <+: ·) = [R.imgdir c] := by
      have hall : ∀ n ∈ R.entries, decide (runPrefix c <+: n) = decide (n = R.imgdir c) := fun n hn =>
        decide_eq_decide.mpr ⟨hown n hn, fun heq => by rw [heq, hr]; exact List.prefix_append ..⟩
      rw [List.filter_congr hall, List.filter_eq, List.count_eq_one_of_mem h.nodup hmem, List.replicate_one]
    have hfound := hglob.trans (by rw [hfilter, List.map_singleton])
    refine ⟨hfound, ?_⟩
    rw [removeImage, hfound]
    show Except.ok (R.entries.erase (basename (loc.path ++ '/' :: R.imgdir c))) = _
    rw [basename_join (h.slash _ hmem)]

/-- Where `_terminate_cs` does not abort it removes the directory of the
run. -/
theorem RunInv.removeImage (h : RunInv R) (hc : IsSiteClean c) (hrun : R.s.jobs c = .running)
    {entries : List Str} (hrem : removeImage loc R.entries c = .ok entries) :
    entries = R.entries.erase (R.imgdir c) := by
  obtain ⟨hmem, r, hr⟩ := h.made c hc hrun
  have hin : loc.path ++ '/' :: R.imgdir c ∈ glob (R.entries.map (loc.path ++ '/' :: ·))
      (join (loc.path ++ "/".toList) (runPrefix c) ++ "*".toList) := by
    rw [glob_runPrefix loc hc h.slash]
    refine List.mem_map_of_mem (List.mem_filter.mpr ⟨hmem, decide_eq_true ?_⟩)
    rw [hr]
    exact List.prefix_append ..
  rw [Pipeline.removeImage] at hrem
  split at hrem
  · cases hrem
  · rename_i dir2del hone
    cases hrem
    rw [hone, List.mem_singleton] at hin
    rw [← hin, basename_join (h.slash _ hmem)]
  · cases hrem

theorem runInv_noRuns : RunInv noRuns where
  inv := inv_init
  nodup := List.nodup_nil
  slash _ hn := absurd hn List.not_mem_nil
  made _ _ hrun := absurd hrun nofun

theorem runInv_step (h : RunInv R) (hact : runStep loc p R act = some R') : RunInv R' := by
  cases act with
  | other name =>
    obtain ⟨hname, hact⟩ := Option.ite_none_left_eq_some.mp hact
    cases hact
    obtain ⟨hpre, hslash⟩ := not_or.mp hname
    have hne : ∀ c, IsSiteClean c → R.s.jobs c = .running → R.imgdir c ≠ name := by
      rintro c hc hrun rfl
      obtain ⟨-, r, hr⟩ := h.made c hc hrun
      exact hpre (hr ▸ runPrefix_append c r.chars ▸ List.prefix_append ..)
    by_cases hin : name ∈ R.entries
    · refine ⟨h.inv, ?_, ?_, ?_⟩ <;> simp only [if_pos hin]
      · exact h.nodup.erase name
      · exact fun n hn => h.slash n (List.mem_of_mem_erase hn)
      · intro c hc hrun
        obtain ⟨hmem, hr⟩ := h.made c hc hrun
        exact ⟨(List.mem_erase_of_ne (hne c hc hrun)).mpr hmem, hr⟩
    · refine ⟨h.inv, ?_, ?_, ?_⟩ <;> simp only [if_neg hin]
      · exact List.nodup_cons.mpr ⟨hin, h.nodup⟩
      · exact List.forall_mem_cons.mpr ⟨hslash, h.slash⟩
      · intro c hc hrun
        obtain ⟨hmem, hr⟩ := h.made c hc hrun
        exact ⟨List.mem_cons_of_mem name hmem, hr⟩
  | call op r =>
    obtain ⟨dirs, hd, hact⟩ := Option.bind_eq_some_iff.mp hact
    obtain ⟨s', hs, rfl⟩ := Option.map_eq_some_iff.mp hact
    have hi := (inv_step h.inv hs).1
    -- what starts no run leaves the directories, and removes one at most
    have hkeep : (∀ file, op ≠ .run .cs file) → dirs = (R.entries, R.imgdir) →
        RunInv ⟨s', dirs.1, dirs.2⟩ := by
      rintro hop rfl
      refine ⟨hi, h.nodup, h.slash, fun c hc hrun => ?_⟩
      exact h.made c hc (running_of_step h.inv hs hop hc hrun).1
    cases op with
    | run k file =>
      cases k with
      | tc => exact hkeep nofun (Option.some.inj hd).symm
      | cs =>
        obtain ⟨entries, hm, rfl⟩ := Option.map_eq_some_iff.mp hd
        obtain ⟨hnew, hm⟩ := Option.ite_none_left_eq_some.mp hm
        cases hm
        obtain ⟨⟨hin, hch, -⟩, hs⟩ := Option.ite_none_right_eq_some.mp hs
        cases hs
        have hsite : IsSiteClean (csName file) := (h.inv.synced.jobImage (k := .cs) hin hch).isJob
        refine ⟨hi, List.nodup_cons.mpr ⟨hnew, h.nodup⟩, List.forall_mem_cons.mpr ⟨?_, h.slash⟩, ?_⟩
        · exact fun hmem => (List.mem_append.mp hmem).elim (slash_notMem_runPrefix hsite)
            (r.notMem (by decide))
        · intro c hc hrun
          by_cases hjob : c = csName file
          · subst hjob
            simp only [Function.update_self]
            exact ⟨List.mem_cons_self, r, rfl⟩
          · have hold : R.s.jobs c = .running := by
              rwa [← Function.update_of_ne hjob JobState.running R.s.jobs]
            obtain ⟨hmem, hr⟩ := h.made c hc hold
            simp only [Function.update_of_ne hjob]
            exact ⟨List.mem_cons_of_mem _ hmem, hr⟩
    | terminate k file os queue =>
      cases k with
      | tc => exact hkeep nofun (Option.some.inj hd).symm
      | cs =>
        obtain ⟨entries, hrem, rfl⟩ := Fold.toOption_map_eq_some.mp hd
        have hon := (Option.ite_none_right_eq_some.mp hs).1
        have hsite : IsSiteClean (csName file) := (h.inv.synced.jobImage (k := .cs) hon.1 hon.2.1).isJob
        obtain rfl := h.removeImage hsite hon.2.2 hrem
        refine ⟨hi, h.nodup.erase _, fun n hn => h.slash n (List.mem_of_mem_erase hn), fun c hc hrun => ?_⟩
        obtain ⟨hold, hjob⟩ := running_of_step h.inv hs nofun hc hrun
        obtain ⟨hmem, r, hr⟩ := h.made c hc hold
        refine ⟨(List.mem_erase_of_ne ?_).mpr hmem, r, hr⟩
        -- two runs have two directories
        obtain ⟨-, r', hr'⟩ := h.made _ hsite hon.2.2
        rw [hr, hr']
        exact fun heq => hjob file os queue rfl (runPrefix_inj heq)
    | _ => exact hkeep nofun (Option.some.inj hd).symm

theorem runInv_exec (h : exec (runStep loc p) noRuns acts = some R) : RunInv R :=
  exec_inv (runStep loc p) (fun hi hs => runInv_step hi hs) runInv_noRuns h

/-- In every state of a run: all runs of crash sites find their directory and
no other exactly when the names of the running ones are prefix-free, and none
is the start of a directory that was left behind. -/
theorem findsOwn_iff (h : exec (runStep loc p) noRuns acts = some R) :
    (∀ c, Running R c → FindsOwn loc R c) ↔
      PrefixFree R ∧ ∀ c n, Running R c → LeftBehind R n → ¬ runPrefix c <+: n := by
  have hi := runInv_exec h
  have hown : ∀ c, Running R c →
      (FindsOwn loc R c ↔ ∀ n ∈ R.entries, runPrefix c <+: n → n = R.imgdir c) := fun c hc =>
    hi.findsOwn (hc.isSiteClean hi.inv) hc.job
  have hmade : ∀ c, Running R c → R.imgdir c ∈ R.entries ∧
      ∃ r : TempName, R.imgdir c = runPrefix c ++ r.chars := fun c hc =>
    hi.made c (hc.isSiteClean hi.inv) hc.job
  constructor
  · intro hall
    constructor
    · intro c c' hc hc' hpre
      obtain ⟨-, r, hr⟩ := hmade c hc
      obtain ⟨hmem, r', hr'⟩ := hmade c' hc'
      have hgo : runPrefix c <+: R.imgdir c' := by
        rw [hr']
        exact runPrefix_prefix.mpr (hpre.trans (List.prefix_append ..))
      have heq := (hown c hc).mp (hall c hc) _ hmem hgo
      rw [hr, hr'] at heq
      exact (runPrefix_inj heq).symm
    · intro c n hc hleft hpre
      exact hleft.2 c hc ((hown c hc).mp (hall c hc) n hleft.1 hpre)
  · rintro ⟨hfree, hleft⟩ c hc
    refine (hown c hc).mpr fun n hn hpre => ?_
    by_cases hrun : ∃ c', Running R c' ∧ n = R.imgdir c'
    · obtain ⟨c', hc', rfl⟩ := hrun
      obtain ⟨-, r, hr⟩ := hmade c' hc'
      rw [hr, runPrefix_prefix] at hpre
      rcases List.prefix_or_prefix_of_prefix hpre (List.prefix_append c' r.chars) with hpre | hpre
      · rw [hfree c c' hc hc' hpre]
      · rw [hfree c' c hc' hc hpre]
    · exact absurd hpre (hleft c n hc ⟨hn, fun c' hc' heq => hrun ⟨c', hc', heq⟩⟩)

/-! ## Two runs -/

theorem imgLoc_literal : ∀ z ∈ imgLoc, z ∉ "*?[".toList := by
  have hall : (imgLoc.all fun z => decide (z ∉ "*?[".toList)) = true := by decide
  exact fun z hz => of_decide_eq_true (List.all_eq_true.mp hall z hz)

/-- `img_loc` of `base.yml`. -/
def pmem : ImgLoc := ⟨imgLoc, imgLoc_literal⟩

/-- Calls that find their directories unused. -/
def calls (ops : List Op) : List Act := ops.map (.call · CrashImage.plainTemp)

theorem not_leftBehind (h : Running R c) (h' : Running R c')
    (hdirs : ∀ n ∈ R.entries, n ∈ [R.imgdir c, R.imgdir c']) (n : Str) : ¬ LeftBehind R n := by
  rintro ⟨hn, hne⟩
  rcases List.mem_pair.mp (hdirs n hn) with rfl | rfl
  · exact hne c h rfl
  · exact hne c' h' rfl

/-- Both crash sites of a testcase are run. -/
def siblings : List Op :=
  let os := Os.sorted Place 0
  [.collectStage1 [caseOf "1".toList isDigits_1 [0, 1] [1]
      (some [⟨"5".toList, isDigits_5, [2]⟩, ⟨"6".toList, isDigits_6, [3]⟩])],
    .updateGlobalStage1 os, .updateLocal os,
    .run .cs "id=1.id=5.crash_site.tar.gz".toList, .run .cs "id=1.id=6.crash_site.tar.gz".toList]

theorem findsOwn_siblings : ∃ R, exec (runStep pmem dirNames) noRuns (calls siblings) = some R ∧
    Running R "id=1.id=5".toList ∧ FindsOwn pmem R "id=1.id=5".toList := by
  have hrun : (exec (runStep pmem dirNames) noRuns (calls siblings)).map (fun R => decide <|
      (∀ file ∈ R.s.loc.keys, isCmprCrashSite file = true →
        csName file ∈ ["id=1.id=5".toList, "id=1.id=6".toList]) ∧
      "id=1.id=5.crash_site.tar.gz".toList ∈ R.s.loc ∧ R.s.jobs "id=1.id=5".toList = .running ∧
      "id=1.id=6.crash_site.tar.gz".toList ∈ R.s.loc ∧ R.s.jobs "id=1.id=6".toList = .running ∧
      ∀ n ∈ R.entries, n ∈ [R.imgdir "id=1.id=5".toList, R.imgdir "id=1.id=6".toList]) = some true := by
    decide +kernel
  obtain ⟨R, hR, hrun⟩ := Option.map_eq_some_iff.mp hrun
  obtain ⟨hsites, hin5, hrun5, hin6, hrun6, hdirs⟩ := of_decide_eq_true hrun
  have h5 : Running R "id=1.id=5".toList := ⟨_, hin5, by decide, by decide, hrun5⟩
  have h6 : Running R "id=1.id=6".toList := ⟨_, hin6, by decide, by decide, hrun6⟩
  have hnames : ∀ c, Running R c → c ∈ ["id=1.id=5".toList, "id=1.id=6".toList] := by
    rintro c ⟨file, hin, hch, rfl, -⟩
    exact hsites file (Finmap.mem_keys.mpr hin) hch
  refine ⟨R, hR, h5, (findsOwn_iff hR).mpr ⟨fun c c' hc hc' => ?_, fun c n hc hleft => ?_⟩ _ h5⟩
  · exact (by decide : ∀ c ∈ ["id=1.id=5".toList, "id=1.id=6".toList],
      ∀ c' ∈ ["id=1.id=5".toList, "id=1.id=6".toList], c <+: c' → c = c') c (hnames c hc) c' (hnames c' hc')
  · exact absurd hleft (not_leftBehind h5 h6 hdirs n)

/-- A crash site leaves a testcase and a crash site of its own, and in the
next iteration both crash sites are run. -/
def nestedSites : List Op :=
  let os := Os.sorted Place 0
  [.collectStage1 [firstCase], .updateGlobalStage1 os, .updateLocal os,
    .run .cs "id=1.id=5.crash_site.tar.gz".toList] ++
  terminateCs os (fun key => some (Bytes.ofStr key)) true "id=1.id=5.crash_site.tar.gz".toList
    [caseOf "3".toList isDigits_3 [0, 3] [3] (some [⟨"6".toList, isDigits_6, [4]⟩])] ++
  [.collect [], .updateGlobal os, .clear, .updateLocal os,
    .run .cs "id=1.id=5.crash_site.tar.gz".toList,
    .run .cs "id=1.id=5.id=3.id=6.crash_site.tar.gz".toList]

/-- Each has its directory, and the first finds both. -/
theorem nested_sites : ∃ R, exec (runStep pmem dirNames) noRuns (calls nestedSites) = some R ∧
    (∀ n, ¬ LeftBehind R n) ∧ ¬ ∀ c, Running R c → FindsOwn pmem R c := by
  have hrun : (exec (runStep pmem dirNames) noRuns (calls nestedSites)).map (fun R => decide <|
      "id=1.id=5.crash_site.tar.gz".toList ∈ R.s.loc ∧ R.s.jobs "id=1.id=5".toList = .running ∧
      "id=1.id=5.id=3.id=6.crash_site.tar.gz".toList ∈ R.s.loc ∧
      R.s.jobs "id=1.id=5.id=3.id=6".toList = .running ∧
      (∀ n ∈ R.entries, n ∈ [R.imgdir "id=1.id=5".toList, R.imgdir "id=1.id=5.id=3.id=6".toList]) ∧
      (removeImage pmem R.entries "id=1.id=5".toList).toOption = none) = some true := by
    decide +kernel
  obtain ⟨R, hR, hrun⟩ := Option.map_eq_some_iff.mp hrun
  obtain ⟨hin, hjob, hin', hjob', hdirs, habort⟩ := of_decide_eq_true hrun
  have houter : Running R "id=1.id=5".toList := ⟨_, hin, by decide, by decide, hjob⟩
  have hinner : Running R "id=1.id=5.id=3.id=6".toList := ⟨_, hin', by decide, by decide, hjob'⟩
  refine ⟨R, hR, not_leftBehind houter hinner hdirs, fun hall => ?_⟩
  rw [(hall _ houter).removed] at habort
  cases habort

end PMFuzz.Pipeline
