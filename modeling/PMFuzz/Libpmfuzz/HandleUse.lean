import PMFuzz.Libpmfuzz.ImageGeneration

/-!
# Uses of the failure list

Where `pmfuzz_init`, `pmfuzz_inject_failure` and `pmfuzz_term` read, write and
close `failure_list_file` (`LibCall.uses`). A handle that is not open is an
access fault of the model (`fault_of_misuse`).

The handle of a library follows from the calls that were made (`After`): it is
open from `pmfuzz_init` to `pmfuzz_term`, in the two modes with a list. From
this, which calls use it only while open is read off (`useOpen_iff`).
-/

namespace PMFuzz.Libpmfuzz

/-- A call of the target, to the end. -/
inductive LibCall
  | call (c : Call)
  | term

def LibCall.apply (env : Env) (lib : Lib) : LibCall → Except Fault Lib
  | .call c => c.apply env lib
  | .term => pmfuzzTerm env lib

/-- The calls of a process. -/
def runCalls (env : Env) (lib : Lib) (cs : List LibCall) : Except Fault Lib := cs.foldlM (LibCall.apply env) lib

/-- The handles that a call passes to `fscanf`, `fprintf` or `fclose`. -/
def LibCall.uses (env : Env) (lib : Lib) : LibCall → List Handle
  | .call (.init _) =>
    if lib.initComplete = false ∧ env.failureList = true ∧ getFiMode env = .ok .imgRep then
      -- what `fopen` returned
      if lib.listFile = none then [.null] else [.opened]
    else []
  | .call (.event (.failure rand)) =>
    if lib.initComplete = true ∧ getFiMode env = .ok .imgGen ∧ lib.fires env rand = true ∧ lib.handle ≠ .null then
      [lib.handle]
    else []
  | .call (.event (.hint _)) => []
  | .term => if env.failureList then [lib.handle] else []

/-- The call tries to open a list that cannot be opened. -/
def LibCall.Unopenable (env : Env) (lib : Lib) : LibCall → Prop
  | .call (.init _) => lib.initComplete = false ∧ env.failureList = true ∧
    (getFiMode env = .ok .imgGen ∧ env.writable = false ∨ getFiMode env = .ok .imgRep ∧ lib.listFile = none)
  | _ => False

/-- The call uses open handles only, and ends at the assertion if there is
none. -/
structure UseOpen (env : Env) (lib : Lib) (c : LibCall) : Prop where
  opened : ∀ h ∈ c.uses env lib, h = .opened
  assertion : c.Unopenable env lib → c.apply env lib = .error .assertion

variable {env : Env} {lib s t : Lib} {c : LibCall} {pre cs : List LibCall} {rand : ℕ}

/-! ## Single calls -/

theorem init_of_complete {path : List Char} (h : lib.initComplete = true) : pmfuzzInit env lib path = .ok lib := by
  rw [pmfuzzInit, h]
  rfl

theorem inject_of_not_complete (h : lib.initComplete = false) :
    pmfuzzInjectFailure env lib rand = .ok { lib with failureId := lib.failureId + 1 } := by
  simp only [pmfuzzInjectFailure, h]
  rfl

/-- Dumping an image leaves the handle. -/
theorem dumpImage_frame {mode : FiMode} (h : dumpImage env lib mode = .ok t) :
    t.handle = lib.handle ∧ t.initComplete = lib.initComplete ∧ (mode ≠ .imgGen → t.listFile = lib.listFile) := by
  rw [dumpImage] at h
  cases hsaves : env.saves lib.failureId with
  | false | true =>
    simp only [hsaves, Bool.false_eq_true, if_false, if_true] at h
    split at h
    · rename_i hwrite
      split at h
      · cases h
        exact ⟨rfl, rfl, fun hne => absurd hwrite.1 hne⟩
      · cases h
    · cases h
      exact ⟨rfl, rfl, fun _ => rfl⟩

/-- What a failure point leaves. -/
theorem inject_frame (h : pmfuzzInjectFailure env lib rand = .ok t) :
    t.handle = lib.handle ∧ t.initComplete = lib.initComplete ∧
      (getFiMode env ≠ .ok .imgGen → t.listFile = lib.listFile) := by
  cases hinit : lib.initComplete with
  | false =>
    rw [inject_of_not_complete hinit] at h
    cases h
    exact ⟨rfl, hinit, fun _ => rfl⟩
  | true =>
    cases hmode : getFiMode env with
    | error e =>
      simp only [pmfuzzInjectFailure, hinit, hmode] at h
      cases h
    | ok mode =>
      cases mode with
      | none =>
        simp only [pmfuzzInjectFailure, hinit, hmode] at h
        cases h
        exact ⟨rfl, rfl, fun _ => rfl⟩
      | imgRep =>
        rw [inject_imgRep_eq hmode hinit] at h
        split at h
        · split at h
          · obtain ⟨hhandle, hcomplete, hfile⟩ := dumpImage_frame h
            exact ⟨hhandle, hcomplete.trans hinit, fun _ => hfile (by decide)⟩
          · cases h
            exact ⟨rfl, hinit, fun _ => rfl⟩
        · cases h
      | imgGen =>
        rw [inject_imgGen_eq hmode hinit] at h
        refine ⟨?_, ?_, fun hne => absurd rfl hne⟩ <;> split at h
        · exact (dumpImage_frame h).1
        · cases h
          rfl
        · exact (dumpImage_frame h).2.1.trans hinit
        · cases h
          exact hinit

/-- A use of another handle is a fault. -/
theorem fault_of_misuse {h : Handle} (hin : h ∈ c.uses env lib) (hne : h ≠ .opened) :
    c.apply env lib = .error .access := by
  match c with
  | .call (.init path) =>
    simp only [LibCall.uses] at hin
    split at hin
    · rename_i huse
      obtain ⟨hinit, hlist, hmode⟩ := huse
      split at hin
      · rename_i hfile
        show pmfuzzInit env lib path = _
        simp only [pmfuzzInit, hinit, hmode, hlist, hfile, bind, Except.bind]
        rfl
      · exact absurd (List.mem_singleton.mp hin) hne
    · cases hin
  | .call (.event (.hint _)) => cases hin
  | .call (.event (.failure rand)) =>
    simp only [LibCall.uses] at hin
    split at hin
    · rename_i huse
      obtain ⟨hinit, hmode, hfires, hnull⟩ := huse
      obtain rfl := List.mem_singleton.mp hin
      show pmfuzzInjectFailure env lib rand = _
      rw [inject_imgGen_eq hmode hinit, if_pos hfires, dumpImage]
      cases env.saves (lib.failureId + 1) <;> exact (if_pos ⟨rfl, hnull⟩).trans (if_neg hne)
    · cases hin
  | .term =>
    simp only [LibCall.uses] at hin
    split at hin
    · rename_i hlist
      obtain rfl := List.mem_singleton.mp hin
      show pmfuzzTerm env lib = _
      rw [pmfuzzTerm, if_pos hlist, if_neg hne]
    · cases hin

/-! ## After some calls -/

/-- The mode has a list. -/
def Env.Lists (env : Env) : Prop :=
  env.failureList = true ∧ (getFiMode env = .ok .imgGen ∨ getFiMode env = .ok .imgRep)

/-- `pmfuzz_init` was called. -/
def Inits (cs : List LibCall) : Prop := ∃ path, .call (.init path) ∈ cs

/-- The first `pmfuzz_init` opens the list of a mode that has one. -/
theorem pmfuzzInit_ok {path : List Char} (hinit : s.initComplete = false) (hrun : pmfuzzInit env s path = .ok t) :
    t.initComplete = true ∧ (env.Lists → t.handle = .opened) ∧ (¬ env.Lists → t.handle = s.handle) ∧
      (getFiMode env = .ok .imgRep → t.listFile = s.listFile) := by
  cases hmode : getFiMode env with
  | error e =>
    simp only [pmfuzzInit, hinit, hmode] at hrun
    cases hrun
  | ok mode =>
    cases hlist : env.failureList with
    | false =>
      simp only [pmfuzzInit, hinit, hmode, hlist] at hrun
      cases hrun
      refine ⟨rfl, fun hl => ?_, fun _ => rfl, fun _ => rfl⟩
      rw [hl.1] at hlist
      cases hlist
    | true =>
      cases mode with
      | none =>
        simp only [pmfuzzInit, hinit, hmode, hlist] at hrun
        cases hrun
        refine ⟨rfl, fun hl => ?_, fun _ => rfl, fun _ => rfl⟩
        rcases hl.2 with h' | h' <;> cases hmode.symm.trans h'
      | imgGen =>
        have hl : env.Lists := ⟨hlist, .inl hmode⟩
        simp only [pmfuzzInit, hinit, hmode, hlist] at hrun
        cases hw : env.writable with
        | true =>
          rw [hw] at hrun
          cases hrun
          refine ⟨rfl, fun _ => rfl, absurd hl, fun h' => ?_⟩
          cases h'
        | false =>
          rw [hw] at hrun
          cases hrun
      | imgRep =>
        have hl : env.Lists := ⟨hlist, .inr hmode⟩
        cases hfile : s.listFile with
        | none =>
          simp only [pmfuzzInit, hinit, hmode, hlist, hfile] at hrun
          cases hrun
        | some text =>
          cases hread : readIds maxFailureCount text with
          | none =>
            simp only [pmfuzzInit, hinit, hmode, hlist, hfile, hread] at hrun
            cases hrun
          | some ids =>
            simp only [pmfuzzInit, hinit, hmode, hlist, hfile, hread] at hrun
            cases hrun
            exact ⟨rfl, fun _ => rfl, absurd hl, fun _ => rfl⟩

/-- What the calls that were made say of the library. -/
structure After (env : Env) (lib : Lib) (pre : List LibCall) (s : Lib) : Prop where
  complete : s.initComplete = true ↔ Inits pre
  opened : env.Lists → Inits pre → .term ∉ pre → s.handle = .opened
  closed : env.failureList = true → .term ∈ pre → s.handle = .closed ∧ env.Lists ∧ Inits pre
  null : ¬ (env.Lists ∧ Inits pre) → s.handle = .null
  listFile : getFiMode env = .ok .imgRep → s.listFile = lib.listFile

theorem inits_append : Inits (pre ++ [c]) ↔ Inits pre ∨ ∃ path, c = .call (.init path) := by
  simp only [Inits, List.mem_append, List.mem_singleton, exists_or, eq_comm (b := c)]

theorem After.start (h : lib.Fresh) : After env lib [] lib where
  complete := by simp [h.initComplete, Inits]
  opened _ hinits := by simp [Inits] at hinits
  closed _ hterm := absurd hterm List.not_mem_nil
  null _ := h.handle
  listFile _ := rfl

/-- A call that is neither `pmfuzz_init` nor `pmfuzz_term`. -/
theorem After.event {e : Event} (h : After env lib pre s) (hhandle : t.handle = s.handle)
    (hcomplete : t.initComplete = s.initComplete) (hfile : getFiMode env = .ok .imgRep → t.listFile = s.listFile) :
    After env lib (pre ++ [.call (.event e)]) t := by
  have hinits : Inits (pre ++ [.call (.event e)]) ↔ Inits pre := by simp [inits_append]
  have hterm : .term ∈ pre ++ [.call (.event e)] ↔ .term ∈ pre := by simp
  refine ⟨?_, ?_, ?_, ?_, ?_⟩
  · rw [hcomplete, hinits]
    exact h.complete
  · rw [hhandle, hinits, hterm]
    exact h.opened
  · rw [hhandle, hinits, hterm]
    exact h.closed
  · rw [hhandle, hinits]
    exact h.null
  · exact fun hmode => (hfile hmode).trans (h.listFile hmode)

/-- `pmfuzz_init`, the first time. -/
theorem After.init {path : List Char} (h : After env lib pre s) (hinit : s.initComplete = false)
    (hrun : pmfuzzInit env s path = .ok t) : After env lib (pre ++ [.call (.init path)]) t := by
  obtain ⟨hcomplete, hopened, hclosed, hfile⟩ := pmfuzzInit_ok hinit hrun
  have hno : ¬ Inits pre := fun hin => by
    rw [h.complete.mpr hin] at hinit
    cases hinit
  have hterm : env.failureList = true → .term ∉ pre ++ [.call (.init path)] := by
    intro hlist hin
    rcases List.mem_append.mp hin with hin | hin
    · exact hno (h.closed hlist hin).2.2
    · cases List.mem_singleton.mp hin
  have hinits : Inits (pre ++ [.call (.init path)]) := ⟨path, List.mem_append_right _ List.mem_cons_self⟩
  have hnull := h.null fun h' => hno h'.2
  refine ⟨iff_of_true hcomplete hinits, fun hl _ _ => hopened hl, fun hlist hin => absurd hin (hterm hlist),
    fun hnot => ?_, fun hmode => (hfile hmode).trans (h.listFile hmode)⟩
  exact (hclosed fun hl => hnot ⟨hl, hinits⟩).trans hnull

/-- `pmfuzz_term`. -/
theorem After.term (h : After env lib pre s) (hrun : pmfuzzTerm env s = .ok t) : After env lib (pre ++ [.term]) t := by
  have hinits : Inits (pre ++ [.term]) ↔ Inits pre := by simp [inits_append]
  have hterm : LibCall.term ∈ pre ++ [.term] := List.mem_append_right _ List.mem_cons_self
  cases hlist : env.failureList with
  | false =>
    rw [pmfuzzTerm, if_neg (by simp [hlist])] at hrun
    cases hrun
    refine ⟨h.complete.trans hinits.symm, fun _ _ hno => absurd hterm hno, fun h' => ?_, fun hnot => ?_, h.listFile⟩
    · rw [hlist] at h'
      cases h'
    · exact h.null fun h' => hnot ⟨h'.1, hinits.mpr h'.2⟩
  | true =>
    rw [pmfuzzTerm, if_pos hlist] at hrun
    split at hrun
    · rename_i hopened
      cases hrun
      have hlists : env.Lists ∧ Inits pre := by
        by_contra hnot
        rw [h.null hnot] at hopened
        cases hopened
      refine ⟨h.complete.trans hinits.symm, fun _ _ hno => absurd hterm hno, fun _ _ => ?_, fun hnot => ?_, h.listFile⟩
      · exact ⟨rfl, hlists.1, hinits.mpr hlists.2⟩
      · exact absurd ⟨hlists.1, hinits.mpr hlists.2⟩ hnot
    · cases hrun

/-- One more call. -/
theorem After.step (h : After env lib pre s) (hrun : c.apply env s = .ok t) : After env lib (pre ++ [c]) t := by
  match c with
  | .call (.init path) =>
    cases hinit : s.initComplete with
    | false => exact h.init hinit hrun
    | true =>
      cases (init_of_complete hinit).symm.trans hrun
      have hin := h.complete.mp hinit
      have hinits : Inits (pre ++ [.call (.init path)]) ↔ Inits pre := iff_of_true (inits_append.mpr (.inl hin)) hin
      have hterm : .term ∈ pre ++ [.call (.init path)] ↔ .term ∈ pre := by simp
      constructor
      · rw [hinits]
        exact h.complete
      · rw [hinits, hterm]
        exact h.opened
      · rw [hinits, hterm]
        exact h.closed
      · rw [hinits]
        exact h.null
      · exact h.listFile
  | .call (.event (.hint hint)) =>
    obtain ⟨m, -, hrun⟩ := Fold.bind_eq_ok.mp hrun
    cases hrun
    exact h.event rfl rfl fun _ => rfl
  | .call (.event (.failure rand)) =>
    obtain ⟨hhandle, hcomplete, hfile⟩ := inject_frame hrun
    exact h.event hhandle hcomplete fun hmode => hfile fun h' => by cases hmode.symm.trans h'
  | .term => exact h.term hrun

theorem after_run (hfresh : lib.Fresh) (hrun : runCalls env lib pre = .ok s) : After env lib pre s := by
  induction pre using List.reverseRecOn generalizing s with
  | nil =>
    cases hrun
    exact .start hfresh
  | append_singleton pre c ih =>
    rw [runCalls, List.foldlM_append] at hrun
    obtain ⟨u, hu, hrun⟩ := Fold.bind_eq_ok.mp hrun
    obtain ⟨v, hv, hrun⟩ := Fold.foldlM_cons_eq_ok.mp hrun
    cases hrun
    exact (ih hu).step hv

/-! ## Runs -/

/-- Every call that is reached uses open handles only. -/
def UsesOpen (env : Env) (lib : Lib) (cs : List LibCall) : Prop :=
  ∀ pre c, pre ++ [c] <+: cs → ∀ s, runCalls env lib pre = .ok s → UseOpen env s c

/-- What a call needs, after the calls `pre` that led to `s`. -/
def Proper (env : Env) (lib : Lib) (pre : List LibCall) (s : Lib) : LibCall → Prop
  -- the list to replay can be opened
  | .call (.init _) => getFiMode env = .ok .imgRep → Inits pre ∨ lib.listFile ≠ none
  -- after the end no image is dumped
  | .call (.event (.failure rand)) =>
    env.failureList = true → getFiMode env = .ok .imgGen → .term ∈ pre → s.fires env rand = false
  | .call (.event (.hint _)) => True
  -- the list was opened, and not closed since
  | .term => env.failureList = true → env.Lists ∧ Inits pre ∧ .term ∉ pre

theorem failureList_of_imgRep (h : getFiMode env = .ok .imgRep) : env.failureList = true := by
  unfold getFiMode at h
  grind

theorem useOpen_init {path : List Char} (h : After env lib pre s) :
    UseOpen env s (.call (.init path)) ↔ Proper env lib pre s (.call (.init path)) := by
  constructor
  · intro huse hmode
    by_contra hcon
    obtain ⟨hno, hfile⟩ := not_or.mp hcon
    have hinit : s.initComplete = false := Bool.eq_false_of_not_eq_true (mt h.complete.mp hno)
    have hnone : s.listFile = none := (h.listFile hmode).trans (not_not.mp hfile)
    have hin : Handle.null ∈ LibCall.uses env s (.call (.init path)) := by
      rw [LibCall.uses, if_pos ⟨hinit, failureList_of_imgRep hmode, hmode⟩, if_pos hnone]
      exact List.mem_singleton.mpr rfl
    cases huse.opened _ hin
  · intro hproper
    have hfile (hinit : s.initComplete = false) (hmode : getFiMode env = .ok .imgRep) : s.listFile ≠ none := by
      rw [h.listFile hmode]
      refine (hproper hmode).resolve_left fun hin => ?_
      rw [h.complete.mpr hin] at hinit
      cases hinit
    constructor
    · intro handle hin
      rw [LibCall.uses] at hin
      split at hin
      · rename_i huse
        rw [if_neg (hfile huse.1 huse.2.2)] at hin
        exact List.mem_singleton.mp hin
      · cases hin
    · rintro ⟨hinit, hlist, ⟨hmode, hw⟩ | ⟨hmode, hnone⟩⟩
      · show pmfuzzInit env s path = _
        simp only [pmfuzzInit, hinit, hmode, hlist, hw]
        rfl
      · exact absurd hnone (hfile hinit hmode)

theorem useOpen_failure (h : After env lib pre s) :
    UseOpen env s (.call (.event (.failure rand))) ↔ Proper env lib pre s (.call (.event (.failure rand))) := by
  constructor
  · intro huse hlist hmode hterm
    obtain ⟨hclosed, -, hinits⟩ := h.closed hlist hterm
    by_contra hfires
    have hin : s.handle ∈ LibCall.uses env s (.call (.event (.failure rand))) := by
      rw [LibCall.uses, if_pos ⟨h.complete.mpr hinits, hmode, by simpa using hfires, by simp [hclosed]⟩]
      exact List.mem_singleton.mpr rfl
    cases hclosed.symm.trans (huse.opened _ hin)
  · intro hproper
    refine ⟨fun handle hin => ?_, False.elim⟩
    rw [LibCall.uses] at hin
    split at hin
    · rename_i huse
      obtain ⟨hinit, hmode, hfires, hnull⟩ := huse
      obtain rfl := List.mem_singleton.mp hin
      obtain ⟨hlists, hinits⟩ := not_not.mp (mt h.null hnull)
      refine h.opened hlists hinits fun hterm => ?_
      rw [hproper hlists.1 hmode hterm] at hfires
      cases hfires
    · cases hin

theorem useOpen_term (h : After env lib pre s) : UseOpen env s .term ↔ Proper env lib pre s .term := by
  constructor
  · intro huse hlist
    have hopened : s.handle = .opened := by
      refine huse.opened _ ?_
      rw [LibCall.uses, if_pos hlist]
      exact List.mem_singleton.mpr rfl
    have hlists : env.Lists ∧ Inits pre := by
      by_contra hnot
      rw [h.null hnot] at hopened
      cases hopened
    refine ⟨hlists.1, hlists.2, fun hterm => ?_⟩
    rw [(h.closed hlist hterm).1] at hopened
    cases hopened
  · intro hproper
    refine ⟨fun handle hin => ?_, False.elim⟩
    rw [LibCall.uses] at hin
    split at hin
    · rename_i hlist
      obtain rfl := List.mem_singleton.mp hin
      obtain ⟨hlists, hinits, hterm⟩ := hproper hlist
      exact h.opened hlists hinits hterm
    · cases hin

theorem useOpen_iff (h : After env lib pre s) (c : LibCall) : UseOpen env s c ↔ Proper env lib pre s c := by
  match c with
  | .call (.init path) => exact useOpen_init h
  | .call (.event (.failure rand)) => exact useOpen_failure h
  | .call (.event (.hint hint)) => exact iff_of_true ⟨fun _ hin => absurd hin List.not_mem_nil, False.elim⟩ trivial
  | .term => exact useOpen_term h

/-- The handle is used while it is open, in every run whose calls are proper
and in no other. -/
theorem usesOpen_iff (hfresh : lib.Fresh) (cs : List LibCall) : UsesOpen env lib cs ↔
    ∀ pre c, pre ++ [c] <+: cs → ∀ s, runCalls env lib pre = .ok s → Proper env lib pre s c :=
  forall₂_congr fun _ c => forall_congr' fun _ => forall₂_congr fun _ hrun => useOpen_iff (after_run hfresh hrun) c

theorem usesOpen_iff_record :
    UsesOpen recordEnv startLib [.call (.init "a.pm_pool".toList), .call (.event (.failure 0)), .term] ↔
      ∀ pre c, pre ++ [c] <+: [.call (.init "a.pm_pool".toList), .call (.event (.failure 0)), .term] →
        ∀ s, runCalls recordEnv startLib pre = .ok s → Proper recordEnv startLib pre s c :=
  usesOpen_iff startLib_fresh _

/-- A list that is not there is read before the assertion. -/
theorem not_usesOpen_replay : ¬ UsesOpen (recordEnv.replay recordEnv.saves) startLib
    [.call (.init "a.pm_pool".toList)] := fun h => by
  have huse := h [] (.call (.init "a.pm_pool".toList)) List.prefix_rfl startLib rfl
  cases huse.opened .null (by decide)

end PMFuzz.Libpmfuzz
