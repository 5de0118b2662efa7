import PMFuzz.Framework.Fold
import PMFuzz.Names.Metadata

/-!
# Stage directories

`get_outdir_name` names the directory of an iteration of a stage, and
`get_stage_inf` reads the two numbers back (`getStageInf_stageDir`).
-/

namespace PMFuzz.Names

open Str

/-! ## Numbers -/

/-- The value of a decimal digit. -/
def digitValue (c : Char) : ℕ :=
  c.toNat - (digitZeros.find? fun z => decide (z ≤ c.toNat ∧ c.toNat < z + 10)).getD 0

/-- The value of a text of digits. -/
def decimal (ds : Str) : ℕ := ds.foldl (fun n c => 10 * n + digitValue c) 0

/-- `int`: the text that names have there has no sign and no `_`. -/
def int (s : Str) : Except Stop ℕ :=
  if IsDigits (strip s) then .ok (decimal (strip s)) else .error .valueError

/-- A digit is no white space. -/
theorem not_isSpace {c : Char} (h : isDigit c = true) : ¬ isSpace c = true := by
  have hapart : ∀ z ∈ digitZeros, ∀ r ∈ spaceRanges, r.2 < z ∨ z + 10 ≤ r.1 := by decide
  intro hs
  obtain ⟨z, hz, hdigit⟩ := List.any_eq_true.mp h
  obtain ⟨r, hr, hspace⟩ := List.any_eq_true.mp hs
  have := of_decide_eq_true hdigit
  have := of_decide_eq_true hspace
  have := hapart z hz r hr
  omega

theorem int_digits {ds : Str} (h : IsDigits ds) : int ds = .ok (decimal ds) := by
  have hleft : ds.dropWhile isSpace = ds := by
    obtain ⟨x, s, rfl⟩ := List.exists_cons_of_ne_nil h.ne_nil
    exact List.dropWhile_cons_of_neg (not_isSpace (h.digit x List.mem_cons_self))
  have hstrip : strip ds = ds := by
    rw [strip, hleft, List.rdropWhile_eq_self_iff]
    exact fun hne => not_isSpace (h.digit _ (List.getLast_mem hne))
  rw [int, hstrip, if_pos h]

/-- An ASCII digit. -/
theorem isDigit_ascii {c : Char} (h : c.isDigit = true) : isDigit c = true ∧ digitValue c = c.toNat - '0'.toNat := by
  rw [Char.isDigit, Bool.and_eq_true, decide_eq_true_iff, decide_eq_true_iff] at h
  have hlow : 0x30 ≤ c.toNat := UInt32.le_iff_toNat_le.mp h.1
  have hhigh : c.toNat ≤ 0x39 := UInt32.le_iff_toNat_le.mp h.2
  have hzero : 0x30 ≤ c.toNat ∧ c.toNat < 0x30 + 10 := ⟨hlow, by omega⟩
  constructor
  · exact List.any_eq_true.mpr ⟨0x30, by decide, decide_eq_true hzero⟩
  · have hfind : digitZeros.find? (fun z => decide (z ≤ c.toNat ∧ c.toNat < z + 10)) = some 0x30 :=
      List.find?_cons_of_pos (p := fun z => decide (z ≤ c.toNat ∧ c.toNat < z + 10)) (decide_eq_true hzero)
    rw [digitValue, hfind]
    rfl

/-- A numeral is read back. -/
theorem int_toDigits (n : ℕ) : int (Nat.toDigits 10 n) = .ok n := by
  have hascii : ∀ c ∈ Nat.toDigits 10 n, c.isDigit = true := fun c hc =>
    Nat.isDigit_of_mem_toDigits (by decide) (by decide) hc
  have hvalue : ∀ (ds : Str) (m : ℕ), (∀ c ∈ ds, c.isDigit = true) →
      ds.foldl (fun n c => 10 * n + digitValue c) m = Nat.ofDigitChars 10 ds m := by
    intro ds
    induction ds with
    | nil => intro m _; rfl
    | cons c ds ih =>
      intro m h
      rw [List.foldl_cons, ih _ fun x hx => h x (List.mem_cons_of_mem c hx), Nat.ofDigitChars_cons,
        (isDigit_ascii (h c List.mem_cons_self)).2]
  rw [int_digits ⟨Nat.toDigits_ne_nil, fun c hc => (isDigit_ascii (hascii c hc)).1⟩, decimal, hvalue _ _ hascii,
    Nat.ofDigitChars_ten_toDigits]

/-! ## Directories -/

/-- `'stage=' + str(stage) + ',iter=' + str(iter_id)`. -/
def stageDir (stage iterId : ℕ) : Str :=
  "stage=".toList ++ Nat.toDigits 10 stage ++ ",iter=".toList ++ Nat.toDigits 10 iterId

/-- `get_outdir_name`. -/
def getOutdirName (stage iterId : ℕ) : Except Stop Str :=
  if iterId < 1 then .error (.abort "iter_id should be greater than 0".toList)
  else if stage < 1 then .error (.abort "stage should be greater than 0".toList)
  else .ok (stageDir stage iterId)

/-- `token.split('=')[1]`. -/
def tokenValue (token : Str) : Except Stop Str :=
  match (split token '=')[1]? with
  | some value => .ok value
  | none => .error .indexError

/-- One round of the loop of `get_stage_inf`. -/
def readToken (inf : Option ℕ × Option ℕ) (token : Str) : Except Stop (Option ℕ × Option ℕ) := do
  if "stage".toList <:+: token then return (some (← int (← tokenValue token)), inf.2)
  else if "iter".toList <:+: token then return (inf.1, some (← int (← tokenValue token)))
  else .error (.abort ("Unkown token ".toList ++ token ++ ".".toList))

/-- `get_stage_inf`. -/
def getStageInf (dirname : Str) : Except Stop (ℕ × ℕ) :=
  if ¬ "stage=".toList <:+: dirname ∨ ¬ ",iter=".toList <:+: dirname then
    .error (.abort ("Invalid dirname (".toList ++ dirname ++ ").".toList))
  else do
    match ← (split dirname ',').foldlM readToken (none, none) with
    | (none, _) => .error (.abort ("Unable to extract stage from ".toList ++ dirname ++ ".".toList))
    | (_, none) => .error (.abort ("Unable to extract iter_id from ".toList ++ dirname ++ ".".toList))
    | (some stage, some iterId) => return (stage, iterId)

variable {n s i : ℕ}

theorem getOutdirName_of_pos (hs : 1 ≤ s) (hi : 1 ≤ i) : getOutdirName s i = .ok (stageDir s i) := by
  rw [getOutdirName, if_neg (by omega), if_neg (by omega)]

/-- A character that is no digit is in no numeral. -/
theorem notMem_toDigits {c : Char} (hc : c.isDigit = false) : c ∉ Nat.toDigits 10 n := fun h => by
  have := Nat.isDigit_of_mem_toDigits (by decide) (by decide) h
  rw [hc] at this
  cases this

theorem notMem_token {c : Char} {key : Str} (hc : c.isDigit = false) (heq : c ≠ '=') (hkey : c ∉ key) :
    c ∉ key ++ '=' :: Nat.toDigits 10 n := by
  rw [List.mem_append, List.mem_cons, not_or, not_or]
  exact ⟨hkey, heq, notMem_toDigits hc⟩

/-- A key of the name with its number. -/
theorem tokenValue_eq {key : Str} (hkey : '=' ∉ key) :
    tokenValue (key ++ '=' :: Nat.toDigits 10 n) = .ok (Nat.toDigits 10 n) := by
  have hsplit : split (key ++ '=' :: Nat.toDigits 10 n) '=' = [key, Nat.toDigits 10 n] := by
    rw [split, List.splitOn_append_cons_self, List.splitOn_eq_singleton hkey,
      List.splitOn_eq_singleton (notMem_toDigits (by decide))]
    rfl
  rw [tokenValue, hsplit]
  rfl

theorem stageDir_eq : stageDir s i =
    ("stage".toList ++ '=' :: Nat.toDigits 10 s) ++ ',' :: ("iter".toList ++ '=' :: Nat.toDigits 10 i) := by
  unfold stageDir
  generalize Nat.toDigits 10 s = stage
  generalize Nat.toDigits 10 i = iter
  simp

/-- The numbers in the name of a stage directory are read back. -/
theorem getStageInf_stageDir (s i : ℕ) : getStageInf (stageDir s i) = .ok (s, i) := by
  have hstage : "stage=".toList <:+: stageDir s i := by
    unfold stageDir
    rw [List.append_assoc, List.append_assoc]
    exact (List.prefix_append _ _).isInfix
  have hiter : ",iter=".toList <:+: stageDir s i := by
    unfold stageDir
    exact List.infix_append _ _ _
  have hsplit : split (stageDir s i) ',' =
      ["stage".toList ++ '=' :: Nat.toDigits 10 s, "iter".toList ++ '=' :: Nat.toDigits 10 i] := by
    rw [stageDir_eq, split, List.splitOn_append_cons_self,
      List.splitOn_eq_singleton (notMem_token (by decide) (by decide) (by decide)),
      List.splitOn_eq_singleton (notMem_token (by decide) (by decide) (by decide))]
    rfl
  have hfirst : readToken (none, none) ("stage".toList ++ '=' :: Nat.toDigits 10 s) =
      .ok (some s, none) := by
    have hin : "stage".toList <:+: "stage".toList ++ '=' :: Nat.toDigits 10 s :=
      (List.prefix_append _ _).isInfix
    unfold readToken
    rw [if_pos hin, tokenValue_eq (by decide)]
    show (int (Nat.toDigits 10 s) >>= fun v => pure (some v, none)) = _
    rw [int_toDigits]
    rfl
  have hsecond : readToken (some s, none) ("iter".toList ++ '=' :: Nat.toDigits 10 i) =
      .ok (some s, some i) := by
    have hno : ¬ "stage".toList <:+: "iter".toList ++ '=' :: Nat.toDigits 10 i :=
      not_infix_of_mem (p := 's') (by decide) (notMem_token (by decide) (by decide) (by decide))
    have hin : "iter".toList <:+: "iter".toList ++ '=' :: Nat.toDigits 10 i :=
      (List.prefix_append _ _).isInfix
    unfold readToken
    rw [if_neg hno, if_pos hin, tokenValue_eq (by decide)]
    show (int (Nat.toDigits 10 i) >>= fun v => pure (some s, some v)) = _
    rw [int_toDigits]
    rfl
  unfold getStageInf
  rw [if_neg (not_or.mpr ⟨not_not.mpr hstage, not_not.mpr hiter⟩), hsplit]
  have hloop : [("stage".toList ++ '=' :: Nat.toDigits 10 s), "iter".toList ++ '=' :: Nat.toDigits 10 i].foldlM
      readToken (none, none) = .ok (some s, some i) :=
    Fold.foldlM_cons_eq_ok.mpr ⟨_, hfirst, Fold.foldlM_cons_eq_ok.mpr ⟨_, hsecond, rfl⟩⟩
  rw [hloop]
  rfl

/-- No two iterations share a directory. -/
theorem stageDir_inj {s' i' : ℕ} (h : stageDir s i = stageDir s' i') : s = s' ∧ i = i' := by
  have := congrArg getStageInf h
  rw [getStageInf_stageDir, getStageInf_stageDir] at this
  cases this
  exact ⟨rfl, rfl⟩

/-- The name of a stage directory is no special one. -/
theorem head?_stageDir : (stageDir s i).head? = some 's' := rfl

end PMFuzz.Names
