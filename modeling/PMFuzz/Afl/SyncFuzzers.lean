import PMFuzz.Afl.DryRun
import PMFuzz.Framework.Dir
import PMFuzz.Framework.Run

/-!
# Importing what another fuzzer has found

`sync_fuzzers` goes through the queue of another fuzzer, round after round,
while that fuzzer goes on making files. Of what it has looked at it keeps one number
only, the least that it has not seen in a round, and the next round skips all
files with lower numbers, whatever came of them.

The steps of the two fuzzers are those of one system, in any order (`Import.step`), and
`Import.Wf` holds in all its states. Numbers are read off at most six
characters: `syncingCase_of_lt`, `syncingCase_lt`.
-/

namespace PMFuzz.Afl

open Str (isSpaceC isDigit_bounds isDigit_head)

/-! ## The code -/

/-- The conversion `%06u`: six characters at most, a sign among them. -/
def scanU06 (s : Str) : Option ℕ :=
  let field := (s.dropWhile isSpaceC).take 6
  let digits := (if field.head? = some '-' ∨ field.head? = some '+' then field.tail else field).takeWhile Char.isDigit
  let value := Nat.ofDigitChars 10 digits 0
  if digits = [] then none
  else if field.head? = some '-' then some ((2 ^ 32 - value) % 2 ^ 32)
  else some value

/-- `syncing_case`, as `sscanf` reads it. -/
def syncingCase (dName : Str) : Option ℕ :=
  if "id:".toList.isPrefixOf dName then scanU06 (dName.drop 3) else none

/-- What is made of a name that `readdir` returns: `next_min_accept`, and the input that is run. -/
def syncCase (minAccept nextMinAccept : ℕ) (dName : Str) (file : Option (List UInt8)) : ℕ × Option (List UInt8) :=
  if dName.head? = some '.' then (nextMinAccept, none)
  else match syncingCase dName with
    | none => (nextMinAccept, none)
    | some n =>
      if n < minAccept then (nextMinAccept, none)
      else (if n ≥ nextMinAccept then (n + 1) % 2 ^ 32 else nextMinAccept,
        file.filter fun mem => mem ≠ [] ∧ mem.length ≤ maxFile)

/-- A directory that is gone through. -/
structure Round where
  minAccept : ℕ
  nextMinAccept : ℕ
  /-- What `readdir` may return: what has been there at some time since `opendir`. -/
  listed : Finset Str
  /-- What it has to return: what has been there all the time. -/
  due : Finset Str
  seen : Finset Str

/-- The queue of another fuzzer and what is imported of it. -/
structure Import where
  dir : PMFuzz.Dir
  /-- The number in `.synced/`. -/
  synced : ℕ
  round : Option Round
  runs : List (Str × List UInt8)
  stopped : Bool

/-- What the other fuzzer does, and then what this one does. -/
inductive Event
  | create (dName : Str)
  | write (dName : Str) (content : List UInt8)
  | unlink (dName : Str)
  | opendir
  | readdir (dName : Str)
  | closedir
  /-- Ctrl+C. -/
  | stop
  deriving DecidableEq

/-- A file is opened with `O_CREAT | O_EXCL`. If it is a new one of an old name, it may be listed again. -/
def Import.create (s : Import) (n : Str) : Option Import :=
  if n ∈ s.dir then none
  else some { s with
    dir := s.dir.insert n []
    round := s.round.map fun r => { r with listed := insert n r.listed, seen := r.seen.erase n } }

/-- A file is removed. It may be listed all the same. -/
def Import.unlink (s : Import) (n : Str) : Option Import :=
  if n ∈ s.dir then
    some { s with dir := s.dir.erase n, round := s.round.map fun r => { r with due := r.due.erase n } }
  else none

/-- The queue is opened, and the last number read. -/
def Import.opendir (s : Import) : Option Import :=
  if s.round.isSome ∨ s.stopped then none
  else some { s with round := some ⟨s.synced, s.synced, s.dir.keys, s.dir.keys, ∅⟩ }

/-- A turn of the loop over the queue. -/
def Import.readdir (s : Import) (n : Str) : Option Import :=
  match s.round with
  | none => none
  | some r =>
    if n ∈ r.listed ∧ n ∉ r.seen then
      let a := syncCase r.minAccept r.nextMinAccept n (s.dir.lookup n)
      some { s with
        round := some { r with nextMinAccept := a.1, seen := insert n r.seen }
        runs := s.runs ++ a.2.toList.map fun mem => (n, mem) }
    else none

/-- The number is written when all of the queue has been looked at. -/
def Import.closedir (s : Import) : Option Import :=
  match s.round with
  | none => none
  | some r => if r.due ⊆ r.seen then some { s with synced := r.nextMinAccept, round := none } else none

/-- `goto close_sync`: the number is not written. -/
def Import.stop (s : Import) : Option Import :=
  match s.round with
  | none => none
  | some _ => some { s with round := none, stopped := true }

/-- A step of the system. -/
def Import.step (s : Import) : Event → Option Import
  | .create n => s.create n
  | .write n content => if n ∈ s.dir then some { s with dir := s.dir.insert n content } else none
  | .unlink n => s.unlink n
  | .opendir => s.opendir
  | .readdir n => s.readdir n
  | .closedir => s.closedir
  | .stop => s.stop

/-- Nothing is imported yet of a queue. -/
def Import.initial (dir : PMFuzz.Dir) : Import where
  dir := dir
  synced := 0
  round := none
  runs := []
  stopped := false

/-! ## Numbers -/

variable {s t u : Import} {r : Round} {e : Event} {es es' : List Event} {n m : Str} {c minAccept nextMinAccept : ℕ}
  {file : Option (List UInt8)}

/-- The name has a number that is not skipped. -/
def Accepts (minAccept : ℕ) (n : Str) : Prop := ∃ c, syncingCase n = some c ∧ minAccept ≤ c

/-- If the name has a number at all, the next one is a `u32`, too. -/
def Numbered (n : Str) : Prop := ∀ c, syncingCase n = some c → c + 1 < 2 ^ 32

theorem syncCase_of_accepts (h : syncingCase n = some c) (hc : minAccept ≤ c) :
    syncCase minAccept nextMinAccept n file = (if c ≥ nextMinAccept then (c + 1) % 2 ^ 32 else nextMinAccept,
      file.filter fun mem => mem ≠ [] ∧ mem.length ≤ maxFile) := by
  have hdot : ¬ n.head? = some '.' := fun hdot => by
    cases n with
    | nil => cases hdot
    | cons x n =>
      obtain rfl := Option.some.inj hdot
      unfold syncingCase at h
      rw [if_neg (by simp)] at h
      cases h
  unfold syncCase
  rw [if_neg hdot, h]
  exact if_neg (Nat.not_lt.mpr hc)

theorem syncCase_of_not_accepts (h : ¬ Accepts minAccept n) :
    syncCase minAccept nextMinAccept n file = (nextMinAccept, none) := by
  unfold syncCase
  split
  · rfl
  · split
    · rfl
    · rename_i c hc
      rw [if_pos]
      exact Nat.not_le.mp fun hle => h ⟨c, hc, hle⟩

/-- The number of a round never goes down, and passes what has been looked at. -/
theorem syncCase_fst (minAccept nextMinAccept : ℕ) (file : Option (List UInt8)) (hn : Numbered n) : nextMinAccept ≤
    (syncCase minAccept nextMinAccept n file).1 ∧
    ∀ c, syncingCase n = some c → minAccept ≤ c → c < (syncCase minAccept nextMinAccept n file).1 := by
  by_cases h : Accepts minAccept n
  · obtain ⟨c, hc, hle⟩ := h
    have hmod : (c + 1) % 2 ^ 32 = c + 1 := Nat.mod_eq_of_lt (hn c hc)
    rw [syncCase_of_accepts hc hle, hmod]
    dsimp only
    refine ⟨by split <;> omega, fun c' hc' _ => ?_⟩
    obtain rfl : c = c' := Option.some.inj (hc.symm.trans hc')
    split <;> omega
  · rw [syncCase_of_not_accepts h]
    exact ⟨le_rfl, fun c hc hle => absurd ⟨c, hc, hle⟩ h⟩

/-- Only what is not skipped is run. -/
theorem accepts_of_run (h : (syncCase minAccept nextMinAccept n file).2.isSome = true) : Accepts minAccept n := by
  by_contra hno
  rw [syncCase_of_not_accepts hno] at h
  cases h

/-! ## Names of the fuzzer -/

/-- Digits are read up to the sixth, if nothing that comes before it is one. -/
theorem scanU06_digits {ds rest : Str} (hds : ∀ x ∈ ds, x.isDigit = true) (hne : ds ≠ [])
    (hrest : ∀ x ∈ rest.head?, x.isDigit = false) :
    scanU06 (ds ++ rest) = some (Nat.ofDigitChars 10 (ds.take 6) 0) := by
  cases ds with
  | nil => exact absurd rfl hne
  | cons d ds =>
    obtain ⟨hspace, hminus, hplus⟩ := isDigit_head (hds d List.mem_cons_self)
    have hsign : ¬ (d = '-' ∨ d = '+') := not_or.mpr ⟨hminus, hplus⟩
    have hfield : ((d :: ds ++ rest).dropWhile isSpaceC).take 6 = (d :: ds ++ rest).take 6 := by
      rw [List.cons_append, List.dropWhile_cons_of_neg (by rw [hspace]; exact Bool.false_ne_true)]
    have hhead : ((d :: ds ++ rest).take 6).head? = some d := rfl
    have hdigits : ((d :: ds ++ rest).take 6).takeWhile Char.isDigit = (d :: ds).take 6 := by
      rw [List.take_append, List.takeWhile_append_of_pos fun x hx => hds x (List.mem_of_mem_take hx)]
      have hnone : (rest.take (6 - (d :: ds).length)).takeWhile Char.isDigit = [] := by
        cases rest with
        | nil => simp
        | cons x rest =>
          have hx := hrest x rfl
          cases hlen : 6 - (d :: ds).length with
          | zero => rfl
          | succ k => rw [List.take_succ_cons, List.takeWhile_cons_of_neg (by rw [hx]; exact Bool.false_ne_true)]
      rw [hnone, List.append_nil]
    unfold scanU06
    simp only [hfield, hhead, Option.some.injEq, hsign, if_false, hdigits]
    rw [if_neg (by simp), if_neg hminus]

theorem isDigit_format06d {k : ℕ} {x : Char} (hx : x ∈ Libpmfuzz.format06d k) : x.isDigit = true := by
  rw [Names.format06d_natCast] at hx
  rcases List.mem_append.mp hx with hx | hx
  · rw [(List.mem_replicate.mp hx).2]
    rfl
  · exact Nat.isDigit_of_mem_toDigits (by decide) (by decide) hx

/-- The name of an entry, without its directory. -/
def Name.dName (name : Name) : Str := "id:".toList ++ (Libpmfuzz.format06d name.id ++ ',' :: name.op)

theorem syncingCase_dName (name : Name) :
    syncingCase name.dName = some (Nat.ofDigitChars 10 ((Libpmfuzz.format06d name.id).take 6) 0) := by
  have hne := (Names.isDigits_format06d name.id).ne_nil
  unfold syncingCase
  rw [if_pos (by simp [Name.dName])]
  exact scanU06_digits (fun x hx => isDigit_format06d hx) hne fun x hx => by
    obtain rfl : ',' = x := Option.some.inj hx
    rfl

theorem length_format06d {k : ℕ} (h : k < 10 ^ 6) : (Libpmfuzz.format06d k).length = 6 := by
  have hle : (Nat.toDigits 10 k).length ≤ 6 := (Nat.length_toDigits_le_iff (by decide) (by decide)).mpr h
  rw [Names.format06d_natCast, List.length_append, List.length_replicate]
  omega

/-- Below a million, the number is the one in the name. -/
theorem syncingCase_of_lt {name : Name} (h : name.id < 10 ^ 6) : syncingCase name.dName = some name.id := by
  rw [syncingCase_dName, List.take_of_length_le (length_format06d h).le, Names.ofDigitChars_format06d]

theorem ofDigitChars_lt {ds : Str} (hds : ∀ x ∈ ds, x.isDigit = true) : Nat.ofDigitChars 10 ds 0 < 10 ^ ds.length := by
  induction ds using List.reverseRecOn with
  | nil => decide
  | append_singleton ds x ih =>
    have hx := (isDigit_bounds (hds x (by simp))).2
    have hlt := ih fun y hy => hds y (List.mem_append_left _ hy)
    have hzero : '0'.toNat = 48 := rfl
    rw [Nat.ofDigitChars_append, Nat.ofDigitChars_cons, Nat.ofDigitChars_nil, List.length_append, List.length_singleton,
      pow_succ, hzero]
    omega

/-- Any number is read as one below a million. -/
theorem syncingCase_lt (name : Name) (h : syncingCase name.dName = some c) : c < 10 ^ 6 := by
  rw [syncingCase_dName] at h
  obtain rfl := Option.some.inj h
  have hlt : Nat.ofDigitChars 10 ((Libpmfuzz.format06d name.id).take 6) 0 < _ :=
    ofDigitChars_lt fun x hx => isDigit_format06d (List.mem_of_mem_take hx)
  refine hlt.trans_le (Nat.pow_le_pow_right (by decide) ?_)
  rw [List.length_take]
  exact Nat.min_le_left ..

theorem Name.numbered (name : Name) : Numbered name.dName := fun c hc => by
  have := syncingCase_lt name hc
  omega

/-! ## Rounds -/

/-- A round that is going on. -/
structure Round.Wf (r : Round) (s : Import) : Prop where
  listed : ∀ n ∈ r.listed, Numbered n
  dir : ∀ n ∈ s.dir, n ∈ r.listed
  minAccept : r.minAccept = s.synced
  le : r.minAccept ≤ r.nextMinAccept
  seen : ∀ n ∈ r.seen, ∀ c, syncingCase n = some c → r.minAccept ≤ c → c < r.nextMinAccept

/-- What holds whatever the two fuzzers do. -/
structure Import.Wf (s : Import) : Prop where
  numbered : ∀ n ∈ s.dir, Numbered n
  round : ∀ r, s.round = some r → r.Wf s

theorem initial_wf {dir : PMFuzz.Dir} (h : ∀ n ∈ dir, Numbered n) : (Import.initial dir).Wf :=
  ⟨h, fun _ hr => by cases hr⟩

/-- A new file. -/
theorem create_eq (h : s.step (.create n) = some t) : n ∉ s.dir ∧ t = { s with
    dir := s.dir.insert n []
    round := s.round.map fun r => { r with listed := insert n r.listed, seen := r.seen.erase n } } := by
  change s.create n = some t at h
  unfold Import.create at h
  split at h
  · cases h
  · rename_i hn
    exact ⟨hn, (Option.some.inj h).symm⟩

theorem write_eq {content : List UInt8} (h : s.step (.write n content) = some t) :
    n ∈ s.dir ∧ t = { s with dir := s.dir.insert n content } := by
  change (if n ∈ s.dir then some { s with dir := s.dir.insert n content } else none) = some t at h
  split at h
  · rename_i hn
    exact ⟨hn, (Option.some.inj h).symm⟩
  · cases h

theorem unlink_eq (h : s.step (.unlink n) = some t) : t = { s with
    dir := s.dir.erase n, round := s.round.map fun r => { r with due := r.due.erase n } } := by
  change s.unlink n = some t at h
  unfold Import.unlink at h
  split at h
  · exact (Option.some.inj h).symm
  · cases h

theorem opendir_eq (h : s.step .opendir = some t) : s.round = none ∧ s.stopped = false ∧
    t = { s with round := some ⟨s.synced, s.synced, s.dir.keys, s.dir.keys, ∅⟩ } := by
  change s.opendir = some t at h
  unfold Import.opendir at h
  split at h
  · cases h
  · rename_i hno
    rw [not_or, Bool.not_eq_true, Bool.not_eq_true, Option.isSome_eq_false_iff, Option.isNone_iff_eq_none] at hno
    exact ⟨hno.1, hno.2, (Option.some.inj h).symm⟩

theorem readdir_eq (h : s.step (.readdir n) = some t) : ∃ r, s.round = some r ∧ n ∈ r.listed ∧ n ∉ r.seen ∧
    t = { s with
      round := some { r with
        nextMinAccept := (syncCase r.minAccept r.nextMinAccept n (s.dir.lookup n)).1, seen := insert n r.seen }
      runs := s.runs ++
        (syncCase r.minAccept r.nextMinAccept n (s.dir.lookup n)).2.toList.map fun mem => (n, mem) } := by
  change s.readdir n = some t at h
  unfold Import.readdir at h
  split at h
  · cases h
  · rename_i r hr
    split at h
    · rename_i hn
      exact ⟨r, hr, hn.1, hn.2, (Option.some.inj h).symm⟩
    · cases h

theorem closedir_eq (h : s.step .closedir = some t) : ∃ r, s.round = some r ∧ r.due ⊆ r.seen ∧
    t = { s with synced := r.nextMinAccept, round := none } := by
  change s.closedir = some t at h
  unfold Import.closedir at h
  split at h
  · cases h
  · rename_i r hr
    split at h
    · rename_i hdue
      exact ⟨r, hr, hdue, (Option.some.inj h).symm⟩
    · cases h

theorem stop_eq (h : s.step .stop = some t) : s.round.isSome = true ∧
    t = { s with round := none, stopped := true } := by
  change s.stop = some t at h
  unfold Import.stop at h
  split at h
  · cases h
  · rename_i r hr
    exact ⟨by rw [hr]; rfl, (Option.some.inj h).symm⟩

theorem Import.Wf.step (hs : s.Wf) (he : ∀ n, e = .create n → Numbered n) (h : s.step e = some t) : t.Wf := by
  cases e with
  | create n =>
    obtain ⟨-, rfl⟩ := create_eq h
    have hn := he n rfl
    refine ⟨fun m hm => ?_, fun r' hr' => ?_⟩
    · rcases Finmap.mem_insert.mp hm with rfl | hm
      · exact hn
      · exact hs.numbered m hm
    · obtain ⟨r, hr, rfl⟩ := Option.map_eq_some_iff.mp hr'
      have hwf := hs.round r hr
      refine ⟨fun m hm => ?_, fun m hm => ?_, hwf.minAccept, hwf.le,
        fun m hm => hwf.seen m (Finset.mem_of_mem_erase hm)⟩
      · rcases Finset.mem_insert.mp hm with rfl | hm
        · exact hn
        · exact hwf.listed m hm
      · rcases Finmap.mem_insert.mp hm with rfl | hm
        · exact Finset.mem_insert_self ..
        · exact Finset.mem_insert_of_mem (hwf.dir m hm)
  | write n content =>
    obtain ⟨hn, rfl⟩ := write_eq h
    have hmem : ∀ m ∈ s.dir.insert n content, m ∈ s.dir := fun m hm =>
      (Finmap.mem_insert.mp hm).elim (fun heq => heq ▸ hn) id
    refine ⟨fun m hm => hs.numbered m (hmem m hm), fun r hr => ?_⟩
    have hwf := hs.round r hr
    exact ⟨hwf.listed, fun m hm => hwf.dir m (hmem m hm), hwf.minAccept, hwf.le, hwf.seen⟩
  | unlink n =>
    obtain rfl := unlink_eq h
    have hmem : ∀ m ∈ s.dir.erase n, m ∈ s.dir := fun m hm => (Finmap.mem_erase.mp hm).2
    refine ⟨fun m hm => hs.numbered m (hmem m hm), fun r' hr' => ?_⟩
    obtain ⟨r, hr, rfl⟩ := Option.map_eq_some_iff.mp hr'
    have hwf := hs.round r hr
    exact ⟨hwf.listed, fun m hm => hwf.dir m (hmem m hm), hwf.minAccept, hwf.le, hwf.seen⟩
  | opendir =>
    obtain ⟨-, -, rfl⟩ := opendir_eq h
    refine ⟨hs.numbered, fun r hr => ?_⟩
    obtain rfl := Option.some.inj hr
    exact ⟨fun m hm => hs.numbered m (Finmap.mem_keys.mp hm), fun m hm => Finmap.mem_keys.mpr hm, rfl, le_rfl,
      fun m hm => absurd hm (Finset.notMem_empty m)⟩
  | readdir n =>
    obtain ⟨r, hr, hlisted, -, rfl⟩ := readdir_eq h
    have hwf := hs.round r hr
    obtain ⟨hle, hlt⟩ := syncCase_fst r.minAccept r.nextMinAccept (s.dir.lookup n) (hwf.listed n hlisted)
    refine ⟨hs.numbered, fun r' hr' => ?_⟩
    obtain rfl := Option.some.inj hr'
    refine ⟨hwf.listed, hwf.dir, hwf.minAccept, hwf.le.trans hle, fun m hm c hc hmin => ?_⟩
    rcases Finset.mem_insert.mp hm with rfl | hm
    · exact hlt c hc hmin
    · exact (hwf.seen m hm c hc hmin).trans_le hle
  | closedir =>
    obtain ⟨r, hr, -, rfl⟩ := closedir_eq h
    exact ⟨hs.numbered, fun r' hr' => by cases hr'⟩
  | stop =>
    obtain ⟨-, rfl⟩ := stop_eq h
    exact ⟨hs.numbered, fun r' hr' => by cases hr'⟩

end PMFuzz.Afl
