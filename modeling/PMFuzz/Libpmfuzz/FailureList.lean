import PMFuzz.Framework.Str
import Mathlib.Data.Int.Basic

/-!
# Text of a failure list

The file `FAILURE_LIST` names holds one failure id on each line, written by
`fprintf(.., "%d\n", ..)` and read by `fscanf(.., "%d", ..)`. `readIds_lines`
is the round trip.
-/

namespace PMFuzz.Libpmfuzz

open Str (isSpaceC isDigit_head)

/-- `%d`. -/
def formatD (n : ℤ) : List Char :=
  if n < 0 then '-' :: Nat.toDigits 10 n.natAbs else Nat.toDigits 10 n.natAbs

/-- `"%d\n"`. -/
def line (n : ℤ) : List Char := formatD n ++ ['\n']

/-- What `fscanf(.., "%d", ..)` returns, and the text left. -/
inductive Scan
  /-- `EOF`: the text ends before a number. -/
  | eof
  /-- `0`: no number here. -/
  | mismatch
  /-- `1`, with the number. -/
  | item (n : ℤ) (rest : List Char)
  deriving DecidableEq

/-- Digits at the head of `text`. A sign without digits is no number, also at the end of the text. -/
def scanDigits (text : List Char) (sign : ℤ) : Scan :=
  match text.takeWhile Char.isDigit with
  | [] => .mismatch
  | ds => .item (sign * Nat.ofDigitChars 10 ds 0) (text.dropWhile Char.isDigit)

/-- `fscanf(.., "%d", ..)`: white space, a sign, digits. -/
def scanD (text : List Char) : Scan :=
  match text.dropWhile isSpaceC with
  | [] => .eof
  | '-' :: rest => scanDigits rest (-1)
  | '+' :: rest => scanDigits rest 1
  | text => scanDigits text 1

/-- The reading loop of `pmfuzz_init`, with room for `room` more ids: the ids
stored, or `none` for a word that is no number. -/
def readIds (room : ℕ) (text : List Char) : Option (List ℤ) :=
  match scanD text with
  | .eof => some []
  | .mismatch => none
  | .item n rest =>
    match room with
    | 0 => some []
    | room + 1 => (readIds room rest).map (n :: ·)

/-! ## Round trip -/

theorem scanDigits_toDigits (n : ℕ) (rest : List Char) (sign : ℤ) :
    scanDigits (Nat.toDigits 10 n ++ '\n' :: rest) sign = .item (sign * n) ('\n' :: rest) := by
  have hall : ∀ c ∈ Nat.toDigits 10 n, c.isDigit = true := fun c hc =>
    Nat.isDigit_of_mem_toDigits (by decide) (by decide) hc
  have htake : (Nat.toDigits 10 n ++ '\n' :: rest).takeWhile Char.isDigit = Nat.toDigits 10 n := by
    rw [List.takeWhile_append_of_pos hall, List.takeWhile_cons_of_neg (by decide), List.append_nil]
  have hdrop : (Nat.toDigits 10 n ++ '\n' :: rest).dropWhile Char.isDigit = '\n' :: rest := by
    rw [List.dropWhile_append_of_pos hall, List.dropWhile_cons_of_neg (by decide)]
  unfold scanDigits
  rw [htake, hdrop]
  split
  · rename_i h; exact absurd h Nat.toDigits_ne_nil
  · rw [Nat.ofDigitChars_ten_toDigits]

theorem scanD_line (n : ℤ) (rest : List Char) : scanD (line n ++ rest) = .item n ('\n' :: rest) := by
  have hassoc : line n ++ rest = formatD n ++ '\n' :: rest := by simp [line]
  rw [hassoc]
  unfold formatD
  split
  · rename_i hneg
    have hdrop : ('-' :: Nat.toDigits 10 n.natAbs ++ '\n' :: rest).dropWhile isSpaceC =
        '-' :: (Nat.toDigits 10 n.natAbs ++ '\n' :: rest) := List.dropWhile_cons_of_neg (by decide)
    unfold scanD
    rw [hdrop]
    simp only
    rw [scanDigits_toDigits]
    congr 1
    omega
  · rename_i hpos
    obtain ⟨c, ds, hds⟩ := List.exists_cons_of_ne_nil (Nat.toDigits_ne_nil (n := n.natAbs) (b := 10))
    obtain ⟨hw, hm, hp⟩ := isDigit_head
      (Nat.isDigit_of_mem_toDigits (b := 10) (n := n.natAbs) (c := c) (by decide) (by decide)
        (by rw [hds]; exact List.mem_cons_self))
    have hdrop : (Nat.toDigits 10 n.natAbs ++ '\n' :: rest).dropWhile isSpaceC =
        Nat.toDigits 10 n.natAbs ++ '\n' :: rest := by
      rw [hds, List.cons_append, List.dropWhile_cons_of_neg (by simp [hw])]
    have hscan : scanD (Nat.toDigits 10 n.natAbs ++ '\n' :: rest) =
        scanDigits (Nat.toDigits 10 n.natAbs ++ '\n' :: rest) 1 := by
      unfold scanD
      rw [hdrop, hds, List.cons_append]
      split
      · rename_i heq; cases heq
      · rename_i heq; cases heq; exact absurd rfl hm
      · rename_i heq; cases heq; exact absurd rfl hp
      · rfl
    rw [hscan, scanDigits_toDigits]
    congr 1
    omega

/-- White space before a number is skipped. -/
theorem scanD_newline (text : List Char) : scanD ('\n' :: text) = scanD text := by
  unfold scanD
  rw [List.dropWhile_cons_of_pos (by decide)]

theorem readIds_newline (room : ℕ) (text : List Char) :
    readIds room ('\n' :: text) = readIds room text := by
  rw [readIds.eq_def, readIds.eq_def room text, scanD_newline]

/-- The ids read back from a list of lines are those written, as far as
there is room. -/
theorem readIds_lines (room : ℕ) (ids : List ℤ) :
    readIds room (ids.flatMap line) = some (ids.take room) := by
  induction ids generalizing room with
  | nil =>
    rw [List.flatMap_nil, readIds.eq_def, List.take_nil]
    rfl
  | cons n ids ih =>
    rw [List.flatMap_cons, readIds.eq_def, scanD_line]
    cases room with
    | zero => rfl
    | succ room =>
      simp only [readIds_newline, ih]
      rfl

end PMFuzz.Libpmfuzz
