import PMFuzz.Framework.Glob
import PMFuzz.Names.Parents
import PMFuzz.Names.StageDirs

/-!
# Lineage

`get_lineage` of `name_handler.py`: the ids of the `,` tags of a name, with
the failure ids after a `.` cut off. A `,` tag adds its id to the lineage
of what comes before it (`lineage_comma`), a `.` tag adds nothing
(`lineage_dot`). `should_use_tc` and `should_use_cs` compare it with the ids
selected for stage 2.
-/

namespace PMFuzz.Names

open Str Glob

/-- The id of a token of `get_lineage`. -/
def tokenId (tkn : Str) : Except Stop ℕ :=
  -- if there is a crash image extension, remove it
  let cleanTkn := if '.' ∈ tkn then tkn.take (tkn.idxOf '.') else tkn
  match (split cleanTkn '=')[1]? with
  | none => .error .indexError
  | some value => int value

/-- The loop of `get_lineage`. -/
def lineage (clean : Str) : Except Stop (List ℕ) := (split clean ',').mapM tokenId

/-- `get_lineage`. -/
def getLineage (tcName : Str) : Except Stop (List ℕ) := do
  let m ← getMetadataFiles (basename tcName)
  lineage m.clean

/-- `should_use_tc`, with `select_ids`. -/
def shouldUseTc (selectIds : List ℤ) (tcP : Str) : Except Stop Bool :=
  if selectIds = [] then .ok true
  else do
    let ids ← getLineage tcP
    return ids.all fun id => (id : ℤ) ∈ selectIds

/-- `should_use_cs`. -/
def shouldUseCs (selectIds : List ℤ) (tcP : Str) : Except Stop Bool :=
  shouldUseTc selectIds (replace tcP "pm_pool.tar.gz".toList "testcase".toList)

variable {c ds u : Str}

/-- Only digits after the `=` of a tag. -/
theorem tokenId_tag (h : IsDigits ds) : tokenId ("id=".toList ++ ds) = .ok (decimal ds) := by
  have hdot : '.' ∉ "id=".toList ++ ds := fun hmem =>
    absurd (isDelim_tag h '.' hmem) (by decide)
  have heq : '=' ∉ ds := fun hmem => absurd (h.digit '=' hmem) (by decide)
  have hsplit : split ("id=".toList ++ ds) '=' = ["id".toList, ds] := by
    show ("id".toList ++ '=' :: ds).splitOn '=' = _
    rw [List.splitOn_append_cons_self, List.splitOn_eq_singleton heq]
    rfl
  simp only [tokenId, if_neg hdot, hsplit, List.getElem?_cons_succ, List.getElem?_cons_zero]
  exact int_digits h

/-- What comes after the first `.` does not count. -/
theorem tokenId_dot (u x : Str) : tokenId (u ++ '.' :: x) = tokenId u := by
  have hin : '.' ∈ u ++ '.' :: x := by simp
  have hcut : (u ++ '.' :: x).take ((u ++ '.' :: x).idxOf '.') =
      if '.' ∈ u then u.take (u.idxOf '.') else u := by
    split
    · rename_i h
      rw [List.idxOf_append_of_mem h, List.take_append_of_le_length List.idxOf_le_length]
    · rename_i h
      rw [List.idxOf_append_of_notMem h, List.idxOf_cons_self, Nat.add_zero, List.take_left]
  simp only [tokenId, if_pos hin, hcut]

theorem comma_notMem_tag (h : IsDigits ds) : ',' ∉ "id=".toList ++ ds := fun hmem =>
  absurd (isDelim_tag h ',' hmem) (by decide)

theorem lineage_root (h : IsDigits ds) : lineage ("id=".toList ++ ds) = .ok [decimal ds] := by
  rw [lineage, split, List.splitOn_eq_singleton (comma_notMem_tag h), List.mapM_cons, tokenId_tag h]
  rfl

theorem lineage_comma (h : IsDigits ds) (c : Str) :
    lineage (c ++ ',' :: ("id=".toList ++ ds)) = (· ++ [decimal ds]) <$> lineage c := by
  have hsplit : split (c ++ ',' :: ("id=".toList ++ ds)) ',' = split c ',' ++ ["id=".toList ++ ds] := by
    rw [split, List.splitOn_append_cons_self, List.splitOn_eq_singleton (comma_notMem_tag h)]
    rfl
  rw [lineage, lineage, hsplit, List.mapM_append, List.mapM_cons, tokenId_tag h]
  rfl

theorem lineage_dot (h : IsDigits ds) (c : Str) :
    lineage (c ++ '.' :: ("id=".toList ++ ds)) = lineage c := by
  have hno : ',' ∉ '.' :: ("id=".toList ++ ds) := by
    rw [List.mem_cons, not_or]
    exact ⟨by decide, comma_notMem_tag h⟩
  -- the last token grows
  obtain ⟨init, last, hc, hsplit⟩ := split_append hno c
  rw [lineage, lineage, hsplit, hc, List.mapM_append, List.mapM_append, List.mapM_cons,
    List.mapM_cons, tokenId_dot]

/-- The lineage of a file of the testcase `t`. -/
theorem getLineage_eq {t : TcName} (hnl : t.newline = false) {p n : Str} (hp : basename p = n)
    (hmeta : getMetadataFiles n = .ok t.metadata) : getLineage p = lineage t.clean := by
  have hbare : t.metadata.clean = t.clean := by
    rw [TcName.metadata, TcName.bare, TcName.nl, hnl]
    exact List.append_nil _
  rw [getLineage, hp, hmeta, ← hbare]
  rfl

/-- A name of the grammar has a lineage. -/
theorem exists_lineage (hc : IsClean c) : ∃ ids, lineage c = .ok ids := by
  induction hc with
  | root h => exact ⟨_, lineage_root h⟩
  | child sep hc hsep h ih =>
    obtain ⟨ids, hids⟩ := ih
    rcases hsep with rfl | rfl
    · exact ⟨_, by rw [lineage_comma h, hids]; rfl⟩
    · exact ⟨_, by rw [lineage_dot h, hids]⟩

end PMFuzz.Names
