import PMFuzz.Dedup.Global

/-!
# File-based deduplication of the global store

What `pmfuzz.stage.dedup.global.fdedup` asks for (`Deduplicated`). A store that is
left as it is meets it if no two testcases have one map (`deduplicated_self`).
-/

namespace PMFuzz.Dedup

open Names

/-- The two settings of `pmfuzz.stage.dedup.global.fdedup`. -/
inductive MapKind
  | map
  | pmMap
  deriving DecidableEq

namespace MapKind

/-- The setting. -/
def cfg : MapKind → Str
  | map => "map".toList
  | pmMap => "pm_map".toList

/-- The map of a testcase. -/
def file (k : MapKind) (t : TcName) : Str :=
  match k with
  | map => t.metadata.map
  | pmMap => t.metadata.pmMap

end MapKind

variable {k : MapKind} {gbl gbl' : Dir}

/-- A testcase of the store whose map has the content `b`. -/
def HasMap (k : MapKind) (gbl : Dir) (b : Bytes) (t : TcName) : Prop :=
  t.testcase ∈ gbl ∧ gbl.lookup (k.file t) = some b

/-- What deduplication of the store by its maps is for. -/
structure Deduplicated (k : MapKind) (gbl gbl' : Dir) : Prop where
  distinct : ∀ t u b, HasMap k gbl' b t → HasMap k gbl' b u → t = u
  /-- Each group keeps one member, with the fewest ancestors. -/
  survivor : ∀ b t, HasMap k gbl b t → ∃ u, HasMap k gbl b u ∧ u.testcase ∈ gbl' ∧
    (∀ v, HasMap k gbl b v → v.testcase ∈ gbl' → v = u) ∧
    ∀ v, HasMap k gbl b v → u.ancestors ≤ v.ancestors
  untouched : ∀ t : TcName, t.testcase ∈ gbl → k.file t ∉ gbl →
    ∀ n ∈ t.metadata.values, gbl'.lookup n = gbl.lookup n

/-- Different testcases have different maps. -/
def NoDuplicates (k : MapKind) (gbl : Dir) : Prop :=
  ∀ t u b, HasMap k gbl b t → HasMap k gbl b u → t = u

theorem deduplicated_self : Deduplicated k gbl gbl ↔ NoDuplicates k gbl := by
  refine ⟨Deduplicated.distinct, fun h => ⟨h, fun b t ht => ⟨t, ht, ht.1, ?_, ?_⟩, fun _ _ _ _ _ => rfl⟩⟩
  · exact fun v hv _ => h v t b hv ht
  · exact fun v hv => le_of_eq (by rw [h t v b ht hv])

/-! ## A store -/

theorem isDigits_1 : IsDigits "1".toList := by decide

theorem isDigits_2 : IsDigits "2".toList := by decide

/-- The first two testcases of the first stage. -/
def tc1 : TcName := .root "1".toList isDigits_1

def tc2 : TcName := .root "2".toList isDigits_2

/-- Two testcases with one exec map. -/
def twoTestcases : Dir :=
  [⟨tc1.testcase, [1]⟩, ⟨tc1.metadata.map, [0, 7]⟩,
    ⟨tc2.testcase, [2]⟩, ⟨tc2.metadata.map, [0, 7]⟩].toFinmap

end PMFuzz.Dedup
