import PMFuzz.Libpmfuzz.Map
import PMFuzz.Framework.Fold
import Mathlib.Data.Nat.Bitwise
import Mathlib.Data.List.Count

/-!
# The updates of the PM map

A hint is one update of the map or two (`Hint.updates`), each for a read or
for a write and at a location in its half of the map (`Hint.updates_half`).
A sequence of hints is the sequence of its updates (`hints_eq`), whose edges
(`edges`) are each location and the half of the one before it, by xor.

In path mode each edge is counted at its byte, up to 255
(`pathMode_counts`).
-/

namespace PMFuzz.Libpmfuzz

/-- What an update is made for. -/
inductive Access
  | read
  | write
  deriving DecidableEq

/-- The bytes of a map of `size` bytes that updates of the kind are to
change: the first half is for reads, the second for writes. -/
def Access.half (size : ℕ) : Access → ℕ → Prop
  | .read, i => i < size / 2
  | .write, i => size / 2 ≤ i ∧ i < size

/-- The calls of `update_loc` that a hint makes, with their locations. -/
def Hint.updates (mapSize : UInt32) : Hint → List (Access × UInt32)
  | .ro rand => [(.read, rand % (mapSize / 2))]
  | .wo rand => [(.write, rand % (mapSize / 2 - 97) + mapSize / 2)]
  | .rw rand =>
    [(.read, rand % (mapSize / 2 - 97)), (.write, rand % (mapSize / 2 - 97) + mapSize / 2)]

/-- One of these calls. -/
def update (env : MapEnv) (m : PmMap) (u : Access × UInt32) : Except Fault PmMap := updateLoc env m u.2

/-- A sequence of hints. -/
def hints (env : MapEnv) (m : PmMap) (hs : List Hint) : Except Fault PmMap := hs.foldlM (Hint.apply env) m

/-- The updates of a sequence of hints. -/
def updatesOf (mapSize : UInt32) (hs : List Hint) : List (Access × UInt32) :=
  hs.flatMap (Hint.updates mapSize)

/-- Their locations. -/
def locations (us : List (Access × UInt32)) : List ℕ := us.map (·.2.toNat)

/-- The edges between locations, the half of the location before them being
`prev`. -/
def edges : ℕ → List ℕ → List ℕ
  | _, [] => []
  | prev, l :: ls => (l ^^^ prev) :: edges (l >>> 1) ls

variable {env : MapEnv} {m m' : PmMap} {k : ℕ} {mapSize loc : UInt32} {h : Hint} {hs : List Hint}
  {us : List (Access × UInt32)}

/-! ## Locations -/

theorem toNat_half (hsize : mapSize.toNat = 2 ^ k) (hk : 8 ≤ k) : (mapSize / 2).toNat = 2 ^ (k - 1) := by
  obtain ⟨j, rfl⟩ := Nat.exists_eq_add_of_le' hk
  rw [UInt32.toNat_div, hsize, show j + 8 - 1 = j + 7 by omega, Nat.pow_succ]
  exact Nat.mul_div_cancel _ (by decide)

theorem size_half (hk : 8 ≤ k) : 2 ^ k / 2 = 2 ^ (k - 1) ∧ 2 ^ k = 2 * 2 ^ (k - 1) ∧ 128 ≤ 2 ^ (k - 1) := by
  obtain ⟨j, rfl⟩ := Nat.exists_eq_add_of_le' hk
  have hpos : 0 < 2 ^ j := Nat.two_pow_pos j
  simp only [show j + 8 - 1 = j + 7 by omega, Nat.pow_succ]
  omega

theorem toNat_half_sub (hsize : mapSize.toNat = 2 ^ k) (hk : 8 ≤ k) :
    (mapSize / 2 - 97).toNat = 2 ^ (k - 1) - 97 := by
  have hhalf := toNat_half hsize hk
  obtain ⟨-, -, hle⟩ := size_half hk
  rw [UInt32.toNat_sub_of_le, hhalf]
  · rfl
  · rw [UInt32.le_iff_toNat_le, hhalf]
    exact Nat.le_trans (by decide) hle

/-- Each location is in the half of its kind. -/
theorem Hint.updates_half (hsize : mapSize.toNat = 2 ^ k) (hk : 8 ≤ k) :
    ∀ u ∈ h.updates mapSize, u.1.half (2 ^ k) u.2.toNat := by
  have hhalf := toNat_half hsize hk
  have hsub := toNat_half_sub hsize hk
  obtain ⟨hdiv, hdouble, hle⟩ := size_half hk
  have hlt : 2 ^ k < 2 ^ 32 := hsize ▸ mapSize.toNat_lt
  have hmod : ∀ rand : UInt32, (rand % (mapSize / 2 - 97)).toNat < 2 ^ (k - 1) - 97 := by
    intro rand
    rw [UInt32.toNat_mod, hsub]
    exact Nat.mod_lt _ (by omega)
  have hread : ∀ rand : UInt32, Access.read.half (2 ^ k) (rand % (mapSize / 2 - 97)).toNat := by
    intro rand
    have := hmod rand
    show _ < 2 ^ k / 2
    omega
  have hwrite : ∀ rand : UInt32,
      Access.write.half (2 ^ k) (rand % (mapSize / 2 - 97) + mapSize / 2).toNat := by
    intro rand
    have := hmod rand
    show 2 ^ k / 2 ≤ _ ∧ _ < 2 ^ k
    rw [UInt32.toNat_add, hhalf, Nat.mod_eq_of_lt (by omega)]
    omega
  intro u hu
  cases h with
  | ro rand =>
    rw [Hint.updates, List.mem_singleton] at hu
    rw [hu]
    show (rand % (mapSize / 2)).toNat < 2 ^ k / 2
    rw [UInt32.toNat_mod, hhalf, hdiv]
    exact Nat.mod_lt _ (by omega)
  | wo rand =>
    rw [Hint.updates, List.mem_singleton] at hu
    exact hu ▸ hwrite rand
  | rw rand =>
    rw [Hint.updates, List.mem_cons, List.mem_singleton] at hu
    rcases hu with rfl | rfl
    · exact hread rand
    · exact hwrite rand

theorem updatesOf_half (hsize : mapSize.toNat = 2 ^ k) (hk : 8 ≤ k) :
    ∀ u ∈ updatesOf mapSize hs, u.1.half (2 ^ k) u.2.toNat := by
  intro u hu
  obtain ⟨h, -, hu⟩ := List.mem_flatMap.mp hu
  exact Hint.updates_half hsize hk u hu

theorem Access.half_lt {a : Access} {i : ℕ} (h : a.half (2 ^ k) i) : i < 2 ^ k := by
  cases a with
  | read => exact Nat.lt_of_lt_of_le h (Nat.div_le_self _ _)
  | write => exact h.2

/-- An edge is an index of the map. -/
theorem edges_lt {prev : ℕ} {ls : List ℕ} (hprev : prev < 2 ^ k) (hls : ∀ l ∈ ls, l < 2 ^ k) :
    ∀ e ∈ edges prev ls, e < 2 ^ k := by
  induction ls generalizing prev with
  | nil => exact fun e he => absurd he List.not_mem_nil
  | cons l ls ih =>
    have hl := hls l List.mem_cons_self
    have hnext : l >>> 1 < 2 ^ k := Nat.lt_of_le_of_lt (Nat.shiftRight_le l 1) hl
    intro e he
    rcases List.mem_cons.mp he with rfl | he
    · exact Nat.xor_lt_two_pow hl hprev
    · exact ih hnext (fun l hl => hls l (List.mem_cons_of_mem _ hl)) e he

/-! ## Hints and updates -/

theorem updateLoc_mapSize (h : updateLoc env m loc = .ok m') : m'.mapSize = m.mapSize := by
  unfold updateLoc at h
  split at h
  · cases h
    rfl
  · obtain ⟨elemId, -, h⟩ := Fold.bind_eq_ok.mp h
    obtain ⟨area, -, h⟩ := Fold.bind_eq_ok.mp h
    cases h
    rfl

/-- A hint is its updates. -/
theorem Hint.apply_eq (hsize : m.mapSize.toNat = 2 ^ k) (hk : 8 ≤ k) :
    h.apply env m = (h.updates m.mapSize).foldlM (update env) m := by
  obtain ⟨-, -, hle⟩ := size_half hk
  have hhalf : m.mapSize / 2 ≠ 0 := fun hz => by
    have := toNat_half hsize hk
    rw [hz, UInt32.toNat_zero] at this
    omega
  have hsub : m.mapSize / 2 - 97 ≠ 0 := fun hz => by
    have := toNat_half_sub hsize hk
    rw [hz, UInt32.toNat_zero] at this
    omega
  have hpure : ∀ x : Except Fault PmMap, x >>= pure = x := bind_pure
  cases h with
  | ro rand =>
    simp only [Hint.apply, pmfuzzRo, umod, if_neg hhalf, Hint.updates, List.foldlM_cons, List.foldlM_nil,
      hpure]
    rfl
  | wo rand =>
    simp only [Hint.apply, pmfuzzWo, umod, if_neg hsub, Hint.updates, List.foldlM_cons, List.foldlM_nil,
      hpure]
    rfl
  | rw rand =>
    simp only [Hint.apply, pmfuzzRw, umod, if_neg hsub, Hint.updates, List.foldlM_cons, List.foldlM_nil,
      hpure]
    show (updateLoc env m _ >>= fun m₁ => updateLoc env m₁ _) = (updateLoc env m _ >>= _)
    cases hread : updateLoc env m (rand % (m.mapSize / 2 - 97)) with
    | error e => rfl
    | ok m₁ =>
      show updateLoc env m₁ (rand % (m.mapSize / 2 - 97) + m₁.mapSize / 2) = _
      rw [updateLoc_mapSize hread]
      rfl

theorem updates_mapSize (h : us.foldlM (update env) m = .ok m') : m'.mapSize = m.mapSize :=
  Fold.foldlM_inv (P := fun s => s.mapSize = m.mapSize)
    (fun _ _ _ _ hs ht => (updateLoc_mapSize ht).trans hs) rfl h

theorem hints_eq (hsize : m.mapSize.toNat = 2 ^ k) (hk : 8 ≤ k) :
    hints env m hs = (updatesOf m.mapSize hs).foldlM (update env) m := by
  induction hs generalizing m with
  | nil => rfl
  | cons h hs ih =>
    rw [hints, List.foldlM_cons, Hint.apply_eq hsize hk, updatesOf, List.flatMap_cons, List.foldlM_append]
    cases hrun : (h.updates m.mapSize).foldlM (update env) m with
    | error e => rfl
    | ok m' =>
      have hm' := updates_mapSize hrun
      show hints env m' hs = _
      rw [ih (hm' ▸ hsize), hm']
      rfl

/-! ## Path mode -/

/-- One update counts its edge. -/
theorem updateLoc_path (hpath : (env.enablePmPath || env.unfocussedMode) = true) (loc : UInt32) :
    ∃ m', updateLoc env m loc = .ok m' ∧ m'.prevLoc.toNat = loc.toNat >>> 1 ∧ ∀ i, (m'.area i).toNat =
      min 255 ((m.area i).toNat + if i = loc.toNat ^^^ m.prevLoc.toNat then 1 else 0) := by
  refine ⟨_, if_pos hpath, ?_, fun i => ?_⟩
  · rw [UInt32.toNat_shiftRight]
    rfl
  · have hindex : (loc ^^^ m.prevLoc).toNat = loc.toNat ^^^ m.prevLoc.toNat := UInt32.toNat_xor loc m.prevLoc
    have hbyte := (m.area i).toNat_lt
    show ((if (m.area (loc ^^^ m.prevLoc).toNat).toUInt32 < counterCap then
      Function.update m.area (loc ^^^ m.prevLoc).toNat (m.area (loc ^^^ m.prevLoc).toNat + 1)
      else m.area) i).toNat = _
    have hcapIff : ∀ b : UInt8, b.toUInt32 < counterCap ↔ b.toNat < 255 := fun b => by
      rw [UInt32.lt_iff_toNat_lt, UInt8.toNat_toUInt32]
      rfl
    simp only [hcapIff, hindex]
    by_cases hi : i = loc.toNat ^^^ m.prevLoc.toNat
    · rw [← hi, if_pos rfl]
      by_cases hcap : (m.area i).toNat < 255
      · rw [if_pos hcap, Function.update_self, UInt8.toNat_add]
        show (_ + 1) % 256 = _
        omega
      · rw [if_neg hcap]
        omega
    · rw [if_neg hi]
      split
      · rw [Function.update_of_ne hi]
        omega
      · omega

/-- A sequence of updates counts its edges. -/
theorem updates_path (hpath : (env.enablePmPath || env.unfocussedMode) = true) (m : PmMap)
    (us : List (Access × UInt32)) :
    ∃ m', us.foldlM (update env) m = .ok m' ∧ ∀ i, (m'.area i).toNat =
      min 255 ((m.area i).toNat + (edges m.prevLoc.toNat (locations us)).count i) := by
  induction us generalizing m with
  | nil =>
    refine ⟨m, rfl, fun i => ?_⟩
    have hbyte := (m.area i).toNat_lt
    rw [locations, List.map_nil, edges, List.count_nil]
    omega
  | cons u us ih =>
    obtain ⟨m₁, hm₁, hprev, harea⟩ := updateLoc_path (m := m) hpath u.2
    obtain ⟨m', hm', hcount⟩ := ih m₁
    refine ⟨m', Fold.foldlM_cons_eq_ok.mpr ⟨m₁, hm₁, hm'⟩, fun i => ?_⟩
    have hcons : (edges m.prevLoc.toNat (locations (u :: us))).count i =
        (edges (u.2.toNat >>> 1) (locations us)).count i +
          if i = u.2.toNat ^^^ m.prevLoc.toNat then 1 else 0 := by
      show ((u.2.toNat ^^^ m.prevLoc.toNat) :: edges _ (locations us)).count i = _
      rw [List.count_cons]
      simp only [beq_iff_eq, eq_comm (a := i)]
    rw [hcount, harea, hprev, hcons]
    omega

/-- In path mode a map of a power of two bytes counts the edges of the
hints: each edge is an index of the map, and byte `i` goes up by one for each
edge `i`, to 255 at most. -/
theorem pathMode_counts (hpath : (env.enablePmPath || env.unfocussedMode) = true)
    (hsize : m.mapSize.toNat = 2 ^ k) (hk : 8 ≤ k) (hprev : m.prevLoc = 0) (hs : List Hint) :
    hints env m hs = (updatesOf m.mapSize hs).foldlM (update env) m ∧
    (∀ e ∈ edges 0 (locations (updatesOf m.mapSize hs)), e < m.mapSize.toNat) ∧
    ∃ m', hints env m hs = .ok m' ∧ ∀ i, (m'.area i).toNat =
      min 255 ((m.area i).toNat + (edges 0 (locations (updatesOf m.mapSize hs))).count i) := by
  have heq := @hints_eq env _ _ hs hsize hk
  refine ⟨heq, ?_, ?_⟩
  · rw [hsize]
    refine edges_lt (Nat.two_pow_pos k) fun l hl => ?_
    obtain ⟨u, hu, rfl⟩ := List.mem_map.mp hl
    exact Access.half_lt (updatesOf_half hsize hk u hu)
  · obtain ⟨m', hm', hcount⟩ := updates_path hpath m (updatesOf m.mapSize hs)
    rw [hprev] at hcount
    exact ⟨m', heq.trans hm', hcount⟩

/-- The map of a process that starts. -/
def startMap (mapSize : UInt32) : PmMap := ⟨fun _ => 0, mapSize, 0, 0⟩

theorem pathMode_counts_rw : ∃ m', hints ⟨true, false⟩ (startMap 256) [.rw 5, .rw 5] = .ok m' ∧
    (m'.area 135).toNat = 2 := by
  obtain ⟨-, -, m', hm', hcount⟩ := @pathMode_counts ⟨true, false⟩ (startMap 256) 8 rfl rfl
    (by decide) rfl [.rw 5, .rw 5]
  exact ⟨m', hm', (hcount 135).trans (by decide)⟩

end PMFuzz.Libpmfuzz
