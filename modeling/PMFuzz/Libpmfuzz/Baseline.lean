import PMFuzz.Libpmfuzz.ShiftRegister
import PMFuzz.Libpmfuzz.Updates

/-!
# Baseline mode

Without `ENABLE_PM_PATH` and `UNFOCUSSED_MODE` a location is reduced to a
register (`registerId`), and the edges of the registers are counted, each in
a shift register of 32 bytes. `updateLoc_baseline` says what one update does;
by induction on the updates every register holds its hits in unary
(`baseline_counts`). The `assert` of `sra_push_back` holds throughout, for the
number of registers is a power of two.
-/

namespace PMFuzz.Libpmfuzz

/-- The registers of a map of `size` bytes that locations are reduced to. -/
def registerCount (size : ℕ) : ℕ := size / 32 - 97

/-- `elem_id`. -/
def registerId (size loc : ℕ) : ℕ := loc % registerCount size

/-- The register at index `e`. -/
def register (area : Mem) (e : ℕ) : Mem := fun j => area (e * 32 + j)

/-- The edges between the registers of the updates. -/
def registerEdges (size prev : ℕ) (us : List (Access × UInt32)) : List ℕ :=
  edges prev ((locations us).map (registerId size))

variable {env : MapEnv} {m m' : PmMap} {k e : ℕ} {us : List (Access × UInt32)}

/-! ## Sizes -/

/-- The map has `2 ^ k` bytes, and the element size is new or set. -/
structure Sized (m : PmMap) (k : ℕ) : Prop where
  size : m.mapSize.toNat = 2 ^ k
  le : 12 ≤ k
  elemSize : m.sraElemSize = 0 ∨ m.sraElemSize = 32
  prev : m.prevLoc.toNat < 2 ^ (k - 6)

theorem size_registers (hk : 12 ≤ k) : 2 ^ k / 32 = 2 ^ (k - 5) ∧ 2 ^ k = 64 * 2 ^ (k - 6) ∧
    2 ^ (k - 5) = 2 * 2 ^ (k - 6) ∧ 64 ≤ 2 ^ (k - 6) := by
  obtain ⟨j, rfl⟩ := Nat.exists_eq_add_of_le' hk
  have hpos : 0 < 2 ^ j := Nat.two_pow_pos j
  simp only [show j + 12 - 5 = j + 7 by omega, show j + 12 - 6 = j + 6 by omega, Nat.pow_succ]
  omega

theorem registerId_lt (hk : 12 ≤ k) (loc : ℕ) : registerId (2 ^ k) loc < 2 ^ (k - 5) - 97 := by
  obtain ⟨hdiv, -, hdouble, hle⟩ := size_registers hk
  rw [registerId, registerCount, hdiv]
  exact Nat.mod_lt _ (by omega)

/-- The half of a register's id. -/
theorem registerId_shift_lt (hk : 12 ≤ k) (loc : ℕ) : registerId (2 ^ k) loc >>> 1 < 2 ^ (k - 6) := by
  obtain ⟨-, -, hdouble, -⟩ := size_registers hk
  have := registerId_lt hk loc
  rw [Nat.shiftRight_eq_div_pow]
  omega

/-- An edge between registers is a register. -/
theorem registerEdge_lt (hk : 12 ≤ k) {prev : ℕ} (hprev : prev < 2 ^ (k - 6)) (loc : ℕ) :
    registerId (2 ^ k) loc ^^^ prev < 2 ^ (k - 5) := by
  obtain ⟨-, -, hdouble, -⟩ := size_registers hk
  have := registerId_lt hk loc
  exact Nat.xor_lt_two_pow (by omega) (by omega)

/-! ## One update -/

/-- The bits of an element are in its own bytes. -/
theorem bitTest_congr {arr arr' : Mem} {b n : ℕ} (h : ∀ j < n, arr j = arr' j) (hb : b < n * 8) :
    bitTest arr b = bitTest arr' b := by
  rw [bitTest_eq, bitTest_eq, h (b / 8) (by omega)]

theorem sraPushBack_ok {mem : Mem} {size loc : ℕ} {basebit : Bool} (hloc : loc < size / 32) :
    ∃ mem', sraPushBack mem size 32 loc basebit = .ok mem' ∧
      (∀ j < 32, register mem' loc j = sraPush (register mem loc) 256 basebit j) ∧
      ∀ i, ¬ (loc * 32 ≤ i ∧ i < loc * 32 + 32) → mem' i = mem i := by
  refine ⟨fun i => if loc * 32 ≤ i ∧ i < loc * 32 + 32 then
    sraPush (register mem loc) 256 basebit (i - loc * 32) else mem i, ?_, fun j hj => ?_, fun i hi => ?_⟩
  · rw [sraPushBack, if_neg (by decide), if_pos hloc]
    rfl
  · show (if _ then _ else _) = _
    rw [if_pos (by omega), Nat.add_sub_cancel_left]
  · exact if_neg hi

/-- Elements of 32 bytes do not overlap. -/
theorem register_eq_of_ne {mem mem' : Mem} {loc : ℕ} (hne : e ≠ loc)
    (h : ∀ i, ¬ (loc * 32 ≤ i ∧ i < loc * 32 + 32) → mem' i = mem i) :
    ∀ j < 32, register mem' e j = register mem e j := by
  intro j hj
  refine h (e * 32 + j) fun hin => hne ?_
  omega

/-- One update pushes a register, and leaves the others. -/
theorem updateLoc_baseline (hbase : (env.enablePmPath || env.unfocussedMode) = false) (hm : Sized m k)
    (loc : UInt32) :
    ∃ m', updateLoc env m loc = .ok m' ∧ Sized m' k ∧
      m'.prevLoc.toNat = registerId (2 ^ k) loc.toNat >>> 1 ∧
      (∀ j < 32, register m'.area (registerId (2 ^ k) loc.toNat ^^^ m.prevLoc.toNat) j =
        sraPush (register m.area (registerId (2 ^ k) loc.toNat ^^^ m.prevLoc.toNat)) 256 false j) ∧
      ∀ i, ¬ ((registerId (2 ^ k) loc.toNat ^^^ m.prevLoc.toNat) * 32 ≤ i ∧
        i < (registerId (2 ^ k) loc.toNat ^^^ m.prevLoc.toNat) * 32 + 32) → m'.area i = m.area i := by
  obtain ⟨hdiv, -, hdouble, hle⟩ := size_registers hm.le
  have hsize : (if m.sraElemSize = 0 then getNextPow2 (counterCap / 8) else m.sraElemSize) = 32 := by
    rcases hm.elemSize with h | h
    · rw [if_pos h]
      decide
    · rw [h]
      decide
  have hcount : (m.mapSize / 32 - 97).toNat = 2 ^ (k - 5) - 97 := by
    have h32 : (m.mapSize / 32).toNat = 2 ^ (k - 5) := by
      rw [UInt32.toNat_div, hm.size]
      exact hdiv
    rw [UInt32.toNat_sub_of_le, h32]
    · rfl
    · rw [UInt32.le_iff_toNat_le, h32]
      exact Nat.le_trans (show 97 ≤ 128 by decide) (by omega)
  have hne : m.mapSize / 32 - 97 ≠ 0 := fun hz => by
    rw [hz, UInt32.toNat_zero] at hcount
    omega
  have hid : (loc % (m.mapSize / 32 - 97)).toNat = registerId (2 ^ k) loc.toNat := by
    rw [UInt32.toNat_mod, hcount, registerId, registerCount, hdiv]
  have hcur : (loc % (m.mapSize / 32 - 97) ^^^ m.prevLoc).toNat =
      registerId (2 ^ k) loc.toNat ^^^ m.prevLoc.toNat := by rw [UInt32.toNat_xor, hid]
  have hloc : registerId (2 ^ k) loc.toNat ^^^ m.prevLoc.toNat < m.mapSize.toNat / 32 := by
    rw [hm.size, hdiv]
    exact registerEdge_lt hm.le hm.prev _
  obtain ⟨area, harea, hpush, hrest⟩ := @sraPushBack_ok m.area _ _ false hloc
  have hprev : ((loc % (m.mapSize / 32 - 97)) >>> 1).toNat = registerId (2 ^ k) loc.toNat >>> 1 := by
    rw [UInt32.toNat_shiftRight, hid]
    rfl
  refine ⟨{ m with sraElemSize := 32, prevLoc := (loc % (m.mapSize / 32 - 97)) >>> 1, area := area }, ?_,
    ⟨hm.size, hm.le, .inr rfl, ?_⟩, hprev, hpush, hrest⟩
  · rw [updateLoc, if_neg (by simp [hbase])]
    simp only [hsize, umod, if_neg hne]
    show (sraPushBack m.area m.mapSize.toNat 32 (loc % (m.mapSize / 32 - 97) ^^^ m.prevLoc).toNat false >>=
      fun area => _) = _
    rw [hcur, harea]
    rfl
  · show ((loc % (m.mapSize / 32 - 97)) >>> 1).toNat < _
    rw [hprev]
    exact registerId_shift_lt hm.le _

/-! ## Runs -/

/-- Every register holds its hits in unary. -/
def Counts (m : PmMap) (k : ℕ) (hits : ℕ → ℕ) : Prop :=
  ∀ e < 2 ^ (k - 5), Unary false 256 (hits e) (register m.area e)

theorem Unary.congr {arr arr' : Mem} {hits : ℕ} (h : Unary false 256 hits arr)
    (heq : ∀ j < 32, arr' j = arr j) : Unary false 256 hits arr' :=
  fun b hb => (bitTest_congr heq hb).trans (h b hb)

theorem updates_baseline (hbase : (env.enablePmPath || env.unfocussedMode) = false) (hm : Sized m k)
    {hits : ℕ → ℕ} (hcounts : Counts m k hits) (us : List (Access × UInt32)) :
    ∃ m', us.foldlM (update env) m = .ok m' ∧
      Counts m' k fun e => hits e + (registerEdges (2 ^ k) m.prevLoc.toNat us).count e := by
  induction us generalizing m hits with
  | nil => exact ⟨m, rfl, hcounts⟩
  | cons u us ih =>
    obtain ⟨m₁, hm₁, hsized, hprev, hpush, hrest⟩ := updateLoc_baseline hbase hm u.2
    have hcounts₁ : Counts m₁ k fun e =>
        hits e + if e = registerId (2 ^ k) u.2.toNat ^^^ m.prevLoc.toNat then 1 else 0 := by
      intro e he
      by_cases heq : e = registerId (2 ^ k) u.2.toNat ^^^ m.prevLoc.toNat
      · subst heq
        simp only [if_true]
        exact ((hcounts _ he).push (by decide)).congr hpush
      · simp only [if_neg heq, Nat.add_zero]
        exact (hcounts e he).congr (register_eq_of_ne heq hrest)
    obtain ⟨m', hm', hcounts'⟩ := ih hsized hcounts₁
    refine ⟨m', Fold.foldlM_cons_eq_ok.mpr ⟨m₁, hm₁, hm'⟩, fun e he => ?_⟩
    have hcons : (registerEdges (2 ^ k) m.prevLoc.toNat (u :: us)).count e =
        (registerEdges (2 ^ k) (registerId (2 ^ k) u.2.toNat >>> 1) us).count e +
          if e = registerId (2 ^ k) u.2.toNat ^^^ m.prevLoc.toNat then 1 else 0 := by
      show ((registerId (2 ^ k) u.2.toNat ^^^ m.prevLoc.toNat) ::
        registerEdges (2 ^ k) (registerId (2 ^ k) u.2.toNat >>> 1) us).count e = _
      rw [List.count_cons]
      simp only [beq_iff_eq, eq_comm (a := e)]
    have hunary := hcounts' e he
    beta_reduce at hunary ⊢
    rw [hprev, Nat.add_assoc] at hunary
    rw [hcons, Nat.add_comm (List.count _ _)]
    exact hunary

theorem counts_zero (h : ∀ i < 2 ^ k, m.area i = 0) (hk : 12 ≤ k) : Counts m k fun _ => 0 := by
  obtain ⟨hdiv, hmul, hdouble, -⟩ := size_registers hk
  intro e he b hb
  have hzero : register m.area e (b / 8) = 0 := h (e * 32 + b / 8) (by omega)
  rw [bitTest_eq, hzero]
  simp

/-- From the zero map of a power of two bytes a sequence of hints returns in
baseline mode, no assertion fails, and a register that was hit `n` times is
zero if `n = 0`, and has bit `min n 256 - 1` set and no other if not. -/
theorem baseline_counts (hbase : (env.enablePmPath || env.unfocussedMode) = false)
    (hsize : m.mapSize.toNat = 2 ^ k) (hk : 12 ≤ k) (hzero : ∀ i < 2 ^ k, m.area i = 0)
    (hprev : m.prevLoc = 0) (helem : m.sraElemSize = 0) (hs : List Hint) :
    hints env m hs = (updatesOf m.mapSize hs).foldlM (update env) m ∧
    ∃ m', hints env m hs = .ok m' ∧ ∀ e < 2 ^ k / 32,
      let n := (registerEdges (2 ^ k) 0 (updatesOf m.mapSize hs)).count e
      (n = 0 → ∀ j < 32, m'.area (e * 32 + j) = 0) ∧
      (0 < n → ∀ b < 256, bitTest (register m'.area e) b = decide (b = min n 256 - 1)) := by
  obtain ⟨hdiv, -, -, hle⟩ := size_registers hk
  have heq := @hints_eq env _ _ hs hsize (by omega)
  have hm : Sized m k := ⟨hsize, hk, .inl helem, by rw [hprev, UInt32.toNat_zero]; omega⟩
  obtain ⟨m', hm', hcounts⟩ :=
    updates_baseline hbase hm (counts_zero hzero hk) (updatesOf m.mapSize hs)
  refine ⟨heq, m', heq.trans hm', fun e he => ?_⟩
  have hunary := hcounts e (hdiv ▸ he)
  beta_reduce at hunary
  rw [hprev, UInt32.toNat_zero, Nat.zero_add] at hunary
  refine ⟨fun hn j hj => ?_, fun hn b hb => ?_⟩
  · rw [hn] at hunary
    exact @Unary.eq_zero _ 32 hunary _ hj
  · rw [hunary b hb]
    simp [Nat.pos_iff_ne_zero.mp hn]

theorem baseline_counts_wo : ∃ m', hints ⟨false, false⟩ (startMap 4096) [.wo 5, .wo 5, .wo 5] = .ok m' ∧
    (∀ j < 32, m'.area (5 * 32 + j) = 0) ∧
    ∀ b < 256, bitTest (register m'.area 4) b = decide (b = 1) := by
  obtain ⟨-, m', hm', hcounts⟩ := @baseline_counts ⟨false, false⟩ (startMap 4096) 12 rfl rfl
    (by decide) (fun _ _ => rfl) rfl rfl [.wo 5, .wo 5, .wo 5]
  exact ⟨m', hm', (hcounts 5 (by decide)).1 (by decide), (hcounts 4 (by decide)).2 (by decide)⟩

end PMFuzz.Libpmfuzz
