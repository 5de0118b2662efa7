import PMFuzz.Framework.Run
import PMFuzz.Libpmfuzz.Baseline

/-!
# The halves of the PM map

The first half of the map is for reads, the second for writes. In path mode
every update stays in its half, as the xor with the half of a location before
it leaves the top bit (`xor_lt_iff`). In baseline mode it does so only if the
register its location is reduced to is in that half, or has counted as far as
it can (`Splits`), and `halves_iff` says that this is exact.
-/

namespace PMFuzz.Libpmfuzz

/-- The update returns, and changes bytes of its half only. -/
def InHalf (env : MapEnv) (m : PmMap) (u : Access × UInt32) : Prop :=
  ∃ m', update env m u = .ok m' ∧ ∀ i, m'.area i ≠ m.area i → u.1.half m.mapSize.toNat i

/-- The state after an update that returns. -/
def updateStep (env : MapEnv) (m : PmMap) (u : Access × UInt32) : Option PmMap := (update env m u).toOption

/-- The updates of a sequence of hints return, and stay in their halves. -/
def StayInHalves (env : MapEnv) (m : PmMap) (hs : List Hint) : Prop :=
  Run.Along (updateStep env) (InHalf env) m (updatesOf m.mapSize hs)

/-- Path mode; or the location's id is in the half of the registers that is
for the kind of access; or the register to be pushed has its highest bit set. -/
def Splits (env : MapEnv) (m : PmMap) (u : Access × UInt32) : Prop :=
  (env.enablePmPath || env.unfocussedMode) = true ∨
  (registerId m.mapSize.toNat u.2.toNat < m.mapSize.toNat / 64 ↔ u.1 = .read) ∨
  bitTest (register m.area (registerId m.mapSize.toNat u.2.toNat ^^^ m.prevLoc.toNat)) 255 = true

variable {env : MapEnv} {m m' : PmMap} {k : ℕ} {u : Access × UInt32}

theorem updateStep_eq_some : updateStep env m u = some m' ↔ update env m u = .ok m' :=
  Fold.toOption_eq_some

/-- The top bit survives. -/
theorem xor_lt_iff {j x p : ℕ} (hp : p < 2 ^ j) : x ^^^ p < 2 ^ j ↔ x < 2 ^ j := by
  have hshift : (x ^^^ p) / 2 ^ j = x / 2 ^ j := by
    rw [← Nat.shiftRight_eq_div_pow, Nat.shiftRight_xor_distrib, Nat.shiftRight_eq_div_pow,
      Nat.shiftRight_eq_div_pow, Nat.div_eq_of_lt hp, Nat.xor_zero]
  rw [← Nat.div_eq_zero_iff_lt (Nat.two_pow_pos j), ← Nat.div_eq_zero_iff_lt (Nat.two_pow_pos j), hshift]

/-! ## Path mode -/

/-- The map's size, and the location before in path mode. -/
structure PathOk (m : PmMap) (k : ℕ) : Prop where
  size : m.mapSize.toNat = 2 ^ k
  prev : m.prevLoc.toNat < 2 ^ (k - 1)

theorem PathOk.update (hpath : (env.enablePmPath || env.unfocussedMode) = true) (hk : 8 ≤ k)
    (hm : PathOk m k) (hu : u.1.half (2 ^ k) u.2.toNat) (h : update env m u = .ok m') : PathOk m' k := by
  obtain ⟨-, hdouble, -⟩ := size_half hk
  obtain ⟨m₁, hm₁, hprev, -⟩ := updateLoc_path (m := m) hpath u.2
  cases hm₁.symm.trans h
  refine ⟨updateLoc_mapSize h ▸ hm.size, ?_⟩
  have hlt := Access.half_lt hu
  rw [hprev, Nat.shiftRight_eq_div_pow]
  omega

theorem inHalf_path (hpath : (env.enablePmPath || env.unfocussedMode) = true) (hk : 8 ≤ k)
    (hm : PathOk m k) (hu : u.1.half (2 ^ k) u.2.toNat) : InHalf env m u := by
  obtain ⟨hdiv, hdouble, -⟩ := size_half hk
  obtain ⟨m', hm', -, harea⟩ := updateLoc_path (m := m) hpath u.2
  refine ⟨m', hm', fun i hi => ?_⟩
  have hindex : i = u.2.toNat ^^^ m.prevLoc.toNat := by
    by_contra hne
    have hbyte := (m.area i).toNat_lt
    have hsame := harea i
    rw [if_neg hne] at hsame
    exact hi (UInt8.toNat_inj.mp (by omega))
  have hlt := Nat.xor_lt_two_pow (Access.half_lt hu) (show m.prevLoc.toNat < 2 ^ k by
    have := hm.prev
    omega)
  have htop := xor_lt_iff (x := u.2.toNat) hm.prev
  rw [hm.size, hindex]
  obtain ⟨a, loc⟩ := u
  cases a with
  | read =>
    show _ < 2 ^ k / 2
    rw [hdiv]
    exact htop.mpr (hdiv ▸ hu)
  | write =>
    refine ⟨?_, hlt⟩
    have hge : 2 ^ (k - 1) ≤ loc.toNat := hdiv ▸ hu.1
    rw [hdiv]
    exact Nat.not_lt.mp fun h => Nat.not_lt.mpr hge (htop.mp h)

/-! ## Baseline mode -/

/-- The bytes of a register are in the first half exactly if the register
is one of the first half. -/
theorem register_half (hk : 12 ≤ k) {e j : ℕ} (he : e < 2 ^ (k - 5)) (hj : j < 32) (a : Access) :
    a.half (2 ^ k) (e * 32 + j) ↔ (e < 2 ^ (k - 6) ↔ a = .read) := by
  obtain ⟨-, hmul, hdouble, -⟩ := size_registers hk
  cases a with
  | read =>
    show e * 32 + j < 2 ^ k / 2 ↔ _
    simp only [iff_true]
    omega
  | write =>
    show (2 ^ k / 2 ≤ e * 32 + j ∧ e * 32 + j < 2 ^ k) ↔ _
    simp only [reduceCtorEq, iff_false]
    omega

theorem inHalf_baseline (hbase : (env.enablePmPath || env.unfocussedMode) = false) (hm : Sized m k) :
    InHalf env m u ↔ Splits env m u := by
  obtain ⟨m', hm', hsized, -, hpush, hrest⟩ := updateLoc_baseline hbase hm u.2
  obtain ⟨hdiv, hmul, hdouble, -⟩ := size_registers hm.le
  have hsize : 2 ^ k / 64 = 2 ^ (k - 6) := by omega
  have he := registerEdge_lt hm.le hm.prev u.2.toNat
  have htop := xor_lt_iff (x := registerId (2 ^ k) u.2.toNat) hm.prev
  have hnot : ¬ (env.enablePmPath || env.unfocussedMode) = true := by simp [hbase]
  rw [Splits, or_iff_right hnot, hm.size, hsize, ← htop]
  generalize registerId (2 ^ k) u.2.toNat ^^^ m.prevLoc.toNat = e at *
  constructor
  · intro ⟨m₁, hm₁, hhalf⟩
    have heq : m₁ = m' := Except.ok.inj (hm₁.symm.trans hm')
    rw [hm.size, heq] at hhalf
    by_cases hfull : bitTest (register m.area e) 255 = true
    · exact .inr hfull
    · -- some byte of the register changes, so it is in the half
      obtain ⟨b, hb, hne⟩ := @exists_bitTest_sraPush_ne (register m.area e) false _
        (by decide : 0 < 256) (Bool.not_eq_true _ ▸ hfull)
      have hbyte : register m'.area e (b / 8) ≠ register m.area e (b / 8) := by
        intro heq
        refine hne ?_
        rw [bitTest_eq, bitTest_eq, ← hpush (b / 8) (by omega), heq]
      exact .inl ((register_half hm.le he (by omega) u.1).mp (hhalf _ hbyte))
  · intro h
    refine ⟨m', hm', fun i hi => ?_⟩
    have hin : e * 32 ≤ i ∧ i < e * 32 + 32 := by
      by_contra hout
      exact hi (hrest i hout)
    have hreg : ∀ area : Mem, area i = register area e (i - e * 32) := fun area => by
      rw [register, Nat.add_sub_cancel' hin.1]
    rw [hm.size]
    rcases h with hside | hfull
    · have hhalf := (register_half hm.le he (show i - e * 32 < 32 by omega) u.1).mpr hside
      rwa [Nat.add_sub_cancel' hin.1] at hhalf
    · refine absurd ?_ hi
      have hsame : sraPush (register m.area e) 256 false = register m.area e :=
        sraPush_top (by decide) (by rw [hfull]; decide)
      rw [hreg m'.area, hreg m.area, hpush _ (by omega), hsame]

/-- From a state in which no location came before, the updates of a sequence
of hints stay in their halves exactly if each of them meets `Splits`. -/
theorem halves_iff (hsize : m.mapSize.toNat = 2 ^ k) (hk : 12 ≤ k) (hprev : m.prevLoc = 0)
    (helem : m.sraElemSize = 0) (hs : List Hint) :
    hints env m hs = (updatesOf m.mapSize hs).foldlM (update env) m ∧
    (StayInHalves env m hs ↔
      Run.Along (updateStep env) (Splits env) m (updatesOf m.mapSize hs)) := by
  have hhalf := @updatesOf_half _ _ hs hsize (show 8 ≤ k by omega)
  have hzero : m.prevLoc.toNat = 0 := by rw [hprev]; rfl
  refine ⟨hints_eq hsize (by omega), ?_⟩
  cases hmode : env.enablePmPath || env.unfocussedMode with
  | true =>
    have hm : PathOk m k := ⟨hsize, hzero ▸ Nat.two_pow_pos _⟩
    refine Run.along_congr (updateStep env) (I := fun m => PathOk m k) (fun hm hu h => ?_)
      (fun hm hu => ?_) hm hhalf
    · exact hm.update hmode (by omega) hu (updateStep_eq_some.mp h)
    · exact ⟨fun _ => .inl hmode, fun _ => inHalf_path hmode (by omega) hm hu⟩
  | false =>
    have hm : Sized m k := ⟨hsize, hk, .inl helem, hzero ▸ Nat.two_pow_pos _⟩
    refine Run.along_congr (updateStep env) (I := fun m => Sized m k) (fun {m u m'} hm _ h => ?_)
      (fun hm _ => inHalf_baseline hmode hm) hm hhalf
    obtain ⟨m₁, hm₁, hsized, -⟩ := updateLoc_baseline hmode hm u.2
    cases hm₁.symm.trans (updateStep_eq_some.mp h)
    exact hsized

theorem halves_path : StayInHalves ⟨true, false⟩ (startMap 4096) [.wo 5, .ro 9] :=
  ((@halves_iff ⟨true, false⟩ (startMap 4096) 12 rfl (by decide) rfl rfl [.wo 5, .ro 9]).2).mpr
    ⟨.inl rfl, fun _ _ => ⟨.inl rfl, fun _ _ => trivial⟩⟩

/-- In baseline mode a write is counted among the reads. -/
theorem baseline_mixes_halves : ¬ StayInHalves ⟨false, false⟩ (startMap 4096) [.wo 5] := by
  intro ⟨⟨m', hm', hhalf⟩, _⟩
  have hbyte : ((update ⟨false, false⟩ (startMap 4096) (.write, 2053)).toOption.map
      fun m => m.area 224) = some 1 := by decide +kernel
  have hrun : update ⟨false, false⟩ (startMap 4096) (.write, 2053) = .ok m' := hm'
  rw [hrun] at hbyte
  have hone : m'.area 224 = 1 := Option.some.inj hbyte
  have hwrite : Access.write.half 4096 224 := hhalf 224 (by rw [hone]; decide)
  exact absurd hwrite.1 (by decide)

end PMFuzz.Libpmfuzz
