import PMFuzz.Names.CrashSites

/-!
# Files of the fuzzer

All files that the fuzzer creates with `O_EXCL` have a number after the
directory and the kind, then a comma and a description. A path says which
file it is (`FilePath.render_injective`), so two files clash only if they
have the same directory, kind, number and description.
-/

namespace PMFuzz.Afl

open Names (IsDigits isDigits_format06d ofDigitChars_format06d)
open Libpmfuzz (format06d)

/-- The directories, with the prefix of the files in them. -/
inductive Dir
  | testcase | map | pm | pmMap | redundantEdges | variableBehavior | crashes | hangs
  deriving DecidableEq

def Dir.text : Dir → Str
  | .testcase => "queue/id:".toList
  | .map => "queue/map_id:".toList
  | .pm => "queue/pm_id:".toList
  | .pmMap => "queue/pm_map_id:".toList
  | .redundantEdges => "queue/.state/redundant_edges/id:".toList
  | .variableBehavior => "queue/.state/variable_behavior/id:".toList
  | .crashes => "crashes/id:".toList
  | .hangs => "hangs/id:".toList

/-- The name of an entry, `id:%06u,%s`. -/
structure Name where
  id : ℕ
  op : Str
  deriving DecidableEq

/-- A file under `out_dir`. -/
structure FilePath where
  dir : Dir
  name : Name
  deriving DecidableEq

def FilePath.render (p : FilePath) : Str := p.dir.text ++ (format06d p.name.id ++ ',' :: p.name.op)

/-- The name of a crash, with `sig:%02u` before the description. -/
def crashName (id sig : ℕ) (op : Str) : Name :=
  ⟨id, "sig:".toList ++ List.replicate (2 - (Nat.toDigits 10 sig).length) '0' ++ Nat.toDigits 10 sig ++ ',' :: op⟩

/-- No directory starts like another. -/
theorem Dir.eq_of_prefix : ∀ d d' : Dir, d.text <+: d'.text → d = d' := by
  intro d d'
  cases d <;> cases d' <;> decide

/-- The number ends at the comma. -/
theorem format06d_append_inj {m n : ℕ} {s t : Str} (h : format06d m ++ ',' :: s = format06d n ++ ',' :: t) :
    m = n ∧ s = t := by
  have hcomma : ∀ k : ℕ, ',' ∉ format06d k := fun k hk => absurd ((isDigits_format06d k).digit ',' hk) (by decide)
  have htake : ∀ (k : ℕ) (u : Str), (format06d k ++ ',' :: u).takeWhile (· != ',') = format06d k := fun k u => by
    rw [List.takeWhile_append_of_pos fun c hc => bne_iff_ne.mpr fun (heq : c = ',') => hcomma k (heq ▸ hc)]
    simp
  have heq : format06d m = format06d n := by rw [← htake m s, h, htake]
  have hmn : m = n := by
    have := congrArg (fun l => Nat.ofDigitChars 10 l 0) heq
    rwa [ofDigitChars_format06d, ofDigitChars_format06d] at this
  subst hmn
  exact ⟨rfl, (List.cons.inj (List.append_cancel_left h)).2⟩

/-- A path says which file it is. -/
theorem FilePath.render_injective : Function.Injective FilePath.render := by
  rintro ⟨d, m, s⟩ ⟨d', n, t⟩ h
  have hp : d.text <+: d'.text ++ (format06d n ++ ',' :: t) := ⟨_, h⟩
  have hdir : d = d' := by
    rcases List.prefix_or_prefix_of_prefix hp (List.prefix_append _ _) with hpre | hpre
    · exact Dir.eq_of_prefix d d' hpre
    · exact (Dir.eq_of_prefix d' d hpre).symm
  subst hdir
  obtain ⟨rfl, rfl⟩ := format06d_append_inj (List.append_cancel_left h)
  rfl

end PMFuzz.Afl
