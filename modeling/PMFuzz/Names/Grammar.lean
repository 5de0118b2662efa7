import PMFuzz.Framework.Regex
import PMFuzz.Framework.Str

/-!
# The name grammar

The patterns of `name_handler.py` and the names they accept. A clean name is
one or more tags `id=<digits>` after each other, separated by `,` (a
testcase run on the image before it) or `.` (a failure image of the name
before it). A file's name is a clean name with the prefix and the suffix of
its kind, and `$` lets a newline follow. `isTc_iff` and its siblings say so
for each pattern.

`is_regex` applies `path.basename` first. The names here are the entries of
a directory, of which that is the identity.
-/

namespace PMFuzz.Names

open Regex
open scoped Computability

/-- The zeros of the scripts with decimal digits: `\d` is any of them and
the nine characters after it (Unicode 14, category Nd). -/
def digitZeros : List ℕ :=
  [0x30, 0x660, 0x6f0, 0x7c0, 0x966, 0x9e6, 0xa66, 0xae6, 0xb66, 0xbe6, 0xc66, 0xce6, 0xd66, 0xde6,
    0xe50, 0xed0, 0xf20, 0x1040, 0x1090, 0x17e0, 0x1810, 0x1946, 0x19d0, 0x1a80, 0x1a90, 0x1b50,
    0x1bb0, 0x1c40, 0x1c50, 0xa620, 0xa8d0, 0xa900, 0xa9d0, 0xa9f0, 0xaa50, 0xabf0, 0xff10, 0x104a0,
    0x10d30, 0x11066, 0x110f0, 0x11136, 0x111d0, 0x112f0, 0x11450, 0x114d0, 0x11650, 0x116c0,
    0x11730, 0x118e0, 0x11950, 0x11c50, 0x11d50, 0x11da0, 0x16a60, 0x16ac0, 0x16b50, 0x1d7ce,
    0x1d7d8, 0x1d7e2, 0x1d7ec, 0x1d7f6, 0x1e140, 0x1e2f0, 0x1e950, 0x1fbf0]

/-- `\d`. -/
def isDigit (c : Char) : Bool := digitZeros.any fun z => decide (z ≤ c.toNat ∧ c.toNat < z + 10)

/-- `.` in a pattern. -/
def anyChar (c : Char) : Bool := c != '\n'

/-! ## Patterns -/

/-- `id=\d+`. -/
def idRe : Regex Char := seq (text "id=".toList) (plus (char isDigit))

/-- `\.id=\d+`. -/
def dotIdRe : Regex Char := seq (text ".".toList) idRe

/-- `,id=\d+(\.id=\d+)*`. -/
def commaIdRe : Regex Char := seq (text ",".toList) (seq idRe (star dotIdRe))

/-- `(id=\d+)(\.id=\d+)*(,id=\d+(\.id=\d+)*)*`. -/
def cleanRe : Regex Char := seq idRe (seq (star dotIdRe) (star commaIdRe))

/-- `TC_MIN_REGEX`. -/
def tcMinRegex : Regex Char := seq cleanRe (text ".min.testcase".toList)

/-- `TC_REGEX`. -/
def tcRegex : Regex Char := seq cleanRe (text ".testcase".toList)

/-- `MAP_REGEX`. -/
def mapRegex : Regex Char := seq (text "map_".toList) (seq cleanRe (text ".testcase".toList))

/-- `PM_MAP_REGEX`. -/
def pmMapRegex : Regex Char := seq (text "pm_map_".toList) (seq cleanRe (text ".testcase".toList))

/-- `CRASH_SITE_REGEX`. -/
def crashSiteRegex : Regex Char := seq cleanRe (text ".crash_site".toList)

/-- `.tar.gz`, with dots that stand for any character. -/
def tarGzRe : Regex Char :=
  seq (char anyChar) (seq (text "tar".toList) (seq (char anyChar) (text "gz".toList)))

/-- `CMPR_CRASH_SITE_REGEX`. -/
def cmprCrashSiteRegex : Regex Char := seq cleanRe (seq (text ".crash_site".toList) tarGzRe)

/-- `PM_IMG_REGEX`. -/
def pmImgRegex : Regex Char := seq cleanRe (text ".pm_pool".toList)

/-- `PM_CMPR_IMG_REGEX`. -/
def pmCmprImgRegex : Regex Char := seq cleanRe (seq (text ".pm_pool".toList) tarGzRe)

/-- `is_min_tc`. -/
def isMinTc (filename : Str) : Bool := tcMinRegex.search filename

/-- `is_tc`. -/
def isTc (filename : Str) (all : Bool) : Bool := tcRegex.search filename || all && isMinTc filename

/-- `is_map`. -/
def isMap (filename : Str) : Bool := mapRegex.search filename

/-- `is_pm_map`. -/
def isPmMap (filename : Str) : Bool := pmMapRegex.search filename

/-- `is_crash_site`. -/
def isCrashSite (filename : Str) : Bool := crashSiteRegex.search filename

/-- `is_cmpr_crash_site`. -/
def isCmprCrashSite (filename : Str) : Bool := cmprCrashSiteRegex.search filename

/-- `is_img`. -/
def isImg (filename : Str) : Bool := pmImgRegex.search filename

/-- `is_cmpr_img`. -/
def isCmprImg (filename : Str) : Bool := pmCmprImgRegex.search filename

/-! ## Clean names -/

/-- One or more digits. -/
structure IsDigits (ds : Str) : Prop where
  ne_nil : ds ≠ []
  digit : ∀ c ∈ ds, isDigit c = true

instance (ds : Str) : Decidable (IsDigits ds) :=
  decidable_of_iff (ds ≠ [] ∧ ds.all isDigit = true)
    ⟨fun h => ⟨h.1, List.all_eq_true.mp h.2⟩, fun h => ⟨h.ne_nil, List.all_eq_true.mpr h.digit⟩⟩

/-- The names without prefix and suffix. -/
inductive IsClean : Str → Prop
  | root {ds : Str} (h : IsDigits ds) : IsClean ("id=".toList ++ ds)
  | child {c ds : Str} (sep : Char) (hc : IsClean c) (hsep : sep = ',' ∨ sep = '.')
      (h : IsDigits ds) : IsClean (c ++ sep :: ("id=".toList ++ ds))

/-- The characters of clean names. -/
def cleanChar (c : Char) : Prop := c ∈ "id=,.".toList ∨ isDigit c = true

theorem IsClean.chars {c : Str} (h : IsClean c) : ∀ x ∈ c, cleanChar x := by
  have htag : ∀ {ds : Str}, IsDigits ds → ∀ x ∈ "id=".toList ++ ds, cleanChar x := by
    intro ds hds x hx
    rcases List.mem_append.mp hx with hx | hx
    · exact .inl (List.mem_append_left [',', '.'] hx)
    · exact .inr (hds.digit x hx)
  induction h with
  | root h => exact htag h
  | child sep hc hsep h ih =>
    intro x hx
    rcases List.mem_append.mp hx with hx | hx
    · exact ih x hx
    · rcases List.mem_cons.mp hx with rfl | hx
      · rcases hsep with rfl | rfl <;> exact .inl (by decide)
      · exact htag h x hx

theorem IsClean.notMem {c : Str} (h : IsClean c) {x : Char} (hx : ¬ cleanChar x) : x ∉ c :=
  fun hmem => hx (h.chars x hmem)

/-- A clean name starts with `i`. -/
theorem IsClean.head {c : Str} (h : IsClean c) : ∃ s, c = 'i' :: s := by
  induction h with
  | root _ => exact ⟨_, rfl⟩
  | child _ _ _ _ ih =>
    obtain ⟨s, rfl⟩ := ih
    exact ⟨_, rfl⟩

/-- A clean name ends in a digit. -/
theorem IsClean.getLast {c : Str} (h : IsClean c) : ∃ s d, c = s ++ [d] ∧ isDigit d = true := by
  have htag : ∀ {ds : Str}, IsDigits ds → ∀ p : Str, ∃ s d, p ++ ds = s ++ [d] ∧ isDigit d = true := by
    intro ds hds p
    obtain ⟨s, d, rfl⟩ := (List.eq_nil_or_concat' ds).resolve_left hds.ne_nil
    exact ⟨p ++ s, d, by rw [List.append_assoc], hds.digit d (by simp)⟩
  cases h with
  | root h => exact htag h _
  | @child c ds sep hc hsep h =>
    obtain ⟨s, d, hs, hd⟩ := htag h (c ++ sep :: "id=".toList)
    refine ⟨s, d, ?_, hd⟩
    rw [← hs]
    simp

/-! ## The clean names are the language of `cleanRe` -/

theorem mem_idRe {x : Str} : x ∈ idRe.lang ↔ ∃ ds, IsDigits ds ∧ x = "id=".toList ++ ds := by
  have hplus : ∀ ds : Str, ds ∈ (plus (char isDigit)).lang ↔ IsDigits ds := by
    intro ds
    have hstar : ∀ s : Str, s ∈ (star (char isDigit)).lang ↔ ∀ c ∈ s, isDigit c = true := by
      intro s
      induction s with
      | nil => exact ⟨fun _ _ h => absurd h List.not_mem_nil, fun _ => Language.nil_mem_kstar _⟩
      | cons c s ih =>
        rw [lang, cons_mem_kstar]
        constructor
        · rintro ⟨u, v, rfl, ⟨a, ha, hu⟩, hv⟩
          cases hu
          have := ih.mp hv
          rintro d (_ | ⟨_, hd⟩)
          · exact ha
          · exact this d hd
        · intro h
          exact ⟨[], s, rfl, ⟨c, h c List.mem_cons_self, rfl⟩,
            ih.mpr fun d hd => h d (List.mem_cons_of_mem _ hd)⟩
    rw [plus, mem_lang_seq]
    constructor
    · rintro ⟨u, ⟨a, ha, rfl⟩, v, hv, rfl⟩
      refine ⟨List.cons_ne_nil _ _, ?_⟩
      rintro d (_ | ⟨_, hd⟩)
      · exact ha
      · exact (hstar v).mp hv d hd
    · intro h
      obtain ⟨c, s, rfl⟩ := List.exists_cons_of_ne_nil h.ne_nil
      exact ⟨[c], ⟨c, h.digit c List.mem_cons_self, rfl⟩, s,
        (hstar s).mpr fun d hd => h.digit d (List.mem_cons_of_mem _ hd), rfl⟩
  rw [idRe, mem_lang_seq]
  constructor
  · rintro ⟨u, hu, v, hv, rfl⟩
    rw [mem_lang_text] at hu
    exact ⟨v, (hplus v).mp hv, by rw [hu]⟩
  · rintro ⟨ds, hds, rfl⟩
    exact ⟨_, mem_lang_text.mpr rfl, ds, (hplus ds).mpr hds, rfl⟩

theorem mem_dotIdRe {x : Str} : x ∈ dotIdRe.lang ↔ ∃ ds, IsDigits ds ∧ x = '.' :: ("id=".toList ++ ds) := by
  rw [dotIdRe, mem_lang_seq]
  constructor
  · rintro ⟨u, hu, v, hv, rfl⟩
    obtain ⟨ds, hds, rfl⟩ := mem_idRe.mp hv
    rw [mem_lang_text] at hu
    exact ⟨ds, hds, by rw [hu]; rfl⟩
  · rintro ⟨ds, hds, rfl⟩
    exact ⟨['.'], mem_lang_text.mpr rfl, _, mem_idRe.mpr ⟨ds, hds, rfl⟩, rfl⟩

theorem mem_commaIdRe {x : Str} : x ∈ commaIdRe.lang ↔
    ∃ ds, IsDigits ds ∧ ∃ y ∈ dotIdRe.lang∗, x = ',' :: ("id=".toList ++ ds) ++ y := by
  rw [commaIdRe, mem_lang_seq]
  constructor
  · rintro ⟨u, hu, v, hv, rfl⟩
    obtain ⟨i, hi, y, hy, rfl⟩ := mem_lang_seq.mp hv
    obtain ⟨ds, hds, rfl⟩ := mem_idRe.mp hi
    rw [mem_lang_text] at hu
    exact ⟨ds, hds, y, hy, by rw [hu]; rfl⟩
  · rintro ⟨ds, hds, y, hy, rfl⟩
    exact ⟨[','], mem_lang_text.mpr rfl, _, mem_lang_seq.mpr
      ⟨_, mem_idRe.mpr ⟨ds, hds, rfl⟩, y, hy, rfl⟩, rfl⟩

/-- What keeps `p` when one word of `l` is added keeps it for a word of
`l∗`. -/
theorem kstar_append {l : Language Char} {p : Str → Prop}
    (h : ∀ c y, p c → y ∈ l → p (c ++ y)) {c y : Str} (hc : p c) (hy : y ∈ l∗) : p (c ++ y) := by
  obtain ⟨L, rfl, hL⟩ := Language.mem_kstar.mp hy
  clear hy
  induction L generalizing c with
  | nil => simpa using hc
  | cons w L ih =>
    rw [List.flatten_cons, ← List.append_assoc]
    exact ih (h c w hc (hL w List.mem_cons_self)) fun y hy => hL y (List.mem_cons_of_mem _ hy)

theorem append_mem_kstar {l : Language Char} {x y : Str} (hx : x ∈ l∗) (hy : y ∈ l) : x ++ y ∈ l∗ := by
  rw [← Language.one_add_kstar_mul_self_eq_kstar]
  exact .inr (Language.append_mem_mul hx hy)

theorem mem_cleanRe {x : Str} : x ∈ cleanRe.lang ↔ IsClean x := by
  have hdots : ∀ {c y}, IsClean c → y ∈ dotIdRe.lang∗ → IsClean (c ++ y) := fun {c y} =>
    kstar_append fun c y hc hy => by
      obtain ⟨ds, hds, rfl⟩ := mem_dotIdRe.mp hy
      exact .child '.' hc (.inr rfl) hds
  rw [cleanRe, mem_lang_seq]
  constructor
  · rintro ⟨i, hi, v, hv, rfl⟩
    obtain ⟨ds, hds, rfl⟩ := mem_idRe.mp hi
    obtain ⟨a, ha, b, hb, rfl⟩ := mem_lang_seq.mp hv
    rw [← List.append_assoc]
    refine kstar_append (l := commaIdRe.lang) (fun c y hc hy => ?_) (hdots (.root hds) ha) hb
    obtain ⟨es, hes, z, hz, rfl⟩ := mem_commaIdRe.mp hy
    rw [← List.append_assoc]
    exact hdots (.child ',' hc (.inl rfl) hes) hz
  · intro h
    induction h with
    | @root ds h =>
      exact ⟨_, mem_idRe.mpr ⟨ds, h, rfl⟩, [], mem_lang_seq.mpr
        ⟨[], Language.nil_mem_kstar _, [], Language.nil_mem_kstar _, rfl⟩, by simp⟩
    | @child c ds sep hc hsep h ih =>
      obtain ⟨i, hi, v, hv, rfl⟩ := ih
      obtain ⟨a, ha, b, hb, rfl⟩ := mem_lang_seq.mp hv
      rcases hsep with rfl | rfl
      · -- a new group of tags
        refine ⟨i, hi, a ++ (b ++ ',' :: ("id=".toList ++ ds)), mem_lang_seq.mpr
          ⟨a, ha, _, append_mem_kstar hb (mem_commaIdRe.mpr
            ⟨ds, h, [], Language.nil_mem_kstar _, by simp⟩), rfl⟩, by simp⟩
      · -- the last group becomes longer
        have hdot : '.' :: ("id=".toList ++ ds) ∈ dotIdRe.lang := mem_dotIdRe.mpr ⟨ds, h, rfl⟩
        have hb' : b ∈ (1 + commaIdRe.lang∗ * commaIdRe.lang : Language Char) := by
          rw [Language.one_add_kstar_mul_self_eq_kstar]; exact hb
        rcases hb' with hb' | hb'
        · have hnil : b = [] := hb'
          subst hnil
          exact ⟨i, hi, a ++ '.' :: ("id=".toList ++ ds), mem_lang_seq.mpr
            ⟨_, append_mem_kstar ha hdot, [], Language.nil_mem_kstar _, by simp⟩, by simp⟩
        · obtain ⟨u, hu, w, hw, rfl⟩ := Language.mem_mul.mp hb'
          obtain ⟨es, hes, y, hy, rfl⟩ := mem_commaIdRe.mp hw
          refine ⟨i, hi, a ++ (u ++ (',' :: ("id=".toList ++ es) ++ (y ++ '.' :: ("id=".toList ++ ds)))),
            mem_lang_seq.mpr ⟨a, ha, _, append_mem_kstar hu (mem_commaIdRe.mpr
              ⟨es, hes, _, append_mem_kstar hy hdot, rfl⟩), rfl⟩, by simp⟩

/-! ## The classifiers -/

/-- A clean name, and the newline that `$` lets follow the suffix. -/
@[ext]
structure TcName where
  clean : Str
  isClean : IsClean clean
  newline : Bool

namespace TcName

/-- The newline. -/
def nl (t : TcName) : Str := if t.newline then ['\n'] else []

/-- The name of a testcase of the first stage. -/
def root (ds : Str) (h : IsDigits ds) : TcName := ⟨"id=".toList ++ ds, .root h, false⟩

/-- `.testcase`. -/
def testcase (t : TcName) : Str := t.clean ++ (".testcase".toList ++ t.nl)

end TcName

/-- A search for a clean name with a fixed suffix. -/
theorem search_suffix {suffix : Regex Char} {s : Str} :
    (seq cleanRe suffix).search s = true ↔
      ∃ t : TcName, ∃ x ∈ suffix.lang, s = t.clean ++ (x ++ t.nl) := by
  rw [search_iff]
  constructor
  · rintro ⟨x, hx, h⟩
    obtain ⟨c, hc, y, hy, rfl⟩ := mem_lang_seq.mp hx
    rcases h with rfl | rfl
    · exact ⟨⟨c, mem_cleanRe.mp hc, false⟩, y, hy, by simp [TcName.nl]⟩
    · exact ⟨⟨c, mem_cleanRe.mp hc, true⟩, y, hy, by simp [TcName.nl]⟩
  · rintro ⟨⟨c, hc, b⟩, y, hy, rfl⟩
    refine ⟨c ++ y, mem_lang_seq.mpr ⟨c, mem_cleanRe.mpr hc, y, hy, rfl⟩, ?_⟩
    cases b <;> simp [TcName.nl]

theorem search_text {p s : Str} :
    (seq cleanRe (text p)).search s = true ↔ ∃ t : TcName, s = t.clean ++ (p ++ t.nl) := by
  rw [search_suffix]
  refine exists_congr fun t => ⟨?_, fun h => ⟨p, mem_lang_text.mpr rfl, h⟩⟩
  rintro ⟨x, hx, h⟩
  rw [mem_lang_text.mp hx] at h
  exact h

theorem search_anchored {r : Regex Char} {p s : Str} :
    (seq (text p) r).search s = true ↔ ∃ y, r.search y = true ∧ s = p ++ y := by
  simp only [search_iff]
  constructor
  · rintro ⟨x, hx, h⟩
    obtain ⟨u, hu, v, hv, rfl⟩ := mem_lang_seq.mp hx
    rw [mem_lang_text] at hu
    subst hu
    rcases h with rfl | rfl
    · exact ⟨v, ⟨v, hv, .inl rfl⟩, rfl⟩
    · exact ⟨v ++ ['\n'], ⟨v, hv, .inr rfl⟩, by simp⟩
  · rintro ⟨y, ⟨x, hx, h⟩, rfl⟩
    refine ⟨p ++ x, mem_lang_seq.mpr ⟨p, mem_lang_text.mpr rfl, x, hx, rfl⟩, ?_⟩
    rcases h with rfl | rfl
    · exact .inl rfl
    · exact .inr (by simp)

theorem search_anchored_text {p q s : Str} :
    (seq (text p) (seq cleanRe (text q))).search s = true ↔
      ∃ t : TcName, s = p ++ (t.clean ++ (q ++ t.nl)) := by
  rw [search_anchored]
  simp only [search_text]
  constructor
  · rintro ⟨y, ⟨t, rfl⟩, h⟩; exact ⟨t, h⟩
  · rintro ⟨t, h⟩; exact ⟨_, ⟨t, rfl⟩, h⟩

theorem isTc_iff {s : Str} : isTc s false = true ↔ ∃ t : TcName, s = t.testcase := by
  rw [isTc, Bool.false_and, Bool.or_false, tcRegex, search_text]
  rfl

theorem isMinTc_iff {s : Str} :
    isMinTc s = true ↔ ∃ t : TcName, s = t.clean ++ (".min.testcase".toList ++ t.nl) := by
  rw [isMinTc, tcMinRegex, search_text]

theorem isMap_iff {s : Str} : isMap s = true ↔ ∃ t : TcName, s = "map_".toList ++ t.testcase :=
  search_anchored_text

theorem isPmMap_iff {s : Str} :
    isPmMap s = true ↔ ∃ t : TcName, s = "pm_map_".toList ++ t.testcase :=
  search_anchored_text

theorem isCrashSite_iff {s : Str} :
    isCrashSite s = true ↔ ∃ t : TcName, s = t.clean ++ (".crash_site".toList ++ t.nl) := by
  rw [isCrashSite, crashSiteRegex, search_text]

/-- The two dots of `.tar.gz` stand for any characters. -/
theorem mem_tarGzRe {x : Str} : x ∈ tarGzRe.lang ↔
    ∃ a b, a ≠ '\n' ∧ b ≠ '\n' ∧ x = a :: ("tar".toList ++ b :: "gz".toList) := by
  have hany : ∀ c, anyChar c = true ↔ c ≠ '\n' := fun c => bne_iff_ne
  rw [tarGzRe, mem_lang_seq]
  constructor
  · rintro ⟨_, ⟨a, ha, rfl⟩, v, hv, rfl⟩
    obtain ⟨w, hw, y, hy, rfl⟩ := mem_lang_seq.mp hv
    obtain ⟨_, ⟨b, hb, rfl⟩, z, hz, rfl⟩ := mem_lang_seq.mp hy
    rw [mem_lang_text] at hw hz
    exact ⟨a, b, (hany a).mp ha, (hany b).mp hb, by rw [hw, hz]; rfl⟩
  · rintro ⟨a, b, ha, hb, rfl⟩
    exact ⟨[a], ⟨a, (hany a).mpr ha, rfl⟩, _, mem_lang_seq.mpr ⟨_, mem_lang_text.mpr rfl, _,
      mem_lang_seq.mpr ⟨[b], ⟨b, (hany b).mpr hb, rfl⟩, _, mem_lang_text.mpr rfl, rfl⟩, rfl⟩, rfl⟩

/-- A search for the name of an archive. -/
theorem search_archive {stem s : Str} : (seq cleanRe (seq (text stem) tarGzRe)).search s = true ↔
    ∃ t : TcName, ∃ a b, a ≠ '\n' ∧ b ≠ '\n' ∧
      s = t.clean ++ (stem ++ a :: ("tar".toList ++ b :: "gz".toList) ++ t.nl) := by
  rw [search_suffix]
  refine exists_congr fun t => ?_
  constructor
  · rintro ⟨x, hx, rfl⟩
    obtain ⟨u, hu, v, hv, rfl⟩ := mem_lang_seq.mp hx
    obtain ⟨a, b, ha, hb, rfl⟩ := mem_tarGzRe.mp hv
    rw [mem_lang_text] at hu
    exact ⟨a, b, ha, hb, by rw [hu]⟩
  · rintro ⟨a, b, ha, hb, rfl⟩
    exact ⟨_, mem_lang_seq.mpr ⟨_, mem_lang_text.mpr rfl, _, mem_tarGzRe.mpr ⟨a, b, ha, hb, rfl⟩,
      rfl⟩, rfl⟩

theorem isCmprCrashSite_iff {s : Str} : isCmprCrashSite s = true ↔
    ∃ t : TcName, ∃ a b, a ≠ '\n' ∧ b ≠ '\n' ∧
      s = t.clean ++ (".crash_site".toList ++ a :: ("tar".toList ++ b :: "gz".toList) ++ t.nl) :=
  search_archive

theorem isImg_iff {s : Str} :
    isImg s = true ↔ ∃ t : TcName, s = t.clean ++ (".pm_pool".toList ++ t.nl) := by
  rw [isImg, pmImgRegex, search_text]

theorem isCmprImg_iff {s : Str} : isCmprImg s = true ↔
    ∃ t : TcName, ∃ a b, a ≠ '\n' ∧ b ≠ '\n' ∧
      s = t.clean ++ (".pm_pool".toList ++ a :: ("tar".toList ++ b :: "gz".toList) ++ t.nl) :=
  search_archive

end PMFuzz.Names
