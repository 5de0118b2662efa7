import PMFuzz.Names.Grammar
import PMFuzz.Framework.Fold
import Mathlib.Data.List.DropRight

/-!
# Metadata names

`get_metadata_files` and what is read off a name: `ancestor_cnt`,
`iter_cnt`. On a name of any kind of the testcase `t` it returns
`t.metadata` (`getMetadataFiles_testcase` and its siblings).
-/

namespace PMFuzz

/-- What ends a PMFuzz process instead of a return. -/
inductive Stop
  /-- `abort`. -/
  | abort (msg : Str)
  /-- `FileNotFoundError`. -/
  | fileNotFound (name : Str)
  /-- `ValueError`. -/
  | valueError
  /-- `IndexError`. -/
  | indexError
  deriving DecidableEq

namespace Names

open Str

/-- The result of `get_metadata_files`. -/
structure Metadata where
  testcase : Str
  clean : Str
  minTestcase : Str
  pmMap : Str
  map : Str
  deleted : Str
  crashSite : Str
  crashCmprSite : Str
  pmPool : Str
  pmCmprPool : Str
  deriving DecidableEq

/-- `values()` with `deleted=False`. -/
def Metadata.values (m : Metadata) : List Str :=
  [m.testcase, m.clean, m.minTestcase, m.pmMap, m.map, m.crashSite, m.crashCmprSite, m.pmPool,
    m.pmCmprPool]

/-- What `get_metadata_files` takes for the name of the testcase. -/
def testcaseOf (basename : Str) : Str :=
  if "pm_map".toList <:+: basename then replace basename "pm_map_".toList []
  else if "map".toList <:+: basename then replace basename "map_".toList []
  else if ".pm_pool.tar.gz".toList <:+: basename then
    replace basename ".pm_pool.tar.gz".toList ".testcase".toList
  else if ".pm_pool".toList <:+: basename then replace basename ".pm_pool".toList ".testcase".toList
  else if ".crash_site.tar.gz".toList <:+: basename then
    replace basename ".crash_site.tar.gz".toList ".testcase".toList
  else if ".crash_site".toList <:+: basename then
    replace basename ".crash_site".toList ".testcase".toList
  else if ".min".toList <:+: basename then replace basename ".min".toList []
  else basename

/-- Its result for a testcase of this name. -/
def Metadata.ofName (basename : Str) : Metadata :=
  let bareName := replace basename ".testcase".toList []
  { testcase := basename
    clean := bareName
    minTestcase := bareName ++ ".min.testcase".toList
    pmMap := "pm_map_".toList ++ basename
    map := "map_".toList ++ basename
    deleted := bareName ++ ".deleted".toList
    crashSite := bareName ++ ".crash_site".toList
    crashCmprSite := bareName ++ ".crash_site.tar.gz".toList
    pmPool := bareName ++ ".pm_pool".toList
    pmCmprPool := bareName ++ ".pm_pool.tar.gz".toList }

/-- `get_metadata_files` of a file, without the directory of its path. -/
def metadataFilesOf (testcase name : Str) : Except Stop Metadata :=
  let basename := testcaseOf name
  if isTc basename false then .ok (.ofName basename)
  else
    .error (.abort ("Cannot convert ".toList ++ testcase ++ " to a valid testcase name, got: ".toList ++
      basename))

/-- `get_metadata_files`, of a name without a directory. -/
def getMetadataFiles (testcase : Str) : Except Stop Metadata := metadataFilesOf testcase testcase

/-- `ancestor_cnt`. -/
def ancestorCnt (filename : Str) : Except Stop ℕ := do
  let m ← getMetadataFiles filename
  return (split m.clean ',').length - 1

/-- `iter_cnt`. -/
def iterCnt (filename : Str) : Except Stop ℕ := do
  let n ← ancestorCnt filename
  return n + 1

/-! ## The names of a testcase -/

instance : DecidablePred cleanChar := fun c =>
  inferInstanceAs (Decidable (c ∈ "id=,.".toList ∨ isDigit c = true))

namespace TcName

variable (t : TcName) {s : Str}

/-- `bare_name`. -/
def bare : Str := t.clean ++ t.nl

def metadata : Metadata where
  testcase := t.testcase
  clean := t.bare
  minTestcase := t.bare ++ ".min.testcase".toList
  pmMap := "pm_map_".toList ++ t.testcase
  map := "map_".toList ++ t.testcase
  deleted := t.bare ++ ".deleted".toList
  crashSite := t.bare ++ ".crash_site".toList
  crashCmprSite := t.bare ++ ".crash_site.tar.gz".toList
  pmPool := t.bare ++ ".pm_pool".toList
  pmCmprPool := t.bare ++ ".pm_pool.tar.gz".toList

variable {t}

/-- One of the first two characters occurs in no clean name. -/
def foreign (pat : Str) : Bool := (pat.take 2).any fun c => !decide (cleanChar c)

/-- An occurrence of a foreign pattern does not start in the clean name. -/
theorem noStart {pat : Str} (hpat : foreign pat = true) (hs : s.head? = some '.') :
    NoStart pat t.clean s := by
  match pat, hpat with
  | [], h => cases h
  | [p], h =>
    refine noStart_of_head (t.isClean.notMem ?_)
    simpa [foreign] using h
  | p :: q :: pat, h =>
    by_cases hp : cleanChar p
    · have hq : ¬ cleanChar q := by simpa [foreign, hp] using h
      refine noStart_of_second (t.isClean.notMem hq) ?_
      rw [hs]
      rintro ⟨⟩
      exact hq (.inl (by decide))
    · exact noStart_of_head (t.isClean.notMem hp)

/-- `nl` is one of two texts. -/
theorem nl_cases : t.nl = [] ∨ t.nl = ['\n'] := by
  unfold nl
  cases t.newline
  · exact .inl rfl
  · exact .inr rfl

theorem replace_testcase : replace t.testcase ".testcase".toList [] = t.bare := by
  have h : replace t.testcase ".testcase".toList [] =
      t.clean ++ replace (".testcase".toList ++ t.nl) ".testcase".toList [] :=
    (noStart (by decide) rfl).replace (by decide)
  rw [h, replace_append (by decide)]
  rcases t.nl_cases with hnl | hnl <;> rw [bare, hnl] <;> rfl

/-- The names of a testcase without a newline. -/
theorem testcase_eq (h : t.newline = false) : t.testcase = t.clean ++ ".testcase".toList := by
  simp [testcase, nl, h]

theorem bare_eq (h : t.newline = false) : t.bare = t.clean := by
  simp [bare, nl, h]

theorem replace_testcase_eq (h : t.newline = false) :
    replace t.testcase ".testcase".toList [] = t.clean := by
  rw [replace_testcase, bare_eq h]

end TcName

theorem isTc_testcase (t : TcName) : isTc t.testcase false = true := isTc_iff.mpr ⟨t, rfl⟩

/-- A testcase is one also where minimized ones are. -/
theorem isTc_all (t : TcName) : isTc t.testcase true = true := by
  have h := isTc_testcase t
  rw [isTc, Bool.false_and, Bool.or_false] at h
  rw [isTc, h, Bool.true_or]

variable (t : TcName)

theorem getMetadataFiles_of {name : Str} (h : testcaseOf name = t.testcase) :
    getMetadataFiles name = .ok t.metadata := by
  rw [getMetadataFiles, metadataFilesOf, h, if_pos (isTc_testcase t), Metadata.ofName, TcName.replace_testcase]
  rfl

/-- What comes after the clean name decides on the kind. -/
theorem testcaseOf_clean {ext : Str} (hext : ext.head? = some '.') :
    testcaseOf (t.clean ++ ext) = t.clean ++ testcaseOf ext := by
  have hin : ∀ p : Str, TcName.foreign p = true → (p <:+: t.clean ++ ext ↔ p <:+: ext) :=
    fun _ hp => (TcName.noStart hp hext).infix_iff
  have hrep : ∀ p new : Str, TcName.foreign p = true →
      replace (t.clean ++ ext) p new = t.clean ++ replace ext p new := by
    intro p new hp
    refine (TcName.noStart hp hext).replace ?_
    rintro rfl
    cases hp
  unfold testcaseOf
  simp only [hin "pm_map".toList (by decide), hin "map".toList (by decide),
    hin ".pm_pool.tar.gz".toList (by decide), hin ".pm_pool".toList (by decide),
    hin ".crash_site.tar.gz".toList (by decide), hin ".crash_site".toList (by decide),
    hin ".min".toList (by decide), hrep "pm_map_".toList _ (by decide),
    hrep "map_".toList _ (by decide), hrep ".pm_pool.tar.gz".toList _ (by decide),
    hrep ".pm_pool".toList _ (by decide), hrep ".crash_site.tar.gz".toList _ (by decide),
    hrep ".crash_site".toList _ (by decide), hrep ".min".toList _ (by decide),
    ← apply_ite (t.clean ++ ·)]

/-- A name with the suffix of its kind. -/
theorem getMetadataFiles_suffix (hnl : t.newline = false) {ext : Str} (hext : ext.head? = some '.')
    (hof : testcaseOf ext = ".testcase".toList) : getMetadataFiles (t.bare ++ ext) = .ok t.metadata := by
  refine getMetadataFiles_of t ?_
  rw [TcName.bare, TcName.testcase, TcName.nl, hnl]
  simp [testcaseOf_clean t hext, hof]

/-- What comes after the clean name decides which pattern occurs. -/
theorem TcName.infix_iff {pat s : Str} (hpat : TcName.foreign pat = true) (hs : s.head? = some '.') :
    pat <:+: t.clean ++ s ↔ pat <:+: s :=
  (TcName.noStart hpat hs).infix_iff

theorem TcName.not_infix_testcase {pat : Str} (hpat : TcName.foreign pat = true)
    (h1 : ¬ pat <:+: ".testcase".toList) (h2 : ¬ pat <:+: ".testcase\n".toList) :
    ¬ pat <:+: t.testcase := by
  intro h
  have h' := (t.infix_iff hpat rfl).mp h
  rcases t.nl_cases with hnl | hnl <;> rw [hnl] at h'
  · exact h1 (by simpa using h')
  · exact h2 h'

theorem getMetadataFiles_testcase : getMetadataFiles t.testcase = .ok t.metadata := by
  refine getMetadataFiles_of t ?_
  rw [TcName.testcase, testcaseOf_clean t rfl]
  rcases t.nl_cases with hnl | hnl <;> rw [hnl] <;> rfl

theorem getMetadataFiles_clean {c : Str} (hc : IsClean c) :
    getMetadataFiles (c ++ ".testcase".toList) = .ok (TcName.mk c hc false).metadata := by
  rw [← getMetadataFiles_testcase, TcName.testcase_eq rfl]

theorem testcaseOf_pmMap : testcaseOf t.metadata.pmMap = t.testcase := by
  have hin : "pm_map".toList <:+: t.metadata.pmMap := ⟨[], '_' :: t.testcase, rfl⟩
  have hno : ¬ "pm_map_".toList <:+: t.testcase :=
    t.not_infix_testcase (by decide) (by decide) (by decide)
  unfold testcaseOf
  rw [if_pos hin, TcName.metadata, replace_append (by decide), replace_of_not_infix hno (by decide)]
  rfl

theorem getMetadataFiles_pmMap : getMetadataFiles t.metadata.pmMap = .ok t.metadata :=
  getMetadataFiles_of t (testcaseOf_pmMap t)

theorem testcaseOf_map : testcaseOf t.metadata.map = t.testcase := by
  have hno : ∀ pat : Str, TcName.foreign pat = true → (¬ pat <:+: ".testcase".toList) →
      (¬ pat <:+: ".testcase\n".toList) → ¬ pat <:+: t.testcase := fun _ => t.not_infix_testcase
  have hpm : ¬ "pm_map".toList <:+: t.metadata.map := by
    have hstart : NoStart "pm_map".toList "map_".toList t.testcase := by
      simp [noStart_cons, noStart_nil]
    exact fun h => hno _ (by decide) (by decide) (by decide) (hstart.infix_iff.mp h)
  have hin : "map".toList <:+: t.metadata.map := ⟨[], '_' :: t.testcase, rfl⟩
  unfold testcaseOf
  rw [if_neg hpm, if_pos hin, TcName.metadata, replace_append (by decide),
    replace_of_not_infix (hno _ (by decide) (by decide) (by decide)) (by decide)]
  rfl

theorem getMetadataFiles_map : getMetadataFiles t.metadata.map = .ok t.metadata :=
  getMetadataFiles_of t (testcaseOf_map t)

/-- The archive of the testcase's image: `.pm_pool.tar.gz` in the place of
`.testcase`. -/
def TcName.image : Str := t.clean ++ (".pm_pool.tar.gz".toList ++ t.nl)

theorem replace_testcase_image :
    replace t.testcase ".testcase".toList ".pm_pool.tar.gz".toList = t.image := by
  have h : replace t.testcase ".testcase".toList ".pm_pool.tar.gz".toList =
      t.clean ++ replace (".testcase".toList ++ t.nl) ".testcase".toList ".pm_pool.tar.gz".toList :=
    (TcName.noStart (by decide) rfl).replace (by decide)
  rw [h, replace_append (by decide), TcName.image]
  rcases t.nl_cases with hnl | hnl <;> rw [hnl] <;> rfl

theorem TcName.image_eq (h : t.newline = false) : t.image = t.metadata.pmCmprPool := by
  simp [image, metadata, bare, nl, h]

theorem getMetadataFiles_image : getMetadataFiles t.image = .ok t.metadata := by
  refine getMetadataFiles_of t ?_
  rw [TcName.image, testcaseOf_clean t rfl, TcName.testcase]
  rcases t.nl_cases with hnl | hnl <;> rw [hnl] <;> rfl

theorem getMetadataFiles_pmPool (h : t.newline = false) :
    getMetadataFiles t.metadata.pmPool = .ok t.metadata := getMetadataFiles_suffix t h rfl rfl

theorem getMetadataFiles_crashSite (h : t.newline = false) :
    getMetadataFiles t.metadata.crashSite = .ok t.metadata := getMetadataFiles_suffix t h rfl rfl

theorem getMetadataFiles_crashCmprSite (h : t.newline = false) :
    getMetadataFiles t.metadata.crashCmprSite = .ok t.metadata := getMetadataFiles_suffix t h rfl rfl

/-- What `ancestor_cnt` counts. -/
def TcName.ancestors : ℕ := (split t.bare ',').length - 1

variable {t} in
theorem ancestorCnt_of {filename : Str} (h : getMetadataFiles filename = .ok t.metadata) :
    ancestorCnt filename = .ok t.ancestors := by
  rw [ancestorCnt, h]
  rfl

/-! ## Names do not clash -/

/-- What comes before the clean name of a file. -/
def prefixes : List Str := [[], "map_".toList, "pm_map_".toList]

/-- Of what comes after it only a dot at the start can be a clean name's. -/
def Ends (s : Str) : Prop :=
  s.takeWhile (decide <| cleanChar ·) = [] ∨ s.takeWhile (decide <| cleanChar ·) = ['.']

instance : DecidablePred Ends := fun _ => inferInstanceAs (Decidable (_ ∨ _))

/-- The clean name is read off the start. -/
theorem IsClean.takeWhile_append {c s : Str} (hc : IsClean c) (hs : Ends s) :
    ((c ++ s).takeWhile (decide <| cleanChar ·)).rdropWhile (· = '.') = c := by
  obtain ⟨r, d, hr, hd⟩ := hc.getLast
  have hdot : ¬ decide (d = '.') = true := by
    rw [decide_eq_true_eq]
    rintro rfl
    exact absurd hd (by decide)
  have hself : c.rdropWhile (· = '.') = c := by
    rw [hr]
    exact List.rdropWhile_concat_neg _ _ _ hdot
  rw [List.takeWhile_append_of_pos fun x hx => decide_eq_true (hc.chars x hx)]
  rcases hs with hs | hs <;> rw [hs]
  · rw [List.append_nil, hself]
  · rw [List.rdropWhile_concat_pos _ _ _ (by decide), hself]

theorem affixes_inj {p p' c c' s s' : Str} (hp : p ∈ prefixes) (hp' : p' ∈ prefixes) (hc : IsClean c)
    (hc' : IsClean c') (hs : Ends s) (hs' : Ends s') (h : p ++ (c ++ s) = p' ++ (c' ++ s')) :
    p = p' ∧ c = c' ∧ s = s' := by
  -- the first character tells the prefixes apart
  have hpre : p = p' := by
    obtain ⟨r, rfl⟩ := hc.head
    obtain ⟨r', rfl⟩ := hc'.head
    have hhead := congrArg List.head? h
    simp only [prefixes, List.mem_cons, List.not_mem_nil, or_false] at hp hp'
    rcases hp with rfl | rfl | rfl <;> rcases hp' with rfl | rfl | rfl <;>
      first | rfl | (simp at hhead)
  subst hpre
  have hcs := List.append_cancel_left h
  have hclean : c = c' := by rw [← hc.takeWhile_append hs, hcs, hc'.takeWhile_append hs']
  subst hclean
  exact ⟨rfl, rfl, List.append_cancel_left hcs⟩

namespace TcName

variable {t} {u : TcName}

/-- What the names of a testcase's files have around its clean name. -/
def affixes (nl : Str) : List (Str × Str) :=
  [([], ".testcase".toList ++ nl), ([], nl), ([], nl ++ ".min.testcase".toList),
    ("pm_map_".toList, ".testcase".toList ++ nl), ("map_".toList, ".testcase".toList ++ nl),
    ([], nl ++ ".crash_site".toList), ([], nl ++ ".crash_site.tar.gz".toList),
    ([], nl ++ ".pm_pool".toList), ([], nl ++ ".pm_pool.tar.gz".toList)]

theorem values_eq (t : TcName) :
    t.metadata.values = (affixes t.nl).map fun a => a.1 ++ (t.clean ++ a.2) := by
  simp [Metadata.values, metadata, testcase, bare, affixes]

theorem affixes_ok : ∀ a ∈ affixes t.nl,
    a.1 ∈ prefixes ∧ Ends a.2 ∧ ('\n' ∈ a.2 ↔ t.nl = ['\n']) := by
  rcases t.nl_cases with hnl | hnl <;> rw [hnl] <;> decide

theorem testcase_mem_values (t : TcName) : t.testcase ∈ t.metadata.values := by
  simp [Metadata.values, metadata]

/-- A file is among the files of one testcase. -/
theorem eq_of_mem_values {n : Str} (ht : n ∈ t.metadata.values) (hu : n ∈ u.metadata.values) : t = u := by
  rw [values_eq, List.mem_map] at ht hu
  obtain ⟨a, ha, rfl⟩ := ht
  obtain ⟨b, hb, h⟩ := hu
  obtain ⟨hp, hs, hnl⟩ := affixes_ok a ha
  obtain ⟨hp', hs', hnl'⟩ := affixes_ok b hb
  obtain ⟨-, hclean, heq⟩ := affixes_inj hp' hp u.isClean t.isClean hs' hs h
  refine TcName.ext hclean.symm ?_
  rw [heq, hnl] at hnl'
  cases htn : t.newline <;> cases hun : u.newline <;> simp [nl, htn, hun] at hnl' ⊢

theorem bare_inj : t.bare = u.bare ↔ t = u := by
  refine ⟨fun h => ?_, fun h => by rw [h]⟩
  unfold bare nl at h
  obtain ⟨s, d, hs, hd⟩ := t.isClean.getLast
  obtain ⟨s', d', hs', hd'⟩ := u.isClean.getLast
  have hnl : isDigit '\n' = false := by decide
  cases ht : t.newline <;> cases hu : u.newline <;> rw [ht, hu] at h
  · exact TcName.ext (by simpa using h) (by rw [ht, hu])
  · rw [hs] at h
    have := congrArg List.getLast? h
    simp only [Bool.false_eq_true, ↓reduceIte, List.append_nil, List.getLast?_append,
      List.getLast?_singleton, Option.some_or, Option.some.injEq] at this
    rw [this, hnl] at hd; cases hd
  · rw [hs'] at h
    have := congrArg List.getLast? h
    simp only [Bool.false_eq_true, ↓reduceIte, List.append_nil, List.getLast?_append,
      List.getLast?_singleton, Option.some_or, Option.some.injEq] at this
    rw [← this, hnl] at hd'; cases hd'
  · exact TcName.ext (by simpa using h) (by rw [ht, hu])

theorem testcase_inj : t.testcase = u.testcase ↔ t = u := by
  refine ⟨fun h => ?_, fun h => by rw [h]⟩
  have := congrArg (fun s => replace s ".testcase".toList []) h
  simp only [replace_testcase] at this
  exact bare_inj.mp this

theorem deleted_inj : t.metadata.deleted = u.metadata.deleted ↔ t = u := by
  rw [metadata, metadata, List.append_left_inj, bare_inj]

theorem map_inj : t.metadata.map = u.metadata.map ↔ t = u := by
  rw [metadata, metadata, List.append_right_inj, testcase_inj]

theorem pmMap_inj : t.metadata.pmMap = u.metadata.pmMap ↔ t = u := by
  rw [metadata, metadata, List.append_right_inj, testcase_inj]

/-- The files that a testcase is collected in. -/
def family (t : TcName) : List Str := [t.testcase, t.metadata.map, t.metadata.pmMap, t.image]

/-- A file belongs to one testcase. -/
theorem eq_of_mem_family {n : Str} (ht : n ∈ t.family) (hu : n ∈ u.family) : t = u := by
  have hmeta : ∀ {v : TcName}, n ∈ v.family → getMetadataFiles n = .ok v.metadata := by
    intro v hv
    simp only [family, List.mem_cons, List.not_mem_nil, or_false] at hv
    rcases hv with rfl | rfl | rfl | rfl
    · exact getMetadataFiles_testcase v
    · exact getMetadataFiles_map v
    · exact getMetadataFiles_pmMap v
    · exact getMetadataFiles_image v
  have h := (hmeta ht).symm.trans (hmeta hu)
  exact testcase_inj.mp (congrArg Metadata.testcase (Except.ok.inj h))

/-- The last character of a bare name is a digit or the newline. -/
theorem getLast?_bare : ∃ c, t.bare.getLast? = some c ∧ (isDigit c = true ∨ c = '\n') := by
  obtain ⟨s, d, hs, hd⟩ := t.isClean.getLast
  rw [bare]
  rcases t.nl_cases with hnl | hnl <;> rw [hnl]
  · exact ⟨d, by rw [hs]; simp, .inl hd⟩
  · exact ⟨'\n', by simp, .inr rfl⟩

theorem getLast?_testcase : t.testcase.getLast? = some 'e' ∨ t.testcase.getLast? = some '\n' := by
  rw [testcase]
  rcases t.nl_cases with hnl | hnl <;> rw [hnl]
  · exact .inl (by simp)
  · exact .inr (by simp)

/-- No file of a testcase but the placeholder ends in `.deleted`. -/
theorem deleted_notMem_values : t.metadata.deleted ∉ u.metadata.values := by
  intro h
  have hlast : t.metadata.deleted.getLast? = some 'd' := by simp [metadata]
  obtain ⟨c, hc, hcd⟩ := u.getLast?_bare
  have hd : isDigit 'd' = false := by decide
  have hne : ∀ x ∈ u.metadata.values, x.getLast? ≠ some 'd' := by
    have htc : u.testcase.getLast? ≠ some 'd' := by
      rcases u.getLast?_testcase with h | h <;> rw [h] <;> decide
    simp only [metadata, Metadata.values, List.forall_mem_cons, List.getLast?_append]
    refine ⟨htc, ?_, by simp, ?_, ?_, by simp, by simp, by simp, by simp, by simp⟩
    · rw [hc]
      rintro ⟨⟩
      rcases hcd with h | h
      · rw [hd] at h; cases h
      · exact absurd h (by decide)
    · rcases u.getLast?_testcase with h | h <;> rw [h] <;> simp
    · rcases u.getLast?_testcase with h | h <;> rw [h] <;> simp
  exact hne _ h hlast

/-- The first character tells testcases, maps and PM maps apart. -/
theorem head?_testcase : t.testcase.head? = some 'i' := by
  obtain ⟨s, hs⟩ := t.isClean.head
  rw [testcase, hs]
  rfl

theorem head?_bare : t.bare.head? = some 'i' := by
  obtain ⟨s, hs⟩ := t.isClean.head
  rw [bare, hs]
  rfl

theorem notMem_bare {x : Char} (hx : ¬ cleanChar x) (hnl : x ≠ '\n') : x ∉ t.bare := by
  intro h
  rcases List.mem_append.mp h with h | h
  · exact t.isClean.notMem hx h
  · rcases t.nl_cases with hn | hn <;> rw [hn] at h
    · exact absurd h List.not_mem_nil
    · exact hnl (List.mem_singleton.mp h)

end TcName

theorem isMap_testcase : isMap t.testcase = false := by
  rw [Bool.eq_false_iff]
  intro h
  obtain ⟨u, hu⟩ := isMap_iff.mp h
  have := t.head?_testcase
  rw [hu] at this
  cases this

theorem isPmMap_testcase : isPmMap t.testcase = false := by
  rw [Bool.eq_false_iff]
  intro h
  obtain ⟨u, hu⟩ := isPmMap_iff.mp h
  have := t.head?_testcase
  rw [hu] at this
  cases this

end Names

end PMFuzz
