import PMFuzz.Dedup.Sync
import PMFuzz.Framework.Variables
import PMFuzz.Names.StageDirs

/-!
# Where `update_local` copies to

`update_local` copies the testcases that are due (`Due`) from `@dedup` to
`@dedup_sync`, each with its files (`copied`). The paths of the testcase and of
the image lose every `.min`, also one of the output directory, so they need
not be in `@dedup_sync` (`Setting.InPlace`).
-/

namespace PMFuzz.Dedup

open Names Str

variable {os : Os Place} {gbl loc loc' d₁ d₂ : Dir} {n m : Str} {iterId : ℕ} {t u : TcName}

/-! ## The copies of one call -/

/-- The names that are `new` are those of `@dedup` afterwards, and nothing else
changes. -/
structure Gets (gbl loc loc' : Dir) (new : Str → Prop) : Prop where
  got : ∀ n, new n → loc'.lookup n = gbl.lookup n
  old : ∀ n, ¬ new n → loc'.lookup n = loc.lookup n

namespace Gets

variable {new new' : Str → Prop}

theorem refl : Gets gbl loc loc fun _ => False := ⟨fun _ h => h.elim, fun _ _ => rfl⟩

theorem congr (h : Gets gbl loc loc' new) (hnew : ∀ n, new' n ↔ new n) : Gets gbl loc loc' new' :=
  ⟨fun n hn => h.got n ((hnew n).mp hn), fun n hn => h.old n (mt (hnew n).mpr hn)⟩

theorem trans (h : Gets gbl loc d₁ new) (h' : Gets gbl d₁ d₂ new') : Gets gbl loc d₂ fun n => new n ∨ new' n := by
  refine ⟨fun n hn => ?_, fun n hn => ?_⟩
  · by_cases hn' : new' n
    · exact h'.got n hn'
    · rw [h'.old n hn', h.got n (hn.resolve_right hn')]
  · rw [h'.old n fun h => hn (.inr h), h.old n fun h => hn (.inl h)]

/-- One file. -/
theorem of_copypreserve (h : copypreserve gbl m loc m = .ok loc') : Gets gbl loc loc' (· = m) := by
  obtain ⟨b, hb, rfl⟩ := copypreserve_eq_ok.mp h
  refine ⟨fun n hn => ?_, fun n hn => ?_⟩
  · rw [Dir.lookup_insert, if_pos hn, hn, hb]
  · rw [Dir.lookup_insert, if_neg hn]

theorem of_copyIfThere (h : copyIfThere gbl m loc = .ok loc') : Gets gbl loc loc' fun n => n = m ∧ n ∈ gbl := by
  unfold copyIfThere at h
  split at h
  · rename_i hm
    exact (of_copypreserve h).congr fun n => and_iff_left_of_imp fun hn => hn ▸ hm
  · rename_i hm
    cases h
    exact refl.congr fun n => iff_false_intro fun hn => hm (hn.1 ▸ hn.2)

end Gets

/-- The files that a testcase is copied with. -/
def copied (t : TcName) : List Str :=
  [t.testcase, t.metadata.pmCmprPool, t.metadata.map, t.metadata.pmMap]

/-- The testcase is of the iteration's generation, and not copied yet. -/
structure Due (iterId : ℕ) (gbl loc : Dir) (t : TcName) : Prop where
  mem : t.testcase ∈ gbl
  generation : iterCnt t.testcase = .ok iterId
  notMem : t.testcase ∉ loc

theorem head?_pmCmprPool (t : TcName) : t.metadata.pmCmprPool.head? = some 'i' := by
  rw [TcName.metadata, List.head?_append, TcName.head?_bare]
  rfl

/-- The archive, the map and the PM map have different names. -/
theorem files_ne : t.metadata.pmCmprPool ≠ u.metadata.map ∧ t.metadata.pmCmprPool ≠ u.metadata.pmMap ∧
    t.metadata.map ≠ u.metadata.pmMap := by
  refine ⟨fun h => ?_, fun h => ?_, fun h => ?_⟩ <;> have hhead := congrArg List.head? h
  · rw [head?_pmCmprPool] at hhead
    cases hhead
  · rw [head?_pmCmprPool] at hhead
    cases hhead
  · cases hhead

/-- A file belongs to one testcase. -/
theorem copied_inj (ht : n ∈ copied t) (hu : n ∈ copied u) : t = u := by
  obtain ⟨hpool, hmap, hpm⟩ := testcase_ne_files (t := t) (u := u)
  obtain ⟨hpool', hmap', hpm'⟩ := testcase_ne_files (t := u) (u := t)
  obtain ⟨h₁, h₂, h₃⟩ := files_ne (t := t) (u := u)
  obtain ⟨h₁', h₂', h₃'⟩ := files_ne (t := u) (u := t)
  simp only [copied, List.mem_cons, List.not_mem_nil, or_false] at ht hu
  rcases ht with rfl | rfl | rfl | rfl
  · rcases hu with h | h | h | h
    · exact TcName.testcase_inj.mp h
    · exact absurd h hpool
    · exact absurd h hmap
    · exact absurd h hpm
  · rcases hu with h | h | h | h
    · exact absurd h.symm hpool'
    · exact TcName.bare_inj.mp (List.append_cancel_right h)
    · exact absurd h h₁
    · exact absurd h h₂
  · rcases hu with h | h | h | h
    · exact absurd h.symm hmap'
    · exact absurd h.symm h₁'
    · exact TcName.map_inj.mp h
    · exact absurd h h₃
  · rcases hu with h | h | h | h
    · exact absurd h.symm hpm'
    · exact absurd h.symm h₂'
    · exact absurd h.symm h₃'
    · exact TcName.pmMap_inj.mp h

/-- No crash site's archive is copied with a testcase. -/
theorem notMem_copied (h : isCmprCrashSite n = true) : n ∉ copied t := by
  intro hn
  simp only [copied, List.mem_cons, List.not_mem_nil, or_false] at hn
  have hfamily := cmprCrashSite_notMem_family h t
  simp only [TcName.family, List.mem_cons, List.not_mem_nil, or_false, not_or] at hfamily
  rcases hn with hn | rfl | hn | hn
  · exact hfamily.1 hn
  · obtain ⟨v, a, b, -, -, hv⟩ := isCmprCrashSite_iff.mp h
    have hin : 's' ∈ t.metadata.pmCmprPool := by rw [hv]; simp
    rcases List.mem_append.mp hin with hin | hin
    · exact TcName.notMem_bare (by decide) (by decide) hin
    · exact absurd hin (by decide)
  · exact hfamily.2.1 hn
  · exact hfamily.2.2.1 hn

/-- A round of the first loop. -/
theorem copyLocal_gets {locTcFiles : List Str} {img : Option Str} (himg : ∀ i, img = some i → i = t.metadata.pmCmprPool)
    (h : copyLocal iterId locTcFiles gbl loc (t.testcase, img) = .ok loc') :
    Gets gbl loc loc' fun n => (t.testcase ∉ locTcFiles ∧ iterCnt t.testcase = .ok iterId) ∧ n ∈ copied t ∧
      (n = t.metadata.pmMap → n ∈ gbl) := by
  rcases copyLocal_cases himg h with ⟨cnt, hcnt, hcond, rfl⟩ | ⟨hdue, -, d₁, d₂, d₃, h₁, h₂, h₃, h⟩
  · refine Gets.refl.congr fun n => iff_false_intro fun hn => hcond ⟨hn.1.1, ?_⟩
    exact Except.ok.inj (hcnt.symm.trans hn.1.2)
  · have hgets := (((Gets.of_copypreserve h₁).trans (.of_copypreserve h₂)).trans (.of_copypreserve h₃)).trans
      (.of_copyIfThere h)
    refine hgets.congr fun n => ?_
    obtain ⟨hpool, hmap, hpm⟩ := testcase_ne_files (t := t) (u := t)
    obtain ⟨g₁, g₂, g₃⟩ := files_ne (t := t) (u := t)
    rw [and_iff_right hdue]
    simp only [copied, List.mem_cons, List.not_mem_nil, or_false]
    grind

theorem copyLocal_loop {locTcFiles : List Str} {tcs : List TcName}
    (h : (tcs.map fun t =>
      (t.testcase, if t.metadata.pmCmprPool ∈ gbl then some t.metadata.pmCmprPool else none)).foldlM
      (copyLocal iterId locTcFiles gbl) loc = .ok loc') :
    Gets gbl loc loc' fun n => ∃ t ∈ tcs, (t.testcase ∉ locTcFiles ∧ iterCnt t.testcase = .ok iterId) ∧
      n ∈ copied t ∧ (n = t.metadata.pmMap → n ∈ gbl) := by
  induction tcs generalizing loc with
  | nil =>
    cases Fold.foldlM_nil_eq_ok.mp h
    exact Gets.refl.congr (by simp)
  | cons t tcs ih =>
    obtain ⟨d, hd, h⟩ := Fold.foldlM_cons_eq_ok.mp h
    have hround := copyLocal_gets (fun i hi => (Option.some.inj (Option.ite_none_right_eq_some.mp hi).2).symm) hd
    exact (hround.trans (ih h)).congr fun n => by simp

theorem copyLocalSite_loop {sites : List Str} (h : sites.foldlM (copyLocalSite gbl) loc = .ok loc') :
    Gets gbl loc loc' fun n => n ∈ sites ∧ n ∉ loc := by
  induction sites generalizing loc with
  | nil =>
    cases Fold.foldlM_nil_eq_ok.mp h
    exact Gets.refl.congr (by simp)
  | cons cs sites ih =>
    obtain ⟨d, hd, h⟩ := Fold.foldlM_cons_eq_ok.mp h
    have hround : Gets gbl loc d fun n => n = cs ∧ n ∉ loc := by
      unfold copyLocalSite at hd
      split at hd
      · rename_i hcs
        exact (Gets.of_copypreserve hd).congr fun n => and_iff_left_of_imp fun hn => hn ▸ hcs
      · rename_i hcs
        cases hd
        exact Gets.refl.congr fun n => iff_false_intro fun hn => hn.2 (hn.1 ▸ not_not.mp hcs)
    have hrest := ih h
    refine ⟨fun n ⟨hin, hno⟩ => ?_, fun n hn => ?_⟩
    · by_cases hd' : n ∈ sites ∧ n ∉ d
      · exact hrest.got n hd'
      · rw [hrest.old n hd']
        by_cases hcs : n = cs
        · exact hround.got n ⟨hcs, hno⟩
        · have hin' := (List.mem_cons.mp hin).resolve_left hcs
          have hsame := hround.old n fun h => hcs h.1
          exact absurd ⟨hin', fun hmem => hno ((Dir.mem_congr hsame).mp hmem)⟩ hd'
    · have hround' : ¬ (n = cs ∧ n ∉ loc) := fun h => hn ⟨h.1 ▸ List.mem_cons_self, h.2⟩
      have hsame := hround.old n hround'
      rw [hrest.old n ?_, hsame]
      exact fun h => hn ⟨List.mem_cons_of_mem cs h.1, fun hmem => h.2 ((Dir.mem_congr hsame).mpr hmem)⟩

/-- What earlier calls leave in `@dedup_sync`. -/
structure Earlier (loc : Dir) : Prop where
  named : ∀ n ∈ loc, (∃ t, n ∈ copied t) ∨ isCmprCrashSite n = true
  beside : ∀ t, ∀ n ∈ copied t, n ∈ loc → t.testcase ∈ loc

/-- What a call is to add: the testcases that are due, with their files as
they are in `@dedup`, and the crash sites. -/
structure Adds (iterId : ℕ) (gbl loc loc' : Dir) : Prop where
  keep : ∀ n ∈ loc, loc'.lookup n = loc.lookup n
  due : ∀ t, Due iterId gbl loc t → ∀ n ∈ copied t, loc'.lookup n = gbl.lookup n
  only : ∀ n ∈ loc', n ∉ loc → (∃ t, Due iterId gbl loc t ∧ n ∈ copied t) ∨
    isCmprCrashSite n = true ∧ loc'.lookup n = gbl.lookup n
  sites : ∀ n ∈ gbl, isCmprCrashSite n = true → n ∈ loc'

theorem notMem_testcase {c : Char} (hc : ¬ cleanChar c) (hext : c ∉ ".testcase".toList) (hnl : c ≠ '\n') :
    c ∉ t.testcase := by
  intro h
  rw [TcName.testcase] at h
  rcases List.mem_append.mp h with h | h
  · exact t.isClean.notMem hc h
  · rcases List.mem_append.mp h with h | h
    · exact hext h
    · rcases t.nl_cases with hnil | hnil <;> rw [hnil] at h
      · cases h
      · exact hnl (List.mem_singleton.mp h)

theorem replace_min_copied (hn : n ∈ copied t) : replace n ".min".toList [] = n := by
  have htc : 'n' ∉ t.testcase := notMem_testcase (by decide) (by decide) (by decide)
  simp only [copied, List.mem_cons, List.not_mem_nil, or_false] at hn
  rcases hn with rfl | rfl | rfl | rfl
  · exact replace_min_testcase t
  · exact replace_min_pmCmprPool t
  · refine replace_of_not_infix (not_infix_of_mem (p := 'n') (by decide) fun hin => ?_) (by decide)
    exact (List.mem_append.mp hin).elim (by decide) htc
  · refine replace_of_not_infix (not_infix_of_mem (p := 'n') (by decide) fun hin => ?_) (by decide)
    exact (List.mem_append.mp hin).elim (by decide) htc

/-- After earlier calls the testcases among the names without `.min` are those that are there. -/
theorem Earlier.listed (h : Earlier loc) (os : Os Place) :
    t.testcase ∈ (os.listdir .loc loc).map (replace · ".min".toList []) ↔ t.testcase ∈ loc := by
  refine ⟨fun hlisted => ?_, (listed_of_mem · os)⟩
  · obtain ⟨n, hn, hrep⟩ := List.mem_map.mp hlisted
    have hin := os.mem_listdir.mp hn
    rcases h.named n hin with ⟨u, hu⟩ | hsite
    · rw [replace_min_copied hu] at hrep
      exact hrep ▸ hin
    · -- a crash site's `_` is left
      obtain ⟨v, a, b, -, -, rfl⟩ := isCmprCrashSite_iff.mp hsite
      have hunder : '_' ∈ t.testcase := by
        rw [← hrep]
        have hsplit : v.clean ++ (".crash_site".toList ++ a :: ("tar".toList ++ b :: "gz".toList) ++ v.nl) =
            (v.clean ++ ".crash".toList) ++ '_' :: ("site".toList ++ a ::
            ("tar".toList ++ b :: "gz".toList) ++ v.nl) := by
          simp
        rw [hsplit, replace_append_cons (by decide) (by decide)]
        exact List.mem_append_right _ List.mem_cons_self
      exact absurd hunder (notMem_testcase (by decide) (by decide) (by decide))

/-- The files of what is due are not there. -/
structure Clear (iterId : ℕ) (gbl loc : Dir) : Prop where
  listed : ∀ os : Os Place, ∀ t : TcName, t.testcase ∈ gbl → iterCnt t.testcase = .ok iterId →
    (t.testcase ∈ (os.listdir .loc loc).map (replace · ".min".toList []) ↔ t.testcase ∈ loc)
  new : ∀ t, Due iterId gbl loc t → ∀ n ∈ copied t, n ∉ loc

theorem Earlier.clear (h : Earlier loc) : Clear iterId gbl loc :=
  ⟨fun os _ _ _ => h.listed os, fun t ht n hn hin => ht.notMem (h.beside t n hn hin)⟩

/-- Nothing is due. -/
theorem Clear.of_not_due (h : ∀ t, ¬ Due iterId gbl loc t) : Clear iterId gbl loc where
  listed os t hin hgen := by
    have hloc : t.testcase ∈ loc := by
      by_contra hno
      exact h t ⟨hin, hgen, hno⟩
    exact iff_of_true (listed_of_mem hloc os) hloc
  new t ht := absurd ht (h t)

/-- A call adds what is due. -/
theorem updateLocal_adds (hclear : Clear iterId gbl loc) (h : updateLocal os iterId gbl loc = .ok loc') :
    Adds iterId gbl loc loc' := by
  obtain ⟨tcs, d, -, hmem, hd, hsites⟩ := updateLocal_loops h
  have hfirst : Gets gbl loc d fun n => ∃ t, Due iterId gbl loc t ∧ n ∈ copied t ∧
    (n = t.metadata.pmMap → n ∈ gbl) := by
    refine (copyLocal_loop hd).congr fun n => exists_congr fun t => ?_
    rw [hmem]
    constructor
    · rintro ⟨hdue, hn⟩
      exact ⟨hdue.mem, ⟨mt (hclear.listed os t hdue.mem hdue.generation).mp hdue.notMem, hdue.generation⟩, hn⟩
    · rintro ⟨hin, ⟨hno, hgen⟩, hn⟩
      exact ⟨⟨hin, hgen, mt (hclear.listed os t hin hgen).mpr hno⟩, hn⟩
  have hsecond := copyLocalSite_loop hsites
  have hsite : ∀ n ∈ globalDedupListCs os gbl, isCmprCrashSite n = true := fun n hn => (List.mem_filter.mp hn).2
  have hnew := hclear.new
  have hkeep : ∀ n ∈ loc, loc'.lookup n = loc.lookup n := by
    intro n hn
    have hsame := hfirst.old n fun ⟨t, ht, hnt, _⟩ => hnew t ht n hnt hn
    rw [hsecond.old n fun h => h.2 ((Dir.mem_congr hsame).mpr hn), hsame]
  have hcopied : ∀ t, ∀ n ∈ copied t, loc'.lookup n = d.lookup n := fun t n hn =>
    hsecond.old n fun h => notMem_copied (hsite n h.1) hn
  have hdue : ∀ t, Due iterId gbl loc t → ∀ n ∈ copied t, loc'.lookup n = gbl.lookup n := by
    intro t ht n hn
    rw [hcopied t n hn]
    by_cases hpm : n = t.metadata.pmMap → n ∈ gbl
    · exact hfirst.got n ⟨t, ht, hn, hpm⟩
    · obtain ⟨hpm, hno⟩ := Classical.not_imp.mp hpm
      rw [hfirst.old n, Finmap.lookup_eq_none.mpr (hnew t ht n hn), Finmap.lookup_eq_none.mpr hno]
      rintro ⟨u, -, hu, hin⟩
      obtain rfl := copied_inj hn hu
      exact hno (hin hpm)
  have honly : ∀ n ∈ loc', n ∉ loc → (∃ t, Due iterId gbl loc t ∧ n ∈ copied t) ∨
      isCmprCrashSite n = true ∧ loc'.lookup n = gbl.lookup n := by
    intro n hn hno
    by_cases hs : n ∈ globalDedupListCs os gbl ∧ n ∉ d
    · exact .inr ⟨hsite n hs.1, hsecond.got n hs⟩
    · have hin : n ∈ d := (Dir.mem_congr (hsecond.old n hs)).mp hn
      by_contra hcon
      have hsame := hfirst.old n fun ⟨t, ht, hnt, _⟩ => hcon (.inl ⟨t, ht, hnt⟩)
      exact hno ((Dir.mem_congr hsame).mp hin)
  have hsites' : ∀ n ∈ gbl, isCmprCrashSite n = true → n ∈ loc' := by
    intro n hn hcs
    have hin : n ∈ globalDedupListCs os gbl := List.mem_filter.mpr ⟨os.mem_listdir.mpr hn, hcs⟩
    by_cases hd' : n ∈ d
    · exact (Dir.mem_congr (hsecond.old n fun h => h.2 hd')).mpr hd'
    · exact (Dir.mem_congr (hsecond.got n ⟨hin, hd'⟩)).mpr hn
  exact ⟨hkeep, hdue, honly, hsites'⟩

namespace Adds

theorem earlier (h : Adds iterId gbl loc loc') (hloc : Earlier loc) : Earlier loc' where
  named n hn := by
    by_cases hold : n ∈ loc
    · exact hloc.named n hold
    · exact (h.only n hn hold).imp (fun ⟨t, _, ht⟩ => ⟨t, ht⟩) And.left
  beside t n hn hin := by
    by_cases hold : n ∈ loc
    · exact (Dir.mem_congr (h.keep _ (hloc.beside t n hn hold))).mpr (hloc.beside t n hn hold)
    · rcases h.only n hin hold with ⟨u, hu, hnu⟩ | ⟨hs, -⟩
      · obtain rfl := copied_inj hn hnu
        exact (Dir.mem_congr (h.due t hu _ List.mem_cons_self)).mpr hu.mem
      · exact absurd hn (notMem_copied hs)

/-- Then nothing is due any more. -/
theorem not_due (h : Adds iterId gbl loc loc') : ¬ Due iterId gbl loc' t := by
  intro ht
  by_cases hold : t.testcase ∈ loc
  · exact ht.notMem ((Dir.mem_congr (h.keep _ hold)).mpr hold)
  · have hlook := h.due t ⟨ht.mem, ht.generation, hold⟩ _ List.mem_cons_self
    exact ht.notMem ((Dir.mem_congr hlook).mpr ht.mem)

end Adds

/-- With nothing due and no new crash site, a call changes nothing. -/
theorem updateLocal_idle (hdue : ∀ t, ¬ Due iterId gbl loc t)
    (hsites : ∀ n ∈ gbl, isCmprCrashSite n = true → n ∈ loc) : updateLocal os iterId gbl loc = .ok loc := by
  obtain ⟨tcs, htcs, -, hmem⟩ := globalDedupListTc_ok os gbl
  refine Fold.bind_eq_ok.mpr ⟨_, htcs, Fold.bind_eq_ok.mpr ⟨loc, ?_, ?_⟩⟩
  · refine Fold.foldlM_fixed fun e he => ?_
    obtain ⟨t, ht, rfl⟩ := List.mem_map.mp he
    simp only [copyLocal, replace_min_testcase]
    rw [iterCnt_testcase]
    refine (if_neg fun hcond => hdue t ⟨(hmem t).mp ht, ?_, fun hin => hcond.1 ?_⟩)
    · rw [iterCnt_testcase, hcond.2]
    · exact listed_of_mem hin os
  · refine Fold.foldlM_fixed fun cs hcs => if_neg (not_not.mpr ?_)
    obtain ⟨hin, hcs⟩ := List.mem_filter.mp hcs
    exact hsites cs (os.mem_listdir.mp hin) hcs

end PMFuzz.Dedup
