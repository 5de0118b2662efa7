import PMFuzz.Dedup.FileDedup
import PMFuzz.Dedup.Sync
import PMFuzz.Names.CrashImages

/-!
# The crash site database

`process_new_crash_sites` leaves a `.hash` file beside each archive of
`img_dir` (`Hashed.saveSite`). Then three passes go over the directory:

* `clean_up_uncmpr_lcl` removes the images that are no archives;
* `add_cs_hash_lcl` moves the hashes to the database, under a key that it
  reads off the name of the `.hash` file;
* `deduplicate_crash_sites_lcl` looks the archives up, under a key that it
  reads off theirs (`hashKey_hashFile`), and keeps one of each hash.

The database is a finite map that `dump` and `load` do not change.
-/

namespace PMFuzz.Dedup

open Names Str

/-- The crash site database. -/
abbrev HashDb := Finmap fun _ : Str => Str

/-- The line ends of a file opened as text. -/
def universalNewlines : Str → Str
  | '\r' :: '\n' :: s => '\n' :: universalNewlines s
  | '\r' :: s => '\n' :: universalNewlines s
  | c :: s => c :: universalNewlines s
  | [] => []

/-- `read()` of a file opened as text. -/
def readText (b : Bytes) : Except Stop Str :=
  match b.toByteArray.utf8Decode? with
  | some chars => .ok (universalNewlines chars.toList)
  -- `UnicodeDecodeError` is a `ValueError`
  | none => .error .valueError

/-- `write(s)` to a file opened as text. -/
def writeText (s : Str) : Bytes := s.flatMap String.utf8EncodeChar

/-- `hash_v` of `add_cs_hash_lcl`. -/
def hashV (b : Bytes) : Except Stop Str := do
  let text ← readText b
  let hashV := strip text
  if '\n' ∈ hashV then .error (.abort ("Invalid hash value:".toList ++ hashV)) else return hashV

/-- One round of the loop of `add_cs_hash_lcl`. -/
def addHash (acc : HashDb × Dir) (fname : Str) : Except Stop (HashDb × Dir) := do
  let b ← read acc.2 fname
  let v ← hashV b
  return (Finmap.insert (hashKey fname) v acc.1, acc.2.erase fname)

/-- `add_cs_hash_lcl`. -/
def addCsHashLcl (os : Os Place) (db : HashDb) (imgDir : Dir) : Except Stop (HashDb × Dir) :=
  ((os.listdir .img imgDir).filter isHashF).foldlM addHash (db, imgDir)

/-- The three passes, each with its own listing of `img_dir`. -/
def deduplicateSites (os₁ os₂ os₃ : Os Place) (db : HashDb) (imgDir : Dir) :
    Except Stop (HashDb × Dir) := do
  let (db, imgDir) ← addCsHashLcl os₂ db (cleanUpUncmprLcl os₁ imgDir)
  let imgDir ← deduplicateCrashSitesLcl os₃ db.lookup imgDir
  return (db, imgDir)

/-- What `process_new_crash_sites` leaves of an image. -/
def saveSite (files : SiteFiles) (archive : Bytes) (sum : Str) (imgDir : Dir) : Dir :=
  Finmap.insert files.hash (writeText sum) (Finmap.insert files.archive archive imgDir)

/-! ## Before and after -/

/-- A name that `clean_up_uncmpr_lcl` removes: a crash site's or a pool's. -/
def isUncmpr (fname : Str) : Bool :=
  endsWith fname "crash_site".toList || endsWith fname "pm_pool".toList

/-- The `.hash` file of an archive. -/
def hashFile (archive : Str) : Str := lookupKey archive ++ ".hash".toList

/-- Every archive can be looked up. -/
structure Hashed (db : HashDb) (imgDir : Dir) : Prop where
  archive : ∀ n ∈ imgDir, isCmprCrashSite n = true → hashFile n ∈ imgDir ∨ lookupKey n ∈ db
  /-- The `.hash` files hold a line of text, as `process_new_crash_sites`
  writes it. -/
  line : ∀ n b, isHashF n = true → imgDir.lookup n = some b → ∃ v, hashV b = .ok v

/-- The hash of an archive: in its `.hash` file, or else in the database. -/
def siteHash (db : HashDb) (imgDir : Dir) (n : Str) : Option Str :=
  match imgDir.lookup (hashFile n) with
  | some b => (hashV b).toOption
  | none => db.lookup (lookupKey n)

/-- No other `.hash` file has the key of the archive. -/
def OwnKey (imgDir : Dir) (n : Str) : Prop :=
  ∀ f ∈ imgDir, isHashF f = true → hashKey f = lookupKey n → f = hashFile n

/-- What the three passes do. -/
structure OnePerHash (db : HashDb) (imgDir : Dir) (db' : HashDb) (imgDir' : Dir) : Prop where
  /-- Of the archives with one hash one remains. -/
  one : ∀ n ∈ imgDir, isCmprCrashSite n = true → ∃ v, db'.lookup (lookupKey n) = some v ∧
    ∃! m, m ∈ imgDir' ∧ isCmprCrashSite m = true ∧ db'.lookup (lookupKey m) = some v
  hash : ∀ n ∈ imgDir, isCmprCrashSite n = true → OwnKey imgDir n →
    db'.lookup (lookupKey n) = siteHash db imgDir n
  removed : ∀ n, isHashF n = true ∨ isUncmpr n = true → n ∉ imgDir'
  kept : ∀ n ∈ imgDir', imgDir'.lookup n = imgDir.lookup n
  frame : ∀ n, isCmprCrashSite n = false → isHashF n = false → isUncmpr n = false →
    imgDir'.lookup n = imgDir.lookup n

variable {db db' : HashDb} {d d' imgDir : Dir} {n f : Str} {names : List Str} {os : Os Place} {b : Bytes}
  {v : Str}

/-! ## Names -/

theorem getLast?_cmprCrashSite (h : isCmprCrashSite n = true) :
    n.getLast? = some 'z' ∨ n.getLast? = some '\n' := by
  obtain ⟨t, x, y, -, -, rfl⟩ := isCmprCrashSite_iff.mp h
  rcases t.nl_cases with hnl | hnl <;> rw [hnl]
  · exact .inl (by simp)
  · exact .inr (by simp)

theorem getLast?_hashF (h : isHashF n = true) : n.getLast? = some 'h' :=
  getLast?_of_endsWith h (by decide)

theorem getLast?_uncmpr (h : isUncmpr n = true) : n.getLast? = some 'e' ∨ n.getLast? = some 'l' := by
  rcases Bool.or_eq_true_iff.mp h with h | h
  · exact .inl (getLast?_of_endsWith h (by decide))
  · exact .inr (getLast?_of_endsWith h (by decide))

theorem isHashF_hashFile (n : Str) : isHashF (hashFile n) = true :=
  List.isSuffixOf_iff_suffix.mpr (List.suffix_append _ _)

/-- The last characters tell the kinds apart. -/
theorem not_isUncmpr_of_isHashF (h : isHashF n = true) : isUncmpr n = false := by
  rw [Bool.eq_false_iff]
  intro hu
  rcases getLast?_uncmpr hu with h' | h' <;> rw [getLast?_hashF h] at h' <;> cases h'

theorem not_isUncmpr_of_site (h : isCmprCrashSite n = true) : isUncmpr n = false := by
  rw [Bool.eq_false_iff]
  intro hu
  rcases getLast?_cmprCrashSite h with h | h <;> rcases getLast?_uncmpr hu with h' | h' <;>
    rw [h] at h' <;> cases h'

theorem not_isHashF_of_site (h : isCmprCrashSite n = true) : isHashF n = false := by
  rw [Bool.eq_false_iff]
  intro hh
  rcases getLast?_cmprCrashSite h with h | h <;> rw [getLast?_hashF hh] at h <;> cases h

/-- The key of an archive is a clean name and an extension. -/
theorem exists_lookupKey (h : isCmprCrashSite n = true) : ∃ (t : TcName) (s : Str),
    lookupKey n = t.clean ++ s ∧ s.head? = some '.' ∧ NoStart ".hash".toList s ".hash".toList := by
  obtain ⟨t, x, y, -, -, rfl⟩ := isCmprCrashSite_iff.mp h
  refine ⟨t, replace (".crash_site".toList ++ x :: ("tar".toList ++ y :: "gz".toList) ++ t.nl)
    ".tar.gz".toList [], replace_clean t.isClean (by decide) rfl, ?_⟩
  by_cases hxy : x = '.' ∧ y = '.'
  · obtain ⟨rfl, rfl⟩ := hxy
    rcases t.nl_cases with hnl | hnl <;> rw [hnl]
    · have hrep : replace (".crash_site".toList ++ '.' :: ("tar".toList ++ '.' :: "gz".toList) ++ [])
          ".tar.gz".toList [] = ".crash_site".toList := by decide
      rw [hrep]
      exact ⟨rfl, by simp [noStart_cons, noStart_nil]⟩
    · have hrep : replace (".crash_site".toList ++ '.' :: ("tar".toList ++ '.' :: "gz".toList) ++ ['\n'])
          ".tar.gz".toList [] = ".crash_site\n".toList := by decide
      rw [hrep]
      exact ⟨rfl, by simp [noStart_cons, noStart_nil]⟩
  · have hno : NoStart ".tar.gz".toList
        (".crash_site".toList ++ x :: ("tar".toList ++ y :: "gz".toList) ++ t.nl) [] := by
      rcases t.nl_cases with hnl | hnl <;> rw [hnl] <;> simp [noStart_cons, noStart_nil] <;> tauto
    rw [hno.replace_self (by decide)]
    refine ⟨rfl, ?_⟩
    rcases t.nl_cases with hnl | hnl <;> rw [hnl] <;> simp [noStart_cons, noStart_nil]

/-- The key that a `.hash` file is stored under is the key that its archive
is looked up under. -/
theorem hashKey_hashFile (h : isCmprCrashSite n = true) : hashKey (hashFile n) = lookupKey n := by
  obtain ⟨t, s, hkey, hs, hno⟩ := exists_lookupKey h
  have hrep : replace (s ++ ".hash".toList) ".hash".toList [] = s ++ replace ".hash".toList ".hash".toList [] :=
    hno.replace (by decide)
  rw [hashKey, hashFile, hkey, List.append_assoc,
    replace_clean t.isClean (by decide) (by rw [List.head?_append, hs]; rfl), hrep,
    show replace ".hash".toList ".hash".toList [] = [] from rfl, List.append_nil]

/-! ## Each pass -/

theorem lookup_cleanUpUncmprLcl : (cleanUpUncmprLcl os imgDir).lookup n =
    if isUncmpr n = true then none else imgDir.lookup n := by
  have hmem : n ∈ (os.listdir .img imgDir).filter (fun fname =>
      endsWith fname "crash_site".toList || endsWith fname "pm_pool".toList) ↔
      n ∈ imgDir ∧ isUncmpr n = true := by
    rw [List.mem_filter, os.mem_listdir]
    rfl
  rw [cleanUpUncmprLcl, Dir.lookup_removeAll]
  by_cases hn : n ∈ imgDir
  · simp only [hmem, hn, true_and]
  · rw [Finmap.lookup_eq_none.mpr hn, ite_self, ite_self]

/-- The file holds the hash. -/
def Holds (d : Dir) (f : Str) (v : Str) : Prop := ∃ b, d.lookup f = some b ∧ hashV b = .ok v

/-- What `db'` has under a key: a hash in one of the files, or what `db`
has. -/
def Entry (db : HashDb) (d : Dir) (files : List Str) (db' : HashDb) (k : Str) : Prop :=
  (∃ f ∈ files, hashKey f = k ∧ ∃ v, Holds d f v ∧ db'.lookup k = some v) ∨
    (∀ f ∈ files, hashKey f ≠ k) ∧ db'.lookup k = db.lookup k

theorem addHash_ok (h : Holds d f v) :
    addHash (db, d) f = .ok (Finmap.insert (hashKey f) v db, d.erase f) := by
  obtain ⟨b, hb, hv⟩ := h
  rw [addHash, read, hb, Fold.bind_eq_ok]
  exact ⟨b, rfl, Fold.bind_eq_ok.mpr ⟨v, hv, rfl⟩⟩

/-- The loop over the `.hash` files. -/
theorem addHashes_ok (hnodup : names.Nodup) (hval : ∀ f ∈ names, ∃ v, Holds d f v) : ∃ db' d',
    names.foldlM addHash (db, d) = .ok (db', d') ∧
      (∀ n, d'.lookup n = if n ∈ names then none else d.lookup n) ∧ ∀ k, Entry db d names db' k := by
  induction names generalizing db d with
  | nil => exact ⟨db, d, rfl, fun n => rfl, fun k => .inr ⟨fun f hf => absurd hf List.not_mem_nil, rfl⟩⟩
  | cons f names ih =>
    obtain ⟨hf, hnodup⟩ := List.nodup_cons.mp hnodup
    obtain ⟨v, hv⟩ := hval f List.mem_cons_self
    have hother : ∀ g ∈ names, ∀ w, Holds (d.erase f) g w ↔ Holds d g w := by
      intro g hg w
      have hne : g ≠ f := fun heq => hf (heq ▸ hg)
      rw [Holds, Finmap.lookup_erase_ne hne]
      rfl
    obtain ⟨db', d', hrun, hlook, hentry⟩ := ih hnodup fun g hg =>
      (hval g (List.mem_cons_of_mem f hg)).imp fun w => (hother g hg w).mpr
    refine ⟨db', d', ?_, fun n => ?_, fun k => ?_⟩
    · rw [Fold.foldlM_cons_eq_ok]
      exact ⟨_, addHash_ok hv, hrun⟩
    · rw [hlook, Dir.lookup_erase]
      by_cases hn : n = f <;> simp [hn]
    · rcases hentry k with ⟨g, hg, hk, w, hw, hdb⟩ | ⟨hno, hdb⟩
      · exact .inl ⟨g, List.mem_cons_of_mem f hg, hk, w, (hother g hg w).mp hw, hdb⟩
      · by_cases hk : hashKey f = k
        · refine .inl ⟨f, List.mem_cons_self, hk, v, hv, ?_⟩
          rw [hdb, ← hk, Finmap.lookup_insert]
        · refine .inr ⟨fun g hg => ?_, ?_⟩
          · rcases List.mem_cons.mp hg with rfl | hg
            · exact hk
            · exact hno g hg
          · rw [hdb, Finmap.lookup_insert_of_ne _ (Ne.symm hk)]

theorem addCsHashLcl_ok (os : Os Place) (db : HashDb)
    (hline : ∀ n b, isHashF n = true → d.lookup n = some b → ∃ v, hashV b = .ok v) : ∃ db' d' files,
    addCsHashLcl os db d = .ok (db', d') ∧ (∀ f, f ∈ files ↔ isHashF f = true ∧ f ∈ d) ∧
      (∀ n, d'.lookup n = if isHashF n = true then none else d.lookup n) ∧
      ∀ k, Entry db d files db' k := by
  have hmem : ∀ f, f ∈ (os.listdir .img d).filter isHashF ↔ isHashF f = true ∧ f ∈ d := fun f => by
    rw [List.mem_filter, os.mem_listdir, and_comm]
  have hval : ∀ f ∈ (os.listdir .img d).filter isHashF, ∃ v, Holds d f v := by
    intro f hf
    obtain ⟨hf, hd⟩ := (hmem f).mp hf
    obtain ⟨b, hb⟩ := Finmap.mem_iff.mp hd
    exact (hline f b hf hb).imp fun v hv => ⟨b, hb, hv⟩
  obtain ⟨db', d', hrun, hlook, hentry⟩ := @addHashes_ok db d _ ((os.nodup .img d).filter _) hval
  refine ⟨db', d', _, hrun, hmem, fun n => ?_, hentry⟩
  rw [hlook]
  by_cases hn : n ∈ d
  · simp only [hmem, hn, and_true]
  · rw [Finmap.lookup_eq_none.mpr hn, ite_self, ite_self]

/-- The loop over the archives, all of which are in the database. -/
theorem seeCrashSites_ok {key : Str → Str} (hdb : ∀ n ∈ names, db.lookup (lookupKey n) = some (key n))
    (seen : List Str) (drop : List Str) : ∃ seen', names.foldlM (seeCrashSite db.lookup) (seen, drop) =
      .ok (seen', drop ++ Fold.repeats key seen names) := by
  induction names generalizing seen drop with
  | nil => exact ⟨seen, by rw [Fold.repeats, List.append_nil]; rfl⟩
  | cons n names ih =>
    have hn : db.lookup (replace n ".tar.gz".toList []) = some (key n) := hdb n List.mem_cons_self
    have hdb := fun m hm => hdb m (List.mem_cons_of_mem n hm)
    rw [Fold.repeats]
    by_cases hseen : key n ∈ seen
    · obtain ⟨seen', hrun⟩ := ih hdb seen (drop ++ [n])
      refine ⟨seen', ?_⟩
      rw [Fold.foldlM_cons_eq_ok, if_pos hseen, List.append_cons]
      exact ⟨_, by simp only [seeCrashSite, hn]; exact if_neg (not_not.mpr hseen), hrun⟩
    · obtain ⟨seen', hrun⟩ := ih hdb (seen ++ [key n]) drop
      refine ⟨seen', ?_⟩
      rw [Fold.foldlM_cons_eq_ok, if_neg hseen]
      exact ⟨_, by simp only [seeCrashSite, hn]; exact if_pos hseen, hrun⟩

/-! ## What is left beside the archives -/

/-- Text without blanks is read back from a file. -/
theorem hashV_writeText (h : ∀ c ∈ v, isSpace c = false) : hashV (writeText v) = .ok v := by
  have hno : ∀ c : Char, isSpace c = true → c ∉ v := fun c hc hin => by
    rw [h c hin] at hc
    cases hc
  have hlines : ∀ s : Str, '\r' ∉ s → universalNewlines s = s := by
    intro s
    induction s with
    | nil => exact fun _ => rfl
    | cons c s ih =>
      intro hs
      obtain ⟨hc, hs⟩ := not_or.mp (List.mem_cons.not.mp hs)
      rw [universalNewlines, ih hs]
      · exact fun _ heq _ => hc heq.symm
      · exact fun heq => hc heq.symm
  have hread : readText (writeText v) = .ok v := by
    have hdecode : (writeText v).toByteArray.utf8Decode? = some v.toArray := List.utf8Decode?_utf8Encode
    rw [readText, hdecode]
    exact congrArg Except.ok (hlines v (hno '\r' (by decide)))
  have hstrip : strip v = v := by
    have hleft : v.dropWhile isSpace = v := by
      cases v with
      | nil => rfl
      | cons c s =>
        rw [List.dropWhile_cons, h c List.mem_cons_self, if_neg (by decide)]
    rw [strip, hleft, List.rdropWhile_eq_self_iff]
    intro hne
    rw [h _ (List.getLast_mem hne)]
    decide
  rw [hashV, hread, Fold.bind_eq_ok]
  refine ⟨v, rfl, ?_⟩
  rw [hstrip, if_neg (hno '\n' (by decide))]
  rfl

theorem Hashed.empty (db : HashDb) : Hashed db ∅ where
  archive _ hn := absurd hn Finmap.notMem_empty
  line _ _ _ hb := absurd (Finmap.mem_of_lookup_eq_some hb) Finmap.notMem_empty

/-- The name of the `.hash` file. -/
theorem hashFile_siteFiles {t : TcName} (h : t.newline = false) :
    hashFile t.siteFiles.archive = t.siteFiles.hash := by
  have htar : replace ".crash_site.tar.gz".toList ".tar.gz".toList [] = ".crash_site".toList := by decide
  have hkey : lookupKey t.metadata.crashCmprSite = t.metadata.crashSite := by
    rw [lookupKey, TcName.crashCmprSite_eq h, replace_clean t.isClean (by decide) rfl, htar,
      TcName.crashSite_eq h]
  exact congrArg (· ++ ".hash".toList) hkey

/-- An archive that is saved can be looked up. -/
theorem Hashed.saveSite {t : TcName} (h : Hashed db imgDir) (ht : t.newline = false)
    (hv : ∀ c ∈ v, isSpace c = false) : Hashed db (saveSite t.siteFiles b v imgDir) := by
  have hmem : ∀ {n}, n ∈ Dedup.saveSite t.siteFiles b v imgDir ↔
      n = t.siteFiles.hash ∨ n = t.siteFiles.archive ∨ n ∈ imgDir := by
    intro n
    rw [Dedup.saveSite, Finmap.mem_insert, Finmap.mem_insert]
  have hfiles := TcName.collectible ht
  refine ⟨fun n hn hs => ?_, fun n c hn hc => ?_⟩
  · rcases hmem.mp hn with rfl | rfl | hn
    · exact absurd hfiles.isHashF (by rw [not_isHashF_of_site hs]; decide)
    · exact .inl (hmem.mpr (.inl (hashFile_siteFiles ht)))
    · exact (h.archive n hn hs).imp_left fun hin => hmem.mpr (.inr (.inr hin))
  · rw [Dedup.saveSite, Dir.lookup_insert, Dir.lookup_insert] at hc
    split at hc
    · cases hc
      exact ⟨v, hashV_writeText hv⟩
    · split at hc
      · rename_i harch
        exact absurd hn (by rw [harch, not_isHashF_of_site hfiles.isCmprCrashSite]; decide)
      · exact h.line n c hn hc

/-! ## The three passes -/

/-- What the first two passes leave. -/
theorem addCsHashLcl_cleanUp (os₁ os₂ : Os Place) (h : Hashed db imgDir) : ∃ db' d files,
    addCsHashLcl os₂ db (cleanUpUncmprLcl os₁ imgDir) = .ok (db', d) ∧
      (∀ f, f ∈ files ↔ isHashF f = true ∧ f ∈ imgDir) ∧
      (∀ n, d.lookup n = if isHashF n = true ∨ isUncmpr n = true then none else imgDir.lookup n) ∧
      ∀ k, Entry db imgDir files db' k := by
  have hlook : ∀ n, (cleanUpUncmprLcl os₁ imgDir).lookup n =
      if isUncmpr n = true then none else imgDir.lookup n := fun _ => lookup_cleanUpUncmprLcl
  generalize cleanUpUncmprLcl os₁ imgDir = d₁ at hlook
  have hhash : ∀ f, isHashF f = true → d₁.lookup f = imgDir.lookup f := by
    intro f hf
    rw [hlook, not_isUncmpr_of_isHashF hf, if_neg (by decide)]
  obtain ⟨db', d, files, hrun, hfiles, hd, hentry⟩ := addCsHashLcl_ok os₂ db fun n b hn hb =>
    h.line n b hn (hhash n hn ▸ hb)
  have hfiles' : ∀ f, f ∈ files ↔ isHashF f = true ∧ f ∈ imgDir := fun f =>
    (hfiles f).trans (and_congr_right fun hf => Dir.mem_congr (hhash f hf))
  refine ⟨db', d, files, hrun, hfiles', fun n => ?_, fun k => ?_⟩
  · rw [hd, hlook]
    by_cases hn : isHashF n = true <;> by_cases hu : isUncmpr n = true <;> simp [hn, hu]
  · rcases hentry k with ⟨f, hf, hk, v, ⟨b, hb, hv⟩, hdb⟩ | hno
    · exact .inl ⟨f, hf, hk, v, ⟨b, (hhash f ((hfiles f).mp hf).1).symm.trans hb, hv⟩, hdb⟩
    · exact .inr hno

/-- Every archive is in the database then. -/
theorem Hashed.lookup {files : List Str} (h : Hashed db imgDir)
    (hfiles : ∀ f, f ∈ files ↔ isHashF f = true ∧ f ∈ imgDir) (hn : n ∈ imgDir)
    (hsite : isCmprCrashSite n = true) (hentry : Entry db imgDir files db' (lookupKey n)) :
    ∃ v, db'.lookup (lookupKey n) = some v := by
  rcases hentry with ⟨f, -, -, v, -, hdb⟩ | ⟨hno, hdb⟩
  · exact ⟨v, hdb⟩
  · rcases h.archive n hn hsite with hin | hin
    · exact absurd (hashKey_hashFile hsite) (hno _ ((hfiles _).mpr ⟨isHashF_hashFile n, hin⟩))
    · obtain ⟨v, hv⟩ := Finmap.mem_iff.mp hin
      exact ⟨v, hdb.trans hv⟩

/-- With its own hash, if no other has its key. -/
theorem Entry.siteHash_eq {files : List Str} (hentry : Entry db imgDir files db' (lookupKey n))
    (hfiles : ∀ f, f ∈ files ↔ isHashF f = true ∧ f ∈ imgDir) (hsite : isCmprCrashSite n = true)
    (hown : OwnKey imgDir n) : db'.lookup (lookupKey n) = siteHash db imgDir n := by
  rcases hentry with ⟨f, hf, hk, v, ⟨b, hb, hv⟩, hdb⟩ | ⟨hno, hdb⟩
  · obtain ⟨hf, hd⟩ := (hfiles f).mp hf
    cases hown f hd hf hk
    rw [hdb, siteHash, hb]
    show some v = (hashV b).toOption
    rw [hv]
    rfl
  · have hnin : hashFile n ∉ imgDir := fun hin =>
      hno _ ((hfiles _).mpr ⟨isHashF_hashFile n, hin⟩) (hashKey_hashFile hsite)
    rw [hdb, siteHash, Finmap.lookup_eq_none.mpr hnin]

/-- The last pass keeps one archive of each hash. -/
theorem deduplicateCrashSitesLcl_one (os : Os Place)
    (hdb : ∀ n ∈ d, isCmprCrashSite n = true → ∃ v, db.lookup (lookupKey n) = some v) :
    ∃ d', deduplicateCrashSitesLcl os db.lookup d = .ok d' ∧ ∀ n ∈ d, isCmprCrashSite n = true →
      ∃! m, m ∈ d' ∧ isCmprCrashSite m = true ∧ db.lookup (lookupKey m) = db.lookup (lookupKey n) := by
  have hnames : ∀ n, n ∈ (os.listdir .img d).filter isCmprCrashSite ↔ n ∈ d ∧ isCmprCrashSite n = true :=
    fun n => by rw [List.mem_filter, os.mem_listdir]
  obtain ⟨key, hkey⟩ : ∃ key : Str → Str, ∀ n ∈ (os.listdir .img d).filter isCmprCrashSite,
      db.lookup (lookupKey n) = some (key n) := by
    refine ⟨fun n => (db.lookup (lookupKey n)).getD [], fun n hn => ?_⟩
    obtain ⟨v, hv⟩ := hdb n ((hnames n).mp hn).1 ((hnames n).mp hn).2
    show _ = some ((db.lookup (lookupKey n)).getD [])
    rw [hv]
    rfl
  obtain ⟨seen, hsee⟩ := seeCrashSites_ok hkey [] []
  have hnodup := (os.nodup .img d).filter isCmprCrashSite
  refine ⟨d.removeAll (Fold.repeats key [] ((os.listdir .img d).filter isCmprCrashSite)),
    Fold.bind_eq_ok.mpr ⟨_, hsee, rfl⟩, ?_⟩
  generalize (os.listdir .img d).filter isCmprCrashSite = names at hnames hkey hnodup
  intro n hn hs
  have hunseen : key n ∉ [] := List.not_mem_nil
  obtain ⟨m, ⟨hm, hmn, hkept⟩, huniq⟩ :=
    Fold.existsUnique_first hnodup ((hnames n).mpr ⟨hn, hs⟩) hunseen
  have hin : ∀ x, isCmprCrashSite x = true →
      (x ∈ d.removeAll (Fold.repeats key [] names) ↔ x ∈ names ∧ x ∉ Fold.repeats key [] names) := by
    intro x hx
    rw [Dir.mem_removeAll, hnames, and_iff_left hx]
  have hms := ((hnames m).mp hm).2
  rw [hkey n ((hnames n).mpr ⟨hn, hs⟩)]
  refine ⟨m, ⟨(hin m hms).mpr ⟨hm, hkept⟩, hms, (hkey m hm).trans (congrArg some hmn)⟩, ?_⟩
  rintro x ⟨hx, hxs, hxv⟩
  obtain ⟨hx, hxkept⟩ := (hin x hxs).mp hx
  exact huniq x ⟨hx, Option.some.inj ((hkey x hx).symm.trans hxv), hxkept⟩

/-- The three passes keep one archive of each hash, and no other file that
they remove. -/
theorem deduplicateSites_ok (os₁ os₂ os₃ : Os Place) (h : Hashed db imgDir) : ∃ db' imgDir',
    deduplicateSites os₁ os₂ os₃ db imgDir = .ok (db', imgDir') ∧ OnePerHash db imgDir db' imgDir' := by
  obtain ⟨db', d, files, hadd, hfiles, hd, hentry⟩ := addCsHashLcl_cleanUp os₁ os₂ h
  have hsite : ∀ n, isCmprCrashSite n = true → (n ∈ d ↔ n ∈ imgDir) := by
    intro n hn
    refine Dir.mem_congr ?_
    rw [hd, not_isHashF_of_site hn, not_isUncmpr_of_site hn, if_neg (by decide)]
  have hdb : ∀ n ∈ d, isCmprCrashSite n = true → ∃ v, db'.lookup (lookupKey n) = some v := fun n hn hs =>
    h.lookup hfiles ((hsite n hs).mp hn) hs (hentry _)
  have hgone : ∀ n, isHashF n = true ∨ isUncmpr n = true → n ∉ d := by
    intro n hn
    refine Finmap.lookup_eq_none.mp ?_
    rw [hd, if_pos hn]
  obtain ⟨imgDir', hrun, hone⟩ := deduplicateCrashSitesLcl_one os₃ hdb
  have hdrops := deduplicateCrashSitesLcl_ok hrun
  refine ⟨db', imgDir', ?_, fun n hn hs => ?_, fun n hn hs => (hentry _).siteHash_eq hfiles hs, fun n hn hin => ?_,
    fun n hn => ?_, fun n hs hh hu => ?_⟩
  · exact Fold.bind_eq_ok.mpr ⟨_, hadd, Fold.bind_eq_ok.mpr ⟨_, hrun, rfl⟩⟩
  · have hin := (hsite n hs).mpr hn
    obtain ⟨v, hv⟩ := hdb n hin hs
    have hone := hone n hin hs
    rw [hv] at hone
    exact ⟨v, hv, hone⟩
  · exact hgone n hn (hdrops.mem hin)
  · have hkept : imgDir'.lookup n = d.lookup n := (hdrops n).resolve_right fun hr => hr.2 hn
    rw [hkept, hd, if_neg fun hr => hgone n hr (hdrops.mem hn)]
  · have hkept : imgDir'.lookup n = d.lookup n := (hdrops n).resolve_right fun hr => by
      rw [hr.1] at hs
      cases hs
    rw [hkept, hd, hh, hu, if_neg (by decide)]

/-- Two archives of one image. -/
def twoSites : Dir :=
  saveSite tc2.siteFiles [2] "9f".toList (saveSite tc1.siteFiles [1] "9f".toList ∅)

theorem deduplicateSites_twoSites : ∃ db' imgDir',
    deduplicateSites (Os.sorted Place 0) (Os.sorted Place 0) (Os.reversed Place 0) ∅ twoSites =
      .ok (db', imgDir') ∧ OnePerHash ∅ twoSites db' imgDir' := by
  have hsum : ∀ c ∈ "9f".toList, isSpace c = false := by
    intro c hc
    rcases List.mem_pair.mp hc with rfl | rfl <;> rfl
  exact deduplicateSites_ok _ _ _ (((Hashed.empty ∅).saveSite rfl hsum).saveSite rfl hsum)

/-- The next iteration starts from what can be looked up. -/
theorem OnePerHash.hashed {imgDir' : Dir} (h : OnePerHash db imgDir db' imgDir') : Hashed db' imgDir' where
  archive n hn hs := by
    have hin : n ∈ imgDir := (Dir.mem_congr (h.kept n hn)).mp hn
    obtain ⟨v, hv, -⟩ := h.one n hin hs
    exact .inr (Finmap.mem_of_lookup_eq_some hv)
  line n b hn hb := absurd (Finmap.mem_of_lookup_eq_some hb) (h.removed n (.inl hn))

end PMFuzz.Dedup
