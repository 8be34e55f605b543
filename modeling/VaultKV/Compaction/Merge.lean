import VaultKV.Compaction

/-!
# Compaction — what the output holds

Two statements about `CompactLevel0ToLevel1` on files that `Build` wrote.

* When every record can be read, the output is the newest version of every
  key without the tombstones, in whatever ORDER the files are given
  (`compaction_merges`).
* When some records cannot be read, `AllRecords` leaves them out without a
  word: the call still returns `Ok`, and the output holds the newest version
  of a key only if `ReadRecordAt` gets that version at its index entry
  (`compaction_keeps_iff`).
-/

namespace VaultKV

open Lib

/-! ## Inputs and output -/

/-- `Build` reported the file under this path as written. -/
def BuiltAt (c : Cipher) (dir : SortedMap Bytes Bytes) (p : Bytes) : Prop :=
  ∃ (io : BuildIo c) (records : List SstableRecord) (m : SstableMeta) (out : OStream),
    (∀ r ∈ records, r.seq < 2 ^ 64) ∧
      SstableBuilder.build c io p records = (.ok m, some out) ∧ dir.find p = some out.file

/-- Record bodies of a file are damaged: it opens as before, and what its
index still leads to is what was written. -/
structure DamagedAt (c : Cipher) (p : Bytes) (file file' : Option Bytes) : Prop where
  opens : ∀ rd, SstableReader.open {} p file = .ok rd → SstableReader.open {} p file' = .ok rd
  reads : ∀ rd, SstableReader.open {} p file = .ok rd → OnlyHarmed c file file' rd.index

theorem DamagedAt.refl (c : Cipher) (p : Bytes) (file : Option Bytes) :
    DamagedAt c p file file :=
  ⟨fun _ h => h, fun rd _ => OnlyHarmed.refl c file rd.index⟩

/-- When a damaged file opens, the reader is the one of the undamaged file. -/
theorem DamagedAt.reader {c : Cipher} {io : ReadIo} {p : Bytes} {file file' : Option Bytes}
    {rd rd' : SstableReader} (h : DamagedAt c p file file')
    (hopen : SstableReader.open {} p file = .ok rd)
    (hopen' : SstableReader.open io p file' = .ok rd') : rd' = rd :=
  Except.ok.inj ((open_reliable hopen').symm.trans (h.opens rd hopen))

/-- The index of a file. -/
def indexIn (p : Bytes) (file : Option Bytes) : List IndexEntry :=
  match SstableReader.open {} p file with
  | .error _ => []
  | .ok rd => rd.index

/-- The keys in the indexes of the files. -/
def indexKeys (dir : SortedMap Bytes Bytes) (paths : List Bytes) : List Bytes :=
  paths.flatMap fun p => (indexIn p (dir.find p)).map IndexEntry.key

/-- All indexed versions: what the index entries of the files lead to on a
device that does not fail. -/
def storedRecords (c : Cipher) (dir : SortedMap Bytes Bytes) (paths : List Bytes) :
    List SstableRecord :=
  paths.flatMap fun p => (indexIn p (dir.find p)).filterMap fun e =>
    (readRecordAt c {} (dir.find p) e.offset).toOption

/-- `e` is entry `j` of the index of file number `i`, which is `p`. -/
structure EntryAt (dir : SortedMap Bytes Bytes) (paths : List Bytes) (i j : Nat) (p : Bytes)
    (e : IndexEntry) : Prop where
  file : paths[i]? = some p
  entry : (indexIn p (dir.find p))[j]? = some e

/-- The records the compaction gets to see. -/
def seenRecords (c : Cipher) (io : MergeIo c) (dir : SortedMap Bytes Bytes)
    (paths : List Bytes) : List SstableRecord :=
  match collectRecords c io dir 0 paths with
  | .error _ => []
  | .ok rs => rs

/-- The output, read back entry by entry; none without a file. -/
def outputTable (c : Cipher) (path : Bytes) : Option OStream → List SstableRecord
  | none => []
  | some out => storedRecords c (SortedMap.empty.insert path out.file) [path]

/-- No record of the key has a larger number. -/
def NewestOf (records : List SstableRecord) (r : SstableRecord) : Prop :=
  r ∈ records ∧ ∀ x ∈ records, x.key = r.key → x.seq ≤ r.seq

instance (records : List SstableRecord) (r : SstableRecord) : Decidable (NewestOf records r) :=
  inferInstanceAs (Decidable (_ ∧ _))

/-- Two versions of one key with one number are the same. -/
def Unambiguous (records : List SstableRecord) : Prop :=
  ∀ r ∈ records, ∀ x ∈ records, x.key = r.key → x.seq = r.seq → x = r

instance (records : List SstableRecord) : Decidable (Unambiguous records) :=
  inferInstanceAs (Decidable (∀ r ∈ records, _))

/-! ## Files that were built -/

/-- What the fields of a stored record can be. -/
structure SstableRecord.Fits (r : SstableRecord) : Prop where
  key : r.key.length < 2 ^ 16
  value : r.value.length < 2 ^ 32
  seq : r.seq < 2 ^ 64

theorem IsTable.fits {c : Cipher} {file : Bytes} {t : Table Bytes Bytes}
    (h : IsTable c file t) : ∀ r ∈ t.entries.map SstableRecord.ofEntry, r.Fits := by
  obtain ⟨xs, bloom, hst⟩ := h
  rw [← hst.records]
  intro r hr
  obtain ⟨x, hx, rfl⟩ := List.mem_map.mp hr
  obtain ⟨hkey, hval, -⟩ := hst.sealed x hx
  exact ⟨hkey, hval, hst.seq x hx⟩

/-- A built file opens and shows its table. -/
theorem BuiltAt.opens {c : Cipher} (hc : c.Lawful) {dir : SortedMap Bytes Bytes} {p : Bytes}
    (h : BuiltAt c dir p) :
    ∃ file t rd, dir.find p = some file ∧ IsTable c file t ∧
      SstableReader.open {} p (dir.find p) = .ok rd ∧ Reads c file rd t := by
  obtain ⟨io, records, m, out, hseq, hbuild, hfind⟩ := h
  have htable := isTable_of_build hseq hbuild
  obtain ⟨rd, hopen, -, hreads⟩ := htable.opens hc p
  exact ⟨out.file, _, rd, hfind, htable, by rw [hfind]; exact hopen, hreads⟩

/-! ## Versions and their index entries -/

theorem indexIn_of_open {p : Bytes} {file : Option Bytes} {rd : SstableReader}
    (h : SstableReader.open {} p file = .ok rd) : indexIn p file = rd.index := by
  rw [indexIn, h]

/-- What `AllRecords` lists, entry by entry. -/
theorem mem_allFrom {c : Cipher} {ios : Nat → ReadIo} {file : Option Bytes}
    {r : SstableRecord} (index : List IndexEntry) :
    ∀ i, r ∈ SstableReader.allFrom c ios file i index ↔
      ∃ (j : Nat) (e : IndexEntry), index[j]? = some e ∧
        readRecordAt c (ios (i + j)) file e.offset = .ok r := by
  induction index with
  | nil => intro i; simp [SstableReader.allFrom]
  | cons e index ih =>
      intro i
      -- entry 0 is the head, entry j + 1 is entry j of the rest
      have hsplit : (∃ (j : Nat) (e' : IndexEntry), (e :: index)[j]? = some e' ∧
          readRecordAt c (ios (i + j)) file e'.offset = .ok r) ↔
          readRecordAt c (ios i) file e.offset = .ok r ∨
            r ∈ SstableReader.allFrom c ios file (i + 1) index := by
        rw [ih (i + 1)]
        constructor
        · rintro ⟨j, e', hj, hr⟩
          cases j with
          | zero => obtain rfl := Option.some.inj hj; exact Or.inl hr
          | succ j => exact Or.inr ⟨j, e', hj, by rwa [Nat.add_right_comm]⟩
        · rintro (hr | ⟨j, e', hj, hr⟩)
          · exact ⟨0, e, rfl, hr⟩
          · exact ⟨j + 1, e', hj, by rwa [Nat.add_right_comm] at hr⟩
      rw [hsplit, SstableReader.allFrom]
      cases readRecordAt c (ios i) file e.offset with
      | error err => simp
      | ok r' => simp [eq_comm]

/-- Without failing reads `AllRecords` lists what the index leads to. -/
theorem allFrom_eq_filterMap {c : Cipher} {file : Option Bytes} (index : List IndexEntry) :
    ∀ i, SstableReader.allFrom c (fun _ => {}) file i index =
      index.filterMap fun e => (readRecordAt c {} file e.offset).toOption := by
  induction index with
  | nil => intro i; rfl
  | cons e index ih =>
      intro i
      rw [SstableReader.allFrom, List.filterMap_cons]
      cases readRecordAt c {} file e.offset with
      | error err => exact ih (i + 1)
      | ok r => exact congrArg (r :: ·) (ih (i + 1))

/-- Every indexed version stands at an index entry. -/
theorem mem_storedRecords {c : Cipher} {dir : SortedMap Bytes Bytes} {paths : List Bytes}
    {r : SstableRecord} : r ∈ storedRecords c dir paths ↔
      ∃ i j p e, EntryAt dir paths i j p e ∧
        readRecordAt c {} (dir.find p) e.offset = .ok r := by
  have hread : ∀ res : Res SstableRecord, res.toOption = some r ↔ res = .ok r := by
    intro res
    cases res <;> simp [Except.toOption]
  simp only [storedRecords, List.mem_flatMap, List.mem_filterMap, hread]
  constructor
  · rintro ⟨p, hp, e, he, hr⟩
    obtain ⟨i, hi⟩ := List.mem_iff_getElem?.mp hp
    obtain ⟨j, hj⟩ := List.mem_iff_getElem?.mp he
    exact ⟨i, j, p, e, ⟨hi, hj⟩, hr⟩
  · rintro ⟨i, j, p, e, hentry, hr⟩
    exact ⟨p, List.mem_of_getElem? hentry.file, e, List.mem_of_getElem? hentry.entry, hr⟩

theorem storedRecords_fits {c : Cipher} (hc : c.Lawful) {dir : SortedMap Bytes Bytes}
    {paths : List Bytes} (hbuilt : ∀ p ∈ paths, BuiltAt c dir p) :
    ∀ r ∈ storedRecords c dir paths, r.Fits := by
  intro r hr
  obtain ⟨p, hp, hr⟩ := List.mem_flatMap.mp hr
  obtain ⟨file, t, rd, hfind, htable, hopen, hreads⟩ := (hbuilt p hp).opens hc
  rw [indexIn_of_open hopen, ← allFrom_eq_filterMap _ 0, hfind] at hr
  exact htable.fits r (hreads.allRecords ▸ hr)

theorem storedRecords_cons {c : Cipher} {dir : SortedMap Bytes Bytes} {p : Bytes}
    {rd : SstableReader} (hopen : SstableReader.open {} p (dir.find p) = .ok rd)
    (paths : List Bytes) :
    storedRecords c dir (p :: paths) =
      rd.allRecords c (fun _ => {}) (dir.find p) ++ storedRecords c dir paths := by
  rw [storedRecords, List.flatMap_cons, indexIn_of_open hopen, ← allFrom_eq_filterMap _ 0]
  rfl

/-- **What a compaction sees** of damaged files is part of what was
stored. -/
theorem seen_sublist {c : Cipher} (hc : c.Lawful) {io : MergeIo c}
    {dir dir' : SortedMap Bytes Bytes} (paths : List Bytes) :
    ∀ i rs, (∀ p ∈ paths, BuiltAt c dir p) →
      (∀ p ∈ paths, DamagedAt c p (dir.find p) (dir'.find p)) →
      collectRecords c io dir' i paths = .ok rs → rs.Sublist (storedRecords c dir paths) := by
  induction paths with
  | nil =>
      intro i rs _ _ h
      obtain rfl := Except.ok.inj h
      exact List.Sublist.slnil
  | cons p paths ih =>
      intro i rs hbuilt hdamaged h
      obtain ⟨file, t, rd, hfind, -, hopen, hreads⟩ := (hbuilt p List.mem_cons_self).opens hc
      have hp := hdamaged p List.mem_cons_self
      obtain ⟨rd', rest, hrd, hrest, rfl⟩ := collectRecords_cons_ok h
      obtain rfl : rd' = rd := hp.reader hopen hrd
      have hharmed := hp.reads rd' hopen
      rw [hfind] at hharmed
      rw [storedRecords_cons hopen, hfind, hreads.allRecords]
      exact (allFrom_sublist hreads.leads hharmed (io.reads i) 0).append
        (ih (i + 1) rest (fun q hq => hbuilt q (List.mem_cons_of_mem _ hq))
          (fun q hq => hdamaged q (List.mem_cons_of_mem _ hq)) hrest)

/-- **What a compaction sees**, entry by entry of the undamaged indexes. -/
theorem mem_collectRecords {c : Cipher} (hc : c.Lawful) {io : MergeIo c}
    {dir dir' : SortedMap Bytes Bytes} {r : SstableRecord} (paths : List Bytes) :
    ∀ n rs, (∀ p ∈ paths, BuiltAt c dir p) →
      (∀ p ∈ paths, DamagedAt c p (dir.find p) (dir'.find p)) →
      collectRecords c io dir' n paths = .ok rs →
      (r ∈ rs ↔ ∃ i j p e, EntryAt dir paths i j p e ∧
        readRecordAt c (io.reads (n + i) j) (dir'.find p) e.offset = .ok r) := by
  induction paths with
  | nil =>
      intro n rs _ _ h
      obtain rfl := Except.ok.inj h
      refine iff_of_false List.not_mem_nil ?_
      rintro ⟨i, j, p, e, hentry, -⟩
      cases hentry.file
  | cons p paths ih =>
      intro n rs hbuilt hdamaged h
      obtain ⟨file, t, rd, -, -, hopen, -⟩ := (hbuilt p List.mem_cons_self).opens hc
      obtain ⟨rd', rest, hrd, hrest, rfl⟩ := collectRecords_cons_ok h
      obtain rfl : rd' = rd := (hdamaged p List.mem_cons_self).reader hopen hrd
      rw [List.mem_append, SstableReader.allRecords, mem_allFrom,
        ih (n + 1) rest (fun q hq => hbuilt q (List.mem_cons_of_mem _ hq))
          (fun q hq => hdamaged q (List.mem_cons_of_mem _ hq)) hrest]
      -- file 0 is the head, file i + 1 is file i of the rest
      constructor
      · rintro (⟨j, e, hj, hr⟩ | ⟨i, j, q, e, hentry, hr⟩)
        · rw [Nat.zero_add] at hr
          exact ⟨0, j, p, e, ⟨rfl, by rwa [indexIn_of_open hopen]⟩, hr⟩
        · exact ⟨i + 1, j, q, e, ⟨hentry.file, hentry.entry⟩, by rwa [Nat.add_right_comm] at hr⟩
      · rintro ⟨i, j, q, e, hentry, hr⟩
        cases i with
        | zero =>
            obtain rfl : p = q := Option.some.inj hentry.file
            have hj := hentry.entry
            rw [indexIn_of_open hopen] at hj
            exact Or.inl ⟨j, e, hj, by rwa [Nat.zero_add]⟩
        | succ i =>
            exact Or.inr ⟨i, j, q, e, ⟨hentry.file, hentry.entry⟩, by rwa [Nat.add_right_comm]⟩

/-- Without a failing read the compaction sees everything. -/
theorem collectRecords_stored {c : Cipher} (hc : c.Lawful) {io : MergeIo c}
    (hopens : ∀ i, io.opens i = {}) (hreads : ∀ i j, io.reads i j = {})
    {dir : SortedMap Bytes Bytes} (paths : List Bytes) :
    ∀ i, (∀ p ∈ paths, BuiltAt c dir p) →
      collectRecords c io dir i paths = .ok (storedRecords c dir paths) := by
  induction paths with
  | nil => intro i _; rfl
  | cons p paths ih =>
      intro i hbuilt
      obtain ⟨file, t, rd, hfind, -, hopen, -⟩ := (hbuilt p List.mem_cons_self).opens hc
      have hios : io.reads i = fun _ => {} := funext (hreads i)
      rw [collectRecords, hopens i, hopen]
      dsimp only
      rw [ih (i + 1) fun q hq => hbuilt q (List.mem_cons_of_mem _ hq), hios,
        storedRecords_cons hopen]

/-! ## The output -/

theorem mem_outputRecords {rs : List SstableRecord} {r : SstableRecord} :
    r ∈ outputRecords rs ↔ LatestOf rs r ∧ r.tombstone = false := by
  rw [outputRecords, List.mem_filter, mem_latestRecords, Bool.not_eq_true']

theorem LatestOf.mem {rs : List SstableRecord} {r : SstableRecord} (h : LatestOf rs r) :
    r ∈ rs := by
  obtain ⟨before, after, rfl, -, -⟩ := h
  exact List.mem_append_right _ List.mem_cons_self

theorem outputRecords_sorted (rs : List SstableRecord) :
    (outputRecords rs).Pairwise fun a b => a.key < b.key := by
  rw [outputRecords_eq_live, List.pairwise_map]
  exact (Lsm.live (merge (rs.map SstableRecord.entry))).sorted

/-- Building from the output's own records changes nothing. -/
theorem latestRecords_outputRecords (rs : List SstableRecord) :
    latestRecords (outputRecords rs) = outputRecords rs := by
  rw [outputRecords_eq_live, latestRecords, map_entry_ofEntry, merge_entries]

/-- What a successful compaction did: it read all inputs, and either had
nothing to write or built its output. -/
theorem compact_cases {c : Cipher} {io : MergeIo c} {dir : SortedMap Bytes Bytes}
    {paths : List Bytes} {path : Bytes} {n : Nat} {out : Option OStream}
    (h : compactLevel0ToLevel1 c io dir paths path = (.ok n, out)) :
    collectRecords c io dir 0 paths = .ok (seenRecords c io dir paths) ∧
      ((outputRecords (seenRecords c io dir paths) = [] ∧ out = none) ∨
        (outputRecords (seenRecords c io dir paths) ≠ [] ∧ ∃ m o, out = some o ∧
          SstableBuilder.build c io.build path (outputRecords (seenRecords c io dir paths))
            = (.ok m, some o))) := by
  unfold compactLevel0ToLevel1 at h
  by_cases hnil : paths = []
  · rw [if_pos hnil] at h; cases h
  rw [if_neg hnil] at h
  unfold seenRecords
  cases hrs : collectRecords c io dir 0 paths with
  | error e => rw [hrs] at h; cases h
  | ok rs =>
      rw [hrs] at h
      dsimp only at h ⊢
      refine ⟨rfl, ?_⟩
      by_cases hempty : outputRecords rs = []
      · rw [if_pos hempty] at h
        exact Or.inl ⟨hempty, (Prod.mk.inj h).2.symm⟩
      · rw [if_neg hempty] at h
        refine Or.inr ⟨hempty, ?_⟩
        rcases hb : SstableBuilder.build c io.build path (outputRecords rs) with ⟨res, o⟩
        rw [hb] at h
        cases res with
        | error e => cases h
        | ok m =>
            obtain ⟨o', ho'⟩ := build_ok_stream (m := m) (by rw [hb])
            have ho := (Prod.mk.inj (hb.symm.trans ho')).2
            exact ⟨m, o', (Prod.mk.inj h).2.symm.trans ho, by rw [ho]⟩

/-- **The output read back** is what the compaction made of the records it
saw. -/
theorem outputTable_eq {c : Cipher} (hc : c.Lawful) {io : MergeIo c}
    {dir : SortedMap Bytes Bytes} {paths : List Bytes} {path : Bytes} {n : Nat}
    {out : Option OStream} (hseq : ∀ r ∈ seenRecords c io dir paths, r.seq < 2 ^ 64)
    (h : compactLevel0ToLevel1 c io dir paths path = (.ok n, out)) :
    outputTable c path out = outputRecords (seenRecords c io dir paths) := by
  rcases (compact_cases h).2 with ⟨hnil, rfl⟩ | ⟨-, m, o, rfl, hbuild⟩
  · rw [hnil]; rfl
  have hseq' : ∀ r ∈ outputRecords (seenRecords c io dir paths), r.seq < 2 ^ 64 :=
    fun r hr => hseq r (mem_outputRecords.mp hr).1.mem
  obtain ⟨rd, hopen, -, hreads⟩ := (isTable_of_build hseq' hbuild).opens hc path
  have hfind : (SortedMap.empty.insert path o.file).find path = some o.file :=
    by rw [SortedMap.find_insert, if_pos rfl]
  have hopen' : SstableReader.open {} path ((SortedMap.empty.insert path o.file).find path)
      = .ok rd := by rw [hfind]; exact hopen
  rw [outputTable, storedRecords_cons hopen', hfind, hreads.allRecords]
  show latestRecords (outputRecords (seenRecords c io dir paths)) ++ [] = _
  rw [List.append_nil, latestRecords_outputRecords]

/-! ## Records that cannot be read -/

/-- Of every key a newest version was kept, or is a tombstone. -/
def KeepsNewest (keys : List Bytes) (all kept : List SstableRecord) : Prop :=
  ∀ k ∈ keys, ∃ r ∈ all, NewestOf all r ∧ r.key = k ∧ (r.tombstone = true ∨ r ∈ kept)

instance (keys : List Bytes) (all kept : List SstableRecord) :
    Decidable (KeepsNewest keys all kept) :=
  inferInstanceAs (Decidable (∀ k ∈ keys, _))

/-- Every key has an index entry that leads to a newest version of it, and
that version is a tombstone or `ReadRecordAt` gets it there: from the
damaged file, with the failures this one read of the call meets. -/
def NewestReadable (c : Cipher) (io : MergeIo c) (dir dir' : SortedMap Bytes Bytes)
    (paths : List Bytes) : Prop :=
  ∀ k ∈ indexKeys dir paths, ∃ i j p e r, EntryAt dir paths i j p e ∧
    readRecordAt c {} (dir.find p) e.offset = .ok r ∧
    NewestOf (storedRecords c dir paths) r ∧ r.key = k ∧
    (r.tombstone = true ∨ readRecordAt c (io.reads i j) (dir'.find p) e.offset = .ok r)

/-- **A compaction keeps what can be read.** For files `Build` wrote, any of
whose records may have become unreadable: after `Ok` the output holds, for
every key in the index of a file, the newest of all indexed versions unless
that is a tombstone, EXACTLY IF such a version can be read at its index
entry. -/
theorem compaction_keeps_iff {c : Cipher} (hc : c.Lawful) {io : MergeIo c}
    {dir dir' : SortedMap Bytes Bytes} {paths : List Bytes} {path : Bytes} {n : Nat}
    {out : Option OStream} (hbuilt : ∀ p ∈ paths, BuiltAt c dir p)
    (hdamaged : ∀ p ∈ paths, DamagedAt c p (dir.find p) (dir'.find p))
    (hok : compactLevel0ToLevel1 c io dir' paths path = (.ok n, out)) :
    KeepsNewest (indexKeys dir paths) (storedRecords c dir paths) (outputTable c path out) ↔
      NewestReadable c io dir dir' paths := by
  have hcollect := (compact_cases hok).1
  have hsub : ∀ r ∈ seenRecords c io dir' paths, r ∈ storedRecords c dir paths :=
    (seen_sublist hc paths 0 _ hbuilt hdamaged hcollect).subset
  have hseen : ∀ r, r ∈ seenRecords c io dir' paths ↔ ∃ i j p e, EntryAt dir paths i j p e ∧
      readRecordAt c (io.reads i j) (dir'.find p) e.offset = .ok r := fun r => by
    have := mem_collectRecords (r := r) hc paths 0 _ hbuilt hdamaged hcollect
    simpa only [Nat.zero_add] using this
  have hseq : ∀ r ∈ seenRecords c io dir' paths, r.seq < 2 ^ 64 :=
    fun r hr => (storedRecords_fits hc hbuilt r (hsub r hr)).seq
  rw [outputTable_eq hc hseq hok]
  constructor
  · intro h k hk
    obtain ⟨r, hr, hnewest, hrk, htomb | hout⟩ := h k hk
    · obtain ⟨i, j, p, e, hentry, hread⟩ := mem_storedRecords.mp hr
      exact ⟨i, j, p, e, r, hentry, hread, hnewest, hrk, Or.inl htomb⟩
    · obtain ⟨i, j, p, e, hentry, hread⟩ := (hseen r).mp (mem_outputRecords.mp hout).1.mem
      -- what a damaged file still shows is what was written
      have hp : p ∈ paths := List.mem_of_getElem? hentry.file
      obtain ⟨-, -, rd, -, -, hopen, -⟩ := (hbuilt p hp).opens hc
      have he : e ∈ rd.index := indexIn_of_open hopen ▸ List.mem_of_getElem? hentry.entry
      have hwritten := (hdamaged p hp).reads rd hopen e he r (readRecordAt_reliable hread)
      exact ⟨i, j, p, e, r, hentry, hwritten, hnewest, hrk, Or.inr hread⟩
  · intro h k hk
    obtain ⟨i, j, p, e, r, hentry, hwritten, hnewest, hrk, htomb | hread⟩ := h k hk
    · exact ⟨r, hnewest.1, hnewest, hrk, Or.inl htomb⟩
    have hmem : r ∈ seenRecords c io dir' paths := (hseen r).mpr ⟨i, j, p, e, hentry, hread⟩
    -- what the merge picks for the key is as new as the version it saw
    obtain ⟨y, hy, hyk⟩ := exists_latestOf _ r hmem
    have hle : r.seq ≤ y.seq := hy.le r hmem hyk.symm
    have hnewest' : NewestOf (storedRecords c dir paths) y :=
      ⟨hsub y hy.mem, fun z hz hzk => (hnewest.2 z hz (hzk.trans hyk)).trans hle⟩
    refine ⟨y, hnewest'.1, hnewest', hyk.trans hrk, ?_⟩
    cases hdead : y.tombstone with
    | true => exact Or.inl rfl
    | false => exact Or.inr (mem_outputRecords.mpr ⟨hy, hdead⟩)

/-- The file `Build` makes of some records. -/
def builtFile (path : Bytes) (records : List SstableRecord) : Bytes :=
  match (SstableBuilder.build (fallback zeroKey) { rand := fun _ => (0 : Nat) } path
    records).2 with
  | none => []
  | some out => out.file

theorem builtAt_builtFile {dir : SortedMap Bytes Bytes} {p : Bytes}
    (records : List SstableRecord) (hseq : ∀ r ∈ records, r.seq < 2 ^ 64)
    (hok : (SstableBuilder.build (fallback zeroKey) { rand := fun _ => (0 : Nat) } p
      records).1 = .ok (metaOf p (latestRecords records)))
    (hfind : dir.find p = some (builtFile p records)) : BuiltAt (fallback zeroKey) dir p := by
  obtain ⟨out, hbuild⟩ := build_ok_stream hok
  refine ⟨_, records, _, out, hseq, hbuild, ?_⟩
  rw [hfind, builtFile, hbuild]

theorem damagedAt_of_unreadable {c : Cipher} {p : Bytes} {file file' : Option Bytes}
    (hopen : SstableReader.open {} p file' = SstableReader.open {} p file)
    (hbad : ∀ e ∈ indexIn p file, (readRecordAt c {} file' e.offset).isOk = false) :
    DamagedAt c p file file' := by
  refine ⟨fun rd h => hopen.trans h, fun rd h => OnlyHarmed.of_unreadable fun e he => ?_⟩
  exact Or.inr (hbad e (by rw [indexIn, h]; exact he))

/-- Two tables: a key was written with value 1 and then with value 2. -/
def twoTables : SortedMap Bytes Bytes :=
  (SortedMap.empty.insert [1] (builtFile [1] [⟨[97], [1], 1, false⟩])).insert [2]
    (builtFile [2] [⟨[97], [2], 2, false⟩])

theorem twoTables_built : ∀ p ∈ [[1], [2]], BuiltAt (fallback zeroKey) twoTables p := by
  intro p hp
  simp only [List.mem_cons, List.not_mem_nil, or_false] at hp
  rcases hp with rfl | rfl
  · exact builtAt_builtFile [⟨[97], [1], 1, false⟩] (by decide) (by decide +kernel) rfl
  · exact builtAt_builtFile [⟨[97], [2], 2, false⟩] (by decide) (by decide +kernel) rfl

/-- The byte of the second table that holds the encrypted value is lost. -/
def twoTablesDamaged : SortedMap Bytes Bytes :=
  twoTables.insert [2] ((builtFile [2] [⟨[97], [2], 2, false⟩]).set 96 0)

theorem twoTables_damaged : ∀ p ∈ [[1], [2]],
    DamagedAt (fallback zeroKey) p (twoTables.find p) (twoTablesDamaged.find p) := by
  intro p hp
  simp only [List.mem_cons, List.not_mem_nil, or_false] at hp
  rcases hp with rfl | rfl
  · exact DamagedAt.refl _ _ _
  · exact damagedAt_of_unreadable (by decide +kernel) (by decide +kernel)

/-- Both tables of a directory, compacted. -/
def compactTwo (dir : SortedMap Bytes Bytes) : Res Nat × Option OStream :=
  compactLevel0ToLevel1 (fallback zeroKey) { build := { rand := fun _ => (0 : Nat) } }
    dir [[1], [2]] [9]

theorem storedRecords_twoTables :
    storedRecords (fallback zeroKey) twoTables [[1], [2]]
      = [⟨[97], [1], 1, false⟩, ⟨[97], [2], 2, false⟩] := by
  decide +kernel

theorem compactTwo_ok : (compactTwo twoTables).1 = .ok 0 := by
  decide +kernel

theorem indexKeys_twoTables : indexKeys twoTables [[1], [2]] = [[97], [97]] := by
  decide +kernel

theorem twoTables_keep_newest :
    KeepsNewest (indexKeys twoTables [[1], [2]])
      (storedRecords (fallback zeroKey) twoTables [[1], [2]])
      (outputTable (fallback zeroKey) [9] (compactTwo twoTables).2) := by
  refine (compaction_keeps_iff (fallback_lawful zeroKey) twoTables_built
    (fun p _ => DamagedAt.refl _ p (twoTables.find p))
    (show compactTwo twoTables = (.ok 0, (compactTwo twoTables).2) by
      rw [← compactTwo_ok])).mpr fun k hk => ?_
  -- the newer version stands at the first entry of the second table
  have hread : readRecordAt (fallback zeroKey) {} (twoTables.find [2]) 48
      = .ok ⟨[97], [2], 2, false⟩ := by decide +kernel
  rw [indexKeys_twoTables] at hk
  have hk : k = [97] := by simpa using hk
  refine ⟨1, 0, [2], ⟨[97], 48⟩, ⟨[97], [2], 2, false⟩, ⟨rfl, by decide +kernel⟩, hread, ?_,
    hk.symm, Or.inr hread⟩
  rw [storedRecords_twoTables]
  decide

/-- **A compaction that loses a write.** The newest version cannot be read,
the call returns `Ok`, and the output holds the value that was
overwritten. -/
theorem compaction_loses_newest :
    (∀ p ∈ [[1], [2]], BuiltAt (fallback zeroKey) twoTables p) ∧
      (∀ p ∈ [[1], [2]],
        DamagedAt (fallback zeroKey) p (twoTables.find p) (twoTablesDamaged.find p)) ∧
      (compactTwo twoTablesDamaged).1 = .ok 0 ∧
      outputTable (fallback zeroKey) [9] (compactTwo twoTablesDamaged).2 = [⟨[97], [1], 1, false⟩] ∧
      NewestOf (storedRecords (fallback zeroKey) twoTables [[1], [2]])
        ⟨[97], [2], 2, false⟩ ∧
      ¬ KeepsNewest (indexKeys twoTables [[1], [2]])
        (storedRecords (fallback zeroKey) twoTables [[1], [2]])
        (outputTable (fallback zeroKey) [9] (compactTwo twoTablesDamaged).2) := by
  have hout : outputTable (fallback zeroKey) [9] (compactTwo twoTablesDamaged).2
      = [⟨[97], [1], 1, false⟩] := by decide +kernel
  rw [storedRecords_twoTables, indexKeys_twoTables, hout]
  exact ⟨twoTables_built, twoTables_damaged, by decide +kernel, rfl, by decide, by decide⟩

/-! ## Records that can all be read -/

theorem NewestOf.of_subset {rs rs' : List SstableRecord} {r : SstableRecord}
    (hmem : ∀ x, x ∈ rs ↔ x ∈ rs') (h : NewestOf rs r) : NewestOf rs' r :=
  ⟨(hmem r).mp h.1, fun x hx hk => h.2 x ((hmem x).mpr hx) hk⟩

theorem Unambiguous.of_subset {rs rs' : List SstableRecord}
    (hmem : ∀ x, x ∈ rs ↔ x ∈ rs') (h : Unambiguous rs) : Unambiguous rs' :=
  fun r hr x hx => h r ((hmem r).mpr hr) x ((hmem x).mpr hx)

/-- Where versions with one number are the same, the latest record is the
newest one, wherever it stands. -/
theorem latestOf_iff_newestOf {rs : List SstableRecord} (h : Unambiguous rs)
    {r : SstableRecord} : LatestOf rs r ↔ NewestOf rs r := by
  constructor
  · intro hr
    exact ⟨hr.mem, hr.le⟩
  · intro hr
    obtain ⟨x, hx, hk⟩ := exists_latestOf rs r hr.1
    have hseq : x.seq = r.seq :=
      Nat.le_antisymm (hr.2 x hx.mem hk) (hx.le r hr.1 hk.symm)
    exact h r hr.1 x hx.mem hk hseq ▸ hx

/-- A merge does not depend on the order of its records. -/
theorem merge_congr {rs rs' : List SstableRecord} (h : Unambiguous rs)
    (hmem : ∀ x, x ∈ rs ↔ x ∈ rs') :
    merge (rs.map SstableRecord.entry) = merge (rs'.map SstableRecord.entry) := by
  refine SortedMap.ext_find fun k => Option.ext fun v => ?_
  have hfind : ∀ l : List SstableRecord, (merge (l.map SstableRecord.entry)).find k = some v ↔
      LatestOf l (SstableRecord.ofEntry (k, v)) := fun l =>
    (latestOf_iff (r := SstableRecord.ofEntry (k, v))).symm
  rw [hfind rs, hfind rs', latestOf_iff_newestOf h,
    latestOf_iff_newestOf (Unambiguous.of_subset hmem h)]
  exact ⟨NewestOf.of_subset hmem, NewestOf.of_subset fun x => (hmem x).symm⟩

/-- After a complete read only the build can fail, and only with an I/O
error. -/
theorem compact_error {c : Cipher} (hcrypto : ∀ rand p, (c.encrypt rand p).isSome)
    {io : MergeIo c} {dir : SortedMap Bytes Bytes} {paths : List Bytes} {path : Bytes}
    {rs : List SstableRecord} (hne : paths ≠ [])
    (hrs : collectRecords c io dir 0 paths = .ok rs) (hfits : ∀ r ∈ rs, r.Fits) {e : Err}
    (h : (compactLevel0ToLevel1 c io dir paths path).1 = .error e) :
    ∃ msg, e = Status.ioError msg := by
  unfold compactLevel0ToLevel1 at h
  rw [if_neg hne, hrs] at h
  dsimp only at h
  by_cases hempty : outputRecords rs = []
  · rw [if_pos hempty] at h; cases h
  rw [if_neg hempty] at h
  rcases hb : SstableBuilder.build c io.build path (outputRecords rs) with ⟨res, o⟩
  rw [hb] at h
  cases res with
  | ok m => cases h
  | error err =>
      obtain rfl : err = e := Except.error.inj h
      refine build_error hcrypto hempty (fun r hr => ?_) (congrArg Prod.fst hb)
      rw [latestRecords_outputRecords] at hr
      have hfit := hfits r (mem_outputRecords.mp hr).1.mem
      exact ⟨hfit.key, hfit.value⟩

/-- Files in another order give the same result. -/
theorem compact_perm {c : Cipher} (hc : c.Lawful) {io : MergeIo c}
    (hopens : ∀ i, io.opens i = {}) (hreads : ∀ i j, io.reads i j = {})
    {dir : SortedMap Bytes Bytes} {paths paths' : List Bytes} {path : Bytes}
    (hbuilt : ∀ p ∈ paths, BuiltAt c dir p)
    (hsame : Unambiguous (storedRecords c dir paths)) (hperm : paths'.Perm paths) :
    compactLevel0ToLevel1 c io dir paths' path = compactLevel0ToLevel1 c io dir paths path := by
  have hbuilt' : ∀ p ∈ paths', BuiltAt c dir p := fun p hp => hbuilt p (hperm.mem_iff.mp hp)
  have hrecords : ∀ x, x ∈ storedRecords c dir paths ↔ x ∈ storedRecords c dir paths' :=
    fun x => (hperm.flatMap_right _).mem_iff.symm
  have hnil : paths' = [] ↔ paths = [] := by
    rw [← List.length_eq_zero_iff, ← List.length_eq_zero_iff, hperm.length_eq]
  have hout : outputRecords (storedRecords c dir paths')
      = outputRecords (storedRecords c dir paths) := by
    rw [outputRecords_eq_live, outputRecords_eq_live, merge_congr hsame hrecords]
  unfold compactLevel0ToLevel1
  rw [collectRecords_stored hc hopens hreads paths 0 hbuilt,
    collectRecords_stored hc hopens hreads paths' 0 hbuilt']
  dsimp only
  simp only [hnil, hout]

/-- **The merge.** For files `Build` wrote, given in any order and with any
overlap of keys, where two versions of one key with one number are the
same: a compaction that meets no failure writes exactly the keys whose
newest version is not a tombstone, in strict key order, and no file when
there is none. The order of the files does not matter. -/
theorem compaction_merges {c : Cipher} (hc : c.Lawful)
    (hcrypto : ∀ rand p, (c.encrypt rand p).isSome) {io : MergeIo c}
    (hopens : ∀ i, io.opens i = {}) (hreads : ∀ i j, io.reads i j = {})
    {dir : SortedMap Bytes Bytes} {paths : List Bytes} {path : Bytes} (hne : paths ≠ [])
    (hbuilt : ∀ p ∈ paths, BuiltAt c dir p)
    (hsame : Unambiguous (storedRecords c dir paths))
    (hio : ∀ msg, (compactLevel0ToLevel1 c io dir paths path).1
      ≠ .error (Status.ioError msg)) :
    ∃ n out, compactLevel0ToLevel1 c io dir paths path = (.ok n, out) ∧
      (∀ o, out = some o → ∃ rd, SstableReader.open {} path (some o.file) = .ok rd) ∧
      ((outputTable c path out).Pairwise fun a b => a.key < b.key) ∧
      (∀ r, r ∈ outputTable c path out ↔
        NewestOf (storedRecords c dir paths) r ∧ r.tombstone = false) ∧
      (out = none ↔ ∀ r, NewestOf (storedRecords c dir paths) r → r.tombstone = true) ∧
      ∀ paths', paths'.Perm paths →
        compactLevel0ToLevel1 c io dir paths' path
          = compactLevel0ToLevel1 c io dir paths path := by
  have hcollect := collectRecords_stored hc hopens hreads paths 0 hbuilt
  have hfits := storedRecords_fits hc hbuilt
  have hseen : seenRecords c io dir paths = storedRecords c dir paths := by
    rw [seenRecords, hcollect]
  rcases hres : compactLevel0ToLevel1 c io dir paths path with ⟨res, out⟩
  cases res with
  | error e =>
      obtain ⟨msg, rfl⟩ := compact_error hcrypto hne hcollect hfits (congrArg Prod.fst hres)
      exact absurd (congrArg Prod.fst hres) (hio msg)
  | ok n =>
  have hout := outputTable_eq hc (by rw [hseen]; exact fun r hr => (hfits r hr).seq) hres
  have hmem : ∀ r, r ∈ outputRecords (storedRecords c dir paths) ↔
      NewestOf (storedRecords c dir paths) r ∧ r.tombstone = false := fun r => by
    rw [mem_outputRecords, latestOf_iff_newestOf hsame]
  rw [hseen] at hout
  have hcases := (compact_cases hres).2
  rw [hseen] at hcases
  refine ⟨n, out, rfl, ?_, ?_, ?_, ?_, ?_⟩
  · rintro o rfl
    rcases hcases with ⟨-, hnone⟩ | ⟨-, m, o', ho, hbuild⟩
    · cases hnone
    obtain rfl := Option.some.inj ho
    obtain ⟨rd, hopen, -⟩ := (isTable_of_build
      (fun r hr => (hfits r ((hmem r).mp hr).1.1).seq) hbuild).opens hc path
    exact ⟨rd, hopen⟩
  · rw [hout]
    exact outputRecords_sorted _
  · rw [hout]
    exact hmem
  · have hnil : out = none ↔ outputRecords (storedRecords c dir paths) = [] := by
      rcases hcases with ⟨hempty, rfl⟩ | ⟨hfull, m, o, rfl, -⟩
      · exact iff_of_true rfl hempty
      · exact iff_of_false nofun hfull
    rw [hnil, List.eq_nil_iff_forall_not_mem]
    constructor
    · intro hno r hr
      by_contra hlive
      exact hno r ((hmem r).mpr ⟨hr, Bool.eq_false_iff.mpr hlive⟩)
    · intro hdead r hr
      obtain ⟨hnewest, hlive⟩ := (hmem r).mp hr
      rw [hdead r hnewest] at hlive
      cases hlive
  · intro paths' hperm
    rw [← hres]
    exact compact_perm hc hopens hreads hbuilt hsame hperm

theorem twoTables_merge :
    ∃ n out, compactTwo twoTables = (.ok n, out) ∧
      (∀ r, r ∈ outputTable (fallback zeroKey) [9] out ↔
        NewestOf (storedRecords (fallback zeroKey) twoTables [[1], [2]]) r ∧
          r.tombstone = false) := by
  have hsame : Unambiguous (storedRecords (fallback zeroKey) twoTables [[1], [2]]) := by
    rw [storedRecords_twoTables]
    decide
  obtain ⟨n, out, hres, -, -, hmem, -⟩ := compaction_merges (fallback_lawful zeroKey)
    (fun _ _ => rfl) (fun _ => rfl) (fun _ _ => rfl) (List.cons_ne_nil _ _) twoTables_built
    hsame (fun msg h => absurd (compactTwo_ok.symm.trans h) nofun)
  exact ⟨n, out, hres, hmem⟩

end VaultKV
