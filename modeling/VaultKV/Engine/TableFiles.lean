import VaultKV.Engine.Opening

/-!
# Engine — table files when anything may fail

Builds and merges may fail at any system call, reads may break off, names
may repeat from one process to the next. What survives all of it: a file in
a table directory either does not open, or it is the whole file of a table
whose entries are in the log (`TableFile`).
-/

namespace VaultKV

open Lib

/-! ## What a flush and a compaction touch -/

namespace Engine

variable (cfg : Config)

/-- What the output file of `MaybeCompact` receives. -/
def compactStream (io : CompactIo cfg.cipher) (e : Engine) : Res Nat × Option OStream :=
  compactLevel0ToLevel1 cfg.cipher io.merge e.l0Dir (e.l0Tables.map SstableReader.path)
    (sstName io.nanos e.nextSstableId)

/-- What the new file of `FlushMemTable` receives. -/
def flushStream (io : FlushIo cfg.cipher) (e : Engine) : Option OStream :=
  (SstableBuilder.build cfg.cipher io.build (sstName io.nanos e.nextSstableId)
    ((e.memtable.drainSorted true).1.map SstableRecord.ofEntry)).2

/-- What `FlushMemTable` up to the installation leaves, whatever fails. -/
structure BuildParts (io : FlushIo cfg.cipher) (e e' : Engine) : Prop where
  isOpen : e'.isOpen = e.isOpen
  wal : e'.wal = e.wal
  memtable : e'.memtable = (e.memtable.drainSorted true).2
  l0Dir : e'.l0Dir = e.l0Dir ∨ e'.l0Dir
    = putFile e.l0Dir (sstName io.nanos e.nextSstableId) (e.flushStream cfg io)
  l1Dir : e'.l1Dir = e.l1Dir

/-- What `MaybeCompact` leaves, whatever fails. -/
structure CompactParts (io : CompactIo cfg.cipher) (e e' : Engine) : Prop where
  isOpen : e'.isOpen = e.isOpen
  wal : e'.wal = e.wal
  memtable : e'.memtable = e.memtable
  l0Dir : e'.l0Dir = e.l0Dir ∨ e'.l0Dir
    = removeFiles io.removeFails 0 (e.l0Tables.map SstableReader.path) e.l0Dir
  l1Dir : e'.l1Dir = e.l1Dir ∨ e'.l1Dir
    = putFile e.l1Dir (sstName io.nanos e.nextSstableId) (e.compactStream cfg io).2

end Engine

theorem buildAndInstall_parts (cfg : Config) (io : FlushIo cfg.cipher) (e : Engine) :
    Engine.BuildParts cfg io e (e.buildAndInstall cfg io).2 := by
  unfold Engine.buildAndInstall
  dsimp only
  by_cases hnil : (e.memtable.drainSorted true).1 = []
  · rw [if_pos hnil]
    exact ⟨rfl, rfl, rfl, Or.inl rfl, rfl⟩
  rw [if_neg hnil]
  rcases hb : SstableBuilder.build cfg.cipher io.build (sstName io.nanos e.nextSstableId)
    ((e.memtable.drainSorted true).1.map SstableRecord.ofEntry) with ⟨res, out⟩
  have hstream : e.flushStream cfg io = out := by rw [Engine.flushStream, hb]
  cases res with
  | error err => exact ⟨rfl, rfl, rfl, Or.inr (by rw [hstream]), rfl⟩
  | ok m =>
      dsimp only
      cases SstableReader.open io.install m.path
        ((Engine.putFile e.l0Dir (sstName io.nanos e.nextSstableId) out).find m.path) with
      | error err => exact ⟨rfl, rfl, rfl, Or.inr (by rw [hstream]), rfl⟩
      | ok rd => exact ⟨rfl, rfl, rfl, Or.inr (by rw [hstream]), rfl⟩

theorem maybeCompact_parts (cfg : Config) (io : CompactIo cfg.cipher) (e : Engine) :
    Engine.CompactParts cfg io e (e.maybeCompact cfg io).2 := by
  unfold Engine.maybeCompact
  by_cases hfour : e.l0Tables.length < 4
  · rw [if_pos hfour]
    exact ⟨rfl, rfl, rfl, Or.inl rfl, Or.inl rfl⟩
  rw [if_neg hfour]
  dsimp only
  rcases hb : compactLevel0ToLevel1 cfg.cipher io.merge e.l0Dir
    (e.l0Tables.map SstableReader.path) (sstName io.nanos e.nextSstableId) with ⟨res, out⟩
  have hstream : (e.compactStream cfg io).2 = out := by rw [Engine.compactStream, hb]
  cases res with
  | error err => exact ⟨rfl, rfl, rfl, Or.inl rfl, Or.inr (by rw [hstream])⟩
  | ok n =>
      dsimp only
      cases SstableReader.open io.install (sstName io.nanos e.nextSstableId)
        ((Engine.putFile e.l1Dir (sstName io.nanos e.nextSstableId) out).find
          (sstName io.nanos e.nextSstableId)) with
      | error err => exact ⟨rfl, rfl, rfl, Or.inl rfl, Or.inr (by rw [hstream])⟩
      | ok rd => exact ⟨rfl, rfl, rfl, Or.inr rfl, Or.inr (by rw [hstream])⟩

/-! ## Table files -/

/-- Whoever opens the file gets a reader of logged entries. -/
def TableFile (c : Cipher) (rs : List WalRecord) (file : Bytes) : Prop :=
  ∀ io path rd, SstableReader.open io path (some file) = .ok rd →
    rd.path = path ∧ ∃ t, IsTable c file t ∧ Reads c file rd t ∧
      ∀ x ∈ t.entries, Logged rs x.1 x.2

/-- Every file of a directory satisfies `P`. -/
def DirAll (P : Bytes → Prop) (dir : SortedMap Bytes Bytes) : Prop :=
  ∀ p file, dir.find p = some file → P file

abbrev TableDir (c : Cipher) (rs : List WalRecord) (dir : SortedMap Bytes Bytes) : Prop :=
  DirAll (TableFile c rs) dir

/-! ## Directories -/

section

variable {P Q : Bytes → Prop} {dir : SortedMap Bytes Bytes}

theorem DirAll.imp (h : DirAll P dir) (hPQ : ∀ file, P file → Q file) : DirAll Q dir :=
  fun p file hp => hPQ file (h p file hp)

theorem DirAll.empty : DirAll P SortedMap.empty := by
  intro p file hp
  cases hp

theorem DirAll.putFile (h : DirAll P dir) {path : Bytes} {out : Option OStream}
    (hout : ∀ o, out = some o → P o.file) : DirAll P (Engine.putFile dir path out) := by
  cases out with
  | none => exact h
  | some o =>
      intro p file hp
      rw [Engine.putFile, SortedMap.find_insert] at hp
      by_cases hpath : p = path
      · rw [if_pos hpath] at hp
        obtain rfl := Option.some.inj hp
        exact hout o rfl
      · rw [if_neg hpath] at hp
        exact h p file hp

theorem DirAll.removeFiles (fails : Nat → Bool) (ps : List Bytes) :
    ∀ (i : Nat) {dir : SortedMap Bytes Bytes}, DirAll P dir →
      DirAll P (Engine.removeFiles fails i ps dir) := by
  induction ps with
  | nil => intro i dir h; exact h
  | cons q ps ih =>
      intro i dir h
      refine ih (i + 1) ?_
      by_cases hf : fails i = true
      · rw [if_pos hf]
        exact h
      · rw [if_neg hf]
        intro p file hp
        rw [SortedMap.find_erase] at hp
        by_cases hpq : p = q
        · rw [if_pos hpq] at hp; cases hp
        · rw [if_neg hpq] at hp
          exact h p file hp

end

section

variable {c : Cipher} {rs rs' : List WalRecord} {dir : SortedMap Bytes Bytes}

theorem TableFile.mono {file : Bytes} (h : TableFile c rs file)
    (hsub : ∀ r ∈ rs, r ∈ rs') : TableFile c rs' file := by
  intro io path rd hopen
  obtain ⟨hpath, t, htable, hreads, hlog⟩ := h io path rd hopen
  exact ⟨hpath, t, htable, hreads, fun x hx => (hlog x hx).mono hsub⟩

theorem TableDir.mono (h : TableDir c rs dir) (hsub : ∀ r ∈ rs, r ∈ rs') :
    TableDir c rs' dir := DirAll.imp h fun _ hfile => hfile.mono hsub

theorem tableFile_of_isTable (hc : c.Lawful) {file : Bytes} {t : Table Bytes Bytes}
    (h : IsTable c file t) (hlog : ∀ x ∈ t.entries, Logged rs x.1 x.2) :
    TableFile c rs file := by
  intro io path rd hopen
  obtain ⟨rd', hopen', hpath, hreads⟩ := h.opens hc path
  obtain rfl : rd' = rd := Except.ok.inj (hopen'.symm.trans (open_reliable hopen))
  exact ⟨hpath, t, h, hreads, hlog⟩

theorem tableFile_of_unfinished {calls : List WriteCall} (h : Unfinished calls) :
    TableFile c rs (effect calls) := by
  intro io path rd hopen
  obtain ⟨err, herr⟩ := open_unfinished h io path
  rw [herr] at hopen
  cases hopen

/-- **Whatever a build leaves** is a table file, if its records are
logged. -/
theorem tableFile_of_build (hc : c.Lawful) {capacity : Nat} {w : Wal}
    (hw : w.Counts capacity rs) (hcap : capacity < 2 ^ 57) {io : BuildIo c} {path : Bytes}
    {records : List SstableRecord} {res : Res SstableMeta} {out : OStream}
    (hlog : ∀ r ∈ records, Logged rs r.key r.version)
    (hbuild : SstableBuilder.build c io path records = (res, some out)) :
    TableFile c rs out.file := by
  rcases build_calls hbuild with ⟨hun, -⟩ | ⟨xs, bloom, hxs, hsealed, hbloom, hfin, -, -⟩
  · exact tableFile_of_unfinished hun
  · have hmerge := logged_merge hlog
    exact tableFile_of_isTable hc
      (isTable_of_finished hc hw hcap hmerge hxs hsealed hbloom hfin) hmerge

/-! ## Merges -/

/-- A merge collects logged records only, however many reads fail. -/
theorem logged_of_collect (h : TableDir c rs dir) {io : MergeIo c} (ps : List Bytes) :
    ∀ {i : Nat} {records : List SstableRecord},
      collectRecords c io dir i ps = .ok records →
      ∀ r ∈ records, Logged rs r.key r.version := by
  induction ps with
  | nil =>
      intro i records hcollect r hr
      obtain rfl := Except.ok.inj hcollect
      cases hr
  | cons p ps ih =>
      intro i records hcollect r hr
      obtain ⟨rd, rest, hopen, hrest, rfl⟩ := collectRecords_cons_ok hcollect
      rcases List.mem_append.mp hr with hr | hr
      · cases hfile : dir.find p with
        | none => rw [hfile] at hopen; cases hopen
        | some file =>
            rw [hfile] at hopen hr
            obtain ⟨-, t, -, hreads, hlog⟩ := h p file hfile _ _ _ hopen
            have hsub := (allFrom_sublist hreads.leads (OnlyHarmed.refl _ _ _)
              (io.reads i) 0).subset hr
            obtain ⟨x, hx, rfl⟩ := List.mem_map.mp hsub
            exact hlog x hx
      · exact ih hrest r hr

/-- So is what it writes. -/
theorem logged_of_output {records : List SstableRecord}
    (hlog : ∀ r ∈ records, Logged rs r.key r.version) :
    ∀ r ∈ outputRecords records, Logged rs r.key r.version := by
  intro r hr
  obtain ⟨x, hx, rfl⟩ := List.mem_map.mp (List.mem_filter.mp hr).1
  exact logged_merge hlog x hx

/-- The output file of a compaction is the file of a build. -/
theorem compact_builds {io : MergeIo c} {ps : List Bytes} {path : Bytes} {res : Res Nat}
    {out : OStream} (hcompact : compactLevel0ToLevel1 c io dir ps path = (res, some out)) :
    ∃ records res', collectRecords c io dir 0 ps = .ok records ∧
      SstableBuilder.build c io.build path (outputRecords records) = (res', some out) := by
  unfold compactLevel0ToLevel1 at hcompact
  by_cases hnil : ps = []
  · rw [if_pos hnil] at hcompact; cases hcompact
  rw [if_neg hnil] at hcompact
  cases hcollect : collectRecords c io dir 0 ps with
  | error err => rw [hcollect] at hcompact; cases hcompact
  | ok records =>
      rw [hcollect] at hcompact
      dsimp only at hcompact
      by_cases hempty : outputRecords records = []
      · rw [if_pos hempty] at hcompact; cases hcompact
      rw [if_neg hempty] at hcompact
      refine ⟨records, (SstableBuilder.build c io.build path (outputRecords records)).1, rfl,
        Prod.ext rfl ?_⟩
      rcases hb : SstableBuilder.build c io.build path (outputRecords records) with
        ⟨resb, outb⟩
      rw [hb] at hcompact
      cases resb with
      | error err => exact (Prod.mk.inj hcompact).2
      | ok m => exact (Prod.mk.inj hcompact).2

/-- **Whatever a compaction leaves** is a table file. -/
theorem tableFile_of_compact (hc : c.Lawful) {capacity : Nat} {w : Wal}
    (hw : w.Counts capacity rs) (hcap : capacity < 2 ^ 57) (h : TableDir c rs dir)
    {io : MergeIo c} {ps : List Bytes} {path : Bytes} {res : Res Nat} {out : OStream}
    (hcompact : compactLevel0ToLevel1 c io dir ps path = (res, some out)) :
    TableFile c rs out.file := by
  obtain ⟨records, res', hcollect, hbuild⟩ := compact_builds hcompact
  exact tableFile_of_build hc hw hcap (logged_of_output (logged_of_collect h ps hcollect)) hbuild

/-! ## Loading -/

/-- **Loading a directory**: what was opened stands on whole tables of
logged entries. -/
theorem openTables_tablesAt (h : TableDir c rs dir) (ios : Nat → ReadIo) (ps : List Bytes) :
    ∀ i, ∃ ts, List.Forall₂ (TableAt c dir) (Engine.openTables dir ios i ps).2 ts ∧
      ∀ t ∈ ts, ∀ x ∈ t.entries, Logged rs x.1 x.2 := by
  induction ps with
  | nil => intro i; exact ⟨[], List.Forall₂.nil, fun t ht => absurd ht List.not_mem_nil⟩
  | cons p ps ih =>
      intro i
      rw [Engine.openTables]
      cases hopen : SstableReader.open (ios i) p (dir.find p) with
      | error err =>
          exact ⟨[], List.Forall₂.nil, fun t ht => absurd ht List.not_mem_nil⟩
      | ok rd =>
          cases hfile : dir.find p with
          | none => rw [hfile] at hopen; cases hopen
          | some file =>
              rw [hfile] at hopen
              obtain ⟨rfl, t, htable, hreads, hlog⟩ := h p file hfile _ _ _ hopen
              obtain ⟨ts, hts, hall⟩ := ih (i + 1)
              refine ⟨t :: ts, List.Forall₂.cons ⟨file, hfile, htable, hreads⟩ hts, ?_⟩
              intro t' ht'
              rcases List.mem_cons.mp ht' with rfl | ht'
              · exact hlog
              · exact hall t' ht'

end

/-! ## The log

Only a write touches it. -/

/-- Flush and compaction leave the log alone. -/
theorem flushMemTable_wal (cfg : Config) (io : FlushIo cfg.cipher) (e : Engine) :
    (e.flushMemTable cfg io).2.wal = e.wal := by
  unfold Engine.flushMemTable
  split
  · rfl
  · have hbuild := (buildAndInstall_parts cfg io e).wal
    generalize e.buildAndInstall cfg io = r at hbuild ⊢
    obtain ⟨res, e₁⟩ := r
    cases res with
    | error err => exact hbuild
    | ok rd =>
        cases rd with
        | none => exact hbuild
        | some rd => exact ((maybeCompact_parts cfg io.compact e₁).wal).trans hbuild

theorem applySet_wal (cfg : Config) (io : FlushIo cfg.cipher) (key value : Bytes) (seq : Nat)
    (e : Engine) : (e.applySet cfg io key value seq).2.wal = e.wal := by
  unfold Engine.applySet
  rcases e.memtable.set key value seq with ⟨res, m⟩
  cases res with
  | error err => rfl
  | ok n =>
      dsimp only
      split
      · have hflush := flushMemTable_wal cfg io { e with memtable := m }
        generalize Engine.flushMemTable cfg io { e with memtable := m } = r at hflush ⊢
        obtain ⟨res, e₁⟩ := r
        cases res <;> exact hflush
      · rfl

end VaultKV
