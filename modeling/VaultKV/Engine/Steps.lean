import VaultKV.Engine.History

/-!
# Engine — operations that meet no failure

Flush and compaction as steps of the merge tree. `FlushMemTable` builds the
memtable into a file under a NEW name and installs it (`flush`);
`MaybeCompact` merges level 0 into a new file (`compact`) once there are
four tables, and fails with an I/O error when no record of level 0 is live,
because then no file is written and the one it opens does not exist.
-/

namespace VaultKV

open Lib

/-! ## Nothing outside fails -/

structure MergeIo.Clean {c : Cipher} (io : MergeIo c) : Prop where
  opens : ∀ i, io.opens i = {}
  reads : ∀ i j, io.reads i j = {}
  build : io.build.Clean

structure CompactIo.Clean {c : Cipher} (io : CompactIo c) : Prop where
  merge : io.merge.Clean
  install : io.install = {}
  removeFails : ∀ i, io.removeFails i = false

structure FlushIo.Clean {c : Cipher} (io : FlushIo c) : Prop where
  build : io.build.Clean
  install : io.install = {}
  compact : io.compact.Clean

/-- `Open` meets no I/O failure. -/
structure OpenIo.Clean (io : OpenIo) : Prop where
  createL0 : io.createL0 = none
  createL1 : io.createL1 = none
  wal : io.wal = {}
  listL0 : io.listL0Fails = false
  listL1 : io.listL1Fails = false
  readsL0 : ∀ i, io.readsL0 i = {}
  readsL1 : ∀ i, io.readsL1 i = {}

/-! ## Tables and directories -/

theorem TableAt.insert {c : Cipher} {dir : SortedMap Bytes Bytes} {rd : SstableReader}
    {t : Table Bytes Bytes} (h : TableAt c dir rd t) {p : Bytes} (hp : rd.path ≠ p)
    (f : Bytes) : TableAt c (dir.insert p f) rd t := by
  obtain ⟨file, hfile, htable, hreads⟩ := h
  exact ⟨file, by rw [SortedMap.find_insert, if_neg hp, hfile], htable, hreads⟩

theorem tablesAt_insert {c : Cipher} {dir : SortedMap Bytes Bytes}
    {rds : List SstableReader} {ts : List (Table Bytes Bytes)}
    (h : List.Forall₂ (TableAt c dir) rds ts) {p : Bytes}
    (hp : p ∉ rds.map SstableReader.path) (f : Bytes) :
    List.Forall₂ (TableAt c (dir.insert p f)) rds ts := by
  induction h with
  | nil => exact List.Forall₂.nil
  | cons hhead _ ih =>
      rw [List.map_cons, List.mem_cons, not_or] at hp
      exact List.Forall₂.cons (hhead.insert (Ne.symm hp.1) f) (ih hp.2)

/-- A whole file that was just put under a path. -/
theorem tableAt_new {c : Cipher} (hc : c.Lawful) (dir : SortedMap Bytes Bytes) {p f : Bytes}
    {t : Table Bytes Bytes} (h : IsTable c f t) :
    ∃ rd, SstableReader.open {} p ((dir.insert p f).find p) = .ok rd ∧ rd.path = p ∧
      TableAt c (dir.insert p f) rd t := by
  have hfind : (dir.insert p f).find p = some f := by
    rw [SortedMap.find_insert, if_pos rfl]
  obtain ⟨rd, hopen, hpath, hreads⟩ := h.opens hc p
  rw [hfind]
  refine ⟨rd, hopen, hpath, f, ?_, h, hreads⟩
  rw [hpath, hfind]

/-! ## Flush -/

/-- The memtable as a table file: its entries are logged. -/
theorem Lsm.Each.entries_mem {P : Bytes → MemValue → Prop} {s : Lsm Bytes Bytes}
    (h : s.Each P) : ∀ e ∈ s.mem.entries, P e.1 e.2 := by
  intro e he
  exact h.mem (SortedMap.find_eq_some_iff.mpr he)

/-- **A flush that meets no failure** writes the memtable into a new file
and installs its reader. -/
theorem buildAndInstall_clean {cfg : Config} (hc : cfg.cipher.Lawful)
    (hcrypto : ∀ rand p, (cfg.cipher.encrypt rand p).isSome)
    {io : FlushIo cfg.cipher} (hbuild : io.build.Clean) (hinstall : io.install = {})
    {e : Engine} {s : Lsm Bytes Bytes} {rs : List WalRecord} {capacity : Nat} {w : Wal}
    (hrep : e.Rep cfg s) (hw : w.Counts capacity rs) (hcap : capacity < 2 ^ 57)
    (hlog : s.Each (Logged rs)) (hne : s.mem.entries ≠ []) :
    ∃ rd f, rd.path = sstName io.nanos e.nextSstableId ∧ IsTable cfg.cipher f s.mem ∧
      TableAt cfg.cipher (e.l0Dir.insert (sstName io.nanos e.nextSstableId) f) rd s.mem ∧
      e.buildAndInstall cfg io = (.ok (some (sstName io.nanos e.nextSstableId)),
        { e with memtable := (e.memtable.drainSorted true).2
                 nextSstableId := e.nextSstableId + 1
                 l0Dir := e.l0Dir.insert (sstName io.nanos e.nextSstableId) f
                 l0Tables := e.l0Tables ++ [rd] }) := by
  obtain ⟨m, out, hb, hpath, htable⟩ := build_table hc hcrypto hbuild hw hcap hne
    (Lsm.Each.entries_mem hlog) (sstName io.nanos e.nextSstableId)
  obtain ⟨rd, hopen, hrd, hat⟩ := tableAt_new hc e.l0Dir
    (p := sstName io.nanos e.nextSstableId) htable
  have hdrained : (e.memtable.drainSorted true).1 = s.mem.entries := by
    rw [MemTable.drainSorted, MemTable.snapshotSorted_true, hrep.mem]
  refine ⟨rd, out.file, hrd, htable, hat, ?_⟩
  unfold Engine.buildAndInstall
  simp only [hdrained, if_neg hne, hb, Engine.putFile, hpath, hinstall, hopen]

/-- A flush with nothing to write. -/
theorem buildAndInstall_empty {cfg : Config} {e : Engine} {s : Lsm Bytes Bytes}
    (hrep : e.Rep cfg s) (hmem : s.mem.entries = []) (io : FlushIo cfg.cipher) :
    e.buildAndInstall cfg io
      = (.ok none, { e with memtable := (e.memtable.drainSorted true).2 }) := by
  have hdrained : (e.memtable.drainSorted true).1 = [] := by
    rw [MemTable.drainSorted, MemTable.snapshotSorted_true, hrep.mem, hmem]
  unfold Engine.buildAndInstall
  simp only [hdrained, if_true]

/-- The tree behind the flushed engine. -/
theorem Engine.Rep.flush {cfg : Config} {e : Engine} {s : Lsm Bytes Bytes} {path f : Bytes}
    {rd : SstableReader} (h : e.Rep cfg s)
    (hat : TableAt cfg.cipher (e.l0Dir.insert path f) rd s.mem)
    (hfresh : path ∉ e.l0Tables.map SstableReader.path) {m : MemTable}
    (hm : m.table = SortedMap.empty) (n : Nat) :
    Engine.Rep cfg
      { e with memtable := m
               nextSstableId := n
               l0Dir := e.l0Dir.insert path f
               l0Tables := e.l0Tables ++ [rd] } s.flush :=
  ⟨hm, List.rel_append (tablesAt_insert h.l0 hfresh f)
    (List.Forall₂.cons hat List.Forall₂.nil), h.l1⟩

/-! ## Compaction -/

/-- The records of the input tables, oldest table first. -/
theorem collectRecords_clean {c : Cipher} (hc : c.Lawful) {io : MergeIo c} (hio : io.Clean)
    {dir : SortedMap Bytes Bytes} {rds : List SstableReader}
    {ts : List (Table Bytes Bytes)} (h : List.Forall₂ (TableAt c dir) rds ts) :
    ∀ i, collectRecords c io dir i (rds.map SstableReader.path)
      = .ok ((ts.flatMap SortedMap.entries).map SstableRecord.ofEntry) := by
  induction h with
  | nil => intro i; rfl
  | @cons rd t rds ts hhead _ ih =>
      intro i
      obtain ⟨file, hfile, htable, -⟩ := hhead
      obtain ⟨rd', hopen, -, hreads⟩ := htable.opens hc rd.path
      have hios : io.reads i = fun _ => {} := funext (hio.reads i)
      rw [List.map_cons, collectRecords, hio.opens, hfile, hopen]
      dsimp only
      rw [ih, hios, hreads.allRecords]
      simp

/-- The output of a merge is level 0 without tombstones. -/
theorem outputRecords_merged (s : Lsm Bytes Bytes) :
    outputRecords ((s.l0.flatMap SortedMap.entries).map SstableRecord.ofEntry)
      = (Lsm.live s.merged).entries.map SstableRecord.ofEntry := by
  rw [outputRecords_eq_live, map_entry_ofEntry]
  rfl

/-- Whether a compaction has something to write. -/
def Lsm.Compactable (s : Lsm Bytes Bytes) : Prop :=
  4 ≤ s.l0.length ∧ (Lsm.live s.merged).entries ≠ []

instance (s : Lsm Bytes Bytes) : Decidable (Lsm.Compactable s) :=
  inferInstanceAs (Decidable (_ ∧ _))

theorem Engine.Rep.length_l0 {cfg : Config} {e : Engine} {s : Lsm Bytes Bytes}
    (h : e.Rep cfg s) : e.l0Tables.length = s.l0.length := h.l0.length_eq

theorem mem_keys_removeFiles (fails : Nat → Bool) (ps : List Bytes) :
    ∀ i (dir : SortedMap Bytes Bytes), ∀ p ∈ (Engine.removeFiles fails i ps dir).keys,
      p ∈ dir.keys := by
  induction ps with
  | nil => intro i dir p hp; exact hp
  | cons q ps ih =>
      intro i dir p hp
      have hp' := ih (i + 1) _ p hp
      by_cases hf : fails i = true
      · rwa [if_pos hf] at hp'
      · rw [if_neg hf, ← SortedMap.find_isSome_iff, SortedMap.find_erase] at hp'
        by_cases hpq : p = q
        · rw [if_pos hpq] at hp'; cases hp'
        · rw [if_neg hpq, SortedMap.find_isSome_iff] at hp'
          exact hp'

/-- **A merge that has something to write** writes level 0 without its
tombstones. -/
theorem compactLevel0ToLevel1_clean {c : Cipher} (hc : c.Lawful)
    (hcrypto : ∀ rand p, (c.encrypt rand p).isSome) {io : MergeIo c} (hio : io.Clean)
    {dir : SortedMap Bytes Bytes} {rds : List SstableReader} {s : Lsm Bytes Bytes}
    (hat : List.Forall₂ (TableAt c dir) rds s.l0) {rs : List WalRecord} {capacity : Nat}
    {w : Wal} (hw : w.Counts capacity rs) (hcap : capacity < 2 ^ 57)
    (hlog : ∀ x ∈ s.merged.entries, Logged rs x.1 x.2) (hcompact : Lsm.Compactable s)
    (path : Bytes) :
    ∃ out, compactLevel0ToLevel1 c io dir (rds.map SstableReader.path) path
        = (.ok 0, some out) ∧ IsTable c out.file (Lsm.live s.merged) := by
  obtain ⟨hfour, hne⟩ := hcompact
  have hlive : ∀ x ∈ (Lsm.live s.merged).entries, Logged rs x.1 x.2 :=
    fun x hx => hlog x (List.mem_filter.mp hx).1
  obtain ⟨m, out, hb, -, htable⟩ := build_table hc hcrypto hio.build hw hcap hne hlive path
  have hnil : rds.map SstableReader.path ≠ [] := by
    intro h
    have := hat.length_eq
    rw [List.map_eq_nil_iff.mp h, List.length_nil] at this
    omega
  refine ⟨out, ?_, htable⟩
  unfold compactLevel0ToLevel1
  rw [if_neg hnil, collectRecords_clean hc hio hat]
  dsimp only
  rw [outputRecords_merged, if_neg (by simpa using hne), hb]

/-- A merge without a live record writes no file. -/
theorem compactLevel0ToLevel1_dead {c : Cipher} (hc : c.Lawful) {io : MergeIo c}
    (hio : io.Clean) {dir : SortedMap Bytes Bytes} {rds : List SstableReader}
    {s : Lsm Bytes Bytes} (hat : List.Forall₂ (TableAt c dir) rds s.l0)
    (hfour : 4 ≤ s.l0.length) (hnone : (Lsm.live s.merged).entries = []) (path : Bytes) :
    compactLevel0ToLevel1 c io dir (rds.map SstableReader.path) path = (.ok 0, none) := by
  have hnil : rds.map SstableReader.path ≠ [] := by
    intro h
    have := hat.length_eq
    rw [List.map_eq_nil_iff.mp h, List.length_nil] at this
    omega
  unfold compactLevel0ToLevel1
  rw [if_neg hnil, collectRecords_clean hc hio hat]
  dsimp only
  rw [outputRecords_merged, if_pos (by rw [hnone]; rfl)]

/-- **A compaction that has something to write** puts it into a new file of
level 1 and removes the files of level 0. -/
theorem maybeCompact_clean {cfg : Config} (hc : cfg.cipher.Lawful)
    (hcrypto : ∀ rand p, (cfg.cipher.encrypt rand p).isSome)
    {io : CompactIo cfg.cipher} (hio : io.Clean)
    {e : Engine} {s : Lsm Bytes Bytes} {rs : List WalRecord} {capacity : Nat} {w : Wal}
    (hrep : e.Rep cfg s) (hw : w.Counts capacity rs) (hcap : capacity < 2 ^ 57)
    (hlog : s.Each (Logged rs)) (hcompact : Lsm.Compactable s) :
    ∃ rd f, rd.path = sstName io.nanos e.nextSstableId ∧
      IsTable cfg.cipher f (Lsm.live s.merged) ∧
      TableAt cfg.cipher (e.l1Dir.insert (sstName io.nanos e.nextSstableId) f) rd
        (Lsm.live s.merged) ∧
      e.maybeCompact cfg io = (.ok 0,
        { e with nextSstableId := e.nextSstableId + 1
                 l1Dir := e.l1Dir.insert (sstName io.nanos e.nextSstableId) f
                 l1Tables := e.l1Tables ++ [rd]
                 l0Tables := []
                 l0Dir := Engine.removeFiles io.removeFails 0
                   (e.l0Tables.map SstableReader.path) e.l0Dir }) := by
  obtain ⟨out, hmerge, htable⟩ := compactLevel0ToLevel1_clean hc hcrypto hio.merge hrep.l0 hw
    hcap (fun x hx => hlog.merged (SortedMap.find_eq_some_iff.mpr hx)) hcompact
    (sstName io.nanos e.nextSstableId)
  obtain ⟨rd, hopen, hrd, hat⟩ := tableAt_new hc e.l1Dir
    (p := sstName io.nanos e.nextSstableId) htable
  refine ⟨rd, out.file, hrd, htable, hat, ?_⟩
  unfold Engine.maybeCompact
  rw [if_neg (by rw [hrep.length_l0]; exact Nat.not_lt.mpr hcompact.1)]
  simp only [hmerge, Engine.putFile, hio.install, hopen]

/-- The tree behind the compacted engine. -/
theorem Engine.Rep.compact {cfg : Config} {e : Engine} {s : Lsm Bytes Bytes}
    {path f : Bytes} {rd : SstableReader} (h : e.Rep cfg s)
    (hat : TableAt cfg.cipher (e.l1Dir.insert path f) rd (Lsm.live s.merged))
    (hfresh : path ∉ e.l1Tables.map SstableReader.path) (n : Nat)
    (dir : SortedMap Bytes Bytes) :
    Engine.Rep cfg
      { e with nextSstableId := n
               l1Dir := e.l1Dir.insert path f
               l1Tables := e.l1Tables ++ [rd]
               l0Tables := []
               l0Dir := dir } s.compact :=
  ⟨h.mem, List.Forall₂.nil, List.rel_append (tablesAt_insert h.l1 hfresh f)
    (List.Forall₂.cons hat List.Forall₂.nil)⟩

/-- Fewer than four tables: nothing to do. -/
theorem maybeCompact_few {cfg : Config} {e : Engine} (io : CompactIo cfg.cipher)
    (hfew : e.l0Tables.length < 4) : e.maybeCompact cfg io = (.ok 0, e) := by
  unfold Engine.maybeCompact
  rw [if_pos hfew]

/-- **A compaction without a live record** writes no file, and then fails to
open it. -/
theorem maybeCompact_dead {cfg : Config} (hc : cfg.cipher.Lawful)
    {io : CompactIo cfg.cipher} (hio : io.Clean) {e : Engine} {s : Lsm Bytes Bytes}
    (hrep : e.Rep cfg s) (hfour : 4 ≤ s.l0.length)
    (hnone : (Lsm.live s.merged).entries = [])
    (hfresh : sstName io.nanos e.nextSstableId ∉ e.l1Dir.keys) :
    e.maybeCompact cfg io = (.error (Status.ioError "failed opening sstable for read"),
      { e with nextSstableId := e.nextSstableId + 1 }) := by
  have hlen := hrep.length_l0
  have hmerge := compactLevel0ToLevel1_dead hc hio.merge hrep.l0 hfour hnone
    (sstName io.nanos e.nextSstableId)
  have hfind : e.l1Dir.find (sstName io.nanos e.nextSstableId) = none :=
    SortedMap.find_eq_none_iff.mpr hfresh
  unfold Engine.maybeCompact
  rw [if_neg (by omega)]
  simp only [hmerge, Engine.putFile, hfind]
  rfl

end VaultKV
