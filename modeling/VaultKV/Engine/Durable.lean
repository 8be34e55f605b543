import VaultKV.Engine.TableFiles

/-!
# Engine — what a data directory keeps

`Engine.Kept cfg F e rs` holds of an engine in ANY state, open or not: the
segment holds the records `rs` and zeros behind them, the memtable holds
logged versions, and every table file satisfies `F rs`. A `FileRule` says
that flushes and compactions write such files; then each operation keeps
the invariant, adding at most the record it logged.

With `TableFile` for `F` the rule holds whatever fails (`Engine.Durable`).
-/

namespace VaultKV

open Lib

/-- The segment holds `rs` from its start, and zeros behind them. -/
structure LogOnDisk (c : Cipher) (capacity : Nat) (segment : Bytes)
    (rs : List WalRecord) : Prop where
  chain : Chain (walParse c capacity (Wal.resize segment capacity)) 0 rs
    (rs.map WalRecord.size).sum
  zeros : (Wal.resize segment capacity).drop (rs.map WalRecord.size).sum
    = List.replicate (capacity - (rs.map WalRecord.size).sum) 0
  seqs : rs.map WalRecord.seq = List.range' 1 rs.length
  fits : ∀ r ∈ rs, r.key.length < 2 ^ 16 ∧ r.value.length < 2 ^ 32
  writes : ∀ r ∈ rs, r.key ≠ [] ∧ (r.op = .kSet ∨ r.op = .kDelete)

theorem lastSeqOf_of_seqs {rs : List WalRecord}
    (h : rs.map WalRecord.seq = List.range' 1 rs.length) : lastSeqOf rs = rs.length := by
  rw [lastSeqOf, ← List.getLast?_map, h]
  cases rs with
  | nil => rfl
  | cons r rs =>
      rw [List.length_cons, List.range'_1_concat, List.getLast?_concat, Option.getD_some]
      omega

namespace LogOnDisk

variable {c : Cipher} {capacity : Nat} {segment : Bytes} {rs : List WalRecord}

/-- A new directory. -/
theorem nil (c : Cipher) (capacity : Nat) : LogOnDisk c capacity [] [] := by
  refine ⟨Chain.nil 0, ?_, rfl, ?_, ?_⟩
  · simp [Wal.resize]
  · intro r hr; cases hr
  · intro r hr; cases hr

theorem room (h : LogOnDisk c capacity segment rs) :
    (rs.map WalRecord.size).sum ≤ capacity :=
  h.chain.le_limit (walParse_progress c capacity _) (Nat.zero_le _)

/-- `Open` recovers exactly the records. -/
theorem recovered (h : LogOnDisk c capacity segment rs) :
    VaultKV.recovered c capacity (Wal.resize segment capacity)
      = (rs, (rs.map WalRecord.size).sum) :=
  recordsFrom_eq (walParse_progress c capacity _) h.chain (walParse_zeros h.zeros)

theorem counts (h : LogOnDisk c capacity segment rs) {w : Wal}
    (hseq : w.lastSeq = lastSeqOf rs) (hoff : w.writeOffset = (rs.map WalRecord.size).sum) :
    w.Counts capacity rs :=
  ⟨h.seqs, hseq.trans (lastSeqOf_of_seqs h.seqs), hoff, hoff ▸ h.room, h.fits⟩

/-- Some log counts the records, open or not. -/
theorem exists_counts (h : LogOnDisk c capacity segment rs) :
    ∃ w : Wal, w.Counts capacity rs :=
  ⟨{ lastSeq := lastSeqOf rs, writeOffset := (rs.map WalRecord.size).sum }, h.counts rfl rfl⟩

/-- Resizing again changes nothing. -/
theorem resize (h : LogOnDisk c capacity segment rs) :
    LogOnDisk c capacity (Wal.resize segment capacity) rs := by
  have hsame := resize_of_length (length_resize segment capacity)
  exact ⟨by rw [hsame]; exact h.chain, by rw [hsame]; exact h.zeros, h.seqs, h.fits,
    h.writes⟩

end LogOnDisk

/-- What holds of an engine and its directory at any time. -/
structure Engine.Kept (cfg : Config) (F : List WalRecord → Bytes → Prop) (e : Engine)
    (rs : List WalRecord) : Prop where
  disk : LogOnDisk cfg.cipher cfg.opts.walSegmentSizeBytes e.wal.segment rs
  wal : e.wal.isOpen = true → e.wal.Log cfg.cipher cfg.opts.walSegmentSizeBytes rs ∧
    e.wal.writeOffset = (rs.map WalRecord.size).sum
  mem : ∀ x ∈ e.memtable.table.entries, Logged rs x.1 x.2
  l0 : DirAll (F rs) e.l0Dir
  l1 : DirAll (F rs) e.l1Dir

/-- Flushes and compactions, whatever fails in them, write files of the kind
`F`. -/
structure FileRule (cfg : Config) (F : List WalRecord → Bytes → Prop) : Prop where
  lawful : cfg.cipher.Lawful
  bound : cfg.opts.walSegmentSizeBytes < 2 ^ 57
  mono : ∀ {rs rs' file}, F rs file → (∀ r ∈ rs, r ∈ rs') → F rs' file
  flush : ∀ {e rs io}, Engine.Kept cfg F e rs →
    ∀ o ∈ e.flushStream cfg io, F rs o.file
  compact : ∀ {e rs io}, Engine.Kept cfg F e rs →
    ∀ o ∈ (e.compactStream cfg io).2, F rs o.file

/-! ## The log -/

/-- The bytes an append put between the two offsets are a record the reader
takes: its checksum is not 0 and its ciphertext has at most 128 MiB. -/
def Wal.AppendReadable (w w' : Wal) : Prop :=
  w.writeOffset < w'.writeOffset →
    Readable (slice w'.segment w.writeOffset (w'.writeOffset - w.writeOffset))

instance (w w' : Wal) : Decidable (w.AppendReadable w') :=
  inferInstanceAs (Decidable (_ → _))

/-- An append of a readable record parses back. -/
theorem parse_back {c : Cipher} (hc : c.Lawful) {capacity ts : Nat} {rand : c.Rand}
    {op : WalOp} {key value : Bytes} {w w' : Wal} {seq : Nat}
    (hlen : w.segment.length = capacity) (hop : WalOp.ofByte op.toByte = op)
    (h : w.append c capacity ts rand op key value = (.ok seq, w'))
    (hread : w.AppendReadable w') :
    parseRecordAt c capacity w'.segment w.writeOffset
      = .ok (⟨op, seq, ts % 2 ^ 64, key, value⟩, w'.writeOffset) := by
  obtain ⟨-, hkey, hval, hseq, encoded, henc, hroom, rfl⟩ := append_eq_of_ok h
  have hsize : encoded.length = 59 + (key.length + value.length) :=
    length_serializeRecord hc henc
  have hback : Readable encoded := by
    have := hread (by show w.writeOffset < w.writeOffset + encoded.length; omega)
    dsimp only at this
    rwa [Nat.add_sub_cancel_left, slice_overwrite_self (by omega)] at this
  have hfits : WalRecord.Fits ⟨op, seq, ts % 2 ^ 64, key, value⟩ :=
    ⟨hop, by rw [hseq]; exact Nat.mod_lt _ (by decide), Nat.mod_lt _ (by decide), hkey, hval⟩
  have hbase : (overwrite w.segment w.writeOffset encoded).drop w.writeOffset
      = encoded ++ w.segment.drop (w.writeOffset + encoded.length) :=
    drop_overwrite_self (by omega)
  exact parseRecordAt_serialize hc hfits henc hback hbase hroom

/-- **Logging a write** adds its record to the directory. -/
theorem LogOnDisk.append {c : Cipher} (hc : c.Lawful) {capacity ts : Nat} {rand : c.Rand}
    {op : WalOp} {key value : Bytes} {w w' : Wal} {seq : Nat} {rs : List WalRecord}
    (hcap : capacity < 2 ^ 57) (h : LogOnDisk c capacity w.segment rs)
    (hlog : w.Log c capacity rs) (hoff : w.writeOffset = (rs.map WalRecord.size).sum)
    (hop : op = .kSet ∨ op = .kDelete) (hkey : key ≠ [])
    (happ : w.append c capacity ts rand op key value = (.ok seq, w'))
    (hread : w.AppendReadable w') :
    LogOnDisk c capacity w'.segment (rs ++ [⟨op, seq, ts % 2 ^ 64, key, value⟩]) ∧
      w'.Log c capacity (rs ++ [⟨op, seq, ts % 2 ^ 64, key, value⟩]) ∧
      w'.writeOffset = ((rs ++ [(⟨op, seq, ts % 2 ^ 64, key, value⟩ : WalRecord)]).map
        WalRecord.size).sum := by
  have hbyte : WalOp.ofByte op.toByte = op := by rcases hop with rfl | rfl <;> rfl
  obtain ⟨hlog', htail⟩ := hlog.append happ (parse_back hc hlog.length hbyte happ hread)
  obtain ⟨-, hcounts⟩ := (h.counts hlog.lastSeq hoff).append hc hcap happ
  have hoff' := hcounts.offset
  refine ⟨⟨?_, ?_, hcounts.seqs, hcounts.fits, ?_⟩, hlog', hoff'⟩
  · rw [resize_of_length hlog'.length, ← hoff']
    exact hlog'.chain
  · -- the copy ends inside the zeros of the old tail
    have hgrow : w.writeOffset ≤ w'.writeOffset := by
      rw [hoff', hoff, List.map_append, List.sum_append]
      omega
    rw [resize_of_length hlog'.length, ← hoff', htail]
    have hz := h.zeros
    rw [resize_of_length hlog.length, ← hoff] at hz
    have hdrop : w.segment.drop w'.writeOffset
        = (w.segment.drop w.writeOffset).drop (w'.writeOffset - w.writeOffset) := by
      rw [List.drop_drop, Nat.add_sub_cancel' hgrow]
    rw [hdrop, hz, List.drop_replicate]
    congr 1
    omega
  · intro r hr
    rcases List.mem_append.mp hr with hr | hr
    · exact h.writes r hr
    · rw [List.mem_singleton.mp hr]
      exact ⟨hkey, hop⟩

namespace Engine.Kept

variable {cfg : Config} {F : List WalRecord → Bytes → Prop}
  {e : Engine} {rs : List WalRecord}

/-! ## Flush and compaction -/

/-- The invariant speaks about the log, the memtable and the directories. -/
theorem of_parts {e' : Engine} (h : e.Kept cfg F rs) (hwal : e'.wal = e.wal)
    (hmem : ∀ x ∈ e'.memtable.table.entries, Logged rs x.1 x.2)
    (hl0 : DirAll (F rs) e'.l0Dir) (hl1 : DirAll (F rs) e'.l1Dir) : e'.Kept cfg F rs :=
  ⟨by rw [hwal]; exact h.disk, by rw [hwal]; exact h.wal, hmem, hl0, hl1⟩

/-- What a flush drains is logged. -/
theorem drained (h : e.Kept cfg F rs) :
    ∀ r ∈ (e.memtable.drainSorted true).1.map SstableRecord.ofEntry,
      Logged rs r.key r.version := by
  intro r hr
  obtain ⟨x, hx, rfl⟩ := List.mem_map.mp hr
  rw [MemTable.drainSorted, MemTable.snapshotSorted_true] at hx
  exact h.mem x hx

theorem buildAndInstall (hrule : FileRule cfg F) (h : e.Kept cfg F rs)
    (io : FlushIo cfg.cipher) :
    (e.buildAndInstall cfg io).2.Kept cfg F rs := by
  have hparts := buildAndInstall_parts cfg io e
  refine h.of_parts hparts.wal ?_ ?_ ?_
  · rw [hparts.memtable]
    exact fun x hx => absurd hx List.not_mem_nil
  · rcases hparts.l0Dir with heq | heq
    · rw [heq]
      exact h.l0
    · rw [heq]
      exact h.l0.putFile (hrule.flush h)
  · rw [hparts.l1Dir]
    exact h.l1

theorem maybeCompact (hrule : FileRule cfg F) (h : e.Kept cfg F rs)
    (io : CompactIo cfg.cipher) :
    (e.maybeCompact cfg io).2.Kept cfg F rs := by
  have hparts := maybeCompact_parts cfg io e
  refine h.of_parts hparts.wal (by rw [hparts.memtable]; exact h.mem) ?_ ?_
  · rcases hparts.l0Dir with heq | heq
    · rw [heq]
      exact h.l0
    · rw [heq]
      exact DirAll.removeFiles io.removeFails _ 0 h.l0
  · rcases hparts.l1Dir with heq | heq
    · rw [heq]
      exact h.l1
    · rw [heq]
      exact h.l1.putFile (hrule.compact h)

theorem flushMemTable (hrule : FileRule cfg F) (h : e.Kept cfg F rs)
    (io : FlushIo cfg.cipher) :
    (e.flushMemTable cfg io).2.Kept cfg F rs := by
  unfold Engine.flushMemTable
  by_cases hopen : e.isOpen = false
  · rw [if_pos hopen]
    exact h
  rw [if_neg hopen]
  have hbuild := h.buildAndInstall hrule io
  rcases hb : e.buildAndInstall cfg io with ⟨res, e'⟩
  rw [hb] at hbuild
  cases res with
  | error err => exact hbuild
  | ok p =>
      cases p with
      | none => exact hbuild
      | some p => exact hbuild.maybeCompact hrule io.compact

/-! ## Writes -/

/-- **A write that reached the log** added its record. -/
theorem logWrite (hrule : FileRule cfg F) (h : e.Kept cfg F rs)
    {io : WriteIo cfg.cipher} {op : WalOp} {key value : Bytes} {seq : Nat} {e' : Engine}
    (hop : op = .kSet ∨ op = .kDelete)
    (hlog : e.logWrite cfg io op key value = (.ok seq, e'))
    (hread : e.wal.AppendReadable e'.wal) :
    e'.Kept cfg F (rs ++ [⟨op, seq, io.ts % 2 ^ 64, key, value⟩]) ∧ key ≠ [] := by
  obtain ⟨-, hkey, w, happ, rfl⟩ := logWrite_ok hlog
  obtain ⟨hwlog, hoff⟩ := h.wal (append_eq_of_ok happ).1
  obtain ⟨hdisk, hwlog', hoff'⟩ :=
    h.disk.append hrule.lawful hrule.bound hwlog hoff hop hkey happ hread
  have hsub : ∀ r ∈ rs, r ∈ rs ++ [(⟨op, seq, io.ts % 2 ^ 64, key, value⟩ : WalRecord)] :=
    fun r hr => List.mem_append_left _ hr
  exact ⟨⟨hdisk, fun _ => ⟨hwlog', hoff'⟩, fun x hx => (h.mem x hx).mono hsub,
    h.l0.imp fun _ hf => hrule.mono hf hsub, h.l1.imp fun _ hf => hrule.mono hf hsub⟩, hkey⟩

/-- The memtable takes a logged version. -/
theorem put (h : e.Kept cfg F rs) {key : Bytes} {v : MemValue} (hlog : Logged rs key v) :
    Engine.Kept cfg F { e with memtable := e.memtable.put key v } rs := by
  refine h.of_parts rfl ?_ h.l0 h.l1
  intro x hx
  have hfind := SortedMap.find_eq_some_iff.mpr hx
  rw [MemTable.table_put, SortedMap.find_insert] at hfind
  by_cases hk : x.1 = key
  · rw [if_pos hk] at hfind
    rw [hk, ← Option.some.inj hfind]
    exact hlog
  · rw [if_neg hk] at hfind
    exact h.mem x (SortedMap.find_eq_some_iff.mp hfind)

theorem applySet (hrule : FileRule cfg F) (h : e.Kept cfg F rs)
    (io : FlushIo cfg.cipher) {key value : Bytes} {seq : Nat}
    (hkey : key ≠ []) (hlog : Logged rs key ⟨value, seq, false⟩) :
    (e.applySet cfg io key value seq).2.Kept cfg F rs := by
  rw [Engine.applySet, MemTable.set_of_ne_nil hkey]
  dsimp only
  have hput := h.put hlog
  by_cases hfull : (e.memtable.put key ⟨value, seq, false⟩).memoryBudget
      ≤ (e.memtable.put key ⟨value, seq, false⟩).approxMemory
  · rw [if_pos hfull]
    have hflush := hput.flushMemTable hrule io
    rcases hf : Engine.flushMemTable cfg io
      { e with memtable := e.memtable.put key ⟨value, seq, false⟩ } with ⟨res, e'⟩
    rw [hf] at hflush
    cases res with
    | error err => exact hflush
    | ok n => exact hflush
  · rw [if_neg hfull]
    exact hput

theorem applyDelete (h : e.Kept cfg F rs) {key : Bytes} {seq : Nat} (hkey : key ≠ [])
    (hlog : Logged rs key ⟨[], seq, true⟩) : (e.applyDelete key seq).2.Kept cfg F rs := by
  rw [Engine.applyDelete, MemTable.delete_of_ne_nil hkey]
  exact h.put hlog

end Engine.Kept

/-! ## Whatever fails -/

abbrev Engine.Durable (cfg : Config) (e : Engine) (rs : List WalRecord) : Prop :=
  Engine.Kept cfg (TableFile cfg.cipher) e rs

/-- **Files that do not open, or hold logged entries**: the rule that needs
no assumption about what fails. -/
theorem tableFile_rule {cfg : Config} (hc : cfg.cipher.Lawful)
    (hcap : cfg.opts.walSegmentSizeBytes < 2 ^ 57) :
    FileRule cfg (TableFile cfg.cipher) where
  lawful := hc
  bound := hcap
  mono := TableFile.mono
  flush := by
    intro e rs io h o ho
    obtain ⟨w, hw⟩ := h.disk.exists_counts
    exact tableFile_of_build hc hw hcap h.drained (Prod.ext rfl ho)
  compact := by
    intro e rs io h o ho
    obtain ⟨w, hw⟩ := h.disk.exists_counts
    exact tableFile_of_compact hc hw hcap h.l0 (Prod.ext rfl ho)

end VaultKV
