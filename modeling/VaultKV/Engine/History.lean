import VaultKV.Engine.Contents
import VaultKV.Wal.Recovery

/-!
# Engine — the log as the engine's history

Every version an engine ever holds was logged first. `Wal.Counts` is the
log's bookkeeping for the records appended so far: they are numbered from
1 on and their sizes add up to the write offset. `Logged rs` ties a version
to its record. Together they bound every table: a table's records are
DIFFERENT records of the log, so its file is at most about twice as long as
the log and its length fields never overflow.
-/

namespace VaultKV

open Lib

/-- The bytes a record takes in the log. -/
def WalRecord.size (r : WalRecord) : Nat := 59 + (r.key.length + r.value.length)

/-- The version a record stands for. -/
def WalRecord.version? (r : WalRecord) : Option MemValue :=
  match r.op with
  | .kSet => some ⟨r.value, r.seq, false⟩
  | .kDelete => some ⟨[], r.seq, true⟩
  | _ => none

/-- The version of the key is in the log. -/
def Logged (rs : List WalRecord) (k : Bytes) (v : MemValue) : Prop :=
  ∃ r ∈ rs, r.key = k ∧ r.version? = some v

/-- The records `rs` were appended, and nothing else. -/
structure Wal.Counts (capacity : Nat) (w : Wal) (rs : List WalRecord) : Prop where
  seqs : rs.map WalRecord.seq = List.range' 1 rs.length
  lastSeq : w.lastSeq = rs.length
  offset : w.writeOffset = (rs.map WalRecord.size).sum
  room : w.writeOffset ≤ capacity
  fits : ∀ r ∈ rs, r.key.length < 2 ^ 16 ∧ r.value.length < 2 ^ 32

theorem Logged.mono {rs rs' : List WalRecord} {k : Bytes} {v : MemValue}
    (h : Logged rs k v) (hsub : ∀ r ∈ rs, r ∈ rs') : Logged rs' k v := by
  obtain ⟨r, hr, hk, hv⟩ := h
  exact ⟨r, hsub r hr, hk, hv⟩

theorem WalRecord.version?_spec {r : WalRecord} {v : MemValue} (h : r.version? = some v) :
    v.seq = r.seq ∧ v.value.length ≤ r.value.length := by
  unfold WalRecord.version? at h
  cases hop : r.op with
  | kSet => simp only [hop, Option.some.injEq] at h; subst h; exact ⟨rfl, Nat.le_refl _⟩
  | kDelete => simp only [hop, Option.some.injEq] at h; subst h; exact ⟨rfl, Nat.zero_le _⟩
  | kCheckpointBegin => simp only [hop] at h; cases h
  | kCheckpointEnd => simp only [hop] at h; cases h
  | raw b => simp only [hop] at h; cases h

/-! ## Numbers -/

theorem length_mul_le_sum (rs : List WalRecord) :
    59 * rs.length ≤ (rs.map WalRecord.size).sum := by
  induction rs with
  | nil => exact Nat.le_refl _
  | cons r rs ih =>
      rw [List.length_cons, List.map_cons, List.sum_cons, WalRecord.size]
      omega

namespace Wal.Counts

variable {capacity : Nat} {w : Wal} {rs : List WalRecord}

theorem length_le (h : w.Counts capacity rs) : 59 * rs.length ≤ capacity := by
  have := length_mul_le_sum rs
  have hoff := h.offset
  have hroom := h.room
  omega

theorem seq_bounds (h : w.Counts capacity rs) {r : WalRecord} (hr : r ∈ rs) :
    1 ≤ r.seq ∧ r.seq ≤ rs.length := by
  have hmem : r.seq ∈ rs.map WalRecord.seq := List.mem_map.mpr ⟨r, hr, rfl⟩
  rw [h.seqs, List.mem_range'_1] at hmem
  omega

/-- A number belongs to one record. -/
theorem seq_inj (h : w.Counts capacity rs) {r r' : WalRecord} (hr : r ∈ rs) (hr' : r' ∈ rs)
    (heq : r.seq = r'.seq) : r = r' := by
  have hnodup : (rs.map WalRecord.seq).Nodup := by
    rw [h.seqs]; exact List.nodup_range'
  exact List.inj_on_of_nodup_map hnodup hr hr' heq

theorem logged_seq (h : w.Counts capacity rs) {k : Bytes} {v : MemValue}
    (hl : Logged rs k v) : v.seq ≤ rs.length := by
  obtain ⟨r, hr, -, hv⟩ := hl
  rw [(WalRecord.version?_spec hv).1]
  exact (h.seq_bounds hr).2

theorem logged_fits (h : w.Counts capacity rs) {k : Bytes} {v : MemValue}
    (hl : Logged rs k v) : k.length < 2 ^ 16 ∧ v.value.length < 2 ^ 32 := by
  obtain ⟨r, hr, rfl, hv⟩ := hl
  obtain ⟨hkey, hval⟩ := h.fits r hr
  exact ⟨hkey, lt_of_le_of_lt (WalRecord.version?_spec hv).2 hval⟩

/-- The log of a fresh segment. -/
theorem nil (hw : w.lastSeq = 0) (hoff : w.writeOffset = 0) : w.Counts capacity [] :=
  ⟨rfl, hw, hoff, by omega, fun _ hr => absurd hr List.not_mem_nil⟩

/-- **An append counts one record more.** -/
theorem append {c : Cipher} (hc : c.Lawful) {ts seq : Nat} {rand : c.Rand} {op : WalOp}
    {key value : Bytes} {w' : Wal} (h : w.Counts capacity rs) (hcap : capacity < 2 ^ 57)
    (happ : w.append c capacity ts rand op key value = (.ok seq, w')) :
    seq = rs.length + 1 ∧
      w'.Counts capacity (rs ++ [⟨op, seq, ts % 2 ^ 64, key, value⟩]) := by
  obtain ⟨-, hkey, hval, hseq, encoded, henc, hroom, rfl⟩ := append_eq_of_ok happ
  have hlen := h.length_le
  have hseq' : seq = rs.length + 1 := by
    rw [hseq, addU64, h.lastSeq, Nat.mod_eq_of_lt (by omega)]
  have hsize : encoded.length = 59 + (key.length + value.length) :=
    length_serializeRecord hc henc
  refine ⟨hseq', ?_, ?_, ?_, ?_, ?_⟩
  · rw [List.map_append, h.seqs, List.length_append, List.length_singleton,
      List.range'_1_concat]
    simp only [List.map_cons, List.map_nil, hseq', Nat.add_comm]
  · rw [List.length_append, List.length_singleton]
    exact hseq'
  · rw [List.map_append, List.sum_append, ← h.offset, List.map_singleton,
      List.sum_singleton, WalRecord.size, ← hsize]
  · exact hroom
  · intro r hr
    rcases List.mem_append.mp hr with hr | hr
    · exact h.fits r hr
    · rw [List.mem_singleton.mp hr]
      exact ⟨hkey, hval⟩

end Wal.Counts

/-! ## Sizes of tables -/

/-- What an entry would take in the log. -/
def entrySize (e : Bytes × MemValue) : Nat := 59 + (e.1.length + e.2.value.length)

/-- **A table is no larger than the log**: its entries are different
records of it. -/
theorem sum_entrySize_le {rs : List WalRecord} {t : Table Bytes Bytes}
    (hlog : ∀ e ∈ t.entries, Logged rs e.1 e.2) :
    (t.entries.map entrySize).sum ≤ (rs.map WalRecord.size).sum := by
  have : Nonempty WalRecord := ⟨⟨.kSet, 0, 0, [], []⟩⟩
  choose! f hf using hlog
  have hinj : ∀ e ∈ t.entries, ∀ e' ∈ t.entries, f e = f e' → e = e' := by
    intro e he e' he' heq
    have hkey : e.1 = e'.1 := by rw [← (hf e he).2.1, heq, (hf e' he').2.1]
    have hfind := SortedMap.find_eq_some_iff.mpr he
    have hfind' := SortedMap.find_eq_some_iff.mpr he'
    rw [hkey, hfind', Option.some.injEq] at hfind
    exact Prod.ext hkey hfind.symm
  have hnodup : t.entries.Nodup :=
    t.sorted.imp fun hlt heq => absurd hlt (by simp [heq])
  have hsub : (t.entries.map f).Subperm rs := by
    refine List.subperm_of_subset ((List.nodup_map_iff_inj_on hnodup).mpr ?_) ?_
    · exact fun e he e' he' => hinj e he e' he'
    · intro r hr
      obtain ⟨e, he, rfl⟩ := List.mem_map.mp hr
      exact (hf e he).1
  calc (t.entries.map entrySize).sum
      ≤ ((t.entries.map f).map WalRecord.size).sum := by
        rw [List.map_map]
        refine List.sum_le_sum fun e he => ?_
        obtain ⟨-, hkey, hv⟩ := hf e he
        have hlen := (WalRecord.version?_spec hv).2
        simp only [entrySize, Function.comp_apply, WalRecord.size, hkey]
        omega
    _ ≤ (rs.map WalRecord.size).sum := by
        obtain ⟨l, hperm, hl⟩ := hsub
        rw [← (hperm.map WalRecord.size).sum_eq]
        exact (hl.map WalRecord.size).sum_le_sum fun _ _ => Nat.zero_le _

/-! ## Building a table of logged records -/

/-- The whole file of logged records is a table. -/
theorem isTable_of_finished {c : Cipher} (hc : c.Lawful) {capacity : Nat} {w : Wal}
    {rs : List WalRecord} (hw : w.Counts capacity rs) (hcap : capacity < 2 ^ 57)
    {t : Table Bytes Bytes} (hlog : ∀ e ∈ t.entries, Logged rs e.1 e.2)
    {xs : List SealedRecord} {bloom : BloomFilter} {calls : List WriteCall}
    (hxs : xs.map Prod.fst = t.entries.map SstableRecord.ofEntry)
    (hsealed : SealedBy c xs) (hbloom : BloomFor xs bloom)
    (hfin : Finished xs bloom calls) : IsTable c (effect calls) t := by
  have hsum := sum_entrySize_le hlog
  have hoff := hw.offset
  have hroom := hw.room
  have hsizes : (xs.map fun x => 59 + (x.1.key.length + x.1.value.length))
      = t.entries.map entrySize := by
    have hmap : (xs.map Prod.fst).map (fun r => 59 + (r.key.length + r.value.length))
        = (t.entries.map SstableRecord.ofEntry).map
            (fun r => 59 + (r.key.length + r.value.length)) := by rw [hxs]
    rw [List.map_map, List.map_map] at hmap
    exact hmap
  have hlength : 59 * xs.length ≤ (t.entries.map entrySize).sum := by
    rw [← hsizes]
    exact length_le_sum xs
  have hfile := length_tableFile hc hsealed hbloom (by omega)
  refine ⟨xs, bloom, ⟨effect_finished hfin, hsealed, hbloom, ?_⟩, hxs, ?_⟩
  · rw [effect_finished hfin]
    rw [hsizes] at hfile
    omega
  · intro x hx
    have hmem : x.1 ∈ xs.map Prod.fst := List.mem_map.mpr ⟨x, hx, rfl⟩
    rw [hxs] at hmem
    obtain ⟨e, he, heq⟩ := List.mem_map.mp hmem
    have hseq := hw.logged_seq (hlog e he)
    have hlen := hw.length_le
    have hxseq : x.1.seq = e.2.seq := by rw [← heq]; rfl
    omega

/-- What a merge of logged records holds is logged. -/
theorem logged_merge {rs : List WalRecord} {records : List SstableRecord}
    (hlog : ∀ r ∈ records, Logged rs r.key r.version) :
    ∀ x ∈ (merge (records.map SstableRecord.entry)).entries, Logged rs x.1 x.2 := by
  intro x hx
  have hfind := SortedMap.find_eq_some_iff.mpr hx
  rw [find_merge] at hfind
  have hmem := mem_versionsOf.mp (newest_spec hfind).1
  obtain ⟨r, hr, heq⟩ := List.mem_map.mp hmem
  obtain ⟨hk, hv⟩ := Prod.mk.inj heq
  rw [← hk, ← hv]
  exact hlog r hr

/-- **Building a table of logged records** succeeds when nothing outside
the program fails. -/
theorem build_logged {c : Cipher} (hc : c.Lawful)
    (hcrypto : ∀ rand p, (c.encrypt rand p).isSome) {io : BuildIo c} (hio : io.Clean)
    {capacity : Nat} {w : Wal} {rs : List WalRecord} (hw : w.Counts capacity rs)
    (hcap : capacity < 2 ^ 57) {records : List SstableRecord} (hne : records ≠ [])
    (hlog : ∀ r ∈ records, Logged rs r.key r.version) (path : Bytes) :
    ∃ m out xs bloom, SstableBuilder.build c io path records = (.ok m, some out) ∧
      m.path = path ∧ Finished xs bloom out.calls ∧
      IsTable c out.file (merge (records.map SstableRecord.entry)) := by
  have hmerge := logged_merge hlog
  have hsum := sum_entrySize_le hmerge
  have hoff := hw.offset
  have hroom := hw.room
  have hsizes : ((latestRecords records).map fun r => 59 + (r.key.length + r.value.length))
      = (merge (records.map SstableRecord.entry)).entries.map entrySize := by
    rw [latestRecords, List.map_map]
    rfl
  obtain ⟨out, xs, bloom, hbuild, hxs, hsealed, hbloom, hfin⟩ :=
    build_ok hc hio hcrypto path records hne
      (by
        intro r hr
        obtain ⟨e, he, rfl⟩ := List.mem_map.mp hr
        exact hw.logged_fits (hmerge e he))
      (by rw [hsizes]; omega)
  exact ⟨_, out, xs, bloom, hbuild, rfl, hfin,
    isTable_of_finished hc hw hcap hmerge hxs hsealed hbloom hfin⟩

/-- Building a table from its entries. -/
theorem build_table {c : Cipher} (hc : c.Lawful)
    (hcrypto : ∀ rand p, (c.encrypt rand p).isSome) {io : BuildIo c} (hio : io.Clean)
    {capacity : Nat} {w : Wal} {rs : List WalRecord} (hw : w.Counts capacity rs)
    (hcap : capacity < 2 ^ 57) {t : Table Bytes Bytes} (hne : t.entries ≠ [])
    (hlog : ∀ e ∈ t.entries, Logged rs e.1 e.2) (path : Bytes) :
    ∃ m out, SstableBuilder.build c io path (t.entries.map SstableRecord.ofEntry)
        = (.ok m, some out) ∧ m.path = path ∧ IsTable c out.file t := by
  have hrecords : ∀ r ∈ t.entries.map SstableRecord.ofEntry, Logged rs r.key r.version := by
    intro r hr
    obtain ⟨e, he, rfl⟩ := List.mem_map.mp hr
    exact hlog e he
  obtain ⟨m, out, xs, bloom, hbuild, hpath, -, htable⟩ := build_logged hc hcrypto hio hw hcap
    (by simpa using hne) hrecords path
  rw [map_entry_ofEntry, merge_entries] at htable
  exact ⟨m, out, hbuild, hpath, htable⟩

end VaultKV
