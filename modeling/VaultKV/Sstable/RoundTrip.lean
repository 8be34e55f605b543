import VaultKV.Sstable.Layout

/-!
# Sstable — reading back what was built

`Stored c file t` says that `file` is the whole file of the table `t`.
Such a file opens, whatever its records are (`Laid`), and the reader answers `Get`, `ScanPrefix` and
`AllRecords` as the table itself does. A file whose build was cut short
never opens: its header has no offsets, so the index is looked for at
offset 0, where the magic stands.
-/

namespace VaultKV

open Lib

/-! ## Streams over known bytes -/

theorem readRaw_append {size value : Nat} (h : value < 256 ^ size) (file rest : Bytes) :
    readRaw size ⟨file, appendLe size value ++ rest, none, false⟩
      = some (value, ⟨file, rest, none, false⟩) := by
  rw [readRaw, IStream.read_append (length_appendLe size value)]
  dsimp only
  rw [appendLe, leNat_leBytes h]

theorem readRaw_at {file : Bytes} {i n : Nat} (hn : 0 < n) :
    readRaw n ⟨file, file.drop i, none, false⟩
      = if file.length < i + n then none
        else some (readLe n (file.drop i), ⟨file, file.drop (i + n), none, false⟩) := by
  rw [readRaw, IStream.read_at (.inr hn)]
  by_cases h : file.length < i + n
  · rw [if_pos h, if_pos h]
  · rw [if_neg h, if_neg h]
    rfl

/-- An index entry of the file as `Open` keeps it. -/
def IndexEntry.ofPair (e : Bytes × Nat) : IndexEntry := ⟨e.1, e.2⟩

theorem readIndex_append (file rest : Bytes) (index : List (Bytes × Nat))
    (h : ∀ e ∈ index, e.1.length < 2 ^ 16 ∧ e.2 < 2 ^ 64) :
    readIndex index.length
        ⟨file, (index.flatMap indexEntryChunks).flatten ++ rest, none, false⟩
      = .ok (index.map IndexEntry.ofPair, ⟨file, rest, none, false⟩) := by
  induction index with
  | nil => rfl
  | cons e index ih =>
      obtain ⟨hkey, hoff⟩ := h e List.mem_cons_self
      have hflat : ((e :: index).flatMap indexEntryChunks).flatten ++ rest
          = appendLe 2 e.1.length ++ (e.1 ++ (appendLe 8 e.2 ++
              ((index.flatMap indexEntryChunks).flatten ++ rest))) := by
        simp [indexEntryChunks]
      rw [hflat, List.length_cons, readIndex, readRaw_append (by simpa using hkey)]
      dsimp only
      rw [IStream.read_append rfl]
      dsimp only
      rw [readRaw_append (by simpa using hoff)]
      dsimp only
      rw [ih fun e' he' => h e' (List.mem_cons_of_mem _ he')]
      rfl

theorem readBloom_append (file rest : Bytes) {f : BloomFilter} (hbits : f.bitCount < 2 ^ 64)
    (hhash : f.hashCount < 2 ^ 32) (hlen : f.bits.length < 2 ^ 63) :
    readBloom ⟨file, (bloomChunks f).flatten ++ rest, none, false⟩ = .ok f := by
  have hflat : (bloomChunks f).flatten ++ rest
      = appendLe 8 f.bitCount ++ (appendLe 4 f.hashCount ++
          (appendLe 8 f.bits.length ++ (f.bits ++ rest))) := by
    simp [bloomChunks]
  rw [hflat, readBloom, readRaw_append (by simpa using hbits)]
  dsimp only
  rw [readRaw_append (by simpa using hhash)]
  dsimp only
  rw [readRaw_append (by omega)]
  dsimp only
  rw [if_neg (by omega), IStream.read_append rfl]

/-! ## Records -/

/-- A record under the cursor is read back. -/
theorem readRecordAt_chunks {c : Cipher} (hc : c.Lawful) {file : Bytes} {off : Nat}
    {x : SealedRecord} {rest : Bytes} {rand : c.Rand} (hoff : off < 2 ^ 63)
    (hdrop : file.drop off = (recordChunks x.1 x.2).flatten ++ rest)
    (hkey : x.1.key.length < 2 ^ 16) (hval : x.1.value.length < 2 ^ 32)
    (hseq : x.1.seq < 2 ^ 64) (henc : c.encrypt rand x.1.value = some x.2) :
    readRecordAt c {} (some file) off = .ok x.1 := by
  obtain ⟨r, blob⟩ := x
  dsimp only at hdrop hkey hval hseq henc ⊢
  have hlen := hc.length_encrypt rand _ _ henc
  have hflat : (recordChunks r blob).flatten ++ rest
      = appendLe 2 r.key.length ++ (appendLe 4 r.value.length ++ (appendLe 8 r.seq ++
          (appendLe 1 (if r.tombstone then 1 else 0) ++ (appendLe 4 blob.ciphertext.length ++
            (blob.nonce.bytes ++ (blob.tag.bytes ++ (r.key ++
              (blob.ciphertext ++ rest)))))))) := by
    cases hT : r.tombstone <;> simp [recordChunks, appendLe, leBytes, hT]
  have hseek : (IStream.ofFile file none).seekg off = ⟨file, file.drop off, none, false⟩ := by
    rw [IStream.seekg, if_neg (by omega)]
    rfl
  have hheader : readRecordHeader ⟨file, file.drop off, none, false⟩
      = some ((r.key.length, r.value.length, r.seq, if r.tombstone then 1 else 0,
          blob.ciphertext.length),
        ⟨file, blob.nonce.bytes ++ (blob.tag.bytes ++ (r.key ++
          (blob.ciphertext ++ rest))), none, false⟩) := by
    rw [hdrop, hflat, readRecordHeader, readRaw_append (by simpa using hkey)]
    dsimp only
    rw [readRaw_append (by simpa using hval)]
    dsimp only
    rw [readRaw_append (by simpa using hseq)]
    dsimp only
    rw [readRaw_append (by split <;> decide)]
    dsimp only
    rw [readRaw_append (by rw [hlen]; simpa using hval)]
  rw [readRecordAt]
  dsimp only
  rw [if_neg (by simp), hseek, hheader]
  dsimp only
  rw [IStream.read_append blob.nonce.length_eq]
  dsimp only
  rw [IStream.read_append blob.tag.length_eq]
  dsimp only
  rw [IStream.read_append rfl]
  dsimp only
  rw [IStream.read_append rfl]
  dsimp only
  rw [ByteArr.ofBytes_eq, ByteArr.ofBytes_eq, hc.decrypt_encrypt rand _ blob henc]
  dsimp only
  rw [if_neg (by simp)]
  cases hT : r.tombstone <;> simp [← hT]

/-- Index entry `e` leads to record `x`. -/
structure LeadsTo (c : Cipher) (file : Bytes) (e : IndexEntry) (x : SstableRecord) :
    Prop where
  key : e.key = x.key
  read : readRecordAt c {} (some file) e.offset = .ok x

/-- Every index entry leads to its record. -/
theorem layout_leadsTo {c : Cipher} (hc : c.Lawful) {file rest : Bytes}
    (hsize : file.length < 2 ^ 63) (xs : List SealedRecord) :
    ∀ off, file.drop off = (bodyChunks xs).flatten ++ rest → off ≤ file.length →
      SealedBy c xs → (∀ x ∈ xs, x.1.seq < 2 ^ 64) →
      List.Forall₂ (LeadsTo c file) ((layout off xs).map IndexEntry.ofPair)
        (xs.map Prod.fst) := by
  induction xs with
  | nil => intro off _ _ _ _; exact List.Forall₂.nil
  | cons x xs ih =>
      intro off hdrop hoff hsealed hseq
      obtain ⟨hkey, hval, rand, henc⟩ := hsealed x List.mem_cons_self
      have hsplit : file.drop off
          = (recordChunks x.1 x.2).flatten ++ ((bodyChunks xs).flatten ++ rest) := by
        rw [hdrop]; simp [bodyChunks]
      have hlen := congrArg List.length hsplit
      rw [List.length_drop, List.length_append] at hlen
      have hread : readRecordAt c {} (some file) off = .ok x.1 :=
        readRecordAt_chunks hc (by omega) hsplit hkey hval (hseq x List.mem_cons_self) henc
      refine List.Forall₂.cons ⟨rfl, hread⟩ ?_
      · exact ih _ (drop_step hsplit rfl) (by omega)
          (fun y hy => hsealed y (List.mem_cons_of_mem _ hy))
          (fun y hy => hseq y (List.mem_cons_of_mem _ hy))

/-! ## Whole files -/

/-- `file` is the whole file of the sealed records. -/
structure Laid (c : Cipher) (file : Bytes) (xs : List SealedRecord) (bloom : BloomFilter) :
    Prop where
  file_eq : file = tableFile xs bloom
  sealed : SealedBy c xs
  bloomFor : BloomFor xs bloom
  size : file.length < 2 ^ 63

/-- `file` is the whole file of the table `t`. -/
structure Stored (c : Cipher) (file : Bytes) (t : Table Bytes Bytes)
    (xs : List SealedRecord) (bloom : BloomFilter) : Prop extends Laid c file xs bloom where
  records : xs.map Prod.fst = t.entries.map SstableRecord.ofEntry
  seq : ∀ x ∈ xs, x.1.seq < 2 ^ 64

def IsTable (c : Cipher) (file : Bytes) (t : Table Bytes Bytes) : Prop :=
  ∃ xs bloom, Stored c file t xs bloom

/-- The reader of such a file. -/
def readerOf (path : Bytes) (xs : List SealedRecord) (bloom : BloomFilter) :
    SstableReader :=
  { path := path, isOpen := true, keyCount := xs.length, indexOffset := indexOffset xs,
    bloomOffset := bloomOffset xs, index := (layout 48 xs).map IndexEntry.ofPair,
    bloom := bloom }

theorem length_body_ge (xs : List SealedRecord) :
    47 * xs.length ≤ (bodyChunks xs).flatten.length := by
  induction xs with
  | nil => simp [bodyChunks]
  | cons x xs ih =>
      have hflat : (bodyChunks (x :: xs)).flatten
          = (recordChunks x.1 x.2).flatten ++ (bodyChunks xs).flatten := by
        simp [bodyChunks]
      rw [hflat, List.length_append, length_recordChunks, List.length_cons]
      omega

theorem layout_lt (xs : List SealedRecord) :
    ∀ off, ∀ e ∈ layout off xs, e.2 ≤ off + (bodyChunks xs).flatten.length := by
  induction xs with
  | nil => intro off e he; cases he
  | cons x xs ih =>
      intro off e he
      have hflat : (bodyChunks (x :: xs)).flatten.length
          = (recordChunks x.1 x.2).flatten.length + (bodyChunks xs).flatten.length := by
        simp [bodyChunks]
      rw [hflat]
      rcases List.mem_cons.mp he with rfl | he
      · exact Nat.le_add_right _ _
      · have := ih _ e he
        omega

theorem header_ofBytes {h : Header} (hv : h.version < 2 ^ 16) (hf : h.flags < 2 ^ 16)
    (hk : h.keyCount < 2 ^ 64) (hi : h.indexOffset < 2 ^ 64) (hb : h.bloomOffset < 2 ^ 64)
    (ho : h.footerOffset < 2 ^ 64) :
    h.bytes.take 8 = kSstMagic ∧ Header.ofBytes h.bytes = h := by
  have h8 : h.bytes.drop 8 = appendLe 2 h.version ++ (appendLe 2 h.flags ++
      (appendLe 4 0 ++ (appendLe 8 h.keyCount ++ (appendLe 8 h.indexOffset ++
        (appendLe 8 h.bloomOffset ++ appendLe 8 h.footerOffset))))) := rfl
  have h10 := drop_step h8 (length_appendLe 2 _)
  have h12 := drop_step h10 (length_appendLe 2 _)
  have h16 := drop_step h12 (length_appendLe 4 _)
  have h24 := drop_step h16 (length_appendLe 8 _)
  have h32 := drop_step h24 (length_appendLe 8 _)
  have h40 : h.bytes.drop 40 = appendLe 8 h.footerOffset ++ [] := by
    rw [List.append_nil]
    exact drop_step h32 (length_appendLe 8 _)
  refine ⟨rfl, ?_⟩
  rw [Header.ofBytes, readLe_step h8 (by simpa using hv), readLe_step h10 (by simpa using hf),
    readLe_step h16 (by simpa using hk), readLe_step h24 (by simpa using hi),
    readLe_step h32 (by simpa using hb), readLe_step h40 (by simpa using ho)]

namespace Laid

variable {c : Cipher} {file : Bytes} {xs : List SealedRecord} {bloom : BloomFilter}

theorem length_records (h : Laid c file xs bloom) : 47 * xs.length < 2 ^ 63 := by
  have hlen := length_body_ge xs
  have hsize := h.size
  rw [h.file_eq, tableFile, List.length_append, tailChunks, List.flatten_append,
    List.length_append] at hsize
  omega

/-- The header and the blocks behind it lie inside the file. -/
theorem offsets_lt (h : Laid c file xs bloom) :
    indexOffset xs < 2 ^ 63 ∧ bloomOffset xs < 2 ^ 63 ∧ footerOffset xs bloom < 2 ^ 63 := by
  have hsize := h.size
  rw [h.file_eq, tableFile, List.length_append, length_header, tailChunks] at hsize
  simp only [List.flatten_append, List.length_append] at hsize
  simp only [footerOffset, bloomOffset, indexOffset]
  omega

theorem drop_header (h : Laid c file xs bloom) :
    file.drop 48 = (bodyChunks xs).flatten ++ ((indexChunks (layout 48 xs)).flatten ++
      ((bloomChunks bloom).flatten ++ footerBytes (indexOffset xs) (bloomOffset xs))) := by
  rw [h.file_eq, tableFile, List.drop_append_of_le_length (by rw [length_header]),
    List.drop_of_length_le (by rw [length_header]), tailChunks]
  simp

theorem drop_index (h : Laid c file xs bloom) :
    file.drop (indexOffset xs) = (indexChunks (layout 48 xs)).flatten ++
      ((bloomChunks bloom).flatten ++ footerBytes (indexOffset xs) (bloomOffset xs)) :=
  drop_step h.drop_header rfl

theorem drop_bloom (h : Laid c file xs bloom) :
    file.drop (bloomOffset xs)
      = (bloomChunks bloom).flatten ++ footerBytes (indexOffset xs) (bloomOffset xs) :=
  drop_step h.drop_index rfl

theorem index_fits (h : Laid c file xs bloom) :
    ∀ e ∈ layout 48 xs, e.1.length < 2 ^ 16 ∧ e.2 < 2 ^ 64 := by
  intro e he
  have hoff := layout_lt xs 48 e he
  have hlt := h.offsets_lt.1
  rw [indexOffset] at hlt
  refine ⟨?_, by omega⟩
  have hmem : e.1 ∈ (layout 48 xs).map Prod.fst := List.mem_map.mpr ⟨e, he, rfl⟩
  rw [map_fst_layout] at hmem
  obtain ⟨x, hx, hkey⟩ := List.mem_map.mp hmem
  exact hkey ▸ (h.sealed x hx).1

/-- Another file with this one's header. -/
theorem read_header (h : Laid c file xs bloom) {file' : Bytes}
    (hfront : file'.take 48 = file.take 48) :
    (IStream.ofFile file' none).read 48
      = some ((finalHeader xs bloom).bytes, ⟨file', file'.drop 48, none, false⟩) := by
  have hheader : file'.take 48 = (finalHeader xs bloom).bytes := by
    rw [hfront, h.file_eq, tableFile, List.take_left' (length_header _)]
  have hread : (⟨file', (finalHeader xs bloom).bytes ++ file'.drop 48, none, false⟩
      : IStream).read 48
      = some ((finalHeader xs bloom).bytes, ⟨file', file'.drop 48, none, false⟩) :=
    IStream.read_append (length_header _)
  rwa [← hheader, List.take_append_drop, hheader] at hread

/-- Another file with this one's index and bloom filter. -/
theorem read_index (h : Laid c file xs bloom) {file' : Bytes}
    (hback : file'.drop (indexOffset xs) = file.drop (indexOffset xs)) :
    readRaw 8 ⟨file', file'.drop (indexOffset xs), none, false⟩
      = some (xs.length, ⟨file', ((layout 48 xs).flatMap indexEntryChunks).flatten ++
          ((bloomChunks bloom).flatten ++
            footerBytes (indexOffset xs) (bloomOffset xs)), none, false⟩) := by
  have hlen := h.length_records
  rw [hback, h.drop_index, indexChunks, List.flatten_cons, List.append_assoc, length_layout]
  exact readRaw_append (by omega) _ _

/-- `Open` looks at the header and at what stands from the index on: a file
that agrees with a whole one there opens as it does. -/
theorem opens_of_ends (h : Laid c file xs bloom) {file' : Bytes}
    (hfront : file'.take 48 = file.take 48)
    (hback : file'.drop (indexOffset xs) = file.drop (indexOffset xs)) (path : Bytes) :
    SstableReader.open {} path (some file') = .ok (readerOf path xs bloom) := by
  obtain ⟨hi, hb, hf⟩ := h.offsets_lt
  have hlen := h.length_records
  obtain ⟨hfit, hbits, hhash, -⟩ := h.bloomFor.spec (by omega)
  have hhdr : (finalHeader xs bloom).bytes.take 8 = kSstMagic ∧
      Header.ofBytes (finalHeader xs bloom).bytes = finalHeader xs bloom :=
    header_ofBytes (show 1 < 2 ^ 16 by decide) (show 0 < 2 ^ 16 by decide)
      (show xs.length < 2 ^ 64 by omega) (show indexOffset xs < 2 ^ 64 by omega)
      (show bloomOffset xs < 2 ^ 64 by omega) (show footerOffset xs bloom < 2 ^ 64 by omega)
  have hseek : ∀ (rest : Bytes) (off : Nat), off < 2 ^ 63 →
      IStream.seekg off ⟨file', rest, none, false⟩ = ⟨file', file'.drop off, none, false⟩ := by
    intro rest off hoff
    rw [IStream.seekg, if_neg (by omega)]
  have hbloom : file'.drop (bloomOffset xs)
      = (bloomChunks bloom).flatten ++ footerBytes (indexOffset xs) (bloomOffset xs) := by
    rw [bloomOffset, ← List.drop_drop, hback, List.drop_drop]
    exact h.drop_bloom
  unfold SstableReader.open
  simp only [Bool.false_eq_true, if_false, h.read_header hfront, hhdr.1, hhdr.2, ne_eq,
    not_true_eq_false]
  have hversion : (finalHeader xs bloom).version = kSstVersion := rfl
  have hidx : (finalHeader xs bloom).indexOffset = indexOffset xs := rfl
  have hblo : (finalHeader xs bloom).bloomOffset = bloomOffset xs := rfl
  rw [hversion, hidx, hblo, if_neg (by simp), hseek _ _ hi, h.read_index hback]
  dsimp only
  rw [if_neg (by rw [maxIndexEntries]; omega), ← length_layout xs 48,
    readIndex_append _ _ _ h.index_fits]
  dsimp only
  rw [hseek _ _ hb, hbloom, readBloom_append _ _ (by omega) (by rw [hhash]; decide)
    (by rw [hfit.length]; omega)]
  rfl

/-- **A whole file opens.** -/
theorem opens (h : Laid c file xs bloom) (path : Bytes) :
    SstableReader.open {} path (some file) = .ok (readerOf path xs bloom) :=
  h.opens_of_ends rfl rfl path

end Laid

/-- The index leads to the records of the table. -/
theorem Stored.leadsTo {c : Cipher} (hc : c.Lawful) {file : Bytes} {t : Table Bytes Bytes}
    {xs : List SealedRecord} {bloom : BloomFilter} (h : Stored c file t xs bloom)
    (path : Bytes) :
    List.Forall₂ (LeadsTo c file) (readerOf path xs bloom).index
      (t.entries.map SstableRecord.ofEntry) := by
  have hlen : 48 ≤ file.length := by
    rw [h.file_eq, tableFile, List.length_append, length_header]
    omega
  rw [← h.records]
  exact layout_leadsTo hc h.size xs 48 h.drop_header hlen h.sealed h.seq

/-! ## Queries -/

/-- The reader answers from `file` for the table `t`. -/
structure Reads (c : Cipher) (file : Bytes) (rd : SstableReader) (t : Table Bytes Bytes) :
    Prop where
  isOpen : rd.isOpen = true
  leads : List.Forall₂ (LeadsTo c file) rd.index (t.entries.map SstableRecord.ofEntry)
  bloomTotal : ∀ k, ∃ r, rd.bloom.mightContain k = .ok r
  bloomKeys : ∀ k ∈ t.keys, rd.bloom.mightContain k = .ok true

/-- **Opening a stored table** gives a reader of it. -/
theorem IsTable.opens {c : Cipher} (hc : c.Lawful) {file : Bytes} {t : Table Bytes Bytes}
    (h : IsTable c file t) (path : Bytes) :
    ∃ rd, SstableReader.open {} path (some file) = .ok rd ∧ rd.path = path ∧
      Reads c file rd t := by
  obtain ⟨xs, bloom, hst⟩ := h
  have hlen := hst.length_records
  obtain ⟨hfit, -, -, hkeys⟩ := hst.bloomFor.spec (by omega)
  refine ⟨_, hst.opens path, rfl, rfl, hst.leadsTo hc path, hfit.mightContain, ?_⟩
  intro k hk
  obtain ⟨e, he, rfl⟩ := List.mem_map.mp hk
  have hmem : SstableRecord.ofEntry e ∈ xs.map Prod.fst := by
    rw [hst.records]; exact List.mem_map.mpr ⟨e, he, rfl⟩
  obtain ⟨x, hx, hxe⟩ := List.mem_map.mp hmem
  have hkey : x.1.key = e.1 := by rw [hxe]; rfl
  exact hkey ▸ (hkeys x hx).mightContain

theorem leads_dropWhile {c : Cipher} {file : Bytes} {index : List IndexEntry}
    {rs : List SstableRecord} (h : List.Forall₂ (LeadsTo c file) index rs) (k : Bytes) :
    List.Forall₂ (LeadsTo c file) (index.dropWhile fun e => decide (e.key < k))
      (rs.dropWhile fun r => decide (r.key < k)) := by
  induction h with
  | nil => exact List.Forall₂.nil
  | cons hhead htail ih =>
      rw [List.dropWhile_cons, List.dropWhile_cons, hhead.key]
      split_ifs
      · exact ih
      · exact List.Forall₂.cons hhead htail

namespace Reads

variable {c : Cipher} {file : Bytes} {rd : SstableReader} {t : Table Bytes Bytes}

/-- The index has the keys of the table. -/
theorem index_keys (h : Reads c file rd t) :
    rd.index.map IndexEntry.key = t.entries.map Prod.fst := by
  have hmap : ∀ {index : List IndexEntry} {rs : List SstableRecord},
      List.Forall₂ (LeadsTo c file) index rs →
      index.map IndexEntry.key = rs.map SstableRecord.key := by
    intro index rs hl
    induction hl with
    | nil => rfl
    | cons hhead _ ih => rw [List.map_cons, List.map_cons, hhead.key, ih]
  rw [hmap h.leads, List.map_map]
  rfl

/-- The index is in strict key order. -/
theorem sorted_index (h : Reads c file rd t) : rd.index.Pairwise fun a b => a.key < b.key := by
  rw [← List.pairwise_map (f := IndexEntry.key) (R := (· < ·)), h.index_keys, List.pairwise_map]
  exact t.sorted

/-- A key has one entry in the index. -/
theorem index_unique (h : Reads c file rd t) {a b : IndexEntry} (ha : a ∈ rd.index)
    (hb : b ∈ rd.index) (hkey : a.key = b.key) : a = b := by
  have hnodup : (rd.index.map IndexEntry.key).Nodup :=
    List.pairwise_map.mpr (h.sorted_index.imp fun hlt => ne_of_lt hlt)
  exact List.inj_on_of_nodup_map hnodup ha hb hkey

/-- The lower bound in the index stands at the lower bound in the table. -/
theorem leads_lowerBound (h : Reads c file rd t) (k : Bytes) :
    List.Forall₂ (LeadsTo c file) (rd.index.drop (rd.lowerBoundIndex k))
      ((t.entries.dropWhile fun e => decide (e.1 < k)).map SstableRecord.ofEntry) := by
  rw [SstableReader.lowerBoundIndex, drop_lowerBound_eq_dropWhile]
  · have hd := leads_dropWhile h.leads k
    rwa [List.dropWhile_map] at hd
  · refine h.sorted_index.imp ?_
    intro a b hab hb
    simp only [decide_eq_true_eq] at hb ⊢
    exact lt_trans hab hb

/-- `Get` of a key in the table comes down to the read of one record,
whatever the file holds by then. -/
theorem get_eq_read (h : Reads c file rd t) {k : Bytes} {v : MemValue}
    (hv : t.find k = some v) :
    ∃ i ∈ rd.index, i.key = k ∧
      readRecordAt c {} (some file) i.offset = .ok (SstableRecord.ofEntry (k, v)) ∧
      ∀ file', rd.get c file' k = readRecordAt c {} file' i.offset := by
  have hmight := h.bloomKeys k (SortedMap.find_isSome_iff.mp (by rw [hv]; rfl))
  have hlead := h.leads_lowerBound k
  rcases t.find_dropWhile (p := fun e => decide (e.1 < k)) (fun e => decide_eq_true_iff)
    with ⟨-, hnone⟩ | ⟨e, es, hd, ⟨hk, hfind⟩ | ⟨-, hnone⟩⟩
  · rw [hv] at hnone; cases hnone
  · rw [hd, List.map_cons] at hlead
    obtain rfl : e.2 = v := Option.some.inj (hfind.symm.trans hv)
    cases hi : rd.index.drop (rd.lowerBoundIndex k) with
    | nil => rw [hi] at hlead; cases hlead
    | cons i is =>
        rw [hi] at hlead
        obtain ⟨hkey, hread⟩ := (List.forall₂_cons.mp hlead).1
        have hkey' : i.key = k := Eq.trans hkey hk
        refine ⟨i, List.mem_of_mem_drop (hi ▸ List.mem_cons_self), hkey', by rw [hread, ← hk],
          fun file' => ?_⟩
        rw [SstableReader.get, if_neg (by simp [h.isOpen]), hmight]
        dsimp only
        rw [← Nat.add_zero (rd.lowerBoundIndex k), ← List.getElem?_drop, hi,
          List.getElem?_cons_zero]
        dsimp only
        rw [if_neg (by simp [hkey'])]
  · rw [hv] at hnone; cases hnone

/-- `Get` of a key not in the table reads no record. -/
theorem get_miss (h : Reads c file rd t) {k : Bytes} (hv : t.find k = none) :
    ∃ msg, ∀ file', rd.get c file' k = .error (Status.notFound msg) := by
  obtain ⟨r, hmight⟩ := h.bloomTotal k
  have hlead := h.leads_lowerBound k
  cases r with
  | false =>
      refine ⟨"bloom miss", fun file' => ?_⟩
      rw [SstableReader.get, if_neg (by simp [h.isOpen]), hmight]
  | true =>
      refine ⟨"key not found", fun file' => ?_⟩
      rw [SstableReader.get, if_neg (by simp [h.isOpen]), hmight]
      dsimp only
      rw [← Nat.add_zero (rd.lowerBoundIndex k), ← List.getElem?_drop]
      cases hi : rd.index.drop (rd.lowerBoundIndex k) with
      | nil => rfl
      | cons i is =>
          rw [hi] at hlead
          rcases t.find_dropWhile (p := fun e => decide (e.1 < k))
            (fun e => decide_eq_true_iff)
            with ⟨hd, -⟩ | ⟨e, es, hd, ⟨-, hfind⟩ | ⟨hk, -⟩⟩
          · rw [hd] at hlead; cases hlead
          · rw [hv] at hfind; cases hfind
          · rw [hd, List.map_cons] at hlead
            have hkey : i.key = e.1 := (List.forall₂_cons.mp hlead).1.key
            rw [List.getElem?_cons_zero]
            dsimp only
            rw [if_pos (by rw [hkey]; exact hk)]

/-- **`Get` of a key in the table** reads its record. -/
theorem get_of_find (h : Reads c file rd t) {k : Bytes} {v : MemValue}
    (hv : t.find k = some v) :
    rd.get c (some file) k = .ok (SstableRecord.ofEntry (k, v)) := by
  obtain ⟨i, -, -, hread, hget⟩ := h.get_eq_read hv
  rw [hget, hread]

/-- **`Get` of a key not in the table** is `NotFound`. -/
theorem get_of_not_find (h : Reads c file rd t) {k : Bytes} (hv : t.find k = none) :
    ∃ msg, rd.get c (some file) k = .error (Status.notFound msg) := by
  obtain ⟨msg, hget⟩ := h.get_miss hv
  exact ⟨msg, hget _⟩

theorem scanFrom_leads {index : List IndexEntry} {es : List (Bytes × MemValue)}
    (h : List.Forall₂ (LeadsTo c file) index (es.map SstableRecord.ofEntry))
    (start : Bytes) : ∀ limit, SstableReader.scanFrom c (some file) start limit index
      = ((es.takeWhile fun e => start.isPrefixOf e.1).take limit).map
          SstableRecord.ofEntry := by
  induction es generalizing index with
  | nil =>
      intro limit
      cases h
      rw [SstableReader.scanFrom]
      simp
  | cons e es ih =>
      intro limit
      cases index with
      | nil => cases h
      | cons i is =>
          obtain ⟨⟨hkey, hread⟩, htail⟩ := List.forall₂_cons.mp h
          have hkey' : i.key = e.1 := hkey
          rw [SstableReader.scanFrom, List.takeWhile_cons, hkey', hread]
          by_cases hlimit : limit = 0
          · rw [if_pos hlimit, hlimit, List.take_zero]; rfl
          rw [if_neg hlimit]
          by_cases hp : start.isPrefixOf e.1 = true
          · rw [if_neg (by simp [hp]), if_pos hp]
            dsimp only
            rw [ih htail]
            obtain ⟨n, rfl⟩ := Nat.exists_eq_succ_of_ne_zero hlimit
            rfl
          · rw [if_pos (Bool.eq_false_iff.mpr hp), if_neg hp, List.take_nil]
            rfl

/-- **`ScanPrefix`** lists the first `limit` entries of the table with this
start. -/
theorem scanPrefix (h : Reads c file rd t) (start : Bytes) (limit : Nat) :
    rd.scanPrefix c (some file) start limit
      = ((t.entries.filter fun e => start.isPrefixOf e.1).take limit).map
          SstableRecord.ofEntry := by
  rw [SstableReader.scanPrefix, if_neg (by simp [h.isOpen]),
    scanFrom_leads (h.leads_lowerBound start),
    takeWhile_dropWhile_eq_filter t.sorted fun e => decide_eq_true_iff]

theorem allFrom_leads {index : List IndexEntry} {rs : List SstableRecord}
    (h : List.Forall₂ (LeadsTo c file) index rs) :
    ∀ i, SstableReader.allFrom c (fun _ => {}) (some file) i index = rs := by
  induction h with
  | nil => intro i; rfl
  | cons hhead _ ih => intro i; rw [SstableReader.allFrom, hhead.read]; dsimp only; rw [ih]

/-- **`AllRecords`** lists the table. -/
theorem allRecords (h : Reads c file rd t) :
    rd.allRecords c (fun _ => {}) (some file) = t.entries.map SstableRecord.ofEntry :=
  allFrom_leads h.leads 0

end Reads

/-! ## Building and reading -/

/-- `r` was added with the largest number of its key, the FIRST of those
with that number. -/
def LatestOf (records : List SstableRecord) (r : SstableRecord) : Prop :=
  ∃ before after, records = before ++ r :: after ∧
    (∀ x ∈ before, x.key = r.key → x.seq < r.seq) ∧
    ∀ x ∈ after, x.key = r.key → x.seq ≤ r.seq

theorem LatestOf.le {records : List SstableRecord} {r : SstableRecord}
    (h : LatestOf records r) : ∀ x ∈ records, x.key = r.key → x.seq ≤ r.seq := by
  obtain ⟨before, after, rfl, hbefore, hafter⟩ := h
  intro x hx hk
  rcases List.mem_append.mp hx with hx | hx
  · exact Nat.le_of_lt (hbefore x hx hk)
  rcases List.mem_cons.mp hx with rfl | hx
  · exact Nat.le_refl _
  · exact hafter x hx hk

/-- Every added key has its latest record. -/
theorem exists_latestOf (records : List SstableRecord) :
    ∀ r ∈ records, ∃ x, LatestOf records x ∧ x.key = r.key := by
  -- by induction: the head is latest itself unless a record behind has a
  -- larger number
  induction records with
  | nil => intro r hr; cases hr
  | cons a as ih =>
      intro r hr
      by_cases hlater : ∃ y ∈ as, y.key = r.key ∧ (a.key = r.key → a.seq < y.seq)
      · obtain ⟨y, hy, hyk, hay⟩ := hlater
        obtain ⟨x, hx, hxk⟩ := ih y hy
        have hle := hx.le y hy hxk.symm
        obtain ⟨before, after, rfl, hbefore, hafter⟩ := hx
        refine ⟨x, ⟨a :: before, after, rfl, ?_, hafter⟩, hxk.trans hyk⟩
        intro z hz hzk
        rcases List.mem_cons.mp hz with rfl | hz
        · exact Nat.lt_of_lt_of_le (hay (by rw [hzk, hxk, hyk])) hle
        · exact hbefore z hz hzk
      · have hka : a.key = r.key := by
          rcases List.mem_cons.mp hr with rfl | hr
          · rfl
          · by_contra hne
            exact hlater ⟨r, hr, rfl, fun hk => absurd hk hne⟩
        refine ⟨a, ⟨[], as, rfl, by simp, ?_⟩, hka⟩
        intro z hz hzk
        by_contra hlt
        exact hlater ⟨z, hz, by rw [hzk, hka], fun _ => Nat.not_le.mp hlt⟩

theorem LatestOf.find {records : List SstableRecord} {r : SstableRecord}
    (h : LatestOf records r) :
    (merge (records.map SstableRecord.entry)).find r.key = some r.version := by
  obtain ⟨before, after, rfl, hbefore, hafter⟩ := h
  have hversions : ∀ {l : List SstableRecord} {P : Nat → Prop},
      (∀ x ∈ l, x.key = r.key → P x.seq) →
        ∀ w ∈ versionsOf r.key (l.map SstableRecord.entry), P w.seq := by
    intro l P hl w hw
    obtain ⟨x, hx, heq⟩ := List.mem_map.mp (mem_versionsOf.mp hw)
    obtain ⟨hk, rfl⟩ := Prod.mk.inj heq
    exact hl x hx hk
  rw [find_merge, List.map_append, List.map_cons, versionsOf_append, versionsOf_cons,
    if_pos (show r.entry.1 = r.key from rfl)]
  exact newest_split (hversions (P := (· < r.seq)) hbefore) (hversions (P := (· ≤ r.seq)) hafter)

/-- A merge holds the latest records and nothing else. -/
theorem latestOf_iff {records : List SstableRecord} {r : SstableRecord} :
    LatestOf records r ↔
      (merge (records.map SstableRecord.entry)).find r.key = some r.version := by
  refine ⟨LatestOf.find, fun hfind => ?_⟩
  have hmem := hfind
  rw [find_merge] at hmem
  obtain ⟨y, hy, heq⟩ := List.mem_map.mp (mem_versionsOf.mp (newest_spec hmem).1)
  obtain ⟨x, hx, hxk⟩ := exists_latestOf records y hy
  have hkey : x.key = r.key := hxk.trans (Prod.mk.inj heq).1
  have hversion : some x.version = some r.version := by rw [← hx.find, hkey, hfind]
  have hxr : x = r := by
    have hv := Option.some.inj hversion
    cases x
    cases r
    simp only [SstableRecord.version, Version.mk.injEq] at hv hkey
    simp only [SstableRecord.mk.injEq]
    exact ⟨hkey, hv.1, hv.2.1, hv.2.2⟩
  exact hxr ▸ hx

theorem map_entry_ofEntry (es : List (Bytes × Version Bytes)) :
    (es.map SstableRecord.ofEntry).map SstableRecord.entry = es := by
  rw [List.map_map]
  exact List.map_id es

theorem mem_latestRecords {records : List SstableRecord} {r : SstableRecord} :
    r ∈ latestRecords records ↔ LatestOf records r := by
  rw [latestOf_iff, SortedMap.find_eq_some_iff, latestRecords, List.mem_map]
  constructor
  · rintro ⟨e, he, rfl⟩
    exact he
  · intro h
    exact ⟨(r.key, r.version), h, rfl⟩

/-- What a successful build left is the table of the merged records. -/
theorem isTable_of_build {c : Cipher} {io : BuildIo c} {path : Bytes}
    {records : List SstableRecord} {m : SstableMeta} {out : OStream}
    (hseq : ∀ r ∈ records, r.seq < 2 ^ 64)
    (h : SstableBuilder.build c io path records = (.ok m, some out)) :
    IsTable c out.file (merge (records.map SstableRecord.entry)) := by
  rcases build_calls h with ⟨-, e, he⟩ | ⟨xs, bloom, hxs, hsealed, hbloom, hfin, hsize, -⟩
  · cases he
  have hfile : out.file = tableFile xs bloom := effect_finished hfin
  refine ⟨xs, bloom, ⟨hfile, hsealed, hbloom, by rw [hfile]; exact hsize⟩, hxs, ?_⟩
  intro x hx
  have hmem : x.1 ∈ latestRecords records := hxs ▸ List.mem_map.mpr ⟨x, hx, rfl⟩
  obtain ⟨before, after, hsplit, -, -⟩ := mem_latestRecords.mp hmem
  exact hseq x.1 (by rw [hsplit]; simp)

theorem build_ok_stream {c : Cipher} {io : BuildIo c} {path : Bytes}
    {records : List SstableRecord} {m : SstableMeta}
    (h : (SstableBuilder.build c io path records).1 = .ok m) :
    ∃ out, SstableBuilder.build c io path records = (.ok m, some out) := by
  unfold SstableBuilder.build at h ⊢
  by_cases hnil : records = []
  · rw [if_pos hnil] at h; cases h
  rw [if_neg hnil] at h ⊢
  cases hdir : io.createDirectories with
  | some e => rw [hdir] at h; cases h
  | none =>
      rw [hdir] at h
      dsimp only at h ⊢
      by_cases hopen : io.openFails = true
      · rw [if_pos hopen] at h; cases h
      rw [if_neg hopen] at h ⊢
      rcases hrec : writeRecords c io (latestRecords records) 0 (OStream.write io.failAt {}
        (placeholderHeader (latestRecords records).length).bytes) with ⟨res, out⟩
      rw [hrec] at h
      cases res with
      | error e => cases h
      | ok index => exact ⟨_, Prod.ext h rfl⟩

/-- **What was built is read back.** A file that `Build` reports as
written opens. `Get` answers with the latest record of an added key and
`NotFound` for any other key, `AllRecords` lists the latest records in
strict key order, and `ScanPrefix` the first of these with the start. -/
theorem build_read_back {c : Cipher} (hc : c.Lawful) {io : BuildIo c} {path : Bytes}
    {records : List SstableRecord} {m : SstableMeta} (hseq : ∀ r ∈ records, r.seq < 2 ^ 64)
    (h : (SstableBuilder.build c io path records).1 = .ok m) :
    ∃ out rd, (SstableBuilder.build c io path records).2 = some out ∧
      SstableReader.open {} path (some out.file) = .ok rd ∧
      (∀ r ∈ records, ∃ x, LatestOf records x ∧ x.key = r.key ∧
        rd.get c (some out.file) r.key = .ok x) ∧
      (∀ k, (∀ r ∈ records, r.key ≠ k) →
        ∃ msg, rd.get c (some out.file) k = .error (Status.notFound msg)) ∧
      ((rd.allRecords c (fun _ => {}) (some out.file)).Pairwise fun a b => a.key < b.key) ∧
      (∀ r, r ∈ rd.allRecords c (fun _ => {}) (some out.file) ↔ LatestOf records r) ∧
      ∀ start limit, rd.scanPrefix c (some out.file) start limit
        = ((rd.allRecords c (fun _ => {}) (some out.file)).filter
            fun r => start.isPrefixOf r.key).take limit := by
  obtain ⟨out, hbuild⟩ := build_ok_stream h
  obtain ⟨rd, hopen, -, hreads⟩ := (isTable_of_build hseq hbuild).opens hc path
  have hall : rd.allRecords c (fun _ => {}) (some out.file) = latestRecords records :=
    hreads.allRecords
  refine ⟨out, rd, by rw [hbuild], hopen, ?_, ?_, ?_, ?_, ?_⟩
  · intro r hr
    obtain ⟨x, hx, hk⟩ := exists_latestOf records r hr
    exact ⟨x, hx, hk, hk ▸ hreads.get_of_find hx.find⟩
  · intro k hk
    refine hreads.get_of_not_find ?_
    rw [find_merge, newest_eq_none_iff, List.eq_nil_iff_forall_not_mem]
    intro v hv
    obtain ⟨r, hr, heq⟩ := List.mem_map.mp (mem_versionsOf.mp hv)
    exact hk r hr (Prod.mk.inj heq).1
  · rw [hall, latestRecords, List.pairwise_map]
    exact (merge (records.map SstableRecord.entry)).sorted
  · intro r
    rw [hall]
    exact mem_latestRecords
  · intro start limit
    rw [hreads.scanPrefix, hall, latestRecords, List.filter_map, List.map_take]
    rfl

/-- Two keys, the second added twice with one number. -/
def threeAdds : List SstableRecord :=
  [⟨[98], [1], 7, false⟩, ⟨[97], [2], 9, false⟩, ⟨[98], [3], 7, true⟩]

theorem threeAdds_read_back :
    ∃ out rd, (SstableBuilder.build (fallback zeroKey) { rand := fun _ => (0 : Nat) } []
        threeAdds).2 = some out ∧
      SstableReader.open {} [] (some out.file) = .ok rd ∧
      ∀ r, r ∈ rd.allRecords (fallback zeroKey) (fun _ => {}) (some out.file) ↔
        LatestOf threeAdds r := by
  obtain ⟨out, rd, hout, hopen, -, -, -, hall, -⟩ :=
    @build_read_back (fallback zeroKey) (fallback_lawful zeroKey)
      { rand := fun _ => (0 : Nat) } [] threeAdds (metaOf [] (latestRecords threeAdds))
      (by decide) (by decide +kernel)
  exact ⟨out, rd, hout, hopen, hall⟩

end VaultKV
