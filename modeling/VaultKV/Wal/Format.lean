import VaultKV.Wal.Model

/-!
# Wal — Format

What a record on disk determines and what determines it:

* `parseRecordAt_ok_iff` — the ACCEPTED bytes, stated once; everything
  below goes through it;
* a parsed record lies inside the segment and is at least a header long
  (`parseRecordAt_bounds`), so parsing makes progress;
* the parse at an offset reads nothing in front of it
  (`parseRecordAt_congr`), and a SUCCESSFUL parse reads nothing behind the
  record (`parseRecordAt_local`);
* a serialized record parses back to itself wherever it stands
  (`parseRecordAt_serialize`), unless its checksum is the end marker 0 or
  its ciphertext exceeds the reader's cap.
-/

namespace VaultKV

open Lib

/-! ## The accepted bytes -/

/-- The fields of the header at the front of `p`. -/
def fieldsAt (p : Bytes) : Fields where
  timestampNs := readLe 8 (p.drop 4)
  seq := readLe 8 (p.drop 12)
  op := WalOp.ofByte (UInt8.ofNat (readLe 1 (p.drop 20)))
  keyLen := readLe 2 (p.drop 21)
  valLen := readLe 4 (p.drop 23)
  cipherLen := readLe 4 (p.drop 27)
  nonce := ByteArr.ofBytes 12 ((p.drop 31).take 12)
  tag := ByteArr.ofBytes 16 ((p.drop 43).take 16)
  payloadOffset := 59
  totalRecordLen := 59 + readLe 4 (p.drop 27)

/-- What `parse_fields` accepts at the front of `p`, with `room` bytes up
to the limit. -/
structure Accepts (p : Bytes) (room : Nat) : Prop where
  crc_ne : readLe 4 p ≠ 0
  cap : readLe 4 (p.drop 27) ≤ 128 * 1024 * 1024
  fits : 59 + readLe 4 (p.drop 27) ≤ room
  crc_eq : (crc32 ((p.drop 4).take (55 + readLe 4 (p.drop 27)))).toNat = readLe 4 p

theorem parseFields_ok_iff {offset limit : Nat} {base : Bytes} {f : Fields} :
    parseFields offset base limit = .ok f ↔
      offset ≤ limit ∧ Accepts (base.drop offset) (limit - offset) ∧
        f = fieldsAt (base.drop offset) := by
  have hsub : ∀ n, 59 + n - 4 = 55 + n := by omega
  unfold parseFields
  generalize base.drop offset = p
  simp only [List.drop_drop, Nat.reduceAdd, show kFixedRecordHeader = 59 from rfl,
    hsub]
  constructor
  · intro h
    by_cases h1 : offset + 59 > limit
    · rw [if_pos h1] at h; cases h
    · rw [if_neg h1] at h
      by_cases h2 : readLe 4 p = 0
      · rw [if_pos h2] at h; cases h
      · rw [if_neg h2] at h
        by_cases h3 : readLe 4 (p.drop 27) > 128 * 1024 * 1024
        · rw [if_pos h3] at h; cases h
        · rw [if_neg h3] at h
          by_cases h4 : offset + (59 + readLe 4 (p.drop 27)) > limit
          · rw [if_pos h4] at h; cases h
          · rw [if_neg h4] at h
            by_cases h5 : (crc32 ((p.drop 4).take
                (55 + readLe 4 (p.drop 27)))).toNat ≠ readLe 4 p
            · rw [if_pos h5] at h; cases h
            · rw [if_neg h5] at h
              exact ⟨by omega, ⟨h2, by omega, by omega, not_not.mp h5⟩,
                (Except.ok.inj h).symm⟩
  · rintro ⟨ho, ⟨h2, h3, h4, h5⟩, rfl⟩
    rw [if_neg (by omega), if_neg h2, if_neg (by omega), if_neg (by omega),
      if_neg (not_not.mpr h5)]
    rfl

/-- The blob of the record at the front of `p`. -/
def blobAt (p : Bytes) : CipherBlob where
  nonce := (fieldsAt p).nonce
  tag := (fieldsAt p).tag
  ciphertext := (p.drop 59).take (fieldsAt p).cipherLen

/-- The record at the front of `p`, given its plaintext. -/
def recordAt (p plain : Bytes) : WalRecord where
  op := (fieldsAt p).op
  seq := (fieldsAt p).seq
  timestampNs := (fieldsAt p).timestampNs
  key := plain.take (fieldsAt p).keyLen
  value := (plain.drop (fieldsAt p).keyLen).take (fieldsAt p).valLen

/-- **What `ParseRecordAt` accepts.** -/
theorem parseRecordAt_ok_iff {c : Cipher} {capacity offset : Nat} {base : Bytes}
    {r : WalRecord} {next : Nat} :
    parseRecordAt c capacity base offset = .ok (r, next) ↔
      offset ≤ capacity ∧ Accepts (base.drop offset) (capacity - offset) ∧
      next = offset + (59 + (fieldsAt (base.drop offset)).cipherLen) ∧
      ∃ plain, c.decrypt (blobAt (base.drop offset)) = some plain ∧
        plain.length = (fieldsAt (base.drop offset)).keyLen
          + (fieldsAt (base.drop offset)).valLen ∧
        r = recordAt (base.drop offset) plain := by
  constructor
  · intro h
    by_cases h1 : offset + 4 > capacity
    · rw [parseRecordAt, if_pos h1] at h; cases h
    · rw [parseRecordAt, if_neg h1] at h
      cases hf : parseFields offset base capacity with
      | error e => simp only [hf] at h; cases h
      | ok f =>
          obtain ⟨ho, hacc, rfl⟩ := parseFields_ok_iff.mp hf
          simp only [hf] at h
          cases hd : c.decrypt (blobAt (base.drop offset)) with
          | none =>
              rw [blobAt] at hd
              simp only [hd, show (fieldsAt (base.drop offset)).payloadOffset = 59
                from rfl] at h
              cases h
          | some plain =>
              rw [blobAt] at hd
              simp only [hd, show (fieldsAt (base.drop offset)).payloadOffset = 59
                from rfl] at h
              by_cases hlen : plain.length ≠ (fieldsAt (base.drop offset)).keyLen
                  + (fieldsAt (base.drop offset)).valLen
              · rw [if_pos hlen] at h; cases h
              · rw [if_neg hlen] at h
                simp only [Except.ok.injEq, Prod.mk.injEq] at h
                exact ⟨ho, hacc, h.2.symm, plain, rfl, not_not.mp hlen, h.1.symm⟩
  · rintro ⟨ho, hacc, rfl, plain, hd, hlen, rfl⟩
    have hfits := hacc.fits
    rw [parseRecordAt, if_neg (by omega),
      parseFields_ok_iff.mpr ⟨ho, hacc, rfl⟩]
    rw [blobAt] at hd
    simp only [hd, show (fieldsAt (base.drop offset)).payloadOffset = 59 from rfl,
      hlen, ne_eq, not_true_eq_false, if_false]
    rfl

/-- A parsed record has a whole header and ends inside the segment. -/
theorem parseRecordAt_bounds {c : Cipher} {capacity offset : Nat} {base : Bytes}
    {r : WalRecord} {next : Nat}
    (h : parseRecordAt c capacity base offset = .ok (r, next)) :
    offset + 59 ≤ next ∧ next ≤ capacity := by
  obtain ⟨ho, hacc, rfl, -⟩ := parseRecordAt_ok_iff.mp h
  have hfits := hacc.fits
  simp only [fieldsAt]
  omega

/-! ## What a parse reads -/

/-- Nothing in front of the offset is read. -/
theorem parseRecordAt_congr {c : Cipher} {capacity offset : Nat}
    {base base' : Bytes} (h : base.drop offset = base'.drop offset) :
    parseRecordAt c capacity base offset = parseRecordAt c capacity base' offset := by
  simp only [parseRecordAt, parseFields, h]

/-- A field inside a common front part is the same. -/
theorem field_congr {p p' : Bytes} {t i n : Nat} (h : p.take t = p'.take t)
    (hin : i + n ≤ t) : (p.drop i).take n = (p'.drop i).take n := by
  have key : ∀ q : Bytes, (q.drop i).take n = ((q.take t).drop i).take n := by
    intro q
    rw [List.drop_take, List.take_take, Nat.min_eq_left (by omega)]
  rw [key p, key p', h]

theorem readLe_congr {p p' : Bytes} {t i n : Nat} (h : p.take t = p'.take t)
    (hin : i + n ≤ t) : readLe n (p.drop i) = readLe n (p'.drop i) := by
  rw [readLe, readLe, field_congr h hin]

/-- The header fields sit in the first 59 bytes. -/
theorem fieldsAt_congr {p p' : Bytes} {t : Nat} (h : p.take t = p'.take t)
    (ht : 59 ≤ t) : fieldsAt p = fieldsAt p' := by
  simp only [fieldsAt,
    readLe_congr (i := 4) (n := 8) h (by omega),
    readLe_congr (i := 12) (n := 8) h (by omega),
    readLe_congr (i := 20) (n := 1) h (by omega),
    readLe_congr (i := 21) (n := 2) h (by omega),
    readLe_congr (i := 23) (n := 4) h (by omega),
    readLe_congr (i := 27) (n := 4) h (by omega),
    field_congr (i := 31) (n := 12) h (by omega),
    field_congr (i := 43) (n := 16) h (by omega)]

theorem Accepts.congr {p p' : Bytes} {room : Nat} (hacc : Accepts p room)
    (h : p.take (59 + (fieldsAt p).cipherLen)
      = p'.take (59 + (fieldsAt p).cipherLen)) : Accepts p' room := by
  have hf := fieldsAt_congr h (by omega)
  have hcl : readLe 4 (p'.drop 27) = readLe 4 (p.drop 27) :=
    congrArg Fields.cipherLen hf.symm
  have hcrc : readLe 4 p' = readLe 4 p := (readLe_congr (i := 0) h (by omega)).symm
  have hbody : (p'.drop 4).take (55 + readLe 4 (p.drop 27))
      = (p.drop 4).take (55 + readLe 4 (p.drop 27)) :=
    (field_congr h (by simp only [fieldsAt]; omega)).symm
  refine ⟨by rw [hcrc]; exact hacc.crc_ne, by rw [hcl]; exact hacc.cap,
    by rw [hcl]; exact hacc.fits, ?_⟩
  rw [hcl, hbody, hcrc]
  exact hacc.crc_eq

/-- **A successful parse reads only the record**: any segment with the same
bytes at `[offset, next)` parses to the same record there. -/
theorem parseRecordAt_local {c : Cipher} {capacity offset : Nat}
    {base base' : Bytes} {r : WalRecord} {next : Nat}
    (hok : parseRecordAt c capacity base offset = .ok (r, next))
    (h : slice base offset (next - offset) = slice base' offset (next - offset)) :
    parseRecordAt c capacity base' offset = .ok (r, next) := by
  obtain ⟨ho, hacc, rfl, plain, hd, hlen, rfl⟩ := parseRecordAt_ok_iff.mp hok
  rw [Nat.add_sub_cancel_left, slice, slice] at h
  generalize base.drop offset = p at h hacc hd hlen
  have hf := fieldsAt_congr h (by omega)
  have hblob : blobAt (base'.drop offset) = blobAt p := by
    simp only [blobAt, ← hf, CipherBlob.mk.injEq, true_and]
    exact (field_congr h (by omega)).symm
  refine parseRecordAt_ok_iff.mpr ⟨ho, hacc.congr h, by rw [hf], plain,
    by rw [hblob, hd], by rw [← hf, hlen], ?_⟩
  simp only [recordAt, hf]

/-! ## Writing a record and parsing it back -/

theorem serializeRecord_ok {c : Cipher} {rand : c.Rand} {rec : WalRecord}
    {encoded : Bytes} (h : serializeRecord c rand rec = .ok encoded) :
    ∃ blob, c.encrypt rand (rec.key ++ rec.value) = some blob ∧
      encoded = appendLe 4 (crc32 (recordBody rec blob)).toNat
        ++ recordBody rec blob := by
  simp only [serializeRecord] at h
  cases he : c.encrypt rand (rec.key ++ rec.value) with
  | none => simp only [he] at h; cases h
  | some blob =>
      simp only [he, Except.ok.injEq] at h
      refine ⟨blob, rfl, h.symm.trans ?_⟩
      rw [List.drop_left' (length_appendLe 4 0)]

theorem length_recordBody (rec : WalRecord) (blob : CipherBlob) :
    (recordBody rec blob).length = 55 + blob.ciphertext.length := by
  simp only [recordBody, List.length_append, length_appendLe, List.length_cons,
    List.length_nil, blob.nonce.length_eq, blob.tag.length_eq]
  omega

/-- A serialized record is a header and its plaintext long. -/
theorem length_serializeRecord {c : Cipher} (hc : c.Lawful) {rand : c.Rand}
    {rec : WalRecord} {encoded : Bytes}
    (h : serializeRecord c rand rec = .ok encoded) :
    encoded.length = 59 + (rec.key.length + rec.value.length) := by
  obtain ⟨blob, hb, rfl⟩ := serializeRecord_ok h
  rw [List.length_append, length_appendLe, length_recordBody,
    hc.length_encrypt _ _ _ hb, List.length_append]
  omega

/-- The reader takes the record: its checksum is not the end marker and
its ciphertext is within the reader's cap. -/
def Readable (encoded : Bytes) : Prop :=
  readLe 4 encoded ≠ 0 ∧ encoded.length ≤ 59 + 128 * 1024 * 1024

instance (encoded : Bytes) : Decidable (Readable encoded) :=
  inferInstanceAs (Decidable (_ ∧ _))

/-- The ranges a record's fields must keep for their widths. -/
structure WalRecord.Fits (rec : WalRecord) : Prop where
  op : WalOp.ofByte rec.op.toByte = rec.op
  seq : rec.seq < 2 ^ 64
  timestampNs : rec.timestampNs < 2 ^ 64
  key : rec.key.length < 2 ^ 16
  value : rec.value.length < 2 ^ 32

/-- The header fields of a serialized record; the length of the ciphertext
is cut to 32 bits. -/
theorem fieldsAt_serialize_mod {rec : WalRecord} (hfit : rec.Fits) (blob : CipherBlob)
    (crc : Nat) (rest : Bytes) :
    fieldsAt (appendLe 4 crc ++ recordBody rec blob ++ rest) =
      { timestampNs := rec.timestampNs, seq := rec.seq, op := rec.op,
        keyLen := rec.key.length, valLen := rec.value.length,
        cipherLen := blob.ciphertext.length % 2 ^ 32, nonce := blob.nonce, tag := blob.tag,
        payloadOffset := 59,
        totalRecordLen := 59 + blob.ciphertext.length % 2 ^ 32 } := by
  generalize hp : appendLe 4 crc ++ recordBody rec blob ++ rest = p
  -- the cursor walks over the fields in the order they were appended
  simp only [recordBody, List.append_assoc] at hp
  have h0 : p.drop 0 = _ := hp.symm
  have h4 : p.drop 4 = _ := drop_step h0 (length_appendLe 4 crc)
  have h12 : p.drop 12 = _ := drop_step h4 (length_appendLe 8 _)
  have h20 : p.drop 20 = _ := drop_step h12 (length_appendLe 8 _)
  have h21 : p.drop 21 = _ := drop_step h20 rfl
  have h23 : p.drop 23 = _ := drop_step h21 (length_appendLe 2 _)
  have h27 : p.drop 27 = _ := drop_step h23 (length_appendLe 4 _)
  have h31 : p.drop 31 = _ := drop_step h27 (length_appendLe 4 _)
  have h43 : p.drop 43 = _ := drop_step h31 blob.nonce.length_eq
  have hop : readLe 1 (p.drop 20) = rec.op.toByte.toNat := by
    rw [h20]
    simp [readLe, leNat]
  have hk := hfit.key
  have hv := hfit.value
  simp only [fieldsAt, readLe_step h4 hfit.timestampNs, readLe_step h12 hfit.seq, hop,
    readLe_step h21 hk, readLe_step h23 hv, readLe_step_mod h27, Nat.reducePow,
    take_step h31 blob.nonce.length_eq, take_step h43 blob.tag.length_eq,
    ByteArr.ofBytes_eq, UInt8.ofNat_toNat, hfit.op]

theorem fieldsAt_serialize {rec : WalRecord} (hfit : rec.Fits) (blob : CipherBlob)
    (hcl : blob.ciphertext.length < 2 ^ 32) (crc : Nat) (rest : Bytes) :
    fieldsAt (appendLe 4 crc ++ recordBody rec blob ++ rest) =
      { timestampNs := rec.timestampNs, seq := rec.seq, op := rec.op,
        keyLen := rec.key.length, valLen := rec.value.length,
        cipherLen := blob.ciphertext.length, nonce := blob.nonce, tag := blob.tag,
        payloadOffset := 59, totalRecordLen := 59 + blob.ciphertext.length } := by
  rw [fieldsAt_serialize_mod hfit, Nat.mod_eq_of_lt hcl]

/-- The ciphertext stands behind the header. -/
theorem drop_header_serialize (rec : WalRecord) (blob : CipherBlob) (crc : Nat)
    (rest : Bytes) :
    (appendLe 4 crc ++ recordBody rec blob ++ rest).drop 59
      = blob.ciphertext ++ rest := by
  rw [show appendLe 4 crc ++ recordBody rec blob ++ rest
      = (appendLe 4 crc ++ appendLe 8 rec.timestampNs ++ appendLe 8 rec.seq
          ++ [rec.op.toByte] ++ appendLe 2 rec.key.length
          ++ appendLe 4 rec.value.length ++ appendLe 4 blob.ciphertext.length
          ++ blob.nonce.bytes ++ blob.tag.bytes) ++ (blob.ciphertext ++ rest) by
    simp only [recordBody, List.append_assoc]]
  refine List.drop_left' ?_
  simp only [List.length_append, length_appendLe, List.length_cons, List.length_nil,
    blob.nonce.length_eq, blob.tag.length_eq]

/-- **Round trip.** A serialized record parses back to itself wherever it
stands in a segment. -/
theorem parseRecordAt_serialize {c : Cipher} (hc : c.Lawful) {rand : c.Rand}
    {rec : WalRecord} (hfit : rec.Fits) {encoded : Bytes}
    (hs : serializeRecord c rand rec = .ok encoded) (hr : Readable encoded)
    {capacity offset : Nat} {base rest : Bytes}
    (hbase : base.drop offset = encoded ++ rest)
    (hroom : offset + encoded.length ≤ capacity) :
    parseRecordAt c capacity base offset = .ok (rec, offset + encoded.length) := by
  obtain ⟨blob, hb, rfl⟩ := serializeRecord_ok hs
  have hlenb := hc.length_encrypt _ _ _ hb
  rw [List.length_append] at hlenb
  have hk := hfit.key
  have hv := hfit.value
  have hlen : (appendLe 4 (crc32 (recordBody rec blob)).toNat
      ++ recordBody rec blob).length = 59 + blob.ciphertext.length := by
    rw [List.length_append, length_appendLe, length_recordBody]
    omega
  obtain ⟨hcrc, hcap⟩ := hr
  rw [hlen] at hroom hcap ⊢
  have hf := fieldsAt_serialize hfit blob (by omega)
    (crc32 (recordBody rec blob)).toNat rest
  have hd := drop_header_serialize rec blob (crc32 (recordBody rec blob)).toNat rest
  have hcl := congrArg Fields.cipherLen hf
  rw [← hbase] at hf hd hcl
  generalize hp : base.drop offset = p at hbase hf hd hcl
  have hcrcp : readLe 4 p = (crc32 (recordBody rec blob)).toNat := by
    rw [hbase, List.append_assoc]
    exact readLe_appendLe (crc32_toNat_lt _) _
  have hbody : (p.drop 4).take (55 + blob.ciphertext.length)
      = recordBody rec blob := by
    rw [hbase, List.append_assoc, List.drop_left' (length_appendLe 4 _)]
    exact List.take_left' (length_recordBody rec blob)
  have hcl27 : readLe 4 (p.drop 27) = blob.ciphertext.length := hcl
  have hne : readLe 4 p ≠ 0 := by
    rw [hcrcp]
    rwa [readLe_appendLe (crc32_toNat_lt _)] at hcrc
  have hblob : blobAt p = blob := by
    rw [blobAt, hf, hd]
    simp only [List.take_left']
  refine parseRecordAt_ok_iff.mpr ⟨by omega, ?_, ?_, rec.key ++ rec.value, ?_, ?_, ?_⟩
  · rw [hp]
    exact ⟨hne, by rw [hcl27]; omega, by rw [hcl27]; omega,
      by rw [hcl27, hbody, hcrcp]⟩
  · rw [hp, hf]
  · rw [hp, hblob]
    exact hc.decrypt_encrypt _ _ _ hb
  · rw [hp, hf, List.length_append]
  · rw [hp, recordAt, hf]
    simp

end VaultKV
