import VaultKV.Sstable.Faults

/-!
# Sstable — Damage

What a file that `Open` accepts can do to a query.

* ANY accepted file: the length of the bloom vector and the bit count are
  independent fields, so a query may index outside the vector. With a byte
  for every eight bits no key does; with fewer some key does, which is shown
  for vectors of up to 1935 bytes (`bloom_safe_iff`).
* A file that `Build` wrote, ONE byte of its records changed: the length
  fields, nonce, tag and ciphertext are covered by the cipher or by a length
  check, the sequence number, the tombstone flag and the key are not
  (`record_damage_iff`).
-/

namespace VaultKV

open Lib

/-! ## The bloom vector of any accepted file -/

namespace BloomFilter

/-- The vector has a byte for every eight bits, or no query comes to a bit. -/
def Sized (f : BloomFilter) : Prop :=
  f.bitCount = 0 ∨ f.hashCount = 0 ∨ f.bitCount ≤ 8 * f.bits.length

instance (f : BloomFilter) : Decidable f.Sized := inferInstanceAs (Decidable (_ ∨ _))

theorem testBits_inside {bits : Bytes} {l : List Nat} (h : ∀ bit ∈ l, bit / 8 < bits.length) :
    testBits bits l ≠ .error .outOfBounds := by
  induction l with
  | nil => simp [testBits]
  | cons x l ih =>
      obtain ⟨hx, hl⟩ := List.forall_mem_cons.mp h
      rw [testBits, List.getElem?_eq_getElem hx]
      dsimp only
      split
      · simp
      · exact ih hl

/-- **Enough bytes serve every key.** -/
theorem Sized.mightContain_safe {f : BloomFilter} (h : f.Sized) (key : Bytes) :
    f.mightContain key ≠ .error .outOfBounds := by
  unfold mightContain
  by_cases hz : f.bitCount = 0 ∨ f.hashCount = 0
  · rw [if_pos hz]
    simp
  · rw [if_neg hz]
    obtain ⟨hbits, hhash⟩ := not_or.mp hz
    have hlen := (h.resolve_left hbits).resolve_left hhash
    refine testBits_inside fun bit hbit => ?_
    obtain ⟨i, -, rfl⟩ := List.mem_map.mp hbit
    have hlt : f.bitOf key i < f.bitCount := Nat.mod_lt _ (by omega)
    omega

/-- The first position is come to whatever the vector holds. -/
theorem mightContain_outside {f : BloomFilter} (h : ¬ f.Sized) {key : Bytes}
    (hout : 8 * f.bits.length ≤ f.bitOf key 0) : f.mightContain key = .error .outOfBounds := by
  obtain ⟨hbits, hrest⟩ := not_or.mp h
  obtain ⟨hhash, -⟩ := not_or.mp hrest
  obtain ⟨n, hn⟩ := Nat.exists_eq_succ_of_ne_zero hhash
  have hnone : f.bits[f.bitOf key 0 / 8]? = none :=
    List.getElem?_eq_none_iff.mpr (by omega)
  rw [mightContain, if_neg (not_or.mpr ⟨hbits, hhash⟩), bitsOf, hn, List.range_succ_eq_map,
    List.map_cons, testBits, hnone]

/-! ### Keys for a run of hashes

A round of `hash64` adds the byte to a number that depends on the state
(`spread`) and mixes the sum with the state. Of the 256 sums 128 have one
quotient by 128, and mixing keeps that: from every state the last byte leads
to 128 hashes in a row. The two-byte keys put 121 such rows side by side. -/

/-- What a round adds the byte to. -/
def spread (h : UInt64) : UInt64 := hashGamma + (h <<< 6) + (h >>> 2)

theorem toNat_hashStep (h : UInt64) (c : UInt8) :
    (hashStep h c).toNat = h.toNat ^^^ ((c.toNat + (spread h).toNat) % 2 ^ 64) := by
  have hstep : hashStep h c = h ^^^ (c.toUInt64 + spread h) := by
    rw [hashStep, spread, UInt64.add_assoc, UInt64.add_assoc, UInt64.add_assoc]
  rw [hstep, UInt64.toNat_xor, UInt64.toNat_add, UInt8.toNat_toUInt64]

/-- The quotient by 128 of the hashes that the last byte can lead to. -/
def rowOf (h : UInt64) : Nat := h.toNat >>> 7 ^^^ ((spread h).toNat + 127) >>> 7

theorem exists_hashStep {h : UInt64} (hroom : (spread h).toNat + 255 < 2 ^ 64) {v : Nat}
    (hv : v >>> 7 = rowOf h) : ∃ c, (hashStep h c).toNat = v := by
  -- the sum that mixes to `v`
  have hsum : (h.toNat ^^^ v) >>> 7 = ((spread h).toNat + 127) >>> 7 := by
    rw [Nat.shiftRight_xor_distrib, hv, rowOf, ← Nat.xor_assoc, Nat.xor_self, Nat.zero_xor]
  rw [Nat.shiftRight_eq_div_pow, Nat.shiftRight_eq_div_pow] at hsum
  have hbyte : (h.toNat ^^^ v) - (spread h).toNat < 2 ^ 8 := by omega
  refine ⟨UInt8.ofNat ((h.toNat ^^^ v) - (spread h).toNat), ?_⟩
  rw [toNat_hashStep, UInt8.toNat_ofNat_of_lt' hbyte, Nat.sub_add_cancel (by omega),
    Nat.mod_eq_of_lt (by omega), ← Nat.xor_assoc, Nat.xor_self, Nat.zero_xor]

/-- The state behind the first byte of a two-byte key, for the first hash. -/
def firstState (a : UInt8) : UInt64 := hashStep (hashGamma ^^^ (hashGamma + 2)) a

/-- The first hash of the run. -/
def runStart : Nat := 0xcd94bf3ecef60000

/-- The rows of the run. A step to the next row is two steps of the first
byte down, give or take what the mixing does to it. -/
theorem rowOf_firstState : ∀ i < 121, ∃ d < 30,
    rowOf (firstState (UInt8.ofNat (236 + d - 2 * i))) = runStart >>> 7 + i ∧
      (spread (firstState (UInt8.ofNat (236 + d - 2 * i)))).toNat + 255 < 2 ^ 64 := by
  decide +kernel

/-- **A run of hashes.** Each of these 15488 numbers in a row is the first
hash of a key. -/
theorem exists_hash64 {v : Nat} (hle : runStart ≤ v) (hlt : v < runStart + 15488) :
    ∃ key, (hash64 key hashGamma).toNat = v := by
  have hrow : v >>> 7 = runStart >>> 7 + (v - runStart) / 128 := by
    rw [Nat.shiftRight_eq_div_pow, Nat.shiftRight_eq_div_pow]
    unfold runStart at hle ⊢
    omega
  obtain ⟨d, -, hd, hroom⟩ := rowOf_firstState ((v - runStart) / 128) (by omega)
  obtain ⟨c, hc⟩ := exists_hashStep hroom (hrow.trans hd.symm)
  exact ⟨[UInt8.ofNat (236 + d - 2 * ((v - runStart) / 128)), c], hc⟩

/-- Of any bit count the run reaches the bits behind a short vector. -/
theorem exists_bitOf {f : BloomFilter} (hlt : 8 * f.bits.length < f.bitCount)
    (hshort : f.bits.length ≤ 1935) : ∃ key, 8 * f.bits.length ≤ f.bitOf key 0 := by
  have hreach : ∀ d < 15488, ∃ key, f.bitOf key 0 = (runStart + d) % f.bitCount := by
    intro d hd
    obtain ⟨key, hkey⟩ := exists_hash64 (Nat.le_add_right runStart d) (by omega)
    exact ⟨key, congrArg (· % f.bitCount) hkey⟩
  by_cases hfirst : 8 * f.bits.length ≤ runStart % f.bitCount
  · obtain ⟨key, hkey⟩ := hreach 0 (by decide)
    exact ⟨key, by rw [hkey]; exact hfirst⟩
  · -- go on from the first hash until the position is the first one outside
    obtain ⟨key, hkey⟩ := hreach (8 * f.bits.length - runStart % f.bitCount) (by omega)
    refine ⟨key, ?_⟩
    rw [hkey, Nat.add_mod, Nat.mod_eq_of_lt
      (show 8 * f.bits.length - runStart % f.bitCount < f.bitCount by omega),
      Nat.add_sub_cancel' (by omega), Nat.mod_eq_of_lt hlt]

/-- **A short vector serves every key exactly if it has enough bytes.** -/
theorem mightContain_safe_iff {f : BloomFilter} (hshort : f.bits.length ≤ 1935) :
    (∀ key, f.mightContain key ≠ .error .outOfBounds) ↔ f.Sized := by
  refine ⟨fun h => ?_, Sized.mightContain_safe⟩
  by_contra hsized
  have hlt : 8 * f.bits.length < f.bitCount :=
    Nat.lt_of_not_le fun hle => hsized (.inr (.inr hle))
  obtain ⟨key, hkey⟩ := exists_bitOf hlt hshort
  exact h key (mightContain_outside hsized hkey)

end BloomFilter

/-- `Get` leaves the bloom vector exactly if `MightContain` does. -/
theorem get_outOfBounds_iff {c : Cipher} {file : Option Bytes} {rd : SstableReader}
    (hopen : rd.isOpen = true) (key : Bytes) :
    rd.get c file key = .error .outOfBounds ↔
      rd.bloom.mightContain key = .error .outOfBounds := by
  unfold SstableReader.get
  rw [if_neg (by simp [hopen])]
  cases hm : rd.bloom.mightContain key with
  | error e => simp
  | ok r =>
      simp only [reduceCtorEq, iff_false]
      cases r with
      | false => simp [Status.notFound]
      | true =>
          dsimp only
          cases rd.index[rd.lowerBoundIndex key]? with
          | none => simp [Status.notFound]
          | some e =>
              dsimp only
              by_cases hk : e.key ≠ key
              · rw [if_pos hk]
                simp [Status.notFound]
              · rw [if_neg hk]
                intro herr
                obtain ⟨s, hs⟩ := readRecordAt_error herr
                cases hs

theorem open_isOpen {io : ReadIo} {path : Bytes} {file : Option Bytes} {rd : SstableReader}
    (h : SstableReader.open io path file = .ok rd) : rd.isOpen = true := by
  unfold SstableReader.open at h
  dsimp only at h
  repeat' split at h
  all_goals cases h
  rfl

/-- **Which accepted files are safe to query.** Of every file that `Open`
accepts: when the bit count or the hash count is zero, or the stored vector
has a byte for every eight bits, `MightContain`, and with it `Get`, indexes
the vector inside its length for EVERY key. Where that fails, each key whose
first position is not below the bits stored leaves the vector; and if the
vector has at most 1935 bytes there is such a key, whatever the counts, so
the condition is exact. -/
theorem bloom_safe_iff {c : Cipher} {io : ReadIo} {path bytes : Bytes} {rd : SstableReader}
    (h : SstableReader.open io path (some bytes) = .ok rd) :
    (rd.bloom.Sized → ∀ key, rd.bloom.mightContain key ≠ .error .outOfBounds ∧
      rd.get c (some bytes) key ≠ .error .outOfBounds) ∧
    (¬ rd.bloom.Sized → ∀ key, 8 * rd.bloom.bits.length ≤ rd.bloom.bitOf key 0 →
      rd.bloom.mightContain key = .error .outOfBounds ∧
        rd.get c (some bytes) key = .error .outOfBounds) ∧
    (rd.bloom.bits.length ≤ 1935 →
      ((∀ key, rd.bloom.mightContain key ≠ .error .outOfBounds) ↔ rd.bloom.Sized) ∧
      ((∀ key, rd.get c (some bytes) key ≠ .error .outOfBounds) ↔ rd.bloom.Sized)) := by
  have hget : ∀ key, rd.get c (some bytes) key = .error .outOfBounds ↔
      rd.bloom.mightContain key = .error .outOfBounds :=
    fun key => get_outOfBounds_iff (open_isOpen h) key
  refine ⟨fun hsized key => ?_, fun hsized key hout => ?_, fun hshort => ?_⟩
  · have hsafe := hsized.mightContain_safe key
    exact ⟨hsafe, fun hg => hsafe ((hget key).mp hg)⟩
  · have hbad := BloomFilter.mightContain_outside hsized hout
    exact ⟨hbad, (hget key).mpr hbad⟩
  · have hiff := BloomFilter.mightContain_safe_iff hshort
    refine ⟨hiff, Iff.trans (forall_congr' fun key => not_congr (hget key)) hiff⟩

/-- A file of a header, an empty index and the fields of a bloom filter. -/
def bareFile (bitCount hashCount : Nat) (bits : Bytes) : Bytes :=
  Header.bytes { placeholderHeader 0 with indexOffset := 48, bloomOffset := 56 } ++
    (appendLe 8 0 ++ (bloomChunks ⟨bitCount, hashCount, bits⟩).flatten)

/-- One byte for eight bits: a query for any key stays inside. -/
theorem bareFile_safe :
    SstableReader.open {} [] (some (bareFile 8 1 [255]))
      = .ok { path := [], isOpen := true, indexOffset := 48, bloomOffset := 56,
              bloom := ⟨8, 1, [255]⟩ } ∧
    ∀ key, SstableReader.get (fallback zeroKey) (some (bareFile 8 1 [255]))
      { path := [], isOpen := true, indexOffset := 48, bloomOffset := 56,
        bloom := ⟨8, 1, [255]⟩ } key ≠ .error .outOfBounds := by
  have hopen : SstableReader.open {} [] (some (bareFile 8 1 [255]))
      = .ok { path := [], isOpen := true, indexOffset := 48, bloomOffset := 56,
              bloom := ⟨8, 1, [255]⟩ } := by decide +kernel
  exact ⟨hopen, ((bloom_safe_iff hopen).2.2 (by decide)).2.mpr (by decide)⟩

/-- **An accepted file whose query leaves the vector**: eight bits, one hash,
and a vector of no bytes. -/
theorem bareFile_unsafe :
    SstableReader.open {} [] (some (bareFile 8 1 []))
      = .ok { path := [], isOpen := true, indexOffset := 48, bloomOffset := 56,
              bloom := ⟨8, 1, []⟩ } ∧
    BloomFilter.mightContain ⟨8, 1, []⟩ [97] = .error .outOfBounds ∧
    SstableReader.get (fallback zeroKey) (some (bareFile 8 1 []))
      { path := [], isOpen := true, indexOffset := 48, bloomOffset := 56,
        bloom := ⟨8, 1, []⟩ } [97] = .error .outOfBounds := by
  decide +kernel

/-! ## The record at an offset, field by field -/

def keyLenAt (file : Bytes) (off : Nat) : Nat := readLe 2 (file.drop off)
def valLenAt (file : Bytes) (off : Nat) : Nat := readLe 4 (file.drop (off + 2))
def seqAt (file : Bytes) (off : Nat) : Nat := readLe 8 (file.drop (off + 6))
def tombAt (file : Bytes) (off : Nat) : Nat := readLe 1 (file.drop (off + 14))
def cipherLenAt (file : Bytes) (off : Nat) : Nat := readLe 4 (file.drop (off + 15))

def keyAt (file : Bytes) (off : Nat) : Bytes := slice file (off + 47) (keyLenAt file off)

/-- Nonce, tag and ciphertext of the record at `off`. -/
def storedBlob (file : Bytes) (off : Nat) : CipherBlob where
  nonce := ByteArr.ofBytes 12 (slice file (off + 19) 12)
  tag := ByteArr.ofBytes 16 (slice file (off + 31) 16)
  ciphertext := slice file (off + 47 + keyLenAt file off) (cipherLenAt file off)

def recordEnd (file : Bytes) (off : Nat) : Nat :=
  off + 47 + keyLenAt file off + cipherLenAt file off

theorem readRecordHeader_at (file : Bytes) (off : Nat) :
    readRecordHeader ⟨file, file.drop off, none, false⟩
      = if file.length < off + 19 then none
        else some ((keyLenAt file off, valLenAt file off, seqAt file off, tombAt file off,
          cipherLenAt file off), ⟨file, file.drop (off + 19), none, false⟩) := by
  simp only [readRecordHeader, readRaw_at (show 0 < 2 by omega)]
  by_cases h2 : file.length < off + 2
  · rw [if_pos h2, if_pos (by omega)]
  simp only [if_neg h2, readRaw_at (show 0 < 4 by omega), Nat.add_assoc, Nat.reduceAdd]
  by_cases h6 : file.length < off + 6
  · rw [if_pos h6, if_pos (by omega)]
  simp only [if_neg h6, readRaw_at (show 0 < 8 by omega), Nat.add_assoc, Nat.reduceAdd]
  by_cases h14 : file.length < off + 14
  · rw [if_pos h14, if_pos (by omega)]
  simp only [if_neg h14, readRaw_at (show 0 < 1 by omega), Nat.add_assoc, Nat.reduceAdd]
  by_cases h15 : file.length < off + 15
  · rw [if_pos h15, if_pos (by omega)]
  simp only [if_neg h15, readRaw_at (show 0 < 4 by omega), Nat.add_assoc, Nat.reduceAdd]
  by_cases h19 : file.length < off + 19
  · rw [if_pos h19, if_pos h19]
  · rw [if_neg h19, if_neg h19]
    rfl

/-- What `ReadRecordAt` makes of a record all of whose bytes are there. -/
def openRecord (c : Cipher) (file : Bytes) (off : Nat) : Res SstableRecord :=
  match c.decrypt (storedBlob file off) with
  | none => .error (Status.corruption "record decrypt failed")
  | some value =>
      if value.length ≠ valLenAt file off then
        .error (Status.corruption "record value length mismatch")
      else .ok ⟨keyAt file off, value, seqAt file off, tombAt file off ≠ 0⟩

/-- **`ReadRecordAt` by offsets.** -/
theorem readRecordAt_eq (c : Cipher) (file : Bytes) {off : Nat} (hoff : off < 2 ^ 63) :
    readRecordAt c {} (some file) off =
      if file.length < off + 19 then .error (Status.corruption "record header read failed")
      else if file.length < off + 47 then
        .error (Status.corruption "record nonce/tag read failed")
      else if file.length < off + 47 + keyLenAt file off then
        .error (Status.corruption "record key read failed")
      else if file.length < recordEnd file off then
        .error (Status.corruption "record cipher read failed")
      else openRecord c file off := by
  have hseek : (IStream.ofFile file none).seekg off = ⟨file, file.drop off, none, false⟩ := by
    rw [IStream.seekg, if_neg (by omega)]
    rfl
  simp only [readRecordAt, Bool.false_eq_true, if_false, hseek, readRecordHeader_at]
  by_cases h19 : file.length < off + 19
  · rw [if_pos h19, if_pos h19]
  simp only [if_neg h19, IStream.read_at (show off + 19 ≤ file.length ∨ 0 < 12 by omega)]
  by_cases h31 : file.length < off + 19 + 12
  · rw [if_pos h31, if_pos (by omega)]
  simp only [if_neg h31, IStream.read_at (show off + 19 + 12 ≤ file.length ∨ 0 < 16 by omega)]
  by_cases h47 : file.length < off + 19 + 12 + 16
  · rw [if_pos h47, if_pos (by omega)]
  rw [if_neg h47, if_neg (show ¬ file.length < off + 47 by omega)]
  have hstep : off + 19 + 12 + 16 = off + 47 := by omega
  simp only [hstep, IStream.read_at (n := keyLenAt file off)
    (show off + 47 ≤ file.length ∨ 0 < keyLenAt file off by omega)]
  by_cases hkey : file.length < off + 47 + keyLenAt file off
  · rw [if_pos hkey, if_pos hkey]
  simp only [if_neg hkey, IStream.read_at (n := cipherLenAt file off)
    (show off + 47 + keyLenAt file off ≤ file.length ∨ 0 < cipherLenAt file off by omega)]
  by_cases hend : file.length < recordEnd file off
  · rw [if_pos hend, if_pos (show file.length < off + 47 + keyLenAt file off
      + cipherLenAt file off from hend)]
  · rw [if_neg hend, if_neg (show ¬ file.length < off + 47 + keyLenAt file off
      + cipherLenAt file off from hend)]
    rfl

theorem readRecordAt_whole (c : Cipher) {file : Bytes} {off : Nat} (hoff : off < 2 ^ 63)
    (hend : recordEnd file off ≤ file.length) :
    readRecordAt c {} (some file) off = openRecord c file off := by
  have hsum : recordEnd file off = off + 47 + keyLenAt file off + cipherLenAt file off := rfl
  rw [readRecordAt_eq c file hoff, if_neg (by omega), if_neg (by omega), if_neg (by omega),
    if_neg (by omega)]

/-- What a record that is read says about the file. -/
theorem readRecordAt_ok {c : Cipher} {file : Bytes} {off : Nat} {r : SstableRecord}
    (h : readRecordAt c {} (some file) off = .ok r) :
    off < 2 ^ 63 ∧ recordEnd file off ≤ file.length ∧
      ∃ value, c.decrypt (storedBlob file off) = some value ∧
        value.length = valLenAt file off ∧
        r = ⟨keyAt file off, value, seqAt file off, tombAt file off ≠ 0⟩ := by
  have hoff : off < 2 ^ 63 := by
    by_contra hbig
    have hseek : (IStream.ofFile file none).seekg off = ⟨file, file, none, true⟩ := by
      rw [IStream.seekg, if_pos (by omega)]
      rfl
    have hbad : readRecordHeader ⟨file, file, none, true⟩ = none := rfl
    simp only [readRecordAt, Bool.false_eq_true, if_false, hseek, hbad] at h
    cases h
  rw [readRecordAt_eq c file hoff] at h
  split at h
  · cases h
  split at h
  · cases h
  split at h
  · cases h
  split at h
  · cases h
  rename_i hend
  refine ⟨hoff, Nat.not_lt.mp hend, ?_⟩
  rw [openRecord] at h
  cases hd : c.decrypt (storedBlob file off) with
  | none => rw [hd] at h; cases h
  | some value =>
      rw [hd] at h
      dsimp only at h
      by_cases hlen : value.length ≠ valLenAt file off
      · rw [if_pos hlen] at h; cases h
      · rw [if_neg hlen] at h
        exact ⟨value, rfl, not_not.mp hlen, (Except.ok.inj h).symm⟩

/-- A record that does not open, or is not all there, is corrupt. -/
theorem readRecordAt_corrupt {c : Cipher} {file : Bytes} {off : Nat} (hoff : off < 2 ^ 63)
    (h : recordEnd file off ≤ file.length →
      ∃ msg, openRecord c file off = .error (Status.corruption msg)) :
    ∃ msg, readRecordAt c {} (some file) off = .error (Status.corruption msg) := by
  rw [readRecordAt_eq c file hoff]
  split
  · exact ⟨_, rfl⟩
  split
  · exact ⟨_, rfl⟩
  split
  · exact ⟨_, rfl⟩
  split
  · exact ⟨_, rfl⟩
  · exact h (by omega)

theorem openRecord_of_refused {c : Cipher} {file : Bytes} {off : Nat}
    (h : c.decrypt (storedBlob file off) = none) :
    ∃ msg, openRecord c file off = .error (Status.corruption msg) := by
  rw [openRecord, h]
  exact ⟨_, rfl⟩

/-! ## One changed byte in a record -/

/-- The cipher refuses this blob with its nonce, its tag or its ciphertext
altered. -/
structure Cipher.Rejects (c : Cipher) (blob : CipherBlob) : Prop where
  nonce : ∀ nonce, nonce ≠ blob.nonce → c.decrypt { blob with nonce := nonce } = none
  tag : ∀ tag, tag ≠ blob.tag → c.decrypt { blob with tag := tag } = none
  ciphertext : ∀ text, text ≠ blob.ciphertext → c.decrypt { blob with ciphertext := text } = none

/-- Changing byte `i` to `b` changes what is read of the record at `off`
without a trace: a byte of its sequence number, a flip of its tombstone
flag, a byte of its key, or a key length behind which the same ciphertext
stands. -/
def Slips (file : Bytes) (off i : Nat) (b : UInt8) : Prop :=
  (off + 6 ≤ i ∧ i < off + 14) ∨
  (i = off + 14 ∧ (file[i]? = some 0 ∨ b = 0)) ∨
  (off + 47 ≤ i ∧ i < off + 47 + keyLenAt file off) ∨
  ((off ≤ i ∧ i < off + 2) ∧ recordEnd (file.set i b) off ≤ file.length ∧
    (storedBlob (file.set i b) off).ciphertext = (storedBlob file off).ciphertext)

instance (file : Bytes) (off i : Nat) (b : UInt8) : Decidable (Slips file off i b) :=
  inferInstanceAs (Decidable (_ ∨ _ ∨ _ ∨ _))

/-- The answer is the old one, or says that the file is damaged. -/
def Detected (before after : Res SstableRecord) : Prop :=
  after = before ∨ ∃ e, after = .error e ∧
    (e.code? = some .kCorruption ∨ e.code? = some .kIoError)

section

variable {c : Cipher} {file : Bytes} {off i : Nat} {b : UInt8}

theorem keyLenAt_set (h : i < off ∨ off + 2 ≤ i) :
    keyLenAt (file.set i b) off = keyLenAt file off := readLe_set_of_outside b h

theorem valLenAt_set (h : i < off + 2 ∨ off + 2 + 4 ≤ i) :
    valLenAt (file.set i b) off = valLenAt file off := readLe_set_of_outside b h

theorem seqAt_set (h : i < off + 6 ∨ off + 6 + 8 ≤ i) :
    seqAt (file.set i b) off = seqAt file off := readLe_set_of_outside b h

theorem tombAt_set (h : i < off + 14 ∨ off + 14 + 1 ≤ i) :
    tombAt (file.set i b) off = tombAt file off := readLe_set_of_outside b h

theorem cipherLenAt_set (h : i < off + 15 ∨ off + 15 + 4 ≤ i) :
    cipherLenAt (file.set i b) off = cipherLenAt file off := readLe_set_of_outside b h

theorem slice_set {k n : Nat} (h : i < k ∨ k + n ≤ i) :
    slice (file.set i b) k n = slice file k n := field_set_of_outside b h

/-- Away from the two lengths a change moves no part of the record. -/
theorem recordEnd_set (hkey : i < off ∨ off + 2 ≤ i) (hcipher : i < off + 15 ∨ off + 15 + 4 ≤ i) :
    recordEnd (file.set i b) off = recordEnd file off := by
  simp only [recordEnd, keyLenAt_set hkey, cipherLenAt_set hcipher]

theorem storedBlob_set (hkey : i < off ∨ off + 2 ≤ i)
    (hcipher : i < off + 15 ∨ off + 15 + 4 ≤ i) :
    storedBlob (file.set i b) off =
      { nonce := ByteArr.ofBytes 12 (slice (file.set i b) (off + 19) 12)
        tag := ByteArr.ofBytes 16 (slice (file.set i b) (off + 31) 16)
        ciphertext := slice (file.set i b) (off + 47 + keyLenAt file off)
          (cipherLenAt file off) } := by
  simp only [storedBlob, keyLenAt_set hkey, cipherLenAt_set hcipher]

/-- A record that is read, and a byte of its file that is changed. -/
structure Changed (c : Cipher) (file : Bytes) (off i : Nat) (b : UInt8) (value : Bytes) :
    Prop where
  off_lt : off < 2 ^ 63
  whole : recordEnd file off ≤ file.length
  decrypts : c.decrypt (storedBlob file off) = some value
  length : value.length = valLenAt file off
  rejects : c.Rejects (storedBlob file off)
  inside : i < file.length
  differs : file[i]? ≠ some b

namespace Changed

variable {value : Bytes} (h : Changed c file off i b value)

include h

/-- Outside the record nothing of it changes. -/
theorem same_outside (hi : i < off ∨ recordEnd file off ≤ i) :
    readRecordAt c {} (some (file.set i b)) off = readRecordAt c {} (some file) off := by
  have hsum : recordEnd file off = off + 47 + keyLenAt file off + cipherLenAt file off := rfl
  have hkl : keyLenAt (file.set i b) off = keyLenAt file off := keyLenAt_set (by omega)
  have hblob : storedBlob (file.set i b) off = storedBlob file off := by
    rw [storedBlob_set (by omega) (by omega), slice_set (by omega), slice_set (by omega),
      slice_set (by omega), storedBlob]
  have hend : recordEnd (file.set i b) off = recordEnd file off :=
    recordEnd_set (by omega) (by omega)
  have hwhole := h.whole
  rw [readRecordAt_whole c h.off_lt (by rw [hend, List.length_set]; exact hwhole),
    readRecordAt_whole c h.off_lt hwhole]
  simp only [openRecord, hblob, keyAt, hkl]
  rw [slice_set (by omega), valLenAt_set (by omega), seqAt_set (by omega),
    tombAt_set (by omega)]

/-- A change between the two lengths, or in the key, leaves the blob. -/
theorem storedBlob_same (hi : off + 2 ≤ i ∧ i < off + 15 ∨
    off + 47 ≤ i ∧ i < off + 47 + keyLenAt file off) :
    storedBlob (file.set i b) off = storedBlob file off ∧
      recordEnd (file.set i b) off ≤ file.length := by
  have hwhole := h.whole
  refine ⟨?_, ?_⟩
  · rw [storedBlob_set (by omega) (by omega), slice_set (by omega), slice_set (by omega),
      slice_set (by omega), storedBlob]
  · rw [recordEnd_set (by omega) (by omega)]
    exact hwhole

/-- A changed value length is noticed: the value is as long as it was. -/
theorem refused_valLen (hlo : off + 2 ≤ i) (hhi : i < off + 6) :
    ∃ msg, readRecordAt c {} (some (file.set i b)) off = .error (Status.corruption msg) := by
  have hblob := (h.storedBlob_same (by omega)).1
  have hne : valLenAt (file.set i b) off ≠ valLenAt file off :=
    readLe_set_ne h.inside hlo (by omega) h.differs
  refine readRecordAt_corrupt h.off_lt fun _ => ?_
  rw [openRecord, hblob, h.decrypts]
  dsimp only
  rw [if_pos (by rw [h.length]; exact hne.symm)]
  exact ⟨_, rfl⟩

/-- A changed ciphertext length is noticed: the ciphertext is another one. -/
theorem refused_cipherLen (hlo : off + 15 ≤ i) (hhi : i < off + 19) :
    ∃ msg, readRecordAt c {} (some (file.set i b)) off = .error (Status.corruption msg) := by
  have hkl : keyLenAt (file.set i b) off = keyLenAt file off := keyLenAt_set (by omega)
  have hne : cipherLenAt (file.set i b) off ≠ cipherLenAt file off :=
    readLe_set_ne h.inside hlo (by omega) h.differs
  refine readRecordAt_corrupt h.off_lt fun hend => openRecord_of_refused ?_
  have htext : slice (file.set i b) (off + 47 + keyLenAt file off)
      (cipherLenAt (file.set i b) off) ≠ (storedBlob file off).ciphertext := by
    intro heq
    have hlen := congrArg List.length heq
    rw [recordEnd, hkl] at hend
    rw [length_slice hend] at hlen
    exact hne (hlen.trans (length_slice h.whole))
  have hblob : storedBlob (file.set i b) off = { storedBlob file off with
      ciphertext := slice (file.set i b) (off + 47 + keyLenAt file off)
        (cipherLenAt (file.set i b) off) } := by
    simp only [storedBlob, hkl]
    rw [slice_set (k := off + 19) (by omega), slice_set (k := off + 31) (by omega)]
  rw [hblob]
  exact h.rejects.ciphertext _ htext

/-- A changed byte of a nonce or tag, which the file holds whole. -/
theorem ofBytes_set_ne {k n : Nat} (hlo : k ≤ i) (hhi : i < k + n) (hend : k + n ≤ file.length) :
    ByteArr.ofBytes n (slice (file.set i b) k n) ≠ ByteArr.ofBytes n (slice file k n) := by
  intro heq
  refine slice_set_ne h.inside hlo hhi h.differs ?_
  exact ByteArr.ofBytes_injective (length_slice (by rw [List.length_set]; exact hend))
    (length_slice hend) heq

theorem refused_nonce (hlo : off + 19 ≤ i) (hhi : i < off + 31) :
    ∃ msg, readRecordAt c {} (some (file.set i b)) off = .error (Status.corruption msg) := by
  have hsum : recordEnd file off = off + 47 + keyLenAt file off + cipherLenAt file off := rfl
  have hwhole := h.whole
  have hne := h.ofBytes_set_ne hlo (show i < off + 19 + 12 by omega) (by omega)
  refine readRecordAt_corrupt h.off_lt fun _ => openRecord_of_refused ?_
  rw [storedBlob_set (by omega) (by omega), slice_set (k := off + 31) (by omega),
    slice_set (k := off + 47 + keyLenAt file off) (by omega)]
  exact h.rejects.nonce _ hne

theorem refused_tag (hlo : off + 31 ≤ i) (hhi : i < off + 47) :
    ∃ msg, readRecordAt c {} (some (file.set i b)) off = .error (Status.corruption msg) := by
  have hsum : recordEnd file off = off + 47 + keyLenAt file off + cipherLenAt file off := rfl
  have hwhole := h.whole
  have hne := h.ofBytes_set_ne hlo (show i < off + 31 + 16 by omega) (by omega)
  refine readRecordAt_corrupt h.off_lt fun _ => openRecord_of_refused ?_
  rw [storedBlob_set (by omega) (by omega), slice_set (k := off + 19) (by omega),
    slice_set (k := off + 47 + keyLenAt file off) (by omega)]
  exact h.rejects.tag _ hne

theorem refused_ciphertext (hlo : off + 47 + keyLenAt file off ≤ i)
    (hhi : i < recordEnd file off) :
    ∃ msg, readRecordAt c {} (some (file.set i b)) off = .error (Status.corruption msg) := by
  have hne := slice_set_ne h.inside hlo hhi h.differs
  refine readRecordAt_corrupt h.off_lt fun _ => openRecord_of_refused ?_
  rw [storedBlob_set (by omega) (by omega), slice_set (k := off + 19) (by omega),
    slice_set (k := off + 31) (by omega)]
  exact h.rejects.ciphertext _ hne

/-- The record as it is read from the unchanged file. -/
theorem before : readRecordAt c {} (some file) off
    = .ok ⟨keyAt file off, value, seqAt file off, tombAt file off ≠ 0⟩ := by
  rw [readRecordAt_whole c h.off_lt h.whole, openRecord, h.decrypts]
  dsimp only
  rw [if_neg (by simp [h.length])]

/-- Where blob and value length stay, the changed record opens. -/
theorem still_opens (hblob : storedBlob (file.set i b) off = storedBlob file off)
    (hval : valLenAt (file.set i b) off = valLenAt file off)
    (hend : recordEnd (file.set i b) off ≤ file.length) :
    readRecordAt c {} (some (file.set i b)) off
      = .ok ⟨keyAt (file.set i b) off, value, seqAt (file.set i b) off,
          tombAt (file.set i b) off ≠ 0⟩ := by
  rw [readRecordAt_whole c h.off_lt (by rw [List.length_set]; exact hend), openRecord, hblob,
    h.decrypts]
  dsimp only
  rw [if_neg (by simp [h.length, hval])]

theorem opens_seq (hlo : off + 6 ≤ i) (hhi : i < off + 14) :
    ∃ r, readRecordAt c {} (some (file.set i b)) off = .ok r ∧ r.seq ≠ seqAt file off := by
  obtain ⟨hblob, hend⟩ := h.storedBlob_same (by omega)
  refine ⟨_, h.still_opens hblob (valLenAt_set (by omega)) hend, ?_⟩
  exact readLe_set_ne h.inside hlo (by omega) h.differs

theorem opens_key (hlo : off + 47 ≤ i) (hhi : i < off + 47 + keyLenAt file off) :
    ∃ r, readRecordAt c {} (some (file.set i b)) off = .ok r ∧ r.key ≠ keyAt file off := by
  obtain ⟨hblob, hend⟩ := h.storedBlob_same (by omega)
  have hkl : keyLenAt (file.set i b) off = keyLenAt file off := keyLenAt_set (by omega)
  refine ⟨_, h.still_opens hblob (valLenAt_set (by omega)) hend, ?_⟩
  show slice (file.set i b) (off + 47) (keyLenAt (file.set i b) off) ≠ _
  rw [hkl]
  exact slice_set_ne h.inside hlo hhi h.differs

/-- The flag is the one byte at its offset. -/
theorem tombAt_set_self (hi : i = off + 14) :
    (tombAt (file.set i b) off ≠ 0 ↔ b ≠ 0) ∧ (tombAt file off ≠ 0 ↔ file[i]? ≠ some 0) := by
  have hin := h.inside
  have hread : ∀ p : Bytes, ∀ x, p[off + 14]? = some x → tombAt p off = x.toNat := by
    intro p x hx
    obtain ⟨hlt, rfl⟩ := List.getElem?_eq_some_iff.mp hx
    rw [tombAt, readLe, List.drop_eq_getElem_cons hlt, List.take_succ_cons, List.take_zero,
      leNat, leNat, Nat.mul_zero, Nat.add_zero]
  have hzero : ∀ x : UInt8, x.toNat ≠ 0 ↔ x ≠ 0 := fun x =>
    not_congr (UInt8.toNat_inj (b := 0))
  subst hi
  refine ⟨?_, ?_⟩
  · rw [hread _ b (List.getElem?_set_self hin), hzero]
  · rw [hread _ _ (List.getElem?_eq_getElem hin), hzero, List.getElem?_eq_getElem hin]
    simp

theorem tomb_flips_iff (hi : i = off + 14) :
    ∃ r, readRecordAt c {} (some (file.set i b)) off = .ok r ∧
      (r = ⟨keyAt file off, value, seqAt file off, tombAt file off ≠ 0⟩ ↔
        ¬ (file[i]? = some 0 ∨ b = 0)) := by
  obtain ⟨hnew, hold⟩ := h.tombAt_set_self hi
  obtain ⟨hblob, hend⟩ := h.storedBlob_same (by omega)
  have hkl : keyLenAt (file.set i b) off = keyLenAt file off := keyLenAt_set (by omega)
  have hdiffers := h.differs
  refine ⟨_, h.still_opens hblob (valLenAt_set (by omega)) hend, ?_⟩
  rw [seqAt_set (by omega), keyAt, keyAt, hkl, slice_set (by omega)]
  simp only [SstableRecord.mk.injEq, true_and, decide_eq_decide]
  rw [hnew, hold]
  constructor
  · rintro hsame (h0 | h0)
    · exact hdiffers (by rw [h0, not_not.mp fun hb => hsame.mp hb h0])
    · exact hdiffers (by rw [h0, not_not.mp fun hb => hsame.mpr hb h0])
  · intro hnone
    have := not_or.mp hnone
    tauto

/-- A changed key length moves the ciphertext: it opens exactly if the same
bytes stand at the new place, and then the key has another length. -/
theorem keyLen_cases (hlo : off ≤ i) (hhi : i < off + 2) :
    ((recordEnd (file.set i b) off ≤ file.length ∧
        (storedBlob (file.set i b) off).ciphertext = (storedBlob file off).ciphertext) ∧
      ∃ r, readRecordAt c {} (some (file.set i b)) off = .ok r ∧ r.key ≠ keyAt file off) ∨
    (¬ (recordEnd (file.set i b) off ≤ file.length ∧
        (storedBlob (file.set i b) off).ciphertext = (storedBlob file off).ciphertext) ∧
      ∃ msg, readRecordAt c {} (some (file.set i b)) off = .error (Status.corruption msg)) := by
  have hne : keyLenAt (file.set i b) off ≠ keyLenAt file off :=
    readLe_set_ne h.inside hlo hhi h.differs
  have hblob : storedBlob (file.set i b) off = { storedBlob file off with
      ciphertext := (storedBlob (file.set i b) off).ciphertext } := by
    simp only [storedBlob]
    rw [slice_set (k := off + 19) (by omega), slice_set (k := off + 31) (by omega)]
  by_cases hslips : recordEnd (file.set i b) off ≤ file.length ∧
      (storedBlob (file.set i b) off).ciphertext = (storedBlob file off).ciphertext
  · left
    rw [hslips.2] at hblob
    refine ⟨hslips, _, h.still_opens hblob (valLenAt_set (by omega)) hslips.1, fun heq => hne ?_⟩
    have hsum : recordEnd file off = off + 47 + keyLenAt file off + cipherLenAt file off := rfl
    have hsum' : recordEnd (file.set i b) off = off + 47 + keyLenAt (file.set i b) off
      + cipherLenAt (file.set i b) off := rfl
    have hwhole := h.whole
    have hend := hslips.1
    have hlen : (keyAt (file.set i b) off).length = (keyAt file off).length :=
      congrArg List.length heq
    rwa [keyAt, keyAt, length_slice (by rw [List.length_set]; omega),
      length_slice (by omega)] at hlen
  · right
    refine ⟨hslips, readRecordAt_corrupt h.off_lt fun hend => openRecord_of_refused ?_⟩
    rw [List.length_set] at hend
    rw [hblob]
    exact h.rejects.ciphertext _ fun heq => hslips ⟨hend, heq⟩

/-- **What slips through.** A changed byte is noticed, or changes nothing,
exactly if it does not slip. -/
theorem detected_iff :
    Detected (readRecordAt c {} (some file) off)
      (readRecordAt c {} (some (file.set i b)) off) ↔ ¬ Slips file off i b := by
  have hsum : recordEnd file off = off + 47 + keyLenAt file off + cipherLenAt file off := rfl
  have hrefused : (∃ msg, readRecordAt c {} (some (file.set i b)) off
      = .error (Status.corruption msg)) → Detected (readRecordAt c {} (some file) off)
        (readRecordAt c {} (some (file.set i b)) off) := by
    rintro ⟨msg, hmsg⟩
    exact .inr ⟨_, hmsg, .inl rfl⟩
  have hopens : ∀ r, readRecordAt c {} (some (file.set i b)) off = .ok r →
      r ≠ ⟨keyAt file off, value, seqAt file off, tombAt file off ≠ 0⟩ →
      ¬ Detected (readRecordAt c {} (some file) off)
        (readRecordAt c {} (some (file.set i b)) off) := by
    intro r hr hne hdet
    rcases hdet with hsame | ⟨e, he, -⟩
    · rw [hr, h.before] at hsame
      exact hne (Except.ok.inj hsame)
    · rw [hr] at he
      cases he
  constructor
  · rintro hdet (⟨hlo, hhi⟩ | ⟨hi, hflip⟩ | ⟨hlo, hhi⟩ | ⟨⟨hlo, hhi⟩, hkey⟩)
    · obtain ⟨r, hr, hne⟩ := h.opens_seq hlo hhi
      exact hopens r hr (fun heq => hne (by rw [heq])) hdet
    · obtain ⟨r, hr, hiff⟩ := h.tomb_flips_iff hi
      exact hopens r hr (fun heq => hiff.mp heq hflip) hdet
    · obtain ⟨r, hr, hne⟩ := h.opens_key hlo hhi
      exact hopens r hr (fun heq => hne (by rw [heq])) hdet
    · rcases h.keyLen_cases hlo hhi with ⟨-, r, hr, hne⟩ | ⟨hnot, -⟩
      · exact hopens r hr (fun heq => hne (by rw [heq])) hdet
      · exact hnot hkey
  · intro hslips
    -- by the field the byte is in
    by_cases hout : i < off ∨ recordEnd file off ≤ i
    · exact .inl (h.same_outside hout)
    by_cases hkeyLen : i < off + 2
    · rcases h.keyLen_cases (by omega) hkeyLen with ⟨hkey, -⟩ | ⟨-, hcorrupt⟩
      · exact absurd (.inr (.inr (.inr ⟨⟨by omega, hkeyLen⟩, hkey⟩))) hslips
      · exact hrefused hcorrupt
    by_cases hvalLen : i < off + 6
    · exact hrefused (h.refused_valLen (by omega) hvalLen)
    by_cases hseq : i < off + 14
    · exact absurd (.inl ⟨by omega, hseq⟩) hslips
    by_cases htomb : i = off + 14
    · obtain ⟨r, hr, hiff⟩ := h.tomb_flips_iff htomb
      left
      rw [hr, h.before, hiff.mpr fun hflip => hslips (.inr (.inl ⟨htomb, hflip⟩))]
    by_cases hcipherLen : i < off + 19
    · exact hrefused (h.refused_cipherLen (by omega) hcipherLen)
    by_cases hnonce : i < off + 31
    · exact hrefused (h.refused_nonce (by omega) hnonce)
    by_cases htag : i < off + 47
    · exact hrefused (h.refused_tag (by omega) htag)
    by_cases hkey : i < off + 47 + keyLenAt file off
    · exact absurd (.inr (.inr (.inl ⟨by omega, hkey⟩))) hslips
    · exact hrefused (h.refused_ciphertext (by omega) (by omega))

end Changed

end

/-! ## A cipher without collisions, and a table of one deleted key -/

/-- Nonce, length and text in 16 bytes, for texts of at most three. -/
def spelled (nonce : ByteArr 12) (text : Bytes) : Bytes :=
  nonce.bytes ++ (UInt8.ofNat text.length :: (text ++ List.replicate (3 - text.length) 0))

/-- A small cipher that authenticates without any collision: the tag spells
out what it stands for. -/
def spelling : Cipher where
  Rand := ByteArr 12
  encrypt nonce text :=
    if text.length ≤ 3 then some ⟨nonce, ByteArr.ofBytes 16 (spelled nonce text), text⟩ else none
  decrypt blob :=
    if blob.ciphertext.length ≤ 3 ∧
        blob.tag = ByteArr.ofBytes 16 (spelled blob.nonce blob.ciphertext) then
      some blob.ciphertext
    else none

theorem length_spelled (nonce : ByteArr 12) {text : Bytes} (h : text.length ≤ 3) :
    (spelled nonce text).length = 16 := by
  simp only [spelled, List.length_append, nonce.length_eq, List.length_cons,
    List.length_replicate]
  omega

theorem spelled_injective {nonce nonce' : ByteArr 12} {text text' : Bytes}
    (h : text.length ≤ 3) (h' : text'.length ≤ 3)
    (heq : spelled nonce text = spelled nonce' text') : nonce = nonce' ∧ text = text' := by
  obtain ⟨hn, hrest⟩ := List.append_inj heq (nonce.length_eq.trans nonce'.length_eq.symm)
  obtain ⟨hlen, hrest⟩ := List.cons.inj hrest
  have hlen : text.length = text'.length := by
    have := congrArg UInt8.toNat hlen
    rw [UInt8.toNat_ofNat', UInt8.toNat_ofNat'] at this
    omega
  obtain ⟨htext, -⟩ := List.append_inj hrest hlen
  cases nonce
  cases nonce'
  cases hn
  exact ⟨rfl, htext⟩

theorem spelling_lawful : spelling.Lawful where
  decrypt_encrypt nonce text blob h := by
    simp only [spelling] at h ⊢
    by_cases hlen : text.length ≤ 3
    · rw [if_pos hlen] at h
      cases h
      rw [if_pos ⟨hlen, rfl⟩]
    · rw [if_neg hlen] at h
      cases h
  length_encrypt nonce text blob h := by
    simp only [spelling] at h
    by_cases hlen : text.length ≤ 3
    · rw [if_pos hlen] at h
      cases h
      rfl
    · rw [if_neg hlen] at h
      cases h

/-- It refuses every blob of its own with one part altered. -/
theorem spelling_rejects {blob : CipherBlob} (h : (spelling.decrypt blob).isSome) :
    spelling.Rejects blob := by
  obtain ⟨nonce, tag, text⟩ := blob
  simp only [spelling] at h
  by_cases hok : text.length ≤ 3 ∧ tag = ByteArr.ofBytes 16 (spelled nonce text)
  · obtain ⟨hlen, rfl⟩ := hok
    have hinj : ∀ nonce' text', text'.length ≤ 3 → ByteArr.ofBytes 16 (spelled nonce text)
        = ByteArr.ofBytes 16 (spelled nonce' text') → nonce = nonce' ∧ text = text' :=
      fun nonce' text' hlen' heq => spelled_injective hlen hlen'
        (ByteArr.ofBytes_injective (length_spelled _ hlen) (length_spelled _ hlen') heq)
    refine ⟨fun nonce' hne => if_neg ?_, fun tag' hne => if_neg ?_, fun text' hne => if_neg ?_⟩
    · exact fun hboth => hne (hinj _ _ hlen hboth.2).1.symm
    · exact fun hboth => hne hboth.2
    · exact fun hboth => hne (hinj _ _ hboth.1 hboth.2).2.symm
  · rw [if_neg hok] at h
    cases h

/-- A table of one deleted key, written with that cipher. -/
def deletedBuild : Res SstableMeta × Option OStream :=
  SstableBuilder.build spelling { rand := fun _ => ByteArr.ofBytes 12 [] } []
    [⟨[97], [], 7, true⟩]

def deletedFile : Bytes := (deletedBuild.2.map OStream.file).getD []

def deletedReader : SstableReader where
  path := []
  isOpen := true
  keyCount := 1
  indexOffset := 96
  bloomOffset := 115
  index := [⟨[97], 48⟩]
  bloom := ((BloomFilter.make 64 7).add [97]).toOption.getD ⟨0, 0, []⟩

theorem deletedBuild_ok : deletedBuild.1 = .ok ⟨[], 1, 7, 7⟩ := by decide +kernel

theorem deletedFile_opens :
    SstableReader.open {} [] (some deletedFile) = .ok deletedReader := by decide +kernel

theorem deletedFile_rejects :
    ∀ e ∈ deletedReader.index, spelling.Rejects (storedBlob deletedFile e.offset) := by
  intro e he
  rw [List.mem_singleton.mp he]
  exact spelling_rejects (by decide +kernel)

/-! ## Whole tables -/

/-- **Which damage to the records is detected.** A file that `Build` wrote,
one byte between the header and the index changed, opens as before; and for
every key, `Get` answers as before or with `Corruption`, exactly if the
change does not slip through in the key's own record. -/
theorem record_damage_iff {c : Cipher} (hc : c.Lawful) {io : BuildIo c} {path : Bytes}
    {records : List SstableRecord} {m : SstableMeta} {out : OStream}
    (hseq : ∀ r ∈ records, r.seq < 2 ^ 64)
    (hbuild : SstableBuilder.build c io path records = (.ok m, some out)) {rd : SstableReader}
    (hopen : SstableReader.open {} path (some out.file) = .ok rd)
    (haead : ∀ e ∈ rd.index, c.Rejects (storedBlob out.file e.offset)) {i : Nat}
    (hlo : 48 ≤ i) (hhi : i < rd.indexOffset) {b : UInt8} (hb : out.file[i]? ≠ some b) :
    SstableReader.open {} path (some (out.file.set i b)) = .ok rd ∧
    ∀ k, Detected (rd.get c (some out.file) k) (rd.get c (some (out.file.set i b)) k) ↔
      ∀ e ∈ rd.index, e.key = k → ¬ Slips out.file e.offset i b := by
  have htable := isTable_of_build hseq hbuild
  obtain ⟨rd', hopen', -, hreads⟩ := htable.opens hc path
  obtain rfl : rd' = rd := Except.ok.inj (hopen'.symm.trans hopen)
  obtain ⟨xs, bloom, hst⟩ := htable
  obtain rfl : readerOf path xs bloom = rd' := Except.ok.inj ((hst.opens path).symm.trans hopen)
  have hhi : i < indexOffset xs := hhi
  have hinside : i < out.file.length := by
    have hlen := congrArg List.length hst.drop_index
    have hcount : 8 ≤ (indexChunks (layout 48 xs)).flatten.length := by
      rw [indexChunks, List.flatten_cons, List.length_append, length_appendLe]
      omega
    rw [List.length_drop, List.length_append] at hlen
    omega
  refine ⟨hst.opens_of_ends (slice_set (k := 0) (by omega)) (List.drop_set_of_lt hhi) path,
    fun k => ?_⟩
  cases hfind : (merge (records.map SstableRecord.entry)).find k with
  | none =>
      -- no entry has the key, and no record is read
      obtain ⟨msg, hget⟩ := hreads.get_miss hfind
      rw [hget, hget]
      refine ⟨fun _ e he hkey => ?_, fun _ => .inl rfl⟩
      have hmem : k ∈ (merge (records.map SstableRecord.entry)).entries.map Prod.fst := by
        rw [← hreads.index_keys]
        exact List.mem_map.mpr ⟨e, he, hkey⟩
      have hsome := SortedMap.find_isSome_iff.mpr hmem
      rw [hfind] at hsome
      cases hsome
  | some v =>
      obtain ⟨e, he, hkey, hread, hget⟩ := hreads.get_eq_read hfind
      obtain ⟨hoff, hend, value, hdec, hlen, -⟩ := readRecordAt_ok hread
      have hchanged : Changed c out.file e.offset i b value :=
        ⟨hoff, hend, hdec, hlen, haead e he, hinside, hb⟩
      rw [hget, hget, hchanged.detected_iff]
      refine ⟨fun hnot e' he' hkey' => ?_, fun hall => hall e he hkey⟩
      rwa [hreads.index_unique he' he (hkey'.trans hkey.symm)]

/-- A byte of the value's length changed: every key is answered as before,
or the damage is reported. -/
theorem deletedFile_detected :
    deletedFile[50]? = some 0 ∧
    ∀ k, Detected (deletedReader.get spelling (some deletedFile) k)
      (deletedReader.get spelling (some (deletedFile.set 50 9)) k) := by
  obtain ⟨out, hbuild⟩ := build_ok_stream deletedBuild_ok
  have hfile : out.file = deletedFile := by
    have hout : deletedBuild.2 = some out := congrArg Prod.snd hbuild
    rw [deletedFile, hout]
    rfl
  have hbyte : deletedFile[50]? = some 0 := by decide +kernel
  have hslips : ¬ Slips deletedFile 48 50 9 := by decide +kernel
  have hopen := deletedFile_opens
  have haead := deletedFile_rejects
  rw [← hfile] at hopen haead hbyte hslips
  have hiff := (record_damage_iff spelling_lawful (by decide) hbuild hopen haead
    (show 48 ≤ 50 by decide) (show 50 < 96 by decide)
    (show out.file[50]? ≠ some 9 by rw [hbyte]; decide)).2
  rw [hfile] at hiff hbyte hslips
  refine ⟨hbyte, fun k => (hiff k).mpr fun e he _ => ?_⟩
  rw [List.mem_singleton.mp he]
  exact hslips

/-- **A deleted key comes back.** The tombstone flag of its record changed
to 0, `Get` answers with a live record and `Ok`. -/
theorem deletedFile_flag_slips :
    deletedBuild.1 = .ok ⟨[], 1, 7, 7⟩ ∧
    SstableReader.open {} [] (some deletedFile) = .ok deletedReader ∧
    (∀ e ∈ deletedReader.index, spelling.Rejects (storedBlob deletedFile e.offset)) ∧
    48 ≤ 62 ∧ 62 < deletedReader.indexOffset ∧ deletedFile[62]? = some 1 ∧
    deletedReader.get spelling (some deletedFile) [97] = .ok ⟨[97], [], 7, true⟩ ∧
    deletedReader.get spelling (some (deletedFile.set 62 0)) [97]
      = .ok ⟨[97], [], 7, false⟩ ∧
    ¬ Detected (deletedReader.get spelling (some deletedFile) [97])
      (deletedReader.get spelling (some (deletedFile.set 62 0)) [97]) := by
  have hbefore : deletedReader.get spelling (some deletedFile) [97]
      = .ok ⟨[97], [], 7, true⟩ := by decide +kernel
  have hafter : deletedReader.get spelling (some (deletedFile.set 62 0)) [97]
      = .ok ⟨[97], [], 7, false⟩ := by decide +kernel
  refine ⟨deletedBuild_ok, deletedFile_opens, deletedFile_rejects, by decide, by decide,
    by decide +kernel, hbefore, hafter, ?_⟩
  rw [hbefore, hafter]
  rintro (hsame | ⟨e, he, -⟩)
  · exact absurd hsame (by decide)
  · cases he

end VaultKV
