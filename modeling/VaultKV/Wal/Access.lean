import VaultKV.Machine
import VaultKV.Wal.Reopen

/-!
# Wal — Access

The log a second time, as the source INDEXES its mapping: offsets are sums
in `size_t`, every byte of the segment is a recorded load or store, and key
and value are loads from the decrypted plaintext. On a segment of `capacity`
bytes, from an offset inside it, `ParseRecordAt` touches nothing outside;
so `FindEndAndLastSeq` and `Replay` end inside the segment, whatever it
holds, and `Append` writes inside it.
-/

namespace VaultKV

open Lib Lib.Traced

/-! ## The twins -/

namespace Traced

/-- `crc32(data, len)` with `data` at `i`. -/
def crc32 (buf : Bytes) (i len : Nat) : Traced (BitVec 32) := do
  let data ← loads buf i len
  pure (VaultKV.crc32 data)

/-- `parse_fields`: `p` steps over the fields from `base + offset` on. -/
def parseFields (offset : Nat) (base : Bytes) (limit : Nat) : Traced (Res Fields) :=
  if addU64 offset kFixedRecordHeader > limit then
    pure (.error (Status.corruption "record header truncated"))
  else do
    let crc ← readLe 4 base offset
    if crc = 0 then pure (.error (Status.notFound "end of wal"))
    else do
      let timestampNs ← readLe 8 base (offset + 4)
      let seq ← readLe 8 base (offset + 12)
      let op ← load base (offset + 20)
      let keyLen ← readLe 2 base (offset + 21)
      let valLen ← readLe 4 base (offset + 23)
      let cipherLen ← readLe 4 base (offset + 27)
      let nonce ← loads base (offset + 31) 12
      let tag ← loads base (offset + 43) 16
      if cipherLen > 128 * 1024 * 1024 then
        pure (.error (Status.corruption "ciphertext length too large"))
      else
        let total := addU64 kFixedRecordHeader cipherLen
        if addU64 offset total > limit then
          pure (.error (Status.corruption "record body truncated"))
        else do
          let check ← crc32 base (offset + 4) (subU64 total 4)
          if check.toNat ≠ crc then pure (.error (Status.corruption "crc mismatch"))
          else
            pure (.ok {
              timestampNs := timestampNs
              seq := seq
              op := WalOp.ofByte op
              keyLen := keyLen
              valLen := valLen
              cipherLen := cipherLen
              nonce := ByteArr.ofBytes 12 nonce
              tag := ByteArr.ofBytes 16 tag
              payloadOffset := kFixedRecordHeader
              totalRecordLen := total })

/-- `ParseRecordAt`. -/
def parseRecordAt (c : Cipher) (capacity : Nat) (base : Bytes) (offset : Nat) :
    Traced (Res (WalRecord × Nat)) :=
  if addU64 offset 4 > capacity then pure (.error (Status.notFound "end"))
  else do
    let parsed ← parseFields offset base capacity
    match parsed with
    | .error e => pure (.error e)
    | .ok f => do
        let ciphertext ← loads base (offset + f.payloadOffset) f.cipherLen
        match c.decrypt { nonce := f.nonce, tag := f.tag, ciphertext := ciphertext } with
        | none => pure (.error (Status.corruption "wal decrypt failed"))
        | some plain =>
            if plain.length ≠ addU64 f.keyLen f.valLen then
              pure (.error (Status.corruption "wal key/value length mismatch"))
            else do
              let key ← loads plain 0 f.keyLen
              let value ← loads plain f.keyLen f.valLen
              pure (.ok ({ op := f.op, seq := f.seq, timestampNs := f.timestampNs,
                           key := key, value := value }, addU64 offset f.totalRecordLen))

/-- One round of the loop of `FindEndAndLastSeq`: `write_offset_` and
`last_seq_`. -/
def findEndRound (c : Cipher) (capacity : Nat) (base : Bytes) :
    Nat × Nat → Traced ((Nat × Nat) ⊕ (Nat × Nat))
  | (writeOffset, lastSeq) =>
      if writeOffset < capacity then do
        let parsed ← parseRecordAt c capacity base writeOffset
        match parsed with
        | .error _ => pure (.inr (writeOffset, lastSeq))
        | .ok (rec, next) => pure (.inl (next, rec.seq))
      else pure (.inr (writeOffset, lastSeq))

/-- One round of the loop of `Replay`: the offset and the callback's state. -/
def replayRound {σ : Type} (c : Cipher) (capacity : Nat) (w : Wal)
    (fn : σ → WalRecord → Res Nat × σ) (stopAtCorruption : Bool) :
    Nat × σ → Traced ((Nat × σ) ⊕ (Res Nat × σ))
  | (off, s) =>
      if off < w.writeOffset then do
        let parsed ← parseRecordAt c capacity w.segment off
        match parsed with
        | .error e =>
            if e.code? = some .kNotFound then pure (.inr (.ok 0, s))
            else if stopAtCorruption then pure (.inr (.error e, s))
            else pure (.inr (.ok 0, s))
        | .ok (rec, next) =>
            match fn s rec with
            | (.error e, s') => pure (.inr (.error e, s'))
            | (.ok _, s') => pure (.inl (next, s'))
      else pure (.inr (.ok 0, s))

/-- `SerializeRecord`: the checksum is stored over its placeholder. -/
def serializeRecord (c : Cipher) (rand : c.Rand) (rec : WalRecord) : Traced (Res Bytes) :=
  match c.encrypt rand (rec.key ++ rec.value) with
  | none => pure (.error (Status.cryptoError "wal encrypt failed"))
  | some blob => do
      let out := appendLe 4 0 ++ recordBody rec blob
      let crc ← crc32 out 4 (subU64 out.length 4)
      let out ← stores out 0 (appendLe 4 crc.toNat)
      pure (.ok out)

/-- `Append`: `memcpy` from the encoded record to `base_ + write_offset_`. -/
def append (c : Cipher) (capacity : Nat) (ts : Nat) (rand : c.Rand) (op : WalOp)
    (key value : Bytes) (w : Wal) : Traced (Res Nat × Wal) :=
  if w.isOpen = false then pure (.error (Status.ioError "wal not open"), w)
  else if key.length > 2 ^ 16 - 1 then
    pure (.error (Status.invalidArgument "key too large"), w)
  else if value.length > 2 ^ 32 - 1 then
    pure (.error (Status.invalidArgument "value too large"), w)
  else do
    let rec' : WalRecord :=
      { op := op, seq := addU64 w.lastSeq 1, timestampNs := ts % 2 ^ 64, key := key,
        value := value }
    let encoded ← serializeRecord c rand rec'
    match encoded with
    | .error e => pure (.error e, w)
    | .ok encoded =>
        if addU64 w.writeOffset encoded.length > capacity then
          pure (.error (Status.ioError "wal segment full (rotation not yet implemented)"), w)
        else do
          let bytes ← loads encoded 0 encoded.length
          let segment ← stores w.segment w.writeOffset bytes
          pure (.ok rec'.seq,
            { w with
                segment := segment
                writeOffset := addU64 w.writeOffset encoded.length
                lastSeq := rec'.seq })

end Traced

/-! ## `ParseRecordAt` -/

theorem runs_crc32 {buf : Bytes} {i n : Nat} (h : i + n ≤ buf.length) :
    Runs (Traced.crc32 buf i n) (crc32 (slice buf i n)) :=
  (Runs.loads n h).bind (Runs.pure _)

theorem subU64_eq {a b : Nat} (h : b ≤ a) (ha : a < 2 ^ 64) : subU64 a b = a - b := by
  unfold subU64
  omega

/-- The one-byte field: a load and the number it denotes. -/
theorem runs_op {base : Bytes} {i : Nat} (h : i < base.length) :
    Runs (load base i) (UInt8.ofNat (readLe 1 (base.drop i))) := by
  have hbyte : UInt8.ofNat (readLe 1 (base.drop i)) = base.getD i 0 := by
    rw [readLe, List.drop_eq_getElem_cons h, List.take_succ_cons, List.take_zero,
      List.getD_eq_getElem base 0 h]
    simp [leNat]
  rw [hbyte]
  exact Runs.load h

/-- Inside a segment of `capacity` bytes `parse_fields` loads inside it: the
header once it fits, the body once the length it claims does. -/
theorem runs_parseFields {base : Bytes} {capacity offset : Nat} (hlen : base.length = capacity)
    (hcap : capacity < 2 ^ 63) (hoff : offset ≤ capacity) :
    Runs (Traced.parseFields offset base capacity) (parseFields offset base capacity) := by
  unfold Traced.parseFields parseFields
  simp only [List.drop_drop, show kFixedRecordHeader = 59 from rfl]
  rw [addU64_eq (a := offset) (b := 59) (by omega)]
  by_cases hhead : offset + 59 > capacity
  · rw [if_pos hhead, if_pos hhead]
    exact Runs.pure _
  rw [if_neg hhead, if_neg hhead]
  refine (runs_readLe (by omega)).bind ?_
  by_cases hcrc : readLe 4 (base.drop offset) = 0
  · rw [if_pos hcrc, if_pos hcrc]
    exact Runs.pure _
  rw [if_neg hcrc, if_neg hcrc]
  refine (runs_readLe (by omega)).bind ((runs_readLe (by omega)).bind
    ((runs_op (by omega)).bind ((runs_readLe (by omega)).bind ((runs_readLe (by omega)).bind
      ((runs_readLe (by omega)).bind ((Runs.loads 12 (by omega)).bind
        ((Runs.loads 16 (by omega)).bind ?_)))))))
  by_cases hbig : readLe 4 (base.drop (offset + 27)) > 128 * 1024 * 1024
  · rw [if_pos hbig, if_pos hbig]
    exact Runs.pure _
  rw [if_neg hbig, if_neg hbig]
  generalize readLe 4 (base.drop (offset + 27)) = cipherLen at *
  rw [addU64_eq (a := 59) (by omega), addU64_eq (a := offset) (by omega)]
  by_cases hbody : offset + (59 + cipherLen) > capacity
  · rw [if_pos hbody, if_pos hbody]
    exact Runs.pure _
  rw [if_neg hbody, if_neg hbody, subU64_eq (by omega) (by omega)]
  refine (runs_crc32 (by omega)).bind ?_
  rw [slice]
  split
  · exact Runs.pure _
  · exact Runs.pure _

/-- **`ParseRecordAt` touches nothing outside**: neither of the segment nor
of the plaintext it cuts key and value from. -/
theorem runs_parseRecordAt (c : Cipher) {base : Bytes} {capacity offset : Nat}
    (hlen : base.length = capacity) (hcap : capacity < 2 ^ 63) (hoff : offset ≤ capacity) :
    Runs (Traced.parseRecordAt c capacity base offset)
      (parseRecordAt c capacity base offset) := by
  unfold Traced.parseRecordAt parseRecordAt
  rw [addU64_eq (a := offset) (b := 4) (by omega)]
  by_cases hend : offset + 4 > capacity
  · rw [if_pos hend, if_pos hend]
    exact Runs.pure _
  rw [if_neg hend, if_neg hend]
  refine (runs_parseFields hlen hcap hoff).bind ?_
  cases hf : parseFields offset base capacity with
  | error e => exact Runs.pure _
  | ok f =>
      obtain ⟨-, hacc, rfl⟩ := parseFields_ok_iff.mp hf
      have hfits := hacc.fits
      have hkey : (fieldsAt (base.drop offset)).keyLen < 256 ^ 2 := readLe_lt 2 _
      have hval : (fieldsAt (base.drop offset)).valLen < 256 ^ 4 := readLe_lt 4 _
      have htotal : (fieldsAt (base.drop offset)).totalRecordLen
          = 59 + readLe 4 ((base.drop offset).drop 27) := rfl
      have hpayload : offset + (fieldsAt (base.drop offset)).payloadOffset
          + (fieldsAt (base.drop offset)).cipherLen ≤ base.length := by
        show offset + 59 + readLe 4 ((base.drop offset).drop 27) ≤ base.length
        omega
      refine (Runs.loads _ hpayload).bind ?_
      dsimp only
      rw [List.drop_drop, slice, addU64_eq (b := (fieldsAt (base.drop offset)).valLen) (by omega),
        addU64_eq (a := offset) (by omega)]
      generalize fieldsAt (base.drop offset) = f at *
      cases c.decrypt ⟨f.nonce, f.tag, (base.drop (offset + f.payloadOffset)).take f.cipherLen⟩ with
      | none => exact Runs.pure _
      | some plain =>
          dsimp only
          by_cases hplain : plain.length ≠ f.keyLen + f.valLen
          · rw [if_pos hplain, if_pos hplain]
            exact Runs.pure _
          · rw [if_neg hplain, if_neg hplain]
            exact (Runs.loads f.keyLen (by omega)).bind
              ((Runs.loads f.valLen (by omega)).bind (Runs.pure _))

/-! ## The loops -/

/-- A round of `FindEndAndLastSeq` goes on behind a record that ends inside
the segment, at least a header further on. -/
theorem findEndRound_spec (c : Cipher) {capacity : Nat} (hcap : capacity < 2 ^ 63) {base : Bytes}
    (hlen : base.length = capacity) (s : Nat × Nat) (hs : s.1 ≤ capacity) :
    Round (Traced.findEndRound c capacity base) (fun s => s.1 ≤ capacity)
      (fun s => capacity - s.1)
      (fun s r => r.1 ≤ capacity ∧
        ∀ fuel, capacity ≤ s.1 + fuel → Wal.findEnd c capacity base fuel s.1 s.2 = r) s := by
  obtain ⟨off, last⟩ := s
  have hoff : off ≤ capacity := hs
  by_cases hin : off < capacity
  · have hparse := runs_parseRecordAt c hlen hcap hoff
    cases hp : parseRecordAt c capacity base off with
    | error e =>
        rw [hp] at hparse
        have hrun : Runs (Traced.findEndRound c capacity base (off, last)) (.inr (off, last)) := by
          simp only [Traced.findEndRound, if_pos hin]
          exact hparse.bind (Runs.pure _)
        refine .of_leave hrun ⟨hoff, fun fuel _ => ?_⟩
        cases fuel with
        | zero => rfl
        | succ fuel => simp only [Wal.findEnd, if_pos hin, hp]
    | ok r =>
        obtain ⟨rec, next⟩ := r
        obtain ⟨hmore, hnext⟩ := parseRecordAt_bounds hp
        rw [hp] at hparse
        have hrun : Runs (Traced.findEndRound c capacity base (off, last))
            (.inl (next, rec.seq)) := by
          simp only [Traced.findEndRound, if_pos hin]
          exact hparse.bind (Runs.pure _)
        refine .of_again hrun hnext ?_ fun r hr => ⟨hr.1, fun fuel hfuel => ?_⟩
        · show capacity - next < capacity - off
          omega
        · have hfuel : capacity ≤ off + fuel := hfuel
          obtain ⟨fuel, rfl⟩ : ∃ k, fuel = k + 1 := ⟨fuel - 1, by omega⟩
          simp only [Wal.findEnd, if_pos hin, hp]
          exact hr.2 fuel (show capacity ≤ next + fuel by omega)
  · have hrun : Runs (Traced.findEndRound c capacity base (off, last)) (.inr (off, last)) := by
      simp only [Traced.findEndRound, if_neg hin]
      exact Runs.pure _
    refine .of_leave hrun ⟨hoff, fun fuel _ => ?_⟩
    cases fuel with
    | zero => rfl
    | succ fuel => simp only [Wal.findEnd, if_neg hin]

/-- **`FindEndAndLastSeq` ends**, inside the segment, with the offset and
the sequence number of the model. -/
theorem findEnd_ends (c : Cipher) {capacity : Nat} (hcap : capacity < 2 ^ 63) {base : Bytes}
    (hlen : base.length = capacity) :
    ∃ t, While (Traced.findEndRound c capacity base) (0, 0) t ∧ t.InBounds ∧
      t.val = Wal.findEnd c capacity base capacity 0 0 ∧ t.val.1 ≤ capacity := by
  obtain ⟨t, hrun, hin, hle, hval⟩ :=
    while_ends (findEndRound_spec c hcap hlen) (0, 0) (Nat.zero_le capacity)
  exact ⟨t, hrun, hin, (hval capacity (by simp)).symm, hle⟩

section

variable {σ : Type} (c : Cipher) (capacity : Nat) (w : Wal)
  (fn : σ → WalRecord → Res Nat × σ) (stop : Bool)

/-- What a round of `Replay` does, by the record under its cursor. -/
def replayResult (c : Cipher) (capacity : Nat) (w : Wal)
    (fn : σ → WalRecord → Res Nat × σ) (stop : Bool) (off : Nat) (s : σ) :
    (Nat × σ) ⊕ (Res Nat × σ) :=
  if off < w.writeOffset then
    match parseRecordAt c capacity w.segment off with
    | .error e =>
        .inr (if e.code? = some .kNotFound then .ok 0 else if stop then .error e else .ok 0, s)
    | .ok (rec, next) =>
        match fn s rec with
        | (.error e, s') => .inr (.error e, s')
        | (.ok _, s') => .inl (next, s')
  else .inr (.ok 0, s)

theorem runs_replayRound {capacity : Nat} {w : Wal} (hcap : capacity < 2 ^ 63) (hlen : w.segment.length = capacity)
    {off : Nat} (hoff : off ≤ capacity) (s : σ) :
    Runs (Traced.replayRound c capacity w fn stop (off, s))
      (replayResult c capacity w fn stop off s) := by
  unfold replayResult
  simp only [Traced.replayRound]
  by_cases hin : off < w.writeOffset
  · rw [if_pos hin, if_pos hin]
    refine (runs_parseRecordAt c hlen hcap hoff).bind ?_
    cases parseRecordAt c capacity w.segment off with
    | error e =>
        dsimp only
        split
        · exact Runs.pure _
        · split
          · exact Runs.pure _
          · exact Runs.pure _
    | ok r =>
        dsimp only
        rcases fn s r.1 with ⟨res, s'⟩
        cases res with
        | error e => exact Runs.pure _
        | ok _ => exact Runs.pure _
  · rw [if_neg hin, if_neg hin]
    exact Runs.pure _

/-- The fuelled loop takes the same round. -/
theorem replayFrom_succ (fuel off : Nat) (s : σ) :
    Wal.replayFrom c capacity w fn stop (fuel + 1) off s =
      match replayResult c capacity w fn stop off s with
      | .inl (next, s') => Wal.replayFrom c capacity w fn stop fuel next s'
      | .inr r => r := by
  rw [Wal.replayFrom, replayResult]
  by_cases hin : off < w.writeOffset
  · rw [if_pos hin, if_pos hin]
    cases parseRecordAt c capacity w.segment off with
    | error e =>
        dsimp only
        split
        · rfl
        · split
          · rfl
          · rfl
    | ok r =>
        dsimp only
        rcases fn s r.1 with ⟨res, s'⟩
        cases res with
        | error e => rfl
        | ok _ => rfl
  · rw [if_neg hin, if_neg hin]

/-- A round that goes on went over a record. -/
theorem replayResult_inl {c : Cipher} {capacity : Nat} {w : Wal}
    {fn : σ → WalRecord → Res Nat × σ} {stop : Bool} {off next : Nat} {s s' : σ}
    (h : replayResult c capacity w fn stop off s = .inl (next, s')) :
    off < w.writeOffset ∧ off + 59 ≤ next ∧ next ≤ capacity := by
  unfold replayResult at h
  by_cases hin : off < w.writeOffset
  · rw [if_pos hin] at h
    cases hp : parseRecordAt c capacity w.segment off with
    | error e => rw [hp] at h; cases h
    | ok r =>
        obtain ⟨hmore, hnext⟩ := parseRecordAt_bounds hp
        simp only [hp] at h
        rcases hfn : fn s r.1 with ⟨res, s''⟩
        rw [hfn] at h
        cases res with
        | error e => cases h
        | ok _ =>
            cases h
            exact ⟨hin, hmore, hnext⟩
  · rw [if_neg hin] at h
    cases h

/-- A round of `Replay` leaves, or goes on behind a record inside the
segment. -/
theorem replayRound_spec {capacity : Nat} {w : Wal} (hcap : capacity < 2 ^ 63)
    (hlen : w.segment.length = capacity) (s : Nat × σ) (hs : s.1 ≤ capacity) :
    Round (Traced.replayRound c capacity w fn stop) (fun s => s.1 ≤ capacity)
      (fun s => capacity - s.1)
      (fun s r => ∀ fuel, w.writeOffset ≤ s.1 + fuel →
        Wal.replayFrom c capacity w fn stop fuel s.1 s.2 = r) s := by
  obtain ⟨off, s⟩ := s
  have hrun := runs_replayRound c fn stop hcap hlen hs s
  have hstep := fun fuel => replayFrom_succ c capacity w fn stop fuel off s
  cases hres : replayResult c capacity w fn stop off s with
  | inr r =>
      rw [hres] at hrun hstep
      refine .of_leave hrun fun fuel hfuel => ?_
      cases fuel with
      | zero =>
          have hfuel : w.writeOffset ≤ off := hfuel
          rw [replayResult, if_neg (by omega)] at hres
          exact Sum.inr.inj hres
      | succ fuel => exact hstep fuel
  | inl s' =>
      obtain ⟨hin, hmore, hnext⟩ := replayResult_inl hres
      rw [hres] at hrun hstep
      refine .of_again hrun hnext ?_ fun r hr fuel hfuel => ?_
      · show capacity - s'.1 < capacity - off
        omega
      · have hfuel : w.writeOffset ≤ off + fuel := hfuel
        obtain ⟨fuel, rfl⟩ : ∃ k, fuel = k + 1 := ⟨fuel - 1, by omega⟩
        rw [hstep fuel]
        exact hr fuel (by omega)

/-- **`Replay` ends**, inside the segment, whatever the callback does, with
what the model returns. -/
theorem replay_ends {capacity : Nat} {w : Wal} (hcap : capacity < 2 ^ 63)
    (hlen : w.segment.length = capacity) (s : σ) :
    ∃ t, While (Traced.replayRound c capacity w fn stop) (0, s) t ∧ t.InBounds ∧
      t.val = Wal.replayFrom c capacity w fn stop w.writeOffset 0 s := by
  obtain ⟨t, hrun, hin, hval⟩ :=
    while_ends (replayRound_spec c fn stop hcap hlen) (0, s) (Nat.zero_le capacity)
  exact ⟨t, hrun, hin, (hval w.writeOffset (by simp)).symm⟩

end

/-! ## `Append` -/

/-- No record outgrows a `std::string`, which holds fewer than `2 ^ 63`
bytes: `Append` encrypts a 16-bit and a 32-bit length of bytes. -/
def Cipher.InMemory (c : Cipher) : Prop :=
  ∀ rand plain blob, plain.length < 2 ^ 33 → c.encrypt rand plain = some blob →
    59 + blob.ciphertext.length < 2 ^ 63

theorem Cipher.Lawful.inMemory {c : Cipher} (hc : c.Lawful) : c.InMemory := by
  intro rand plain blob hplain hb
  rw [hc.length_encrypt _ _ _ hb]
  omega

theorem runs_serializeRecord {c : Cipher} (hmem : c.InMemory) (rand : c.Rand) {rec : WalRecord}
    (hplain : (rec.key ++ rec.value).length < 2 ^ 33) :
    Runs (Traced.serializeRecord c rand rec) (serializeRecord c rand rec) := by
  unfold Traced.serializeRecord serializeRecord
  cases hb : c.encrypt rand (rec.key ++ rec.value) with
  | none => exact Runs.pure _
  | some blob =>
      have hsize := hmem _ _ _ hplain hb
      have hbody := length_recordBody rec blob
      have hout : (appendLe 4 0 ++ recordBody rec blob).length = 59 + blob.ciphertext.length := by
        rw [List.length_append, length_appendLe, hbody]
        omega
      dsimp only
      generalize appendLe 4 0 ++ recordBody rec blob = out at *
      rw [subU64_eq (by omega) (by omega)]
      refine (runs_crc32 (by omega)).bind ?_
      have hrest : slice out 4 (out.length - 4) = out.drop 4 :=
        List.take_of_length_le (by rw [List.length_drop])
      have hpatch := Runs.stores (appendLe 4 (crc32 (out.drop 4)).toNat)
        (show 0 + (appendLe 4 (crc32 (out.drop 4)).toNat).length ≤ out.length by
          rw [length_appendLe]; omega)
      rw [hrest]
      refine hpatch.bind ?_
      rw [overwrite, length_appendLe]
      exact Runs.pure _

/-- **`Append` stores inside the segment**, and does what the model says. -/
theorem runs_append {c : Cipher} (hmem : c.InMemory) {capacity : Nat} (hcap : capacity < 2 ^ 63)
    {w : Wal} (hlen : w.segment.length = capacity) (hoff : w.writeOffset ≤ capacity) (ts : Nat)
    (rand : c.Rand) (op : WalOp) (key value : Bytes) :
    Runs (Traced.append c capacity ts rand op key value w)
      (w.append c capacity ts rand op key value) := by
  unfold Traced.append Wal.append
  by_cases hopen : w.isOpen = false
  · rw [if_pos hopen, if_pos hopen]
    exact Runs.pure _
  rw [if_neg hopen, if_neg hopen]
  by_cases hkey : key.length > 2 ^ 16 - 1
  · rw [if_pos hkey, if_pos hkey]
    exact Runs.pure _
  rw [if_neg hkey, if_neg hkey]
  by_cases hvalue : value.length > 2 ^ 32 - 1
  · rw [if_pos hvalue, if_pos hvalue]
    exact Runs.pure _
  rw [if_neg hvalue, if_neg hvalue]
  dsimp only
  have hplain : (key ++ value).length < 2 ^ 33 := by
    rw [List.length_append]
    omega
  refine (runs_serializeRecord hmem rand hplain).bind ?_
  generalize hs : serializeRecord c rand _ = res
  cases res with
  | error e => exact Runs.pure _
  | ok encoded =>
      obtain ⟨blob, hb, henc⟩ := serializeRecord_ok hs
      have hsize := hmem _ _ _ hplain hb
      have hlenc : encoded.length = 59 + blob.ciphertext.length := by
        rw [henc, List.length_append, length_appendLe, length_recordBody]
        omega
      dsimp only
      rw [addU64_eq (a := w.writeOffset) (by omega)]
      by_cases hfull : w.writeOffset + encoded.length > capacity
      · rw [if_pos hfull, if_pos hfull]
        exact Runs.pure _
      · rw [if_neg hfull, if_neg hfull]
        have hall : slice encoded 0 encoded.length = encoded := List.take_length
        have hcopy := Runs.loads encoded.length (show 0 + encoded.length ≤ encoded.length by omega)
        rw [hall] at hcopy
        exact hcopy.bind ((Runs.stores encoded (by omega)).bind (Runs.pure _))

/-! ## A log in use -/

/-- The open log fills a segment of `capacity` bytes and writes inside it. -/
structure Wal.Inside (capacity : Nat) (w : Wal) : Prop where
  isOpen : w.isOpen = true
  length : w.segment.length = capacity
  writeOffset_le : w.writeOffset ≤ capacity

theorem Wal.Inside.run {c : Cipher} {capacity : Nat} {w : Wal} (h : w.Inside capacity)
    (a : AppendCall c) : (a.run capacity w).2.Inside capacity := by
  rcases hrun : a.run capacity w with ⟨res, w'⟩
  cases res with
  | error e =>
      rw [append_error hrun]
      exact h
  | ok seq =>
      obtain ⟨-, -, -, -, encoded, -, hroom, rfl⟩ := append_eq_of_ok hrun
      exact ⟨h.isOpen, (length_overwrite (by rw [h.length]; exact hroom)).trans h.length, hroom⟩

theorem Wal.Inside.appendAll {c : Cipher} {capacity : Nat} (calls : List (AppendCall c)) :
    ∀ {w : Wal}, w.Inside capacity → (Wal.appendAll capacity calls w).2.Inside capacity := by
  induction calls with
  | nil => exact fun h => h
  | cons a calls ih =>
      intro w h
      have hnext := h.run a
      rcases hrun : a.run capacity w with ⟨res, w'⟩
      rw [hrun] at hnext
      cases res with
      | error e => simpa only [Wal.appendAll, hrun] using ih hnext
      | ok seq => simpa only [Wal.appendAll, hrun] using ih hnext

/-- **The log is memory-safe and its scans end, on any bytes.** Whatever a
segment of `capacity` bytes holds when it is opened, and whatever has been
appended since: the scan of `Open` ended inside the segment, the write
offset is inside it, and the next `ParseRecordAt`, `Append` and `Replay`
touch nothing outside the segment, the plaintext and the record they
build. -/
theorem wal_memory_safe {c : Cipher} (hmem : c.InMemory) {capacity : Nat}
    (hcap : capacity < 2 ^ 63) (pf : Platform) (io : Wal.OpenIo) {content : Bytes}
    (hcontent : content.length = capacity) {opened w : Wal}
    (hopened : opened = (({ segment := content } : Wal).open pf c capacity io).2)
    (hok : (({ segment := content } : Wal).open pf c capacity io).1.isOk = true)
    (calls : List (AppendCall c)) (hw : w = (Wal.appendAll capacity calls opened).2) :
    (∃ t, While (Traced.findEndRound c capacity content) (0, 0) t ∧ t.InBounds ∧
      t.val = (opened.writeOffset, opened.lastSeq)) ∧
    w.segment.length = capacity ∧ w.writeOffset ≤ capacity ∧
    (∀ offset ≤ capacity, Runs (Traced.parseRecordAt c capacity w.segment offset)
      (parseRecordAt c capacity w.segment offset)) ∧
    (∀ a : AppendCall c, Runs (Traced.append c capacity a.ts a.rand a.op a.key a.value w)
      (a.run capacity w)) ∧
    (∀ (σ : Type) (fn : σ → WalRecord → Res Nat × σ) (stop : Bool) (s : σ),
      ∃ t, While (Traced.replayRound c capacity w fn stop) (0, s) t ∧ t.InBounds ∧
        t.val = w.replay c capacity fn stop s) := by
  obtain ⟨heq, -, -⟩ := open_eq_of_ok rfl hok
  obtain ⟨t, hrun, hin, hval, hle⟩ := findEnd_ends c hcap hcontent
  simp only [resize_of_length hcontent, Wal.findEndAndLastSeq, ← hval] at heq
  rw [← hopened] at heq
  have hinside : opened.Inside capacity := by
    rw [heq]
    exact ⟨rfl, hcontent, hle⟩
  have hafter : w.Inside capacity := by
    rw [hw]
    exact hinside.appendAll calls
  refine ⟨⟨t, hrun, hin, by rw [heq]⟩, hafter.length, hafter.writeOffset_le,
    fun offset hoff => runs_parseRecordAt c hafter.length hcap hoff, fun a =>
      runs_append hmem hcap hafter.length hafter.writeOffset_le a.ts a.rand a.op a.key a.value,
    fun σ fn stop s => ?_⟩
  obtain ⟨u, hu, huin, huval⟩ := replay_ends c fn stop hcap hafter.length s
  refine ⟨u, hu, huin, ?_⟩
  rw [huval, Wal.replay, if_pos hafter.isOpen]

/-- The damaged log, opened and written to. -/
theorem damagedLog_memory_safe :
    damagedLog.length = 122 ∧ damagedLogBefore.writeOffset ≤ 122 ∧
    ∀ a : AppendCall (fallback zeroKey),
      (Traced.append (fallback zeroKey) 122 a.ts a.rand a.op a.key a.value
        damagedLogBefore).InBounds := by
  have hlen : damagedLog.length = 122 := by decide +kernel
  have hopened : damagedLogOpened = (({ segment := damagedLog } : Wal).open
      damagedLogPlatform (fallback zeroKey) 122 {}).2 := by rw [damagedLogOpened]
  have hok : (({ segment := damagedLog } : Wal).open damagedLogPlatform
      (fallback zeroKey) 122 {}).1.isOk = true := by decide +kernel
  have hbefore : damagedLogBefore = (Wal.appendAll 122 damagedLogAppend damagedLogOpened).2 := by
    rw [damagedLogBefore]
  have hsafe := wal_memory_safe (fallback_lawful zeroKey).inMemory (by decide)
    damagedLogPlatform {} hlen hopened hok damagedLogAppend hbefore
  exact ⟨hlen, hsafe.2.2.1, fun a => (hsafe.2.2.2.2.1 a).inBounds⟩

end VaultKV
