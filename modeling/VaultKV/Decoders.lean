import VaultKV.Framing
import VaultKV.Machine

/-!
# Decoders — the indices they read (`TryParseFrames`, `DecodeCommand`, `Decode…Payload`)

`Protocol` reads fields with `drop` and `take`, which cannot go wrong. Here
the decoders are written a second time as the source INDEXES: every byte is
a load at an index, every index and every length test is computed in the
integer type the source computes it in (`int`, `uint32_t`, `size_t`), and a
load outside the buffer is an entry of the trace that says so. Each twin is
then shown to stay inside its buffer and to return what `Protocol` says.
-/

namespace VaultKV

open Lib Lib.Traced

/-! ## The twins -/

namespace Traced

/-- `read_bytes`. -/
def readBytes (payload : Bytes) (offset len : Nat) : Traced Bytes := loads payload offset len

/-- One round of the loop of `TryParseFrames`: the offset and the frames
pushed so far, or what the loop is left with. -/
def parseRound (buf : Bytes) :
    Nat × List Frame → Traced ((Nat × List Frame) ⊕ (Option String × List Frame × Nat))
  | (offset, out) =>
      if buf.length < addU64 offset kFrameHeaderBytes then pure (.inr (none, out, offset))
      else do
        let type ← load buf offset
        let flags ← load buf (offset + 1)
        let length ← readLe 4 buf (offset + 2)
        if kMaxPayloadBytes < length then
          pure (.inr (some "payload too large", out, offset))
        else
          let frameBytes := addU64 kFrameHeaderBytes length
          if buf.length < addU64 offset frameBytes then pure (.inr (none, out, offset))
          else do
            -- `assign` copies from the first iterator up to the second
            let first := addU64 offset kFrameHeaderBytes
            let last := addU64 offset frameBytes
            let payload ← loads buf first (last - first)
            pure (.inl (addU64 offset frameBytes,
              out ++ [{ type := OpType.ofByte type, flags := flags, payload := payload }]))

/-- `TryParseFrames` behind its loop: `erase` moves the bytes from the
offset on to the front. -/
def finishParse (buf : Bytes) :
    Option String × List Frame × Nat → Traced (Option String × List Frame × Bytes)
  | (some err, out, _) => pure (some err, out, buf)
  | (none, out, offset) =>
      if 0 < offset then do
        let rest ← loads buf offset (buf.length - offset)
        pure (none, out, rest)
      else pure (none, out, buf)

/-- The common case of `GET` and `DEL`. -/
def decodeKey (type : OpType) (p : Bytes) : Traced (Except String Command) :=
  if p.length < 2 then pure (.error "GET/DEL payload too short")
  else do
    let keyLen ← readLe 2 p 0
    if p.length ≠ sizeT (addInt (2 : Nat) keyLen) then
      pure (.error "GET/DEL key length mismatch")
    else do
      let key ← readBytes p 2 keyLen
      pure (.ok { type := type, key := key })

/-- `DecodeCommand`. -/
def decodeCommand (frame : Frame) : Traced (Except String Command) :=
  let p := frame.payload
  match frame.type with
  | .ping => pure (.ok { type := .ping })
  | .set =>
      if p.length < 2 + 4 then pure (.error "SET payload too short")
      else do
        let keyLen ← readLe 2 p 0
        if p.length < sizeT (addInt (addInt (2 : Nat) keyLen) (4 : Nat)) then
          pure (.error "SET key truncated")
        else do
          let valLenOffset := sizeT (addInt (2 : Nat) keyLen)
          let valLen ← readLe 4 p valLenOffset
          let expect := addU64 (addU64 valLenOffset 4) valLen
          if p.length ≠ expect then pure (.error "SET payload length mismatch")
          else do
            let key ← readBytes p 2 keyLen
            let value ← readBytes p (addU64 valLenOffset 4) valLen
            pure (.ok { type := .set, key := key, value := value })
  | .get => decodeKey frame.type p
  | .del => decodeKey frame.type p
  | .scan =>
      if p.length < 2 + 2 then pure (.error "SCAN payload too short")
      else do
        let startLen ← readLe 2 p 0
        if p.length < sizeT (addInt (addInt (2 : Nat) startLen) (2 : Nat)) then
          pure (.error "SCAN prefix truncated")
        else do
          let start ← readBytes p 2 startLen
          let limit ← readLe 2 p (2 + startLen)
          pure (.ok { type := .scan, start := start,
                      limit := if limit = 0 then 100 else limit })
  | _ => pure (.error "unsupported request opcode")

/-- `DecodeAckPayload`. -/
def decodeAckPayload (payload : Bytes) : Traced (Option (Nat × Bytes)) :=
  if payload.length < 8 + 2 then pure none
  else do
    let seq ← readLe 8 payload 0
    let len ← readLe 2 payload 8
    if payload.length ≠ sizeT (addInt (10 : Nat) len) then pure none
    else do
      let message ← readBytes payload 10 len
      pure (some (seq, message))

/-- `DecodeErrorPayload`. -/
def decodeErrorPayload (payload : Bytes) : Traced (Option (Nat × Bytes)) :=
  if payload.length < 2 + 2 then pure none
  else do
    let code ← readLe 2 payload 0
    let len ← readLe 2 payload 2
    if payload.length ≠ sizeT (addInt (4 : Nat) len) then pure none
    else do
      let message ← readBytes payload 4 len
      pure (some (code, message))

/-- `DecodeValuePayload`: `4 + len` is a sum in `uint32_t`. -/
def decodeValuePayload (payload : Bytes) : Traced (Option Bytes) :=
  if payload.length < 4 then pure none
  else do
    let len ← readLe 4 payload 0
    if payload.length ≠ addU32 4 len then pure none
    else do
      let value ← readBytes payload 4 len
      pure (some value)

/-- The loop of `DecodeScanResultPayload`. -/
def decodeRows (payload : Bytes) :
    Nat → Nat → Traced (Except String (List (Bytes × Bytes) × Nat))
  | 0, off => pure (.ok ([], off))
  | n + 1, off =>
      if payload.length < addU64 off 2 then pure (.error "scan key len truncated")
      else do
        let keyLen ← readLe 2 payload off
        let off := addU64 off 2
        if payload.length < addU64 (addU64 off keyLen) 4 then
          pure (.error "scan key/value truncated")
        else do
          let key ← readBytes payload off keyLen
          let off := addU64 off keyLen
          let valueLen ← readLe 4 payload off
          let off := addU64 off 4
          if payload.length < addU64 off valueLen then pure (.error "scan value truncated")
          else do
            let value ← readBytes payload off valueLen
            let rest ← decodeRows payload n (addU64 off valueLen)
            match rest with
            | .error err => pure (.error err)
            | .ok (rows, stop) => pure (.ok ((key, value) :: rows, stop))

/-- `DecodeScanResultPayload`. -/
def decodeScanResultPayload (payload : Bytes) :
    Traced (Except String (List (Bytes × Bytes))) :=
  if payload.length < 2 then pure (.error "scan payload too short")
  else do
    let n ← readLe 2 payload 0
    let rows ← decodeRows payload n 2
    match rows with
    | .error err => pure (.error err)
    | .ok (entries, off) =>
        if off ≠ payload.length then pure (.error "scan payload trailing bytes")
        else pure (.ok entries)

end Traced

/-! ## In bounds -/

theorem runs_readBytes {buf : Bytes} {i n : Nat} (h : i + n ≤ buf.length) :
    Runs (Traced.readBytes buf i n) (readBytes buf i n) := Runs.loads n h

/-- GET and DEL: the key is cut out only if the payload ends with it. -/
theorem runs_decodeKey (type : OpType) (p : Bytes) :
    Runs (Traced.decodeKey type p) (decodeCommand.decodeKey type p) := by
  unfold Traced.decodeKey decodeCommand.decodeKey
  by_cases hshort : p.length < 2
  · rw [if_pos hshort, if_pos hshort]
    exact Runs.pure _
  rw [if_neg hshort, if_neg hshort]
  refine (runs_readLe (show 0 + 2 ≤ p.length by omega)).bind ?_
  have hk := readLe_lt 2 p
  rw [List.drop_zero, sizeT_addInt (by omega) hk]
  by_cases hend : p.length ≠ 2 + readLe 2 p
  · rw [if_pos hend]
    simp only [if_pos hend]
    exact Runs.pure _
  · rw [if_neg hend]
    simp only [if_neg hend]
    exact (runs_readBytes (not_not.mp hend).ge).bind (Runs.pure _)

theorem runs_decodeSet (flags : UInt8) (p : Bytes) (hp : p.length < 2 ^ 63) :
    Runs (Traced.decodeCommand ⟨.set, flags, p⟩) (decodeCommand ⟨.set, flags, p⟩) := by
  simp only [Traced.decodeCommand, decodeCommand]
  by_cases hshort : p.length < 2 + 4
  · rw [if_pos hshort, if_pos hshort]
    exact Runs.pure _
  rw [if_neg hshort, if_neg hshort]
  refine (runs_readLe (show 0 + 2 ≤ p.length by omega)).bind ?_
  have hk := readLe_lt 2 p
  rw [List.drop_zero, sizeT_addInt_addInt (by omega) (by omega) hk, sizeT_addInt (by omega) hk]
  generalize readLe 2 p = keyLen at *
  by_cases hkey : p.length < 2 + keyLen + 4
  · rw [if_pos hkey, if_pos hkey]
    exact Runs.pure _
  rw [if_neg hkey, if_neg hkey]
  refine (runs_readLe (Nat.not_lt.mp hkey)).bind ?_
  have hv := readLe_lt 4 (p.drop (2 + keyLen))
  generalize readLe 4 (p.drop (2 + keyLen)) = valLen at *
  rw [addU64_eq (a := 2 + keyLen) (by omega), addU64_eq (by omega)]
  by_cases hend : p.length ≠ 2 + keyLen + 4 + valLen
  · rw [if_pos hend, if_pos hend]
    exact Runs.pure _
  rw [if_neg hend, if_neg hend]
  refine (runs_readBytes (by omega)).bind ?_
  exact (runs_readBytes (not_not.mp hend).ge).bind (Runs.pure _)

theorem runs_decodeScan (flags : UInt8) (p : Bytes) :
    Runs (Traced.decodeCommand ⟨.scan, flags, p⟩) (decodeCommand ⟨.scan, flags, p⟩) := by
  simp only [Traced.decodeCommand, decodeCommand]
  by_cases hshort : p.length < 2 + 2
  · rw [if_pos hshort, if_pos hshort]
    exact Runs.pure _
  rw [if_neg hshort, if_neg hshort]
  refine (runs_readLe (show 0 + 2 ≤ p.length by omega)).bind ?_
  have hk := readLe_lt 2 p
  rw [List.drop_zero, sizeT_addInt_addInt (by omega) (by omega) hk]
  generalize readLe 2 p = startLen at *
  by_cases hend : p.length < 2 + startLen + 2
  · rw [if_pos hend, if_pos hend]
    exact Runs.pure _
  rw [if_neg hend, if_neg hend]
  refine (runs_readBytes (by omega)).bind ?_
  exact (runs_readLe (Nat.not_lt.mp hend)).bind (Runs.pure _)

theorem runs_decodeCommand {f : Frame} (hp : f.payload.length < 2 ^ 63) :
    Runs (Traced.decodeCommand f) (decodeCommand f) := by
  obtain ⟨type, flags, p⟩ := f
  cases type with
  | set => exact runs_decodeSet flags p hp
  | get => exact runs_decodeKey .get p
  | del => exact runs_decodeKey .del p
  | scan => exact runs_decodeScan flags p
  | _ => exact Runs.pure _

theorem runs_decodeAckPayload (p : Bytes) :
    Runs (Traced.decodeAckPayload p) (decodeAckPayload p) := by
  unfold Traced.decodeAckPayload decodeAckPayload
  by_cases hshort : p.length < 8 + 2
  · rw [if_pos hshort, if_pos hshort]
    exact Runs.pure _
  rw [if_neg hshort, if_neg hshort]
  refine (runs_readLe (show 0 + 8 ≤ p.length by omega)).bind ?_
  refine (runs_readLe (Nat.not_lt.mp hshort)).bind ?_
  have hl := readLe_lt 2 (p.drop 8)
  simp only [List.drop_zero, sizeT_addInt (le_refl 10) hl]
  by_cases hend : p.length ≠ 10 + readLe 2 (p.drop 8)
  · rw [if_pos hend, if_pos hend]
    exact Runs.pure _
  rw [if_neg hend, if_neg hend]
  exact (runs_readBytes (not_not.mp hend).ge).bind (Runs.pure _)

theorem runs_decodeErrorPayload (p : Bytes) :
    Runs (Traced.decodeErrorPayload p) (decodeErrorPayload p) := by
  unfold Traced.decodeErrorPayload decodeErrorPayload
  by_cases hshort : p.length < 2 + 2
  · rw [if_pos hshort, if_pos hshort]
    exact Runs.pure _
  rw [if_neg hshort, if_neg hshort]
  refine (runs_readLe (show 0 + 2 ≤ p.length by omega)).bind ?_
  refine (runs_readLe (Nat.not_lt.mp hshort)).bind ?_
  have hl := readLe_lt 2 (p.drop 2)
  simp only [List.drop_zero, sizeT_addInt (show 4 ≤ 10 by omega) hl]
  by_cases hend : p.length ≠ 4 + readLe 2 (p.drop 2)
  · rw [if_pos hend, if_pos hend]
    exact Runs.pure _
  rw [if_neg hend, if_neg hend]
  exact (runs_readBytes (not_not.mp hend).ge).bind (Runs.pure _)

/-- A sum `4 + len` that wraps is below 4, and a payload that short is
refused before. -/
theorem runs_decodeValuePayload (p : Bytes) :
    Runs (Traced.decodeValuePayload p) (decodeValuePayload p) := by
  unfold Traced.decodeValuePayload decodeValuePayload
  by_cases hshort : p.length < 4
  · rw [if_pos hshort, if_pos hshort]
    exact Runs.pure _
  rw [if_neg hshort, if_neg hshort]
  refine (runs_readLe (show 0 + 4 ≤ p.length by omega)).bind ?_
  have hl := readLe_lt 4 p
  simp only [List.drop_zero, addU32]
  by_cases hend : p.length ≠ (4 + readLe 4 p) % 2 ^ 32
  · rw [if_pos hend, if_pos hend]
    exact Runs.pure _
  rw [if_neg hend, if_neg hend]
  exact (runs_readBytes (by omega)).bind (Runs.pure _)

/-- The rows: the running offset never passes the end of the payload. -/
theorem runs_decodeRows {p : Bytes} (hp : p.length < 2 ^ 63) (n : Nat) :
    ∀ {off : Nat}, off ≤ p.length → Runs (Traced.decodeRows p n off) (decodeRows p n off) := by
  induction n with
  | zero => exact fun _ => Runs.pure _
  | succ n ih =>
      intro off hoff
      unfold Traced.decodeRows decodeRows
      rw [addU64_eq (b := 2) (by omega)]
      by_cases hkeyLen : p.length < off + 2
      · rw [if_pos hkeyLen, if_pos hkeyLen]
        exact Runs.pure _
      rw [if_neg hkeyLen, if_neg hkeyLen]
      refine (runs_readLe (Nat.not_lt.mp hkeyLen)).bind ?_
      have hk := readLe_lt 2 (p.drop off)
      dsimp only
      generalize readLe 2 (p.drop off) = keyLen at *
      rw [addU64_eq (b := keyLen) (by omega), addU64_eq (b := 4) (by omega)]
      by_cases hkey : p.length < off + 2 + keyLen + 4
      · rw [if_pos hkey, if_pos hkey]
        exact Runs.pure _
      rw [if_neg hkey, if_neg hkey]
      refine (runs_readBytes (by omega)).bind ((runs_readLe (Nat.not_lt.mp hkey)).bind ?_)
      have hv := readLe_lt 4 (p.drop (off + 2 + keyLen))
      generalize readLe 4 (p.drop (off + 2 + keyLen)) = valLen at *
      rw [addU64_eq (b := valLen) (by omega)]
      by_cases hval : p.length < off + 2 + keyLen + 4 + valLen
      · rw [if_pos hval, if_pos hval]
        exact Runs.pure _
      rw [if_neg hval, if_neg hval]
      refine (runs_readBytes (Nat.not_lt.mp hval)).bind ((ih (Nat.not_lt.mp hval)).bind ?_)
      cases decodeRows p n (off + 2 + keyLen + 4 + valLen) with
      | error err => exact Runs.pure _
      | ok r => exact Runs.pure _

theorem runs_decodeScanResultPayload {p : Bytes} (hp : p.length < 2 ^ 63) :
    Runs (Traced.decodeScanResultPayload p) (decodeScanResultPayload p) := by
  unfold Traced.decodeScanResultPayload decodeScanResultPayload
  by_cases hshort : p.length < 2
  · rw [if_pos hshort, if_pos hshort]
    exact Runs.pure _
  rw [if_neg hshort, if_neg hshort]
  refine (runs_readLe (show 0 + 2 ≤ p.length by omega)).bind ?_
  refine (runs_decodeRows hp _ (Nat.not_lt.mp hshort)).bind ?_
  rw [List.drop_zero]
  cases decodeRows p (readLe 2 p) 2 with
  | error err => exact Runs.pure _
  | ok r =>
      dsimp only
      by_cases hoff : r.2 ≠ p.length
      · rw [if_pos hoff, if_pos hoff]
        exact Runs.pure _
      · rw [if_neg hoff, if_neg hoff]
        exact Runs.pure _

/-! ## The loop of `TryParseFrames` -/

/-- What one round does, by the head of what is left of the buffer. -/
def roundResult (buf : Bytes) (s : Nat × List Frame) :
    (Nat × List Frame) ⊕ (Option String × List Frame × Nat) :=
  match frameHead (buf.drop s.1) with
  | .more => .inr (none, s.2, s.1)
  | .bad err => .inr (some err, s.2, s.1)
  | .frame f n => .inl (s.1 + n, s.2 ++ [f])

/-- A round loads inside the buffer: the header once it is complete, the
payload once the whole frame is there. -/
theorem runs_parseRound {buf : Bytes} (hbuf : buf.length < 2 ^ 63) {offset : Nat}
    (hoff : offset ≤ buf.length) (out : List Frame) :
    Runs (Traced.parseRound buf (offset, out)) (roundResult buf (offset, out)) := by
  have hlen : (buf.drop offset).length = buf.length - offset := List.length_drop
  simp only [Traced.parseRound, roundResult, show kFrameHeaderBytes = 6 from rfl]
  rw [addU64_eq (a := offset) (b := 6) (by omega)]
  by_cases hshort : buf.length < offset + 6
  · rw [if_pos hshort, frameHead_short (by omega)]
    exact Runs.pure _
  rw [if_neg hshort, frameHead_eq (by omega)]
  refine (Runs.load (by omega)).bind ((Runs.load (by omega)).bind
    ((runs_readLe (show offset + 2 + 4 ≤ buf.length by omega)).bind ?_))
  have hl := readLe_lt 4 (buf.drop (offset + 2))
  rw [List.drop_drop]
  generalize readLe 4 (buf.drop (offset + 2)) = length at *
  rw [addU64_eq (a := 6) (by omega), addU64_eq (a := offset) (by omega)]
  by_cases hbig : kMaxPayloadBytes < length
  · rw [if_pos hbig, if_pos hbig]
    exact Runs.pure _
  rw [if_neg hbig, if_neg hbig]
  by_cases hend : buf.length < offset + (6 + length)
  · rw [if_pos hend, if_pos (by omega)]
    exact Runs.pure _
  rw [if_neg hend, if_neg (by omega)]
  have hcount : offset + (6 + length) - (offset + 6) = length := by omega
  have hpayload : slice (buf.drop offset) 6 length = slice buf (offset + 6) length := by
    rw [slice, slice, List.drop_drop]
  have hbyte : ∀ i, (buf.drop offset).getD i 0 = buf.getD (offset + i) 0 := by
    intro i
    simp only [List.getD_eq_getElem?_getD, List.getElem?_drop]
  rw [hcount, hpayload, hbyte, hbyte]
  exact (Runs.loads length (by omega)).bind (Runs.pure _)

/-- What the loop from an offset on is left with: an offset in the buffer,
and what `parseFrom` returns whenever it has rounds enough. -/
def ParsesTo (buf : Bytes) (s : Nat × List Frame) (r : Option String × List Frame × Nat) : Prop :=
  r.2.2 ≤ buf.length ∧ ∀ fuel, buf.length ≤ s.1 + fuel →
    r = ((parseFrom buf fuel s.1).1, s.2 ++ (parseFrom buf fuel s.1).2.1,
      (parseFrom buf fuel s.1).2.2)

theorem parseRound_spec {buf : Bytes} (hbuf : buf.length < 2 ^ 63) (s : Nat × List Frame)
    (hs : s.1 ≤ buf.length) :
    Round (Traced.parseRound buf) (fun s => s.1 ≤ buf.length) (fun s => buf.length - s.1)
      (ParsesTo buf) s := by
  obtain ⟨offset, out⟩ := s
  have hs : offset ≤ buf.length := hs
  have hlen : (buf.drop offset).length = buf.length - offset := List.length_drop
  have hround := runs_parseRound hbuf hs out
  have hstep := parseFrom_succ hs
  simp only [roundResult] at hround
  cases hhead : frameHead (buf.drop offset) with
  | more =>
      rw [hhead] at hround
      refine .of_leave hround ⟨hs, fun fuel _ => ?_⟩
      cases fuel with
      | zero => simp only [parseFrom, List.append_nil]
      | succ fuel => simp only [hstep, hhead, List.append_nil]
  | bad err =>
      rw [hhead] at hround
      have hhas := (frameHead_bad hhead).1
      refine .of_leave hround ⟨hs, fun fuel hfuel => ?_⟩
      have hfuel : buf.length ≤ offset + fuel := hfuel
      obtain ⟨fuel, rfl⟩ : ∃ k, fuel = k + 1 := ⟨fuel - 1, by omega⟩
      simp only [hstep, hhead, List.append_nil]
  | frame f n =>
      rw [hhead] at hround
      have hpos : 0 < n := frames.size_pos hhead
      have hle : n ≤ (buf.drop offset).length := frames.size_le hhead
      refine .of_again hround ?_ ?_ fun r hr => ⟨hr.1, fun fuel hfuel => ?_⟩
      · show offset + n ≤ buf.length
        omega
      · show buf.length - (offset + n) < buf.length - offset
        omega
      · have hfuel : buf.length ≤ offset + fuel := hfuel
        obtain ⟨fuel, rfl⟩ : ∃ k, fuel = k + 1 := ⟨fuel - 1, by omega⟩
        rw [hr.2 fuel (show buf.length ≤ offset + n + fuel by omega)]
        simp only [hstep, hhead, List.append_assoc, List.singleton_append]

/-- `erase` moves what stands behind the offset. -/
theorem runs_finishParse {buf : Bytes} {r : Option String × List Frame × Nat}
    (h : r.2.2 ≤ buf.length) :
    Runs (Traced.finishParse buf r)
      (r.1, r.2.1, if r.1 = none then buf.drop r.2.2 else buf) := by
  obtain ⟨err, out, offset⟩ := r
  have h : offset ≤ buf.length := h
  cases err with
  | some err => exact Runs.pure _
  | none =>
      simp only [Traced.finishParse]
      by_cases hpos : 0 < offset
      · rw [if_pos hpos]
        have hall : slice buf offset (buf.length - offset) = buf.drop offset :=
          List.take_of_length_le (by rw [List.length_drop])
        have hmove : Runs (loads buf offset (buf.length - offset)) (buf.drop offset) :=
          hall ▸ Runs.loads _ (by omega)
        exact hmove.bind (Runs.pure _)
      · rw [if_neg hpos, Nat.eq_zero_of_not_pos hpos]
        exact Runs.pure _

/-- `TryParseFrames` as a whole: its loop ends, and neither the loop nor the
`erase` behind it leaves the buffer. -/
theorem tryParseFrames_runs {buf : Bytes} (hbuf : buf.length < 2 ^ 63) :
    ∃ t, While (Traced.parseRound buf) (0, []) t ∧
      Runs (t >>= Traced.finishParse buf) (tryParseFrames buf) := by
  obtain ⟨t, hrun, hin, hle, hpost⟩ :=
    while_ends (parseRound_spec hbuf) (0, []) (Nat.zero_le buf.length)
  have hval := hpost buf.length (by simp)
  refine ⟨t, hrun, Runs.bind ⟨rfl, hin⟩ ?_⟩
  have hfinish := runs_finishParse hle
  have hparse : tryParseFrames buf
      = (t.val.1, t.val.2.1, if t.val.1 = none then buf.drop t.val.2.2 else buf) := by
    rw [hval, tryParseFrames]
    rcases parseFrom buf buf.length 0 with ⟨err | err, out, offset⟩
    · rfl
    · rfl
  rw [hparse]
  exact hfinish

/-- **The network decoders read inside what they were given.** For every
buffer and every payload below `2 ^ 63` bytes, whatever its contents, each
decoder as the source indexes it makes only accesses inside its buffer, and
returns what its model returns; the loop of `TryParseFrames` ends. -/
theorem decoders_read_in_bounds :
    (∀ buf : Bytes, buf.length < 2 ^ 63 → ∃ t, While (Traced.parseRound buf) (0, []) t ∧
      Runs (t >>= Traced.finishParse buf) (tryParseFrames buf)) ∧
    (∀ f : Frame, f.payload.length < 2 ^ 63 →
      Runs (Traced.decodeCommand f) (decodeCommand f)) ∧
    (∀ p : Bytes, p.length < 2 ^ 63 →
      Runs (Traced.decodeAckPayload p) (decodeAckPayload p) ∧
      Runs (Traced.decodeErrorPayload p) (decodeErrorPayload p) ∧
      Runs (Traced.decodeValuePayload p) (decodeValuePayload p) ∧
      Runs (Traced.decodeScanResultPayload p) (decodeScanResultPayload p)) :=
  ⟨fun _ hbuf => tryParseFrames_runs hbuf, fun _ hp => runs_decodeCommand hp, fun p hp =>
    ⟨runs_decodeAckPayload p, runs_decodeErrorPayload p, runs_decodeValuePayload p,
      runs_decodeScanResultPayload hp⟩⟩

/-- A value payload whose length field makes `4 + len` wrap to 3. -/
theorem wrapped_length_in_bounds :
    addU32 4 (readLe 4 [255, 255, 255, 255, 7, 7]) = 3 ∧
    (Traced.decodeValuePayload [255, 255, 255, 255, 7, 7]).InBounds :=
  ⟨by decide, (decoders_read_in_bounds.2.2 [255, 255, 255, 255, 7, 7]
    (by decide)).2.2.1.inBounds⟩

end VaultKV
