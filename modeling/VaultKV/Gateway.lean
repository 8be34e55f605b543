import VaultKV.Protocol

/-!
# Gateway — the Python side of the protocol (`tlv_client.py`)

The gateway has a codec of its own: it packs requests with `struct.pack`,
which raises on a number that does not fit, and reads replies leniently, a
reply that is cut short giving what could be read. A text is its bytes on
the way out; on the way in its bytes go through `decode`, the decoding
with replacement, about which nothing is assumed.
-/

namespace VaultKV

open Lib

namespace Gateway

/-! ## Requests -/

/-- `struct.pack` of one unsigned number of `size` bytes; `none` when it
raises. -/
def pack (size : Nat) (n : Int) : Option Bytes :=
  if 0 ≤ n ∧ n < 256 ^ size then some (leBytes size n.toNat) else none

/-- `encode_set_payload`. -/
def encodeSetPayload (key value : Bytes) : Option Bytes := do
  let k ← pack 2 key.length
  let v ← pack 4 value.length
  some (k ++ (key ++ (v ++ value)))

/-- `encode_key_payload`. -/
def encodeKeyPayload (key : Bytes) : Option Bytes := do
  let k ← pack 2 key.length
  some (k ++ key)

/-- `encode_scan_payload`; `start` is its `prefix`. -/
def encodeScanPayload (start : Bytes) (limit : Int) : Option Bytes := do
  let p ← pack 2 start.length
  let l ← pack 2 (max 1 limit)
  some (p ++ (start ++ l))

/-! ## Replies -/

/-- `struct.unpack_from` of one unsigned number of `size` bytes. -/
def unpackFrom (size : Nat) (payload : Bytes) (offset : Nat) : Nat :=
  leNat (slice payload offset size)

variable {Text : Type} (decode : Bytes → Text)

/-- `parse_ack_payload`: `seq` and `message`. -/
def parseAckPayload (payload : Bytes) : Nat × Text :=
  if payload.length < 10 then (0, decode [])
  else
    let msgLen := unpackFrom 2 payload 8
    (unpackFrom 8 payload 0, decode (slice payload 10 msgLen))

/-- `parse_err_payload`: `code` and `message`. -/
def parseErrPayload (payload : Bytes) : Nat × Text :=
  if payload.length < 4 then (0, decode (textBytes "unknown error"))
  else
    let msgLen := unpackFrom 2 payload 2
    (unpackFrom 2 payload 0, decode (slice payload 4 msgLen))

/-- `parse_value_payload`. -/
def parseValuePayload (payload : Bytes) : Text :=
  if payload.length < 4 then decode []
  else decode (slice payload 4 (unpackFrom 4 payload 0))

/-- The loop of `parse_scan_result_payload`, `count` rows from `offset` on;
a row that is cut short ends it. -/
def parseRows (payload : Bytes) : Nat → Nat → List (Text × Text)
  | 0, _ => []
  | count + 1, offset =>
      if payload.length < offset + 2 then []
      else
        let keyLen := unpackFrom 2 payload offset
        let offset := offset + 2
        if payload.length < offset + keyLen + 4 then []
        else
          let key := decode (slice payload offset keyLen)
          let offset := offset + keyLen
          let valLen := unpackFrom 4 payload offset
          let offset := offset + 4
          if payload.length < offset + valLen then []
          else
            let value := decode (slice payload offset valLen)
            (key, value) :: parseRows payload count (offset + valLen)

/-- `parse_scan_result_payload`. -/
def parseScanResultPayload (payload : Bytes) : List (Text × Text) :=
  if payload.length < 2 then []
  else parseRows decode payload (unpackFrom 2 payload 0) 2

end Gateway

open Gateway

/-! ## The node reads what the gateway packs -/

theorem pack_length {size : Nat} {n : Nat} (h : n < 256 ^ size) :
    pack size n = some (appendLe size n) := by
  have hfit : (0 : Int) ≤ n ∧ (n : Int) < 256 ^ size := ⟨by omega, by exact_mod_cast h⟩
  rw [pack, if_pos hfit]
  rfl

theorem encodeSetPayload_eq {key value : Bytes} (hk : key.length < 256 ^ 2)
    (hv : value.length < 256 ^ 4) : encodeSetPayload key value = some (setPayload key value) := by
  rw [encodeSetPayload, pack_length hk, pack_length hv]
  rfl

theorem encodeKeyPayload_eq {key : Bytes} (hk : key.length < 256 ^ 2) :
    encodeKeyPayload key = some (keyPayload key) := by
  rw [encodeKeyPayload, pack_length hk]
  rfl

/-- The payload of a SCAN request. -/
def scanPayload (start : Bytes) (limit : Nat) : Bytes :=
  appendLe 2 start.length ++ (start ++ appendLe 2 limit)

theorem encodeScanPayload_eq {start : Bytes} {limit : Nat} (hs : start.length < 256 ^ 2)
    (hpos : 1 ≤ limit) (hl : limit < 256 ^ 2) :
    encodeScanPayload start limit = some (scanPayload start limit) := by
  have hmax : max 1 (limit : Int) = limit := by omega
  rw [encodeScanPayload, pack_length hs, hmax, pack_length hl]
  rfl

/-- `DecodeCommand` reads a SCAN from the front of its payload: what stands
behind the limit is not looked at. -/
theorem decodeCommand_scan_append {start : Bytes} {limit : Nat} (hs : start.length < 256 ^ 2)
    (hl : limit < 256 ^ 2) (extra : Bytes) (flags : UInt8) :
    decodeCommand ⟨.scan, flags, scanPayload start limit ++ extra⟩
      = .ok { type := .scan, start := start, limit := if limit = 0 then 100 else limit } := by
  have hd : (scanPayload start limit ++ extra).drop 0
      = appendLe 2 start.length ++ (start ++ (appendLe 2 limit ++ extra)) := by
    simp only [scanPayload, List.append_assoc, List.drop_zero]
  have hd2 := drop_step hd (length_appendLe 2 _)
  have hds := drop_step hd2 rfl
  have h0 : readLe 2 (scanPayload start limit ++ extra) = start.length := readLe_step hd hs
  have hlim := readLe_step hds hl
  have hstart := take_step hd2 rfl
  have hlen : (scanPayload start limit ++ extra).length = 2 + start.length + 2 + extra.length := by
    simp [scanPayload]; omega
  rw [Nat.zero_add] at hlim hstart
  unfold decodeCommand
  simp only [hlen, h0, hlim]
  rw [if_neg (by omega), if_neg (by omega)]
  simp only [readBytes, slice, hstart]

/-- A SCAN request decodes to its prefix and its limit. -/
theorem decodeCommand_scan {start : Bytes} {limit : Nat} (hs : start.length < 256 ^ 2)
    (hpos : 1 ≤ limit) (hl : limit < 256 ^ 2) (flags : UInt8) :
    decodeCommand ⟨.scan, flags, scanPayload start limit⟩
      = .ok { type := .scan, start := start, limit := limit } := by
  have h := decodeCommand_scan_append hs hl [] flags
  rwa [List.append_nil, if_neg (by omega)] at h

/-! ## The gateway reads what the node accepts -/

section

variable {Text : Type} (decode : Bytes → Text)

theorem parseAckPayload_of_decode {payload : Bytes} {seq : Nat} {message : Bytes}
    (h : decodeAckPayload payload = some (seq, message)) :
    parseAckPayload decode payload = (seq, decode message) := by
  unfold decodeAckPayload at h
  by_cases hshort : payload.length < 8 + 2
  · rw [if_pos hshort] at h; cases h
  rw [if_neg hshort] at h
  by_cases hlen : payload.length ≠ 10 + readLe 2 (payload.drop 8)
  · simp only [if_pos hlen] at h; cases h
  · simp only [if_neg hlen] at h
    cases h
    rw [parseAckPayload, if_neg hshort]
    rfl

theorem parseErrPayload_of_decode {payload : Bytes} {code : Nat} {message : Bytes}
    (h : decodeErrorPayload payload = some (code, message)) :
    parseErrPayload decode payload = (code, decode message) := by
  unfold decodeErrorPayload at h
  by_cases hshort : payload.length < 2 + 2
  · rw [if_pos hshort] at h; cases h
  rw [if_neg hshort] at h
  by_cases hlen : payload.length ≠ 4 + readLe 2 (payload.drop 2)
  · simp only [if_pos hlen] at h; cases h
  · simp only [if_neg hlen] at h
    cases h
    rw [parseErrPayload, if_neg hshort]
    rfl

theorem parseValuePayload_of_decode {payload value : Bytes}
    (h : decodeValuePayload payload = some value) :
    parseValuePayload decode payload = decode value := by
  unfold decodeValuePayload at h
  by_cases hshort : payload.length < 4
  · rw [if_pos hshort] at h; cases h
  rw [if_neg hshort] at h
  by_cases hlen : payload.length ≠ (4 + readLe 4 payload) % 2 ^ 32
  · simp only [if_pos hlen] at h; cases h
  · simp only [if_neg hlen] at h
    cases h
    rw [parseValuePayload, if_neg hshort]
    rfl

/-- Rows the node reads without an error are the rows the gateway reads:
its loop breaks where the node's fails. -/
theorem parseRows_of_decode {payload : Bytes} (n : Nat) :
    ∀ {off e : Nat} {rows : List (Bytes × Bytes)},
      decodeRows payload n off = .ok (rows, e) →
      parseRows decode payload n off = rows.map fun r => (decode r.1, decode r.2) := by
  induction n with
  | zero =>
      intro off e rows h
      cases h
      rfl
  | succ n ih =>
      intro off e rows h
      rw [decodeRows] at h
      rw [parseRows]
      by_cases hkey : payload.length < off + 2
      · rw [if_pos hkey] at h; cases h
      rw [if_neg hkey] at h ⊢
      -- both sides read the same numbers
      have hk : unpackFrom 2 payload off = readLe 2 (payload.drop off) := rfl
      have hv : ∀ i, unpackFrom 4 payload i = readLe 4 (payload.drop i) := fun _ => rfl
      simp only [hk, hv]
      generalize readLe 2 (payload.drop off) = keyLen at h ⊢
      by_cases hval : payload.length < off + 2 + keyLen + 4
      · simp only [if_pos hval] at h; cases h
      simp only [if_neg hval] at h ⊢
      generalize readLe 4 (payload.drop (off + 2 + keyLen)) = valLen at h ⊢
      by_cases hend : payload.length < off + 2 + keyLen + 4 + valLen
      · simp only [if_pos hend] at h; cases h
      simp only [if_neg hend] at h ⊢
      cases hrest : decodeRows payload n (off + 2 + keyLen + 4 + valLen) with
      | error err => rw [hrest] at h; cases h
      | ok r =>
          rw [hrest] at h
          cases h
          rw [ih hrest]
          rfl

theorem parseScanResultPayload_of_decode {payload : Bytes} {rows : List (Bytes × Bytes)}
    (h : decodeScanResultPayload payload = .ok rows) :
    parseScanResultPayload decode payload = rows.map fun r => (decode r.1, decode r.2) := by
  unfold decodeScanResultPayload at h
  by_cases hshort : payload.length < 2
  · rw [if_pos hshort] at h; cases h
  rw [if_neg hshort] at h
  cases hrows : decodeRows payload (readLe 2 payload) 2 with
  | error err => rw [hrows] at h; cases h
  | ok r =>
      obtain ⟨entries, off⟩ := r
      rw [hrows] at h
      dsimp only at h
      by_cases hoff : off ≠ payload.length
      · rw [if_pos hoff] at h; cases h
      · rw [if_neg hoff] at h
        cases h
        rw [parseScanResultPayload, if_neg hshort]
        exact parseRows_of_decode decode _ hrows

end

/-- **Gateway and node speak the same format.** The node decodes what the
gateway packs to the fields it was given, and what the node's decoders
accept the gateway reads to the same fields, with every row of a scan. -/
theorem gateway_speaks_node_format {Text : Type} (decode : Bytes → Text) (flags : UInt8) :
    (∀ key value : Bytes, key.length ≤ 65535 →
      2 + key.length + 4 + value.length ≤ kMaxPayloadBytes →
      ∃ p, encodeSetPayload key value = some p ∧
        decodeCommand ⟨.set, flags, p⟩ = .ok { type := .set, key := key, value := value }) ∧
    (∀ key : Bytes, key.length ≤ 65535 →
      ∃ p, encodeKeyPayload key = some p ∧
        decodeCommand ⟨.get, flags, p⟩ = .ok { type := .get, key := key } ∧
        decodeCommand ⟨.del, flags, p⟩ = .ok { type := .del, key := key }) ∧
    (∀ (start : Bytes) (limit : Nat), start.length ≤ 65535 → 1 ≤ limit → limit ≤ 65535 →
      ∃ p, encodeScanPayload start limit = some p ∧
        decodeCommand ⟨.scan, flags, p⟩
          = .ok { type := .scan, start := start, limit := limit }) ∧
    (∀ payload seq message, decodeAckPayload payload = some (seq, message) →
      parseAckPayload decode payload = (seq, decode message)) ∧
    (∀ payload code message, decodeErrorPayload payload = some (code, message) →
      parseErrPayload decode payload = (code, decode message)) ∧
    (∀ payload value, decodeValuePayload payload = some value →
      parseValuePayload decode payload = decode value) ∧
    (∀ payload rows, decodeScanResultPayload payload = .ok rows →
      parseScanResultPayload decode payload = rows.map fun r => (decode r.1, decode r.2)) := by
  refine ⟨fun key value hk hp => ?_, fun key hk => ?_, fun start limit hs hpos hl => ?_,
    fun _ _ _ => parseAckPayload_of_decode decode, fun _ _ _ => parseErrPayload_of_decode decode,
    fun _ _ => parseValuePayload_of_decode decode,
    fun _ _ => parseScanResultPayload_of_decode decode⟩
  · have hv : value.length < 2 ^ 32 := by rw [kMaxPayloadBytes] at hp; omega
    exact ⟨_, encodeSetPayload_eq (by omega) (by omega), decodeCommand_set (by omega) hv flags⟩
  · exact ⟨_, encodeKeyPayload_eq (by omega), decodeCommand_get (by omega) flags,
      decodeCommand_del (by omega) flags⟩
  · exact ⟨_, encodeScanPayload_eq (by omega) hpos (by omega),
      decodeCommand_scan (by omega) hpos (by omega) flags⟩

/-- Two rows, the second with an empty value. -/
theorem gateway_reads_two_rows :
    parseScanResultPayload id [2, 0, 1, 0, 97, 1, 0, 0, 0, 49, 1, 0, 98, 0, 0, 0, 0]
      = [([97], [49]), ([98], [])] :=
  (gateway_speaks_node_format id 0).2.2.2.2.2.2
    [2, 0, 1, 0, 97, 1, 0, 0, 0, 49, 1, 0, 98, 0, 0, 0, 0] [([97], [49]), ([98], [])]
    (by decide)

end VaultKV
