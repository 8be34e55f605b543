import VaultKV.Util

/-!
# Protocol — frames and commands (`protocol.h`, `protocol.cpp`)

A frame is a type byte, a flags byte and a payload. `TryParseFrames` cuts
frames out of what a connection has received so far; `DecodeCommand` reads
a request and the `Decode…Payload` functions read replies. Every length in
a payload is checked against its size before a byte behind it is read.
-/

namespace VaultKV

open Lib

/-- `enum class OpType : uint8_t`; any other byte may arrive as a type. -/
inductive OpType where
  | ping
  | set
  | get
  | del
  | scan
  | ack
  | err
  | val
  | scanResult
  | raw (b : UInt8)
      (h : b ∉ [0x01, 0x02, 0x03, 0x04, 0x05, 0x80, 0x81, 0x82, 0x83])
  deriving DecidableEq, Repr

def OpType.toByte : OpType → UInt8
  | .ping => 0x01
  | .set => 0x02
  | .get => 0x03
  | .del => 0x04
  | .scan => 0x05
  | .ack => 0x80
  | .err => 0x81
  | .val => 0x82
  | .scanResult => 0x83
  | .raw b _ => b

/-- `static_cast<OpType>`. -/
def OpType.ofByte (b : UInt8) : OpType :=
  if h : b ∉ [0x01, 0x02, 0x03, 0x04, 0x05, 0x80, 0x81, 0x82, 0x83] then .raw b h
  else if b = 0x01 then .ping
  else if b = 0x02 then .set
  else if b = 0x03 then .get
  else if b = 0x04 then .del
  else if b = 0x05 then .scan
  else if b = 0x80 then .ack
  else if b = 0x81 then .err
  else if b = 0x82 then .val
  else .scanResult

@[simp] theorem OpType.ofByte_toByte (type : OpType) : OpType.ofByte type.toByte = type := by
  cases type with
  | raw b h => exact dif_pos h
  | _ => decide

/-- `struct Frame`. -/
structure Frame where
  type : OpType := .err
  flags : UInt8 := 0
  payload : Bytes := []
  deriving DecidableEq, Repr

/-- `struct Command`; `start` is its `prefix`. -/
structure Command where
  type : OpType := .err
  key : Bytes := []
  value : Bytes := []
  start : Bytes := []
  limit : Nat := 100
  deriving DecidableEq, Repr

/-- `kMaxPayloadBytes`. -/
def kMaxPayloadBytes : Nat := 4 * 1024 * 1024

/-- `kFrameHeaderBytes`. -/
def kFrameHeaderBytes : Nat := 6

/-- `Protocol::EncodeFrame`; the length is cut to 32 bits. -/
def encodeFrame (type : OpType) (flags : UInt8) (payload : Bytes) : Bytes :=
  type.toByte :: flags :: (appendLe 4 payload.length ++ payload)

/-- A frame on the wire. -/
def Frame.bytes (f : Frame) : Bytes := encodeFrame f.type f.flags f.payload

/-- The loop of `TryParseFrames` from an offset on, cut off after `fuel`
rounds: what ended it, the frames pushed, and the offset reached. -/
def parseFrom (buf : Bytes) : Nat → Nat → Option String × List Frame × Nat
  | 0, offset => (none, [], offset)
  | fuel + 1, offset =>
      if buf.length < offset + kFrameHeaderBytes then (none, [], offset)
      else
        let p := buf.drop offset
        let length := readLe 4 (p.drop 2)
        if kMaxPayloadBytes < length then (some "payload too large", [], offset)
        else
          let frameBytes := kFrameHeaderBytes + length
          if buf.length < offset + frameBytes then (none, [], offset)
          else
            let frame : Frame :=
              { type := OpType.ofByte (p.getD 0 0), flags := p.getD 1 0,
                payload := slice buf (offset + kFrameHeaderBytes) length }
            let r := parseFrom buf fuel (offset + frameBytes)
            (r.1, frame :: r.2.1, r.2.2)

/-- `Protocol::TryParseFrames`: the error if it returns `false`, what was
pushed to `out_frames`, and the read buffer afterwards. A round consumes at
least a header, so there are fewer rounds than bytes. -/
def tryParseFrames (buf : Bytes) : Option String × List Frame × Bytes :=
  match parseFrom buf buf.length 0 with
  | (some err, frames, _) => (some err, frames, buf)
  | (none, frames, offset) => (none, frames, buf.drop offset)

/-- A text as the bytes of its encoding. -/
def textBytes (s : String) : Bytes := s.toUTF8.data.toList

/-- `read_bytes`. -/
def readBytes (payload : Bytes) (offset len : Nat) : Bytes := slice payload offset len

/-- `Protocol::DecodeCommand`. -/
def decodeCommand (frame : Frame) : Except String Command :=
  let p := frame.payload
  match frame.type with
  | .ping => .ok { type := .ping }
  | .set =>
      if p.length < 2 + 4 then .error "SET payload too short"
      else
        let keyLen := readLe 2 p
        if p.length < 2 + keyLen + 4 then .error "SET key truncated"
        else
          let valLenOffset := 2 + keyLen
          let valLen := readLe 4 (p.drop valLenOffset)
          if p.length ≠ valLenOffset + 4 + valLen then .error "SET payload length mismatch"
          else .ok { type := .set, key := readBytes p 2 keyLen,
                     value := readBytes p (valLenOffset + 4) valLen }
  | .get => decodeKey frame.type p
  | .del => decodeKey frame.type p
  | .scan =>
      if p.length < 2 + 2 then .error "SCAN payload too short"
      else
        let startLen := readLe 2 p
        if p.length < 2 + startLen + 2 then .error "SCAN prefix truncated"
        else
          let limit := readLe 2 (p.drop (2 + startLen))
          .ok { type := .scan, start := readBytes p 2 startLen,
                limit := if limit = 0 then 100 else limit }
  | _ => .error "unsupported request opcode"
where
  /-- The common case of `GET` and `DEL`. -/
  decodeKey (type : OpType) (p : Bytes) : Except String Command :=
    if p.length < 2 then .error "GET/DEL payload too short"
    else
      let keyLen := readLe 2 p
      if p.length ≠ 2 + keyLen then .error "GET/DEL key length mismatch"
      else .ok { type := type, key := readBytes p 2 keyLen }

/-- `Protocol::EncodeAck`, as a frame. -/
def encodeAck (seq : Nat) (message : Bytes) : Frame :=
  { type := .ack, payload := appendLe 8 seq ++ (appendLe 2 message.length ++ message) }

/-- `Protocol::EncodeError`. -/
def encodeError (code : Nat) (message : Bytes) : Frame :=
  { type := .err, payload := appendLe 2 code ++ (appendLe 2 message.length ++ message) }

/-- `Protocol::EncodeValue`. -/
def encodeValue (value : Bytes) : Frame :=
  { type := .val, payload := appendLe 4 value.length ++ value }

/-- `Protocol::EncodeScanResult`. -/
def encodeScanResult (entries : List (Bytes × Bytes)) : Frame :=
  { type := .scanResult,
    payload := appendLe 2 entries.length ++ entries.flatMap fun e =>
      appendLe 2 e.1.length ++ (e.1 ++ (appendLe 4 e.2.length ++ e.2)) }

/-! ## Replies -/

/-- `Protocol::DecodeAckPayload`. -/
def decodeAckPayload (payload : Bytes) : Option (Nat × Bytes) :=
  if payload.length < 8 + 2 then none
  else
    let seq := readLe 8 payload
    let len := readLe 2 (payload.drop 8)
    if payload.length ≠ 10 + len then none else some (seq, readBytes payload 10 len)

/-- `Protocol::DecodeErrorPayload`. -/
def decodeErrorPayload (payload : Bytes) : Option (Nat × Bytes) :=
  if payload.length < 2 + 2 then none
  else
    let code := readLe 2 payload
    let len := readLe 2 (payload.drop 2)
    if payload.length ≠ 4 + len then none else some (code, readBytes payload 4 len)

/-- `Protocol::DecodeValuePayload`; the sum of the lengths is one of 32-bit
numbers. -/
def decodeValuePayload (payload : Bytes) : Option Bytes :=
  if payload.length < 4 then none
  else
    let len := readLe 4 payload
    if payload.length ≠ (4 + len) % 2 ^ 32 then none else some (readBytes payload 4 len)

/-- The loop of `DecodeScanResultPayload` over `n` rows from `off` on: the
entries and the offset behind them. -/
def decodeRows (payload : Bytes) : Nat → Nat → Except String (List (Bytes × Bytes) × Nat)
  | 0, off => .ok ([], off)
  | n + 1, off =>
      if payload.length < off + 2 then .error "scan key len truncated"
      else
        let keyLen := readLe 2 (payload.drop off)
        let off := off + 2
        if payload.length < off + keyLen + 4 then .error "scan key/value truncated"
        else
          let key := readBytes payload off keyLen
          let off := off + keyLen
          let valueLen := readLe 4 (payload.drop off)
          let off := off + 4
          if payload.length < off + valueLen then .error "scan value truncated"
          else
            let value := readBytes payload off valueLen
            match decodeRows payload n (off + valueLen) with
            | .error err => .error err
            | .ok (rows, e) => .ok ((key, value) :: rows, e)

/-- `Protocol::DecodeScanResultPayload`. -/
def decodeScanResultPayload (payload : Bytes) : Except String (List (Bytes × Bytes)) :=
  if payload.length < 2 then .error "scan payload too short"
  else
    match decodeRows payload (readLe 2 payload) 2 with
    | .error err => .error err
    | .ok (entries, off) =>
        if off ≠ payload.length then .error "scan payload trailing bytes" else .ok entries

/-! ## Requests round trip -/

def setPayload (key value : Bytes) : Bytes :=
  appendLe 2 key.length ++ (key ++ (appendLe 4 value.length ++ value))

def keyPayload (key : Bytes) : Bytes := appendLe 2 key.length ++ key

/-- A SET request decodes to its key and value. -/
theorem decodeCommand_set {key value : Bytes} (hk : key.length < 2 ^ 16)
    (hv : value.length < 2 ^ 32) (flags : UInt8) :
    decodeCommand ⟨.set, flags, setPayload key value⟩
      = .ok { type := .set, key := key, value := value } := by
  have hlen : (setPayload key value).length = 2 + key.length + 4 + value.length := by
    simp [setPayload]; omega
  have h0 : readLe 2 (setPayload key value) = key.length :=
    readLe_appendLe (by simpa using hk) _
  have hd : (setPayload key value).drop 0
      = appendLe 2 key.length ++ (key ++ (appendLe 4 value.length ++ value)) := rfl
  have hd2 := drop_step hd (length_appendLe 2 _)
  have hdk : (setPayload key value).drop (2 + key.length) = appendLe 4 value.length ++ value := by
    simpa using drop_step hd2 rfl
  have hv4 : readLe 4 ((setPayload key value).drop (2 + key.length)) = value.length :=
    readLe_step hdk (by simpa using hv)
  have hdv : (setPayload key value).drop (2 + key.length + 4) = value :=
    drop_step hdk (length_appendLe 4 _)
  unfold decodeCommand
  simp only [hlen, h0, hv4]
  rw [if_neg (by omega), if_neg (by omega), if_neg (by omega)]
  simp only [readBytes, slice, hdv, List.take_length]
  have hkey : ((setPayload key value).drop 2).take key.length = key := by
    rw [show (setPayload key value).drop 2 = _ from hd2, List.take_left]
  rw [hkey]

theorem decodeKey_keyPayload {key : Bytes} (hk : key.length < 2 ^ 16) (type : OpType) :
    decodeCommand.decodeKey type (keyPayload key) = .ok { type := type, key := key } := by
  have hlen : (keyPayload key).length = 2 + key.length := by simp [keyPayload]
  have h0 : readLe 2 (keyPayload key) = key.length := readLe_appendLe (by simpa using hk) _
  have hd : (keyPayload key).drop 2 = key := rfl
  unfold decodeCommand.decodeKey
  simp only [hlen, h0]
  rw [if_neg (by omega), if_neg (by omega)]
  simp only [readBytes, slice, hd, List.take_length]

/-- A GET request decodes to its key. -/
theorem decodeCommand_get {key : Bytes} (hk : key.length < 2 ^ 16) (flags : UInt8) :
    decodeCommand ⟨.get, flags, keyPayload key⟩ = .ok { type := .get, key := key } :=
  decodeKey_keyPayload hk .get

/-- A DEL request decodes to its key. -/
theorem decodeCommand_del {key : Bytes} (hk : key.length < 2 ^ 16) (flags : UInt8) :
    decodeCommand ⟨.del, flags, keyPayload key⟩ = .ok { type := .del, key := key } :=
  decodeKey_keyPayload hk .del

end VaultKV
