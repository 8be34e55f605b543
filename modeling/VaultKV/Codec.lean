import VaultKV.Gateway
import VaultKV.Lib.Fields

/-!
# Codec — what the decoders accept (`DecodeCommand`, the `Decode…Payload` functions)

`Protocol` says how a payload is decoded. This module says WHICH payloads
are accepted: a request payload by the grammar of its opcode, a reply
payload by being the encoding of the values that come back. Each decoder is
read in both directions — what is written is read back, and what is read
was written — and each direction follows the cursor over the fields once.
-/

namespace VaultKV

open Lib Gateway

/-! ## Requests -/

/-- A request with every field inside the width its length field has. -/
inductive WireRequest where
  | set (key value : Bytes) (hk : key.length < 2 ^ 16) (hv : value.length < 2 ^ 32)
  | get (key : Bytes) (hk : key.length < 2 ^ 16)
  | del (key : Bytes) (hk : key.length < 2 ^ 16)
  | scan (start : Bytes) (limit : Nat) (hs : start.length < 2 ^ 16) (hl : limit < 2 ^ 16)

namespace WireRequest

def type : WireRequest → OpType
  | .set .. => .set
  | .get .. => .get
  | .del .. => .del
  | .scan .. => .scan

/-- `make_set_payload`, `make_key_payload_frame` and `make_scan_payload` of
the client. -/
def payload : WireRequest → Bytes
  | .set key value _ _ => setPayload key value
  | .get key _ => keyPayload key
  | .del key _ => keyPayload key
  | .scan start limit _ _ => scanPayload start limit

/-- The command a request stands for; a SCAN without a limit gets 100 rows. -/
def command : WireRequest → Command
  | .set key value _ _ => { type := .set, key := key, value := value }
  | .get key _ => { type := .get, key := key }
  | .del key _ => { type := .del, key := key }
  | .scan start limit _ _ =>
      { type := .scan, start := start, limit := if limit = 0 then 100 else limit }

end WireRequest

/-- The opcodes that carry a request with fields. -/
def Frame.IsRequest (f : Frame) : Prop :=
  f.type = .set ∨ f.type = .get ∨ f.type = .del ∨ f.type = .scan

/-- A SCAN payload that goes on behind its limit. -/
def Frame.Trailing (f : Frame) : Prop :=
  f.type = .scan ∧ 4 + readLe 2 f.payload < f.payload.length

instance (f : Frame) : Decidable f.Trailing := inferInstanceAs (Decidable (_ ∧ _))

/-- `DecodeCommand` accepts this frame as the encoding of a request, and
reads back exactly what that request stands for. -/
def Frame.Canonical (f : Frame) : Prop :=
  ∀ cmd, decodeCommand f = .ok cmd ↔
    ∃ r : WireRequest, r.type = f.type ∧ r.payload = f.payload ∧ r.command = cmd

/-- What is written is read back. -/
theorem decodeCommand_payload (r : WireRequest) (flags : UInt8) :
    decodeCommand ⟨r.type, flags, r.payload⟩ = .ok r.command := by
  cases r with
  | set key value hk hv => exact decodeCommand_set hk hv flags
  | get key hk => exact decodeCommand_get hk flags
  | del key hk => exact decodeCommand_del hk flags
  | scan start limit hs hl =>
      have h := decodeCommand_scan_append hs hl [] flags
      rwa [List.append_nil] at h

/-- An accepted SET payload is the encoding of the key and the value read. -/
theorem set_of_decode {p : Bytes} {flags : UInt8} {cmd : Command}
    (h : decodeCommand ⟨.set, flags, p⟩ = .ok cmd) :
    ∃ r : WireRequest, r.type = .set ∧ r.payload = p ∧ r.command = cmd := by
  simp only [decodeCommand] at h
  by_cases hshort : p.length < 2 + 4
  · rw [if_pos hshort] at h; cases h
  rw [if_neg hshort] at h
  by_cases hkey : p.length < 2 + readLe 2 p + 4
  · rw [if_pos hkey] at h; cases h
  rw [if_neg hkey] at h
  have hk : FieldAt 2 p 0 (slice p 2 (readLe 2 p)) :=
    fieldAt_cut (show 0 + 2 + readLe 2 p ≤ p.length by omega)
  have hkl : (slice p 2 (readLe 2 p)).length = readLe 2 p := length_slice (by omega)
  generalize readLe 2 p = keyLen at *
  by_cases hend : p.length ≠ 2 + keyLen + 4 + readLe 4 (p.drop (2 + keyLen))
  · rw [if_pos hend] at h; cases h
  rw [if_neg hend] at h
  have hv : FieldAt 4 p (2 + keyLen)
      (slice p (2 + keyLen + 4) (readLe 4 (p.drop (2 + keyLen)))) :=
    fieldAt_cut (not_not.mp hend).ge
  have hvl := length_slice (not_not.mp hend).ge
  have hlast := hv.last (by rw [hvl]; omega)
  cases h
  refine ⟨.set _ _ hk.fits hv.fits, rfl, ?_, rfl⟩
  -- the value ends the payload, the key stands in front of it
  have hnext : 0 + 2 + (slice p 2 keyLen).length = 2 + keyLen := by omega
  have hhere := hk.here
  rw [hnext, hlast] at hhere
  exact hhere.symm

/-- An accepted GET or DEL payload is the encoding of the key read. -/
theorem key_of_decode {p : Bytes} {type : OpType} {cmd : Command}
    (h : decodeCommand.decodeKey type p = .ok cmd) :
    ∃ key : Bytes, key.length < 2 ^ 16 ∧ keyPayload key = p ∧
      { type := type, key := key } = cmd := by
  simp only [decodeCommand.decodeKey] at h
  by_cases hshort : p.length < 2
  · rw [if_pos hshort] at h; cases h
  rw [if_neg hshort] at h
  by_cases hend : p.length ≠ 2 + readLe 2 p
  · rw [if_pos hend] at h; cases h
  rw [if_neg hend] at h
  have hlen := length_slice (not_not.mp hend).ge
  have hk : FieldAt 2 p 0 (slice p 2 (readLe 2 p)) :=
    fieldAt_cut (show 0 + 2 + readLe 2 p ≤ p.length by omega)
  cases h
  exact ⟨_, hk.fits, (hk.last (by omega)).symm, rfl⟩

/-- An accepted SCAN payload STARTS with the encoding of the prefix and the
limit read; it may be longer. -/
theorem scan_of_decode {p : Bytes} {flags : UInt8} {cmd : Command}
    (h : decodeCommand ⟨.scan, flags, p⟩ = .ok cmd) :
    ∃ r : WireRequest, r.type = .scan ∧ r.command = cmd ∧
      p = r.payload ++ p.drop (4 + readLe 2 p) := by
  simp only [decodeCommand] at h
  by_cases hshort : p.length < 2 + 2
  · rw [if_pos hshort] at h; cases h
  rw [if_neg hshort] at h
  by_cases hend : p.length < 2 + readLe 2 p + 2
  · rw [if_pos hend] at h; cases h
  rw [if_neg hend] at h
  have hs : FieldAt 2 p 0 (slice p 2 (readLe 2 p)) :=
    fieldAt_cut (show 0 + 2 + readLe 2 p ≤ p.length by omega)
  have hsl : (slice p 2 (readLe 2 p)).length = readLe 2 p := length_slice (by omega)
  have hl := readLe_lt 2 (p.drop (2 + readLe 2 p))
  have hlimit : p.drop (2 + readLe 2 p) = appendLe 2 (readLe 2 (p.drop (2 + readLe 2 p))) ++ _ :=
    drop_leNat (Nat.not_lt.mp hend)
  cases h
  refine ⟨.scan _ _ hs.fits hl, rfl, rfl, ?_⟩
  have hnext : 0 + 2 + (slice p 2 (readLe 2 p)).length = 2 + readLe 2 p := by omega
  have hrest : 2 + readLe 2 p + 2 = 4 + readLe 2 p := by omega
  have hhere := hs.here
  rw [hnext, hlimit, hrest] at hhere
  rw [WireRequest.payload, scanPayload, List.append_assoc, List.append_assoc]
  exact hhere

/-- A payload that is one request's encoding has no bytes behind its limit. -/
theorem not_trailing_of_payload {f : Frame} (r : WireRequest) (htype : r.type = f.type)
    (hp : r.payload = f.payload) : ¬ f.Trailing := by
  rintro ⟨hscan, hlong⟩
  cases r with
  | set key value hk hv => cases htype.trans hscan
  | get key hk => cases htype.trans hscan
  | del key hk => cases htype.trans hscan
  | scan start limit hs hl =>
      have h0 : readLe 2 f.payload = start.length := by
        rw [← hp]
        exact readLe_appendLe (by simpa using hs) _
      have hlen : f.payload.length = 4 + start.length := by
        rw [← hp]
        simp [WireRequest.payload, scanPayload]
        omega
      omega

/-- A SCAN payload that goes on behind its limit is accepted all the same. -/
theorem decodeCommand_of_trailing {f : Frame} (h : f.Trailing) :
    ∃ cmd, decodeCommand f = .ok cmd := by
  obtain ⟨type, flags, p⟩ := f
  obtain ⟨rfl, hlong⟩ : type = .scan ∧ 4 + readLe 2 p < p.length := h
  simp only [decodeCommand]
  rw [if_neg (by omega), if_neg (by omega)]
  exact ⟨_, rfl⟩

/-- What is accepted was written, unless it is a SCAN with bytes behind it. -/
theorem request_of_decode {f : Frame} {cmd : Command} (hreq : f.IsRequest)
    (ht : ¬ f.Trailing) (h : decodeCommand f = .ok cmd) :
    ∃ r : WireRequest, r.type = f.type ∧ r.payload = f.payload ∧ r.command = cmd := by
  obtain ⟨type, flags, p⟩ := f
  rcases hreq with hset | hget | hdel | hscan
  · cases hset
    exact set_of_decode h
  · cases hget
    obtain ⟨key, hk, hp, hcmd⟩ := key_of_decode h
    exact ⟨.get key hk, rfl, hp, hcmd⟩
  · cases hdel
    obtain ⟨key, hk, hp, hcmd⟩ := key_of_decode h
    exact ⟨.del key hk, rfl, hp, hcmd⟩
  · cases hscan
    obtain ⟨r, htype, hcmd, hp⟩ := scan_of_decode h
    have hend : p.drop (4 + readLe 2 p) = [] :=
      List.drop_eq_nil_of_le (Nat.not_lt.mp fun hlong => ht ⟨rfl, hlong⟩)
    rw [hend, List.append_nil] at hp
    exact ⟨r, htype, hp.symm, hcmd⟩

/-- Two requests of one opcode that stand for one command are one payload,
or SCANs of one prefix of which one asks for 0 rows and the other for 100. -/
def SameOrDefaulted (p q : Bytes) (type : OpType) : Prop :=
  p = q ∨ type = .scan ∧ ∃ start : Bytes, ∃ a b : Nat,
    p = scanPayload start a ∧ q = scanPayload start b ∧ (a = 0 ∧ b = 100 ∨ a = 100 ∧ b = 0)

theorem payload_of_command {r s : WireRequest} (h : r.command = s.command) :
    SameOrDefaulted r.payload s.payload r.type := by
  cases r <;> cases s <;> simp only [WireRequest.command, Command.mk.injEq, reduceCtorEq,
    false_and, true_and, and_true] at h
  case set.set key value hk hv key' value' hk' hv' =>
    obtain ⟨rfl, rfl⟩ := h
    exact .inl rfl
  case get.get key hk key' hk' =>
    subst h
    exact .inl rfl
  case del.del key hk key' hk' =>
    subst h
    exact .inl rfl
  case scan.scan start a hs ha start' b hs' hb =>
    obtain ⟨rfl, hlim⟩ := h
    by_cases hab : a = b
    · subst hab
      exact .inl rfl
    · refine .inr ⟨rfl, start, a, b, rfl, rfl, ?_⟩
      split at hlim <;> split at hlim <;> omega

/-- **Which frames are read canonically.** On a request frame `DecodeCommand`
succeeds exactly on the encodings of its opcode, with the command that was
encoded, UNLESS the frame is a SCAN with bytes behind its limit; and among
frames without such bytes a command has one payload, but for a SCAN limit
of 0 or 100. -/
theorem decodeCommand_canonical_iff (f : Frame) (hreq : f.IsRequest) :
    (f.Canonical ↔ ¬ f.Trailing) ∧
    (∀ (g : Frame) (cmd : Command), g.type = f.type → ¬ f.Trailing → ¬ g.Trailing →
      decodeCommand f = .ok cmd → decodeCommand g = .ok cmd →
      SameOrDefaulted f.payload g.payload f.type) := by
  refine ⟨⟨fun hcan ht => ?_, fun ht cmd => ⟨request_of_decode hreq ht, ?_⟩⟩, ?_⟩
  · obtain ⟨cmd, hcmd⟩ := decodeCommand_of_trailing ht
    obtain ⟨r, htype, hp, -⟩ := (hcan cmd).mp hcmd
    exact not_trailing_of_payload r htype hp ht
  · rintro ⟨r, htype, hp, rfl⟩
    have hf : f = ⟨r.type, f.flags, r.payload⟩ := by rw [htype, hp]
    rw [hf]
    exact decodeCommand_payload r f.flags
  · intro g cmd htype hf hg hdf hdg
    have hreq' : g.IsRequest := by
      unfold Frame.IsRequest
      rwa [htype]
    obtain ⟨r, hrt, hrp, hrc⟩ := request_of_decode hreq hf hdf
    obtain ⟨s, -, hsp, hsc⟩ := request_of_decode hreq' hg hdg
    rw [← hrp, ← hsp, ← hrt]
    exact payload_of_command (hrc.trans hsc.symm)

/-- A SCAN of everything with limit 5. -/
theorem scan_canonical :
    Frame.IsRequest ⟨.scan, 0, [0, 0, 5, 0]⟩ ∧ Frame.Canonical ⟨.scan, 0, [0, 0, 5, 0]⟩ :=
  ⟨.inr (.inr (.inr rfl)),
    (decodeCommand_canonical_iff ⟨.scan, 0, [0, 0, 5, 0]⟩ (.inr (.inr (.inr rfl)))).1.mpr
      (by decide)⟩

/-- The same SCAN with a byte behind it is accepted, with the same command,
although it is no request's encoding. -/
theorem scan_trailing_accepted :
    Frame.IsRequest ⟨.scan, 0, [0, 0, 5, 0, 9]⟩ ∧
    ([0, 0, 5, 0, 9] : Bytes).length ≤ kMaxPayloadBytes ∧
    decodeCommand ⟨.scan, 0, [0, 0, 5, 0, 9]⟩ = .ok { type := .scan, limit := 5 } ∧
    decodeCommand ⟨.scan, 0, [0, 0, 5, 0]⟩ = .ok { type := .scan, limit := 5 } ∧
    ¬ ∃ r : WireRequest, r.type = .scan ∧ r.payload = [0, 0, 5, 0, 9] :=
  ⟨.inr (.inr (.inr rfl)), by decide, by decide, by decide, fun ⟨r, htype, hp⟩ =>
    not_trailing_of_payload (f := ⟨.scan, 0, [0, 0, 5, 0, 9]⟩) r htype hp (by decide)⟩

/-! ## Replies

Each decoder is read as an equivalence: it returns these values exactly on
the payload that encodes them. -/

/-- A number and a message behind it that ends the payload. -/
theorem numbered_iff {size n : Nat} {p message : Bytes} :
    (p.length = size + 2 + readLe 2 (p.drop size) ∧ readLe size p = n ∧
      slice p (size + 2) (readLe 2 (p.drop size)) = message) ↔
    n < 256 ^ size ∧ message.length < 256 ^ 2 ∧
      p = appendLe size n ++ (appendLe 2 message.length ++ message) := by
  constructor
  · rintro ⟨hlen, rfl, rfl⟩
    have hm : FieldAt 2 p size (slice p (size + 2) (readLe 2 (p.drop size))) :=
      fieldAt_cut hlen.ge
    have hml := length_slice hlen.ge
    have hlast := hm.last (by omega)
    have hnum : p.drop 0 = appendLe size (readLe size p) ++ p.drop (0 + size) :=
      drop_leNat (by omega)
    refine ⟨readLe_lt size p, hm.fits, ?_⟩
    rw [Nat.zero_add, hlast] at hnum
    exact hnum
  · rintro ⟨hn, hm, rfl⟩
    have hnext : (appendLe size n ++ (appendLe 2 message.length ++ message)).drop size
        = leBytes 2 message.length ++ (message ++ []) := by
      rw [List.drop_left' (length_appendLe size n), List.append_nil]
      rfl
    have hfield := FieldAt.of_append hnext (by simp) hm
    have hlen : readLe 2 _ = message.length := hfield.length_eq
    refine ⟨?_, readLe_appendLe hn _, ?_⟩
    · rw [hlen]
      simp
      omega
    · rw [hlen]
      exact hfield.slice_eq

/-- Two tests before a result, the first of which only saves the second from
reading too far. -/
theorem tests_some_iff {α : Type} {short wrong : Prop} [Decidable short] [Decidable wrong]
    (h : short → wrong) {x y : α} :
    (if short then none else if wrong then none else some x) = some y ↔ ¬ wrong ∧ x = y := by
  by_cases hwrong : wrong
  · rw [if_pos hwrong, ite_self]
    simp [hwrong]
  · rw [if_neg (mt h hwrong), if_neg hwrong, Option.some.injEq]
    exact (and_iff_right hwrong).symm

/-- `DecodeAckPayload` accepts exactly what `EncodeAck` writes. -/
theorem decodeAckPayload_iff {p message : Bytes} {seq : Nat} :
    decodeAckPayload p = some (seq, message) ↔
      seq < 2 ^ 64 ∧ message.length ≤ 65535 ∧ p = (encodeAck seq message).payload := by
  have hfields := @numbered_iff 8 seq p message
  have hm : message.length < 256 ^ 2 ↔ message.length ≤ 65535 := Nat.lt_succ_iff
  rw [hm] at hfields
  refine Iff.trans ?_ hfields
  rw [decodeAckPayload, tests_some_iff (by omega), not_not, Prod.mk.injEq, readBytes]

/-- `DecodeErrorPayload` accepts exactly what `EncodeError` writes. -/
theorem decodeErrorPayload_iff {p message : Bytes} {code : Nat} :
    decodeErrorPayload p = some (code, message) ↔
      code < 2 ^ 16 ∧ message.length ≤ 65535 ∧ p = (encodeError code message).payload := by
  have hfields := @numbered_iff 2 code p message
  have hm : message.length < 256 ^ 2 ↔ message.length ≤ 65535 := Nat.lt_succ_iff
  rw [hm] at hfields
  refine Iff.trans ?_ hfields
  rw [decodeErrorPayload, tests_some_iff (by omega), not_not, Prod.mk.injEq, readBytes]

/-- `DecodeValuePayload` accepts exactly what `EncodeValue` writes. Its sum
of lengths may wrap, but a wrapped sum is below the four bytes of the length
field, which the payload has. -/
theorem decodeValuePayload_iff {p value : Bytes} :
    decodeValuePayload p = some value ↔
      4 + value.length < 2 ^ 32 ∧ p = (encodeValue value).payload := by
  constructor
  · intro h
    simp only [decodeValuePayload, readBytes] at h
    by_cases hshort : p.length < 4
    · rw [if_pos hshort] at h; cases h
    rw [if_neg hshort] at h
    by_cases hend : p.length ≠ (4 + readLe 4 p) % 2 ^ 32
    · rw [if_pos hend] at h; cases h
    rw [if_neg hend] at h
    have hlt := readLe_lt 4 p
    have hlen : p.length = 4 + readLe 4 p := by omega
    have hfield : FieldAt 4 p 0 (slice p 4 (readLe 4 p)) :=
      fieldAt_cut (show 0 + 4 + readLe 4 p ≤ p.length by omega)
    have hvl := length_slice hlen.ge
    cases h
    exact ⟨by omega, hfield.last (by omega)⟩
  · rintro ⟨hv, rfl⟩
    have hhere : (encodeValue value).payload.drop 0
        = leBytes 4 value.length ++ (value ++ []) := by
      rw [List.append_nil]
      rfl
    have hfield := FieldAt.of_append hhere (Nat.zero_le _) (by omega)
    have hread : readLe 4 (encodeValue value).payload = value.length := hfield.length_eq
    have hlen : (encodeValue value).payload.length = 4 + value.length := by simp [encodeValue]
    simp only [decodeValuePayload, readBytes, hlen, hread]
    rw [if_neg (by omega), if_neg (by omega)]
    exact congrArg some hfield.slice_eq

/-! ### The rows of a scan -/

/-- A row as `EncodeScanResult` writes it. -/
def rowBytes (e : Bytes × Bytes) : Bytes :=
  appendLe 2 e.1.length ++ (e.1 ++ (appendLe 4 e.2.length ++ e.2))

theorem encodeScanResult_payload (rows : List (Bytes × Bytes)) :
    (encodeScanResult rows).payload = appendLe 2 rows.length ++ rows.flatMap rowBytes := rfl

/-- A row whose fields fit their lengths. -/
def RowFits (e : Bytes × Bytes) : Prop := e.1.length < 256 ^ 2 ∧ e.2.length < 256 ^ 4

theorem length_rowBytes (e : Bytes × Bytes) :
    (rowBytes e).length = 2 + e.1.length + 4 + e.2.length := by
  simp [rowBytes]
  omega

/-- One round of the loop on a row that stands under its cursor. -/
theorem decodeRows_row {p rest : Bytes} {off : Nat} {e : Bytes × Bytes} (n : Nat)
    (h : p.drop off = rowBytes e ++ rest) (hoff : off ≤ p.length) (hfits : RowFits e) :
    decodeRows p (n + 1) off =
      match decodeRows p n (off + (rowBytes e).length) with
      | .error err => .error err
      | .ok (rows, stop) => .ok (e :: rows, stop) := by
  have hkey : p.drop off
      = leBytes 2 e.1.length ++ (e.1 ++ (appendLe 4 e.2.length ++ e.2 ++ rest)) := by
    rw [h, rowBytes, List.append_assoc, List.append_assoc]
    rfl
  have hk := FieldAt.of_append hkey hoff hfits.1
  have hval : p.drop (off + 2 + e.1.length) = leBytes 4 e.2.length ++ (e.2 ++ rest) := by
    rw [drop_step (drop_step hkey (length_leBytes 2 _)) rfl, List.append_assoc]
    rfl
  have hv := FieldAt.of_append hval hk.inside hfits.2
  have hkl : readLe 2 (p.drop off) = e.1.length := hk.length_eq
  have hvl : readLe 4 (p.drop (off + 2 + e.1.length)) = e.2.length := hv.length_eq
  have hin := hv.inside
  have hnext : off + (rowBytes e).length = off + 2 + e.1.length + 4 + e.2.length := by
    rw [length_rowBytes]
    omega
  simp only [decodeRows, hkl, hvl, readBytes, hk.slice_eq, hv.slice_eq, hnext]
  rw [if_neg (by omega), if_neg (by omega)]
  exact if_neg (by omega)

/-- The loop reads the rows back that stand under its cursor. -/
theorem decodeRows_encode {p : Bytes} (rows : List (Bytes × Bytes)) :
    ∀ {off : Nat} {rest : Bytes}, p.drop off = rows.flatMap rowBytes ++ rest →
      off ≤ p.length → (∀ e ∈ rows, RowFits e) →
      decodeRows p rows.length off = .ok (rows, off + (rows.flatMap rowBytes).length) := by
  induction rows with
  | nil => intro off rest _ _ _; rfl
  | cons e rows ih =>
      intro off rest h hoff hfits
      rw [List.flatMap_cons, List.append_assoc] at h
      have hlen := congrArg List.length h
      rw [List.length_drop, List.length_append] at hlen
      have hrow := length_rowBytes e
      rw [List.length_cons, decodeRows_row rows.length h hoff (hfits e List.mem_cons_self),
        ih (drop_step h rfl) (by omega) fun r hr => hfits r (List.mem_cons_of_mem _ hr),
        List.flatMap_cons, List.length_append, Nat.add_assoc]

/-- What the loop returns stands under its cursor. -/
theorem rows_of_decode {p : Bytes} (n : Nat) :
    ∀ {off stop : Nat} {rows : List (Bytes × Bytes)}, off ≤ p.length →
      decodeRows p n off = .ok (rows, stop) →
      rows.length = n ∧ (∀ e ∈ rows, RowFits e) ∧
        p.drop off = rows.flatMap rowBytes ++ p.drop stop := by
  induction n with
  | zero =>
      intro off stop rows _ h
      cases h
      exact ⟨rfl, by simp, rfl⟩
  | succ n ih =>
      intro off stop rows hoff h
      simp only [decodeRows, readBytes] at h
      by_cases hkeyLen : p.length < off + 2
      · rw [if_pos hkeyLen] at h; cases h
      rw [if_neg hkeyLen] at h
      by_cases hkey : p.length < off + 2 + readLe 2 (p.drop off) + 4
      · rw [if_pos hkey] at h; cases h
      rw [if_neg hkey] at h
      have hk : FieldAt 2 p off (slice p (off + 2) (readLe 2 (p.drop off))) :=
        fieldAt_cut (show off + 2 + readLe 2 (p.drop off) ≤ p.length by omega)
      have hkl : (slice p (off + 2) (readLe 2 (p.drop off))).length = readLe 2 (p.drop off) :=
        length_slice (by omega)
      generalize readLe 2 (p.drop off) = keyLen at *
      by_cases hval : p.length < off + 2 + keyLen + 4 + readLe 4 (p.drop (off + 2 + keyLen))
      · rw [if_pos hval] at h; cases h
      rw [if_neg hval] at h
      have hv : FieldAt 4 p (off + 2 + keyLen) (slice p (off + 2 + keyLen + 4)
          (readLe 4 (p.drop (off + 2 + keyLen)))) := fieldAt_cut (Nat.not_lt.mp hval)
      have hvl := length_slice (Nat.not_lt.mp hval)
      generalize readLe 4 (p.drop (off + 2 + keyLen)) = valLen at *
      cases hrest : decodeRows p n (off + 2 + keyLen + 4 + valLen) with
      | error err => rw [hrest] at h; cases h
      | ok r =>
          obtain ⟨hn, hfits, hrows⟩ := ih (Nat.not_lt.mp hval) hrest
          rw [hrest] at h
          cases h
          refine ⟨by rw [List.length_cons, hn], List.forall_mem_cons.mpr
            ⟨⟨hk.fits, hv.fits⟩, hfits⟩, ?_⟩
          have hhere := hk.here
          have hnext := hv.here
          rw [hvl, hrows] at hnext
          rw [hkl, hnext] at hhere
          rw [List.flatMap_cons, rowBytes, hkl, hvl]
          simp only [List.append_assoc]
          exact hhere

/-- `DecodeScanResultPayload` accepts exactly what `EncodeScanResult` writes. -/
theorem decodeScanResultPayload_iff {p : Bytes} {rows : List (Bytes × Bytes)} :
    decodeScanResultPayload p = .ok rows ↔
      rows.length ≤ 65535 ∧ (∀ e ∈ rows, RowFits e) ∧ p = (encodeScanResult rows).payload := by
  constructor
  · intro h
    simp only [decodeScanResultPayload] at h
    by_cases hshort : p.length < 2
    · rw [if_pos hshort] at h; cases h
    rw [if_neg hshort] at h
    cases hrows : decodeRows p (readLe 2 p) 2 with
    | error err => rw [hrows] at h; cases h
    | ok r =>
        obtain ⟨entries, off⟩ := r
        rw [hrows] at h
        dsimp only at h
        by_cases hoff : off ≠ p.length
        · rw [if_pos hoff] at h; cases h
        rw [if_neg hoff] at h
        cases h
        obtain ⟨hn, hfits, hhere⟩ := rows_of_decode _ (Nat.not_lt.mp hshort) hrows
        have hlt := readLe_lt 2 p
        have hcount : p.drop 0 = appendLe 2 (readLe 2 p) ++ p.drop (0 + 2) :=
          drop_leNat (by omega)
        rw [not_not.mp hoff, List.drop_length, List.append_nil] at hhere
        refine ⟨by omega, hfits, ?_⟩
        rw [encodeScanResult_payload, hn, ← hhere]
        exact hcount
  · rintro ⟨hn, hfits, rfl⟩
    have hread : readLe 2 (encodeScanResult rows).payload = rows.length :=
      readLe_appendLe (by omega) _
    have hlen : (encodeScanResult rows).payload.length
        = 2 + (rows.flatMap rowBytes).length := by
      rw [encodeScanResult_payload, List.length_append, length_appendLe]
    have hdrop : (encodeScanResult rows).payload.drop 2 = rows.flatMap rowBytes ++ [] := by
      rw [encodeScanResult_payload, List.drop_left' (length_appendLe 2 _), List.append_nil]
    have hrows := decodeRows_encode rows hdrop (by omega) hfits
    simp only [decodeScanResultPayload, hread, hrows]
    rw [if_neg (by omega), if_neg (by omega)]

/-- Rows inside a payload of bounded size have values of bounded size. -/
theorem length_value_le {rows : List (Bytes × Bytes)} {e : Bytes × Bytes} (he : e ∈ rows) :
    e.2.length ≤ (encodeScanResult rows).payload.length := by
  obtain ⟨before, after, rfl⟩ := List.append_of_mem he
  have hrow := length_rowBytes e
  simp only [encodeScanResult_payload, List.flatMap_append, List.flatMap_cons,
    List.length_append]
  omega

/-- **The reply codecs are bijections.** Among payloads that fit a frame,
each decoder returns these values EXACTLY on the payload their encoder
writes: what is encoded is read back, and what is accepted is the encoding
of what was returned. -/
theorem reply_codecs_bijective :
    (∀ (p : Bytes) (seq : Nat) (message : Bytes), p.length ≤ kMaxPayloadBytes →
      (decodeAckPayload p = some (seq, message) ↔
        seq < 2 ^ 64 ∧ message.length ≤ 65535 ∧ p = (encodeAck seq message).payload)) ∧
    (∀ (p : Bytes) (code : Nat) (message : Bytes), p.length ≤ kMaxPayloadBytes →
      (decodeErrorPayload p = some (code, message) ↔
        code < 2 ^ 16 ∧ message.length ≤ 65535 ∧ p = (encodeError code message).payload)) ∧
    (∀ p value : Bytes, p.length ≤ kMaxPayloadBytes →
      (decodeValuePayload p = some value ↔ p = (encodeValue value).payload)) ∧
    (∀ (p : Bytes) (rows : List (Bytes × Bytes)), p.length ≤ kMaxPayloadBytes →
      (decodeScanResultPayload p = .ok rows ↔
        rows.length ≤ 65535 ∧ (∀ e ∈ rows, e.1.length ≤ 65535) ∧
          p = (encodeScanResult rows).payload)) := by
  refine ⟨fun p seq message _ => decodeAckPayload_iff,
    fun p code message _ => decodeErrorPayload_iff, fun p value hp => ?_, fun p rows hp => ?_⟩
  · rw [decodeValuePayload_iff]
    refine ⟨fun h => h.2, fun h => ⟨?_, h⟩⟩
    have hlen : p.length = 4 + value.length := by rw [h]; simp [encodeValue]
    rw [kMaxPayloadBytes] at hp
    omega
  · rw [decodeScanResultPayload_iff]
    constructor
    · rintro ⟨hn, hfits, rfl⟩
      exact ⟨hn, fun e he => Nat.lt_succ_iff.mp (hfits e he).1, rfl⟩
    · rintro ⟨hn, hkeys, rfl⟩
      refine ⟨hn, fun e he => ⟨Nat.lt_succ_iff.mpr (hkeys e he), ?_⟩, rfl⟩
      have hvalue := length_value_le he
      rw [kMaxPayloadBytes] at hp
      omega

/-- A result of two rows, the second with an empty value, in both directions. -/
theorem two_rows_bijective :
    (encodeScanResult [([97], [49]), ([98], [])]).payload.length ≤ kMaxPayloadBytes ∧
    decodeScanResultPayload (encodeScanResult [([97], [49]), ([98], [])]).payload
      = .ok [([97], [49]), ([98], [])] ∧
    decodeValuePayload [1, 0, 0, 0, 7] = some [7] :=
  ⟨by decide, (reply_codecs_bijective.2.2.2 _ [([97], [49]), ([98], [])] (by decide)).mpr
    ⟨by decide, by decide, rfl⟩, (reply_codecs_bijective.2.2.1 _ [7] (by decide)).mpr (by decide)⟩

end VaultKV
