import VaultKV.Crypto
import VaultKV.Lib.RecordLog

/-!
# Wal — the write-ahead log (`wal.h`, `wal.cpp`, the Linux path)

One segment of fixed capacity, mapped shared into the process: `segment`
is the FILE and the MAPPING at once, so what was copied into it survives
the process. `writeOffset` and `lastSeq` live in the process only and are
recovered by `findEndAndLastSeq` when the segment is opened.

The clock reading and the randomness of an append, and the failures of
the system calls, are arguments: every choice of them is a possible run.
-/

namespace VaultKV

open Lib

/-- `enum class WalOp : uint8_t`; a byte read from disk may be none of the
named values. -/
inductive WalOp where
  | kSet
  | kDelete
  | kCheckpointBegin
  | kCheckpointEnd
  | raw (b : UInt8)
  deriving DecidableEq, Repr

def WalOp.ofByte (b : UInt8) : WalOp :=
  if b = 0 then .kSet
  else if b = 1 then .kDelete
  else if b = 2 then .kCheckpointBegin
  else if b = 3 then .kCheckpointEnd
  else .raw b

def WalOp.toByte : WalOp → UInt8
  | .kSet => 0
  | .kDelete => 1
  | .kCheckpointBegin => 2
  | .kCheckpointEnd => 3
  | .raw b => b

/-- `struct WalRecord`. -/
structure WalRecord where
  op : WalOp
  seq : Nat
  timestampNs : Nat
  key : Bytes
  value : Bytes
  deriving DecidableEq, Repr

/-- `class Wal`. -/
structure Wal where
  isOpen : Bool := false
  lastSeq : Nat := 0
  writeOffset : Nat := 0
  segment : Bytes := []
  deriving DecidableEq

def kFixedRecordHeader : Nat := 4 + 8 + 8 + 1 + 2 + 4 + 4 + 12 + 16

/-! ## Records on disk -/

/-- What `parse_fields` hands back. -/
structure Fields where
  timestampNs : Nat
  seq : Nat
  op : WalOp
  keyLen : Nat
  valLen : Nat
  cipherLen : Nat
  nonce : ByteArr 12
  tag : ByteArr 16
  payloadOffset : Nat
  totalRecordLen : Nat
  deriving DecidableEq

/-- `parse_fields`: the fixed header at `offset` and the checksum over the
rest of the record. -/
def parseFields (offset : Nat) (base : Bytes) (limit : Nat) : Res Fields :=
  if offset + kFixedRecordHeader > limit then
    .error (Status.corruption "record header truncated")
  else
    let p := base.drop offset
    let crc := readLe 4 p
    if crc = 0 then .error (Status.notFound "end of wal")
    else
      let pTs := p.drop 4
      let pSeq := pTs.drop 8
      let pOp := pSeq.drop 8
      let pKeyLen := pOp.drop 1
      let pValLen := pKeyLen.drop 2
      let pCipherLen := pValLen.drop 4
      let pNonce := pCipherLen.drop 4
      let pTag := pNonce.drop 12
      let cipherLen := readLe 4 pCipherLen
      if cipherLen > 128 * 1024 * 1024 then
        .error (Status.corruption "ciphertext length too large")
      else
        let total := kFixedRecordHeader + cipherLen
        if offset + total > limit then
          .error (Status.corruption "record body truncated")
        else if (crc32 ((p.drop 4).take (total - 4))).toNat ≠ crc then
          .error (Status.corruption "crc mismatch")
        else
          .ok {
            timestampNs := readLe 8 pTs
            seq := readLe 8 pSeq
            op := WalOp.ofByte (UInt8.ofNat (readLe 1 pOp))
            keyLen := readLe 2 pKeyLen
            valLen := readLe 4 pValLen
            cipherLen := cipherLen
            nonce := ByteArr.ofBytes 12 (pNonce.take 12)
            tag := ByteArr.ofBytes 16 (pTag.take 16)
            payloadOffset := kFixedRecordHeader
            totalRecordLen := total }

/-- `ParseRecordAt`: the record at `offset` and the offset behind it. -/
def parseRecordAt (c : Cipher) (capacity : Nat) (base : Bytes) (offset : Nat) :
    Res (WalRecord × Nat) :=
  if offset + 4 > capacity then .error (Status.notFound "end")
  else
    match parseFields offset base capacity with
    | .error e => .error e
    | .ok f =>
        let blob : CipherBlob :=
          { nonce := f.nonce, tag := f.tag,
            ciphertext := ((base.drop offset).drop f.payloadOffset).take f.cipherLen }
        match c.decrypt blob with
        | none => .error (Status.corruption "wal decrypt failed")
        | some plain =>
            if plain.length ≠ f.keyLen + f.valLen then
              .error (Status.corruption "wal key/value length mismatch")
            else
              .ok ({ op := f.op, seq := f.seq, timestampNs := f.timestampNs,
                     key := plain.take f.keyLen,
                     value := (plain.drop f.keyLen).take f.valLen },
                   offset + f.totalRecordLen)

/-- The bytes behind the checksum of a record with this ciphertext. -/
def recordBody (rec : WalRecord) (blob : CipherBlob) : Bytes :=
  appendLe 8 rec.timestampNs ++ (appendLe 8 rec.seq ++ ([rec.op.toByte] ++
    (appendLe 2 rec.key.length ++ (appendLe 4 rec.value.length ++
      (appendLe 4 blob.ciphertext.length ++ (blob.nonce.bytes ++
        (blob.tag.bytes ++ blob.ciphertext)))))))

/-- `SerializeRecord`: the checksum is patched over its placeholder. -/
def serializeRecord (c : Cipher) (rand : c.Rand) (rec : WalRecord) : Res Bytes :=
  match c.encrypt rand (rec.key ++ rec.value) with
  | none => .error (Status.cryptoError "wal encrypt failed")
  | some blob =>
      let out := appendLe 4 0 ++ recordBody rec blob
      let crc := crc32 (out.drop 4)
      .ok (appendLe 4 crc.toNat ++ out.drop 4)

/-! ## Operations -/

/-- The outcome of the system calls of `Open`: each is `none`, or the text
of the error it failed with. -/
structure Wal.OpenIo where
  createDirectories : Option String := none
  openFile : Option String := none
  ftruncate : Option String := none
  mmap : Option String := none
  deriving DecidableEq

/-- What `ftruncate` answers: a length beyond `off_t` is refused. -/
def Wal.ftruncateError (io : Wal.OpenIo) (capacity : Nat) : Option String :=
  if 2 ^ 63 ≤ capacity then some "Invalid argument" else io.ftruncate

/-- What `mmap` answers: nothing can be mapped at length zero or beyond
the address space. -/
def Wal.mmapError (pf : Platform) (io : Wal.OpenIo) (capacity : Nat) : Option String :=
  if capacity = 0 then some "Invalid argument"
  else if pf.maxMap < capacity then some "Cannot allocate memory"
  else io.mmap

/-- The segment file cut or zero-extended to `capacity`. -/
def Wal.resize (file : Bytes) (capacity : Nat) : Bytes :=
  file.take capacity ++ List.replicate (capacity - file.length) 0

/-- The loop of `FindEndAndLastSeq`, at most `fuel` rounds. -/
def Wal.findEnd (c : Cipher) (capacity : Nat) (base : Bytes) :
    Nat → Nat → Nat → Nat × Nat
  | 0, off, last => (off, last)
  | fuel + 1, off, last =>
      if off < capacity then
        match parseRecordAt c capacity base off with
        | .error _ => (off, last)
        | .ok (rec, next) => Wal.findEnd c capacity base fuel next rec.seq
      else (off, last)

/-- `FindEndAndLastSeq`. -/
def Wal.findEndAndLastSeq (c : Cipher) (capacity : Nat) (w : Wal) : Wal :=
  let r := Wal.findEnd c capacity w.segment capacity 0 0
  { w with writeOffset := r.1, lastSeq := r.2 }

/-- `Wal::Open`. -/
def Wal.open (pf : Platform) (c : Cipher) (capacity : Nat) (io : Wal.OpenIo) (w : Wal) :
    Res Nat × Wal :=
  if w.isOpen then (.ok 0, w)
  else
    match io.createDirectories with
    | some e => (.error (Status.ioError ("failed creating wal dir: " ++ e)), w)
    | none =>
        match io.openFile with
        | some e => (.error (Status.ioError (formatErrno "open wal" e)), w)
        | none =>
            match Wal.ftruncateError io capacity with
            | some e => (.error (Status.ioError (formatErrno "ftruncate wal" e)), w)
            | none =>
                let w' := { w with segment := Wal.resize w.segment capacity }
                match Wal.mmapError pf io capacity with
                | some e => (.error (Status.ioError (formatErrno "mmap wal" e)), w')
                | none =>
                    (.ok 0, { Wal.findEndAndLastSeq c capacity w' with isOpen := true })

/-- `Wal::Sync`; `msync` fails with the given text. -/
def Wal.sync (msync : Option String) (w : Wal) : Res Nat :=
  if w.isOpen then
    match msync with
    | some e => .error (Status.ioError (formatErrno "msync wal" e))
    | none => .ok 0
  else .error (Status.ioError "wal not open")

/-- `Wal::Close`: the mapping goes, the file stays as it is. -/
def Wal.close (msync : Option String) (w : Wal) : Res Nat × Wal :=
  if w.isOpen then (w.sync msync, { w with isOpen := false }) else (.ok 0, w)

/-- `Wal::Append`: the sequence number given to the record. -/
def Wal.append (c : Cipher) (capacity : Nat) (ts : Nat) (rand : c.Rand) (op : WalOp)
    (key value : Bytes) (w : Wal) : Res Nat × Wal :=
  if w.isOpen = false then (.error (Status.ioError "wal not open"), w)
  else if key.length > 2 ^ 16 - 1 then
    (.error (Status.invalidArgument "key too large"), w)
  else if value.length > 2 ^ 32 - 1 then
    (.error (Status.invalidArgument "value too large"), w)
  else
    let rec' : WalRecord :=
      { op := op, seq := addU64 w.lastSeq 1, timestampNs := ts % 2 ^ 64, key := key,
        value := value }
    match serializeRecord c rand rec' with
    | .error e => (.error e, w)
    | .ok encoded =>
        if w.writeOffset + encoded.length > capacity then
          (.error (Status.ioError "wal segment full (rotation not yet implemented)"), w)
        else
          (.ok rec'.seq,
           { w with
              segment := overwrite w.segment w.writeOffset encoded
              writeOffset := w.writeOffset + encoded.length
              lastSeq := rec'.seq })

/-- The loop of `Replay`, at most `fuel` rounds; `fn` is the callback, its
state is threaded through. -/
def Wal.replayFrom {σ : Type} (c : Cipher) (capacity : Nat) (w : Wal)
    (fn : σ → WalRecord → Res Nat × σ) (stopAtCorruption : Bool) :
    Nat → Nat → σ → Res Nat × σ
  | 0, _, s => (.ok 0, s)
  | fuel + 1, off, s =>
      if off < w.writeOffset then
        match parseRecordAt c capacity w.segment off with
        | .error e =>
            if e.code? = some .kNotFound then (.ok 0, s)
            else if stopAtCorruption then (.error e, s)
            else (.ok 0, s)
        | .ok (rec, next) =>
            match fn s rec with
            | (.error e, s') => (.error e, s')
            | (.ok _, s') => Wal.replayFrom c capacity w fn stopAtCorruption fuel next s'
      else (.ok 0, s)

/-- `Wal::Replay`. -/
def Wal.replay {σ : Type} (c : Cipher) (capacity : Nat) (w : Wal)
    (fn : σ → WalRecord → Res Nat × σ) (stopAtCorruption : Bool) (s : σ) :
    Res Nat × σ :=
  if w.isOpen then Wal.replayFrom c capacity w fn stopAtCorruption w.writeOffset 0 s
  else (.error (Status.ioError "wal not open"), s)

end VaultKV
