import VaultKV.Crypto
import VaultKV.MemTable
import VaultKV.Lib.Stream
import VaultKV.Lib.LowerBound
import VaultKV.Sstable.Bloom

/-!
# Sstable — immutable tables on disk (`sstable.h`, `sstable.cpp`)

A file is a header, the records in key order, an index, a bloom filter and
a footer. `Build` writes the header FIRST with zero offsets and once more
at the very end with the real ones; the file carries its final name from
the start. `Open` believes the header: it reads the index and the filter
at the offsets it finds there and looks at nothing else.

`Header` and `Footer` are written as they lie in memory, so their padding
is part of the file (zero here; no reader looks at it).
-/

namespace VaultKV

open Lib

/-- `struct SstableRecord`. -/
structure SstableRecord where
  key : Bytes
  value : Bytes
  seq : Nat
  tombstone : Bool
  deriving DecidableEq, Repr

def SstableRecord.version (r : SstableRecord) : MemValue := ⟨r.value, r.seq, r.tombstone⟩

def SstableRecord.entry (r : SstableRecord) : Bytes × MemValue := (r.key, r.version)

def SstableRecord.ofEntry (e : Bytes × MemValue) : SstableRecord :=
  ⟨e.1, e.2.value, e.2.seq, e.2.tombstone⟩

/-- `struct SstableMeta`. -/
structure SstableMeta where
  path : Bytes
  keyCount : Nat
  minSeq : Nat
  maxSeq : Nat
  deriving DecidableEq, Repr

def kSstMagic : Bytes := [86, 75, 83, 83, 84, 66, 76, 49]
def kFooterMagic : Bytes := [86, 75, 70, 84, 82, 48, 48, 49]
def kSstVersion : Nat := 1

/-- `struct Header`, without the magic. -/
structure Header where
  version : Nat
  flags : Nat
  keyCount : Nat
  indexOffset : Nat
  bloomOffset : Nat
  footerOffset : Nat
  deriving DecidableEq

/-- The 48 bytes of a `Header` in memory. -/
def Header.bytes (h : Header) : Bytes :=
  kSstMagic ++ (appendLe 2 h.version ++ (appendLe 2 h.flags ++ (appendLe 4 0 ++
    (appendLe 8 h.keyCount ++ (appendLe 8 h.indexOffset ++
      (appendLe 8 h.bloomOffset ++ appendLe 8 h.footerOffset))))))

/-- The 32 bytes of a `Footer` in memory. -/
def footerBytes (indexOffset bloomOffset : Nat) : Bytes :=
  appendLe 8 indexOffset ++ (appendLe 8 bloomOffset ++
    (appendLe 4 (crc32 (appendLe 8 indexOffset ++ appendLe 8 bloomOffset)).toNat ++
      (kFooterMagic ++ appendLe 4 0)))

/-! ## Building -/

/-- The write calls of one record. -/
def recordChunks (r : SstableRecord) (blob : CipherBlob) : List Bytes :=
  [appendLe 2 r.key.length, appendLe 4 r.value.length, appendLe 8 r.seq,
   [if r.tombstone then 1 else 0], appendLe 4 blob.ciphertext.length, blob.nonce.bytes,
   blob.tag.bytes, r.key, blob.ciphertext]

/-- The write calls of one index entry. -/
def indexEntryChunks (e : Bytes × Nat) : List Bytes :=
  [appendLe 2 e.1.length, e.1, appendLe 8 e.2]

/-- The write calls of the index. -/
def indexChunks (index : List (Bytes × Nat)) : List Bytes :=
  appendLe 8 index.length :: index.flatMap indexEntryChunks

/-- The write calls of the bloom filter. -/
def bloomChunks (f : BloomFilter) : List Bytes :=
  [appendLe 8 f.bitCount, appendLe 4 f.hashCount, appendLe 8 f.bits.length, f.bits]

/-- What `Build` meets outside the program: failures of the file system,
the randomness of each encryption, the write call the device fails at. -/
structure BuildIo (c : Cipher) where
  createDirectories : Option String := none
  openFails : Bool := false
  rand : Nat → c.Rand
  failAt : Option Nat := none
  closeFails : Bool := false

/-- The loop over the records: the index entries, and the stream. -/
def writeRecords (c : Cipher) (io : BuildIo c) :
    List SstableRecord → Nat → OStream → Res (List (Bytes × Nat)) × OStream
  | [], _, out => (.ok [], out)
  | r :: rs, i, out =>
      if r.key.length > 2 ^ 16 - 1 then
        (.error (Status.invalidArgument "key too large for sstable"), out)
      else if r.value.length > 2 ^ 32 - 1 then
        (.error (Status.invalidArgument "value too large for sstable"), out)
      else
        match c.encrypt (io.rand i) r.value with
        | none => (.error (Status.cryptoError "sstable encryption failed"), out)
        | some blob =>
            let offset := out.tellp
            let out' := out.writeAll io.failAt (recordChunks r blob)
            if out'.bad then
              (.error (Status.ioError "failed writing sstable record"), out')
            else
              match writeRecords c io rs (i + 1) out' with
              | (.error e, out'') => (.error e, out'')
              | (.ok index, out'') => (.ok ((r.key, offset) :: index), out'')

/-- The records `Build` writes: the latest of each key, in key order. -/
def latestRecords (records : List SstableRecord) : List SstableRecord :=
  (merge (records.map SstableRecord.entry)).entries.map SstableRecord.ofEntry

def placeholderHeader (keyCount : Nat) : Header :=
  { version := kSstVersion, flags := 0, keyCount := keyCount, indexOffset := 0,
    bloomOffset := 0, footerOffset := 0 }

def metaOf (path : Bytes) (sorted : List SstableRecord) : SstableMeta :=
  let minSeq := sorted.foldl (fun m r => min m r.seq) (2 ^ 64 - 1)
  { path := path, keyCount := sorted.length,
    minSeq := if minSeq = 2 ^ 64 - 1 then 0 else minSeq,
    maxSeq := sorted.foldl (fun m r => max m r.seq) 0 }

/-- The part of `Build` behind the records. -/
def finishBuild {c : Cipher} (io : BuildIo c) (path : Bytes) (sorted : List SstableRecord)
    (index : List (Bytes × Nat)) (out : OStream) : Res SstableMeta × OStream :=
  let indexOffset := out.tellp
  let out := out.writeAll io.failAt (indexChunks index)
  if out.bad then (.error (Status.ioError "failed writing sstable index"), out)
  else
    let bloomOffset := out.tellp
    match (BloomFilter.make (max 64 (sorted.length * 10)) 7).addAll (index.map Prod.fst) with
    | .error e => (.error e, out)
    | .ok bloom =>
        let out := out.writeAll io.failAt (bloomChunks bloom)
        if out.bad then (.error (Status.ioError "failed writing bloom filter"), out)
        else
          let footerOffset := out.tellp
          let out := out.write io.failAt (footerBytes indexOffset bloomOffset)
          let hdr := { placeholderHeader sorted.length with
            indexOffset := indexOffset, bloomOffset := bloomOffset,
            footerOffset := footerOffset }
          let out := (out.seekp 0).write io.failAt hdr.bytes
          if out.bad || io.closeFails then
            (.error (Status.ioError "failed finalizing sstable"), out)
          else (.ok (metaOf path sorted), out)

/-- `SstableBuilder::Build` on the added records: the result, and the
stream once the file was created. -/
def SstableBuilder.build (c : Cipher) (io : BuildIo c) (path : Bytes)
    (records : List SstableRecord) : Res SstableMeta × Option OStream :=
  if records = [] then
    (.error (Status.invalidArgument "cannot build empty sstable"), none)
  else
    match io.createDirectories with
    | some e => (.error (Status.ioError ("failed creating sstable dir: " ++ e)), none)
    | none =>
        let sorted := latestRecords records
        if io.openFails then
          (.error (Status.ioError "failed opening sstable file for write"), none)
        else
          let out := OStream.write io.failAt {} (placeholderHeader sorted.length).bytes
          match writeRecords c io sorted 0 out with
          | (.error e, out) => (.error e, some out)
          | (.ok index, out) =>
              let r := finishBuild io path sorted index out
              (r.1, some r.2)

/-! ## Reading -/

/-- `struct IndexEntry`. -/
structure IndexEntry where
  key : Bytes
  offset : Nat
  deriving DecidableEq

/-- `class SstableReader`; `path` is the file's name in its directory. -/
structure SstableReader where
  path : Bytes
  isOpen : Bool := false
  keyCount : Nat := 0
  indexOffset : Nat := 0
  bloomOffset : Nat := 0
  index : List IndexEntry := []
  bloom : BloomFilter := ⟨0, 0, []⟩
  deriving DecidableEq

/-- What a read meets outside the program: the file does not open, or the
device serves only so many read calls. -/
structure ReadIo where
  openFails : Bool := false
  budget : Option Nat := none
  deriving DecidableEq

/-- `vector<IndexEntry>::max_size()`: the entries have 40 bytes. -/
def maxIndexEntries : Nat := (2 ^ 63 - 1) / 40

/-- `read_raw` of a fixed-width integer. -/
def readRaw (size : Nat) (s : IStream) : Option (Nat × IStream) :=
  match s.read size with
  | none => none
  | some (b, s') => some (leNat b, s')

/-- The loop of `Open` over the index entries. -/
def readIndex : Nat → IStream → Res (List IndexEntry × IStream)
  | 0, s => .ok ([], s)
  | n + 1, s =>
      match readRaw 2 s with
      | none => .error (Status.corruption "failed reading index key len")
      | some (keyLen, s) =>
          match s.read keyLen with
          | none => .error (Status.corruption "failed reading index key")
          | some (key, s) =>
              match readRaw 8 s with
              | none => .error (Status.corruption "failed reading index offset")
              | some (off, s) =>
                  match readIndex n s with
                  | .error e => .error e
                  | .ok (index, s) => .ok (⟨key, off⟩ :: index, s)

/-- The bloom block of `Open`. A vector longer than its `max_size()` is an
exception. -/
def readBloom (s : IStream) : Res BloomFilter :=
  match readRaw 8 s with
  | none => .error (Status.corruption "failed reading bloom header")
  | some (bitCount, s) =>
      match readRaw 4 s with
      | none => .error (Status.corruption "failed reading bloom header")
      | some (hashCount, s) =>
          match readRaw 8 s with
          | none => .error (Status.corruption "failed reading bloom header")
          | some (byteLen, s) =>
              if 2 ^ 63 - 1 < byteLen then .error (.exception .lengthError)
              else
                match s.read byteLen with
                | none => .error (Status.corruption "failed reading bloom payload")
                | some (bytes, _) => .ok ⟨bitCount, hashCount, bytes⟩

/-- The header fields `Open` looks at. -/
def Header.ofBytes (b : Bytes) : Header :=
  { version := readLe 2 (b.drop 8), flags := readLe 2 (b.drop 10),
    keyCount := readLe 8 (b.drop 16), indexOffset := readLe 8 (b.drop 24),
    bloomOffset := readLe 8 (b.drop 32), footerOffset := readLe 8 (b.drop 40) }

/-- `SstableReader::Open` of a fresh reader; `file` is what its path holds.
A reader that does not open is dropped by every caller. -/
def SstableReader.open (io : ReadIo) (path : Bytes) (file : Option Bytes) :
    Res SstableReader :=
  match file with
  | none => .error (Status.ioError "failed opening sstable for read")
  | some bytes =>
      if io.openFails then .error (Status.ioError "failed opening sstable for read")
      else
        match (IStream.ofFile bytes io.budget).read 48 with
        | none => .error (Status.corruption "failed reading sstable header")
        | some (b, s) =>
            if b.take 8 ≠ kSstMagic then .error (Status.corruption "bad sstable magic")
            else
              let hdr := Header.ofBytes b
              if hdr.version ≠ kSstVersion then
                .error (Status.corruption "unsupported sstable version")
              else
                match readRaw 8 (s.seekg hdr.indexOffset) with
                | none => .error (Status.corruption "failed reading index count")
                | some (indexCount, s) =>
                    if maxIndexEntries < indexCount then .error (.exception .lengthError)
                    else
                      match readIndex indexCount s with
                      | .error e => .error e
                      | .ok (index, s) =>
                          match readBloom (s.seekg hdr.bloomOffset) with
                          | .error e => .error e
                          | .ok bloom =>
                              .ok { path := path, isOpen := true,
                                    keyCount := hdr.keyCount,
                                    indexOffset := hdr.indexOffset,
                                    bloomOffset := hdr.bloomOffset,
                                    index := index, bloom := bloom }

/-- The fixed part of a record as `ReadRecordAt` reads it. -/
def readRecordHeader (s : IStream) :
    Option ((Nat × Nat × Nat × Nat × Nat) × IStream) :=
  match readRaw 2 s with
  | none => none
  | some (keyLen, s) =>
      match readRaw 4 s with
      | none => none
      | some (valLen, s) =>
          match readRaw 8 s with
          | none => none
          | some (seq, s) =>
              match readRaw 1 s with
              | none => none
              | some (tomb, s) =>
                  match readRaw 4 s with
                  | none => none
                  | some (cipherLen, s) => some ((keyLen, valLen, seq, tomb, cipherLen), s)

/-- `SstableReader::ReadRecordAt`. -/
def readRecordAt (c : Cipher) (io : ReadIo) (file : Option Bytes) (offset : Nat) :
    Res SstableRecord :=
  match file with
  | none => .error (Status.ioError "failed opening sstable for read")
  | some bytes =>
      if io.openFails then .error (Status.ioError "failed opening sstable for read")
      else
        match readRecordHeader ((IStream.ofFile bytes io.budget).seekg offset) with
        | none => .error (Status.corruption "record header read failed")
        | some ((keyLen, valLen, seq, tomb, cipherLen), s) =>
            match s.read 12 with
            | none => .error (Status.corruption "record nonce/tag read failed")
            | some (nonce, s) =>
                match s.read 16 with
                | none => .error (Status.corruption "record nonce/tag read failed")
                | some (tag, s) =>
                    match s.read keyLen with
                    | none => .error (Status.corruption "record key read failed")
                    | some (key, s) =>
                        match s.read cipherLen with
                        | none => .error (Status.corruption "record cipher read failed")
                        | some (cipher, _) =>
                            match c.decrypt ⟨ByteArr.ofBytes 12 nonce,
                                ByteArr.ofBytes 16 tag, cipher⟩ with
                            | none => .error (Status.corruption "record decrypt failed")
                            | some value =>
                                if value.length ≠ valLen then
                                  .error (Status.corruption "record value length mismatch")
                                else .ok ⟨key, value, seq, tomb ≠ 0⟩

namespace SstableReader

/-- The position `std::lower_bound` finds in the index. -/
def lowerBoundIndex (rd : SstableReader) (key : Bytes) : Nat :=
  lowerBound (fun e : IndexEntry => decide (e.key < key)) rd.index

/-- `SstableReader::Get`. -/
def get (c : Cipher) (file : Option Bytes) (rd : SstableReader) (key : Bytes) :
    Res SstableRecord :=
  if rd.isOpen = false then .error (Status.ioError "sstable not opened")
  else
    match rd.bloom.mightContain key with
    | .error e => .error e
    | .ok false => .error (Status.notFound "bloom miss")
    | .ok true =>
        match rd.index[rd.lowerBoundIndex key]? with
        | none => .error (Status.notFound "key not found")
        | some e =>
            if e.key ≠ key then .error (Status.notFound "key not found")
            else readRecordAt c {} file e.offset

/-- The loop of `ScanPrefix` over the index from the lower bound on. -/
def scanFrom (c : Cipher) (file : Option Bytes) (start : Bytes) :
    Nat → List IndexEntry → List SstableRecord
  | _, [] => []
  | limit, e :: es =>
      if limit = 0 then []
      else if start.isPrefixOf e.key = false then []
      else
        match readRecordAt c {} file e.offset with
        | .error _ => scanFrom c file start limit es
        | .ok r => r :: scanFrom c file start (limit - 1) es

/-- `SstableReader::ScanPrefix`. -/
def scanPrefix (c : Cipher) (file : Option Bytes) (rd : SstableReader) (start : Bytes)
    (limit : Nat) : List SstableRecord :=
  if rd.isOpen = false then []
  else scanFrom c file start limit (rd.index.drop (rd.lowerBoundIndex start))

/-- The loop of `AllRecords`; `ios` is what the read of each entry meets. -/
def allFrom (c : Cipher) (ios : Nat → ReadIo) (file : Option Bytes) :
    Nat → List IndexEntry → List SstableRecord
  | _, [] => []
  | i, e :: es =>
      match readRecordAt c (ios i) file e.offset with
      | .error _ => allFrom c ios file (i + 1) es
      | .ok r => r :: allFrom c ios file (i + 1) es

/-- `SstableReader::AllRecords`. -/
def allRecords (c : Cipher) (ios : Nat → ReadIo) (file : Option Bytes)
    (rd : SstableReader) : List SstableRecord :=
  allFrom c ios file 0 rd.index

end SstableReader

end VaultKV
