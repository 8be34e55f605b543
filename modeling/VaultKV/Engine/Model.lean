import VaultKV.Compaction
import VaultKV.Replication

/-!
# Engine — the storage engine (`storage_engine.h`, `storage_engine.cpp`)

The log, the memtable and the readers of the two levels live in the
process; the log's segment and the two table directories are the DISK and
outlive it. Everything an operation meets outside the program (clocks, the
cipher's randomness, failing system calls, the peers' answers) is an
argument of the operation, so a run is determined by its operations and
those arguments.

A write goes to the log first, then to the peers, then to the memtable: a
write the peers did not acknowledge is in the log and nowhere else. A
flush empties the memtable before the table is built.
-/

namespace VaultKV

open Lib

/-- The fixed surroundings of an engine: its cipher (with the key), its
options, the platform, and whether a replication transport is set. -/
structure Config where
  cipher : Cipher
  opts : EngineOptions := {}
  platform : Platform
  transport : Bool := false

/-- `class StorageEngine`, with its data directory. -/
structure Engine where
  isOpen : Bool := false
  wal : Wal := {}
  memtable : MemTable
  l0Tables : List SstableReader := []
  l1Tables : List SstableReader := []
  nextSstableId : Nat := 1
  l0Dir : SortedMap Bytes Bytes := SortedMap.empty
  l1Dir : SortedMap Bytes Bytes := SortedMap.empty
  deriving DecidableEq

/-! ## File names -/

/-- `std::to_string` of an unsigned number. -/
def decimal (n : Nat) : Bytes :=
  if n = 0 then [48] else (Nat.digits 10 n).reverse.map fun d => UInt8.ofNat (48 + d)

/-- `"sst-" + nanos + "-" + id + ".sst"`. -/
def sstName (nanos id : Nat) : Bytes :=
  [115, 115, 116, 45] ++ (decimal nanos ++ ([45] ++ (decimal id ++ [46, 115, 115, 116])))

/-- `path.extension() == ".sst"`; a name that is all extension has none. -/
def hasSstExtension (name : Bytes) : Bool :=
  decide (4 < name.length) && [46, 115, 115, 116].isSuffixOf name

/-! ## What the operations meet -/

/-- A run of `MaybeCompact`: the clock reading in the file name, the merge,
the opening of the output, the removals that fail. -/
structure CompactIo (c : Cipher) where
  nanos : Nat
  merge : MergeIo c
  install : ReadIo := {}
  removeFails : Nat → Bool := fun _ => false

/-- A run of `FlushMemTable`. -/
structure FlushIo (c : Cipher) where
  nanos : Nat
  build : BuildIo c
  install : ReadIo := {}
  compact : CompactIo c

/-- A run of `Set` or `Delete`: the log record's clock reading and
randomness, the peers, and the flush a `Set` may trigger. -/
structure WriteIo (c : Cipher) where
  ts : Nat
  rand : c.Rand
  calls : List PeerCall := []
  flush : FlushIo c

/-- A run of `Open`. -/
structure OpenIo where
  createL0 : Option String := none
  createL1 : Option String := none
  wal : Wal.OpenIo := {}
  listL0Fails : Bool := false
  listL1Fails : Bool := false
  readsL0 : Nat → ReadIo := fun _ => {}
  readsL1 : Nat → ReadIo := fun _ => {}

/-- A run of `Close`. -/
structure CloseIo where
  sync : Option String := none
  msync : Option String := none
  deriving DecidableEq

namespace Engine

variable (cfg : Config)

/-! ## Opening and closing -/

/-- The callback of `ReplayWal`. -/
def replayRecord (m : MemTable) (rec : WalRecord) : Res Nat × MemTable :=
  match rec.op with
  | .kSet => m.set rec.key rec.value rec.seq
  | .kDelete => m.delete rec.key rec.seq
  | _ => (.ok 0, m)

/-- `ReplayWal`. -/
def replayWal (e : Engine) : Res Nat × Engine :=
  let r := e.wal.replay cfg.cipher cfg.opts.walSegmentSizeBytes replayRecord true e.memtable
  (r.1, { e with memtable := r.2 })

/-- The loop of `LoadSstablesFromDisk` over the files of one level: the
readers opened, and the status that ended it. -/
def openTables (dir : SortedMap Bytes Bytes) (ios : Nat → ReadIo) :
    Nat → List Bytes → Res Nat × List SstableReader
  | _, [] => (.ok 0, [])
  | i, p :: ps =>
      match SstableReader.open (ios i) p (dir.find p) with
      | .error e => (.error e, [])
      | .ok rd =>
          let r := openTables dir ios (i + 1) ps
          (r.1, rd :: r.2)

/-- The `.sst` files of a directory, in name order; none when the listing
fails. -/
def tablePaths (dir : SortedMap Bytes Bytes) (listFails : Bool) : List Bytes :=
  if listFails then [] else dir.keys.filter hasSstExtension

/-- `LoadSstablesFromDisk`. -/
def loadSstablesFromDisk (io : OpenIo) (e : Engine) : Res Nat × Engine :=
  match openTables e.l0Dir io.readsL0 0 (tablePaths e.l0Dir io.listL0Fails) with
  | (.error err, l0) => (.error err, { e with l0Tables := l0, l1Tables := [] })
  | (.ok _, l0) =>
      let r := openTables e.l1Dir io.readsL1 0 (tablePaths e.l1Dir io.listL1Fails)
      (r.1, { e with l0Tables := l0, l1Tables := r.2 })

/-- `StorageEngine::Open`. -/
def «open» (io : OpenIo) (e : Engine) : Res Nat × Engine :=
  if e.isOpen then (.ok 0, e)
  else
    match io.createL0 with
    | some err => (.error (Status.ioError ("failed creating l0 dir: " ++ err)), e)
    | none =>
        match io.createL1 with
        | some err => (.error (Status.ioError ("failed creating l1 dir: " ++ err)), e)
        | none =>
            match e.wal.open cfg.platform cfg.cipher cfg.opts.walSegmentSizeBytes io.wal with
            | (.error err, wal) => (.error err, { e with wal := wal })
            | (.ok _, wal) =>
                match loadSstablesFromDisk io { e with wal := wal } with
                | (.error err, e) => (.error err, e)
                | (.ok _, e) =>
                    match e.replayWal cfg with
                    | (.error err, e) => (.error err, e)
                    | (.ok _, e) => (.ok 0, { e with isOpen := true })

/-- `StorageEngine::Close`. -/
def close (io : CloseIo) (e : Engine) : Res Nat × Engine :=
  if e.isOpen = false then (.ok 0, e)
  else
    let st := e.wal.sync io.sync
    let r := e.wal.close io.msync
    (match r.1 with
     | .error err => .error err
     | .ok _ => st, { e with isOpen := false, wal := r.2 })

/-! ## Flush and compaction -/

/-- The directory after a build of `path` that may have created a file. -/
def putFile (dir : SortedMap Bytes Bytes) (path : Bytes) :
    Option OStream → SortedMap Bytes Bytes
  | none => dir
  | some out => dir.insert path out.file

/-- The removal of the merged files; one that fails is ignored. -/
def removeFiles (removeFails : Nat → Bool) :
    Nat → List Bytes → SortedMap Bytes Bytes → SortedMap Bytes Bytes
  | _, [], dir => dir
  | i, p :: ps, dir =>
      removeFiles removeFails (i + 1) ps (if removeFails i then dir else dir.erase p)

/-- `MaybeCompact`. -/
def maybeCompact (io : CompactIo cfg.cipher) (e : Engine) : Res Nat × Engine :=
  if e.l0Tables.length < 4 then (.ok 0, e)
  else
    let l0Paths := e.l0Tables.map SstableReader.path
    let outPath := sstName io.nanos e.nextSstableId
    let r := compactLevel0ToLevel1 cfg.cipher io.merge e.l0Dir l0Paths outPath
    let e := { e with nextSstableId := e.nextSstableId + 1,
                      l1Dir := putFile e.l1Dir outPath r.2 }
    match r.1 with
    | .error err => (.error err, e)
    | .ok _ =>
        match SstableReader.open io.install outPath (e.l1Dir.find outPath) with
        | .error err => (.error err, e)
        | .ok rd =>
            (.ok 0, { e with l1Tables := e.l1Tables ++ [rd], l0Tables := [],
                             l0Dir := removeFiles io.removeFails 0 l0Paths e.l0Dir })

/-- `FlushMemTable` up to the new table's installation (`InstallNewL0`):
`none` when there was nothing to flush. -/
def buildAndInstall (io : FlushIo cfg.cipher) (e : Engine) : Res (Option Bytes) × Engine :=
  let drained := e.memtable.drainSorted true
  let e := { e with memtable := drained.2 }
  if drained.1 = [] then (.ok none, e)
  else
    let path := sstName io.nanos e.nextSstableId
    let r := SstableBuilder.build cfg.cipher io.build path
      (drained.1.map SstableRecord.ofEntry)
    let e := { e with nextSstableId := e.nextSstableId + 1,
                      l0Dir := putFile e.l0Dir path r.2 }
    match r.1 with
    | .error err => (.error err, e)
    | .ok m =>
        match SstableReader.open io.install m.path (e.l0Dir.find m.path) with
        | .error err => (.error err, e)
        | .ok rd => (.ok (some m.path), { e with l0Tables := e.l0Tables ++ [rd] })

/-- `FlushMemTable`. -/
def flushMemTable (io : FlushIo cfg.cipher) (e : Engine) : Res Nat × Engine :=
  if e.isOpen = false then (.error (Status.ioError "engine not open"), e)
  else
    match e.buildAndInstall cfg io with
    | (.error err, e) => (.error err, e)
    | (.ok none, e) => (.ok 0, e)
    | (.ok (some _), e) => e.maybeCompact cfg io.compact

/-! ## Writes -/

/-- The first part of `Set` and `Delete`: the checks and the log. -/
def logWrite (io : WriteIo cfg.cipher) (op : WalOp) (key value : Bytes) (e : Engine) :
    Res Nat × Engine :=
  if e.isOpen = false then (.error (Status.ioError "engine not open"), e)
  else if key = [] then (.error (Status.invalidArgument "key must not be empty"), e)
  else
    let r := e.wal.append cfg.cipher cfg.opts.walSegmentSizeBytes io.ts io.rand op key value
    (r.1, { e with wal := r.2 })

/-- The second part: the peers, with the timeout of 300 ms. -/
def replicate (calls : List PeerCall) : Res Nat :=
  if cfg.opts.enableReplication && decide (1 < cfg.opts.quorumSize) then
    replicateToQuorum cfg.transport calls cfg.opts.quorumSize 300
  else .ok 0

/-- The last part of `Set`: the memtable, and a flush when it is full. -/
def applySet (io : FlushIo cfg.cipher) (key value : Bytes) (seq : Nat) (e : Engine) :
    Res Nat × Engine :=
  match e.memtable.set key value seq with
  | (.error err, m) => (.error err, { e with memtable := m })
  | (.ok _, m) =>
      let e := { e with memtable := m }
      if e.memtable.memoryBudget ≤ e.memtable.approxMemory then
        match e.flushMemTable cfg io with
        | (.error err, e) => (.error err, e)
        | (.ok _, e) => (.ok seq, e)
      else (.ok seq, e)

/-- The last part of `Delete`. -/
def applyDelete (key : Bytes) (seq : Nat) (e : Engine) : Res Nat × Engine :=
  let r := e.memtable.delete key seq
  (r.1, { e with memtable := r.2 })

/-- `StorageEngine::Set`. -/
def set (io : WriteIo cfg.cipher) (key value : Bytes) (e : Engine) : Res Nat × Engine :=
  match e.logWrite cfg io .kSet key value with
  | (.error err, e) => (.error err, e)
  | (.ok seq, e) =>
      match replicate cfg io.calls with
      | .error err => (.error err, e)
      | .ok _ => e.applySet cfg io.flush key value seq

/-- `StorageEngine::Delete`. -/
def delete (io : WriteIo cfg.cipher) (key : Bytes) (e : Engine) : Res Nat × Engine :=
  match e.logWrite cfg io .kDelete key [] with
  | (.error err, e) => (.error err, e)
  | (.ok seq, e) =>
      match replicate cfg io.calls with
      | .error err => (.error err, e)
      | .ok _ => e.applyDelete key seq

/-! ## Reads -/

/-- What a version found tells the caller of `Get`. -/
def answerOf (v : MemValue) : Res Bytes :=
  if v.tombstone then .error (Status.notFound "deleted") else .ok v.value

/-- The loop of `Get` over one level, newest table first: `none` when no
table has the key. A status other than `Ok` is skipped. -/
def getTables (c : Cipher) (dir : SortedMap Bytes Bytes) (key : Bytes) :
    List SstableReader → Option (Res Bytes)
  | [] => none
  | rd :: rds =>
      match rd.get c (dir.find rd.path) key with
      | .ok r => some (answerOf r.version)
      | .error (.status _) => getTables c dir key rds
      | .error err => some (.error err)

/-- `StorageEngine::Get`. -/
def get (key : Bytes) (e : Engine) : Res Bytes :=
  if e.isOpen = false then .error (Status.ioError "engine not open")
  else if key = [] then .error (Status.invalidArgument "key must not be empty")
  else
    match e.memtable.get key with
    | .ok v => answerOf v
    | .error _ =>
        match getTables cfg.cipher e.l0Dir key e.l0Tables.reverse with
        | some r => r
        | none =>
            match getTables cfg.cipher e.l1Dir key e.l1Tables.reverse with
            | some r => r
            | none => .error (Status.notFound "key not found")

/-- What one level hands to a scan, newest table first. -/
def scanTables (c : Cipher) (dir : SortedMap Bytes Bytes) (start : Bytes) (limit : Nat)
    (rds : List SstableReader) : List (Bytes × MemValue) :=
  rds.flatMap fun rd =>
    (rd.scanPrefix c (dir.find rd.path) start limit).map SstableRecord.entry

/-- The candidates of a scan in the order they are merged. Each table gives
at most twice the limit. -/
def scanCandidates (start : Bytes) (limit : Nat) (e : Engine) : List (Bytes × MemValue) :=
  (e.memtable.snapshotSorted true).filter (fun x => start.isPrefixOf x.1) ++
    (scanTables cfg.cipher e.l0Dir start (limit * 2 % 2 ^ 64) e.l0Tables.reverse ++
      scanTables cfg.cipher e.l1Dir start (limit * 2 % 2 ^ 64) e.l1Tables.reverse)

/-- `StorageEngine::ScanPrefix`. The result vector is sized for the limit
up front; its elements have 64 bytes. -/
def scanPrefix (start : Bytes) (limit : Nat) (e : Engine) : Res (List (Bytes × Bytes)) :=
  if e.isOpen = false then .error (Status.ioError "engine not open")
  else
    let limit := if limit = 0 then 100 else limit
    if (2 ^ 63 - 1) / 64 < limit then .error (.exception .lengthError)
    else .ok ((livePairs (merge (e.scanCandidates cfg start limit))).take limit)

/-! ## Frames -/

/-- `status_to_error_code`. -/
def statusToErrorCode (code : StatusCode) : Nat :=
  match code with
  | .kInvalidArgument => 400
  | .kNotFound => 404
  | .kNoQuorum => 503
  | .kUnsupported => 501
  | _ => 500

/-- The reply to a call that did not return `Ok`; `none` when the call
ended the process instead. -/
def errorReply : Err → Option Frame
  | .status s => some (encodeError (statusToErrorCode s.code) (textBytes s.message))
  | _ => none

/-- The reply to a write. -/
def writeReply : Res Nat → Option Frame
  | .ok seq => some (encodeAck seq (textBytes "OK"))
  | .error err => errorReply err

/-- `StorageEngine::HandleFrame`; no reply when the process ended. -/
def handleFrame (io : WriteIo cfg.cipher) (frame : Frame) (e : Engine) :
    Option Frame × Engine :=
  match decodeCommand frame with
  | .error msg => (some (encodeError 400 (textBytes msg)), e)
  | .ok cmd =>
      match cmd.type with
      | .ping => (some (encodeAck e.wal.lastSeq (textBytes "PONG")), e)
      | .set =>
          let r := e.set cfg io cmd.key cmd.value
          (writeReply r.1, r.2)
      | .get =>
          match e.get cfg cmd.key with
          | .ok v => (some (encodeValue v), e)
          | .error err => (errorReply err, e)
      | .del =>
          let r := e.delete cfg io cmd.key
          (writeReply r.1, r.2)
      | .scan =>
          match e.scanPrefix cfg cmd.start cmd.limit with
          | .ok out => (some (encodeScanResult out), e)
          | .error err => (errorReply err, e)
      | _ => (some (encodeError 501 (textBytes "unsupported opcode")), e)

/-- A new process on the disk that another one left. -/
def boot (e : Engine) : Engine :=
  { memtable := { memoryBudgetBytes := cfg.opts.memtableBudgetBytes },
    wal := { segment := e.wal.segment }, l0Dir := e.l0Dir, l1Dir := e.l1Dir }

/-- A new process on an empty data directory. -/
def fresh : Engine :=
  { memtable := { memoryBudgetBytes := cfg.opts.memtableBudgetBytes } }

end Engine

end VaultKV
