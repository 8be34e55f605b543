import VaultKV.Sstable.Faults

/-!
# Compaction — merging level 0 into level 1 (`compaction.h`, `compaction.cpp`)

All records of the level 0 tables, the version with the largest number for
each key, WITHOUT the tombstones. When nothing is left no file is written
and the call still returns `Ok`.
-/

namespace VaultKV

open Lib

/-- What a compaction meets outside the program: each input table when it
is opened and read, and the build of the output. -/
structure MergeIo (c : Cipher) where
  opens : Nat → ReadIo := fun _ => {}
  reads : Nat → Nat → ReadIo := fun _ _ => {}
  build : BuildIo c

/-- The records of the input tables, in the order they are read. -/
def collectRecords (c : Cipher) (io : MergeIo c) (dir : SortedMap Bytes Bytes) :
    Nat → List Bytes → Res (List SstableRecord)
  | _, [] => .ok []
  | i, p :: ps =>
      match SstableReader.open (io.opens i) p (dir.find p) with
      | .error e => .error e
      | .ok rd =>
          match collectRecords c io dir (i + 1) ps with
          | .error e => .error e
          | .ok rs => .ok (rd.allRecords c (io.reads i) (dir.find p) ++ rs)

/-- When all records were collected, each table opened. -/
theorem collectRecords_cons_ok {c : Cipher} {io : MergeIo c} {dir : SortedMap Bytes Bytes}
    {i : Nat} {p : Bytes} {ps : List Bytes} {rs : List SstableRecord}
    (h : collectRecords c io dir i (p :: ps) = .ok rs) :
    ∃ rd rest, SstableReader.open (io.opens i) p (dir.find p) = .ok rd ∧
      collectRecords c io dir (i + 1) ps = .ok rest ∧
      rs = rd.allRecords c (io.reads i) (dir.find p) ++ rest := by
  rw [collectRecords] at h
  cases hopen : SstableReader.open (io.opens i) p (dir.find p) with
  | error e => rw [hopen] at h; cases h
  | ok rd =>
      rw [hopen] at h
      dsimp only at h
      cases hrest : collectRecords c io dir (i + 1) ps with
      | error e => rw [hrest] at h; cases h
      | ok rest =>
          rw [hrest] at h
          exact ⟨rd, rest, rfl, rfl, (Except.ok.inj h).symm⟩

/-- The output records: the latest of each key, tombstones left out. -/
def outputRecords (rs : List SstableRecord) : List SstableRecord :=
  (latestRecords rs).filter fun r => !r.tombstone

/-- What is written is one live table. -/
theorem outputRecords_eq_live (rs : List SstableRecord) :
    outputRecords rs
      = (Lsm.live (merge (rs.map SstableRecord.entry))).entries.map SstableRecord.ofEntry := by
  rw [outputRecords, latestRecords, List.filter_map]
  rfl

/-- `CompactionManager::CompactLevel0ToLevel1`: the status, and the stream
if the output file was created. -/
def compactLevel0ToLevel1 (c : Cipher) (io : MergeIo c) (dir : SortedMap Bytes Bytes)
    (l0Tables : List Bytes) (outputPath : Bytes) : Res Nat × Option OStream :=
  if l0Tables = [] then
    (.error (Status.invalidArgument "no L0 tables to compact"), none)
  else
    match collectRecords c io dir 0 l0Tables with
    | .error e => (.error e, none)
    | .ok rs =>
        if outputRecords rs = [] then (.ok 0, none)
        else
          match SstableBuilder.build c io.build outputPath (outputRecords rs) with
          | (.error e, out) => (.error e, out)
          | (.ok _, out) => (.ok 0, out)

end VaultKV
