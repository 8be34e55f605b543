import VaultKV.Framing
import VaultKV.Engine.Recovery

/-!
# Engine — the errors of the storage layers

The log, the memtable, the tables and the compaction fail with texts of
their own, apart from what the system says about a directory. Two facts
about all of them, in one pass over the code: none is the peers' refusal,
and each fits an error frame.
-/

namespace VaultKV

open Lib

/-! ## Local errors -/

/-- The text of a status fits an error frame. -/
def Err.Fits : Err → Prop
  | .status s => 4 + (textBytes s.message).length ≤ kMaxPayloadBytes
  | .exception _ => True
  | .outOfBounds => True

instance : (err : Err) → Decidable err.Fits
  | .status s => inferInstanceAs (Decidable (4 + (textBytes s.message).length ≤ _))
  | .exception _ => isTrue trivial
  | .outOfBounds => isTrue trivial

/-- What the system says about a directory that cannot be created leaves
room for the words in front of it. -/
def BuildIo.TextFits {c : Cipher} (io : BuildIo c) : Prop :=
  ∀ text ∈ io.createDirectories, 64 + (textBytes text).length ≤ kMaxPayloadBytes

structure WriteIo.TextsFit {c : Cipher} (io : WriteIo c) : Prop where
  flush : io.flush.build.TextFits
  compact : io.flush.compact.merge.build.TextFits

/-- **A local error**: it does not come from the peers, and its text fits an
error frame if the texts of the system do. -/
structure Err.Local (texts : Prop) (err : Err) : Prop where
  own : err.code? ≠ some .kNoQuorum
  fits : texts → err.Fits

section

variable {texts : Prop}

/-! ### Files -/

theorem readIndex_local (n : Nat) :
    ∀ {s : IStream} {err : Err}, readIndex n s = .error err → err.Local texts := by
  induction n with
  | zero => intro s err h; cases h
  | succ n ih =>
      intro s err h
      unfold readIndex at h
      repeat' split at h
      all_goals first
        | (cases h; exact ⟨by decide, fun _ => by decide⟩)
        | (cases h; exact ih ‹_›)
        | cases h

theorem readBloom_local {s : IStream} {err : Err} (h : readBloom s = .error err) :
    err.Local texts := by
  unfold readBloom at h
  repeat' split at h
  all_goals first
    | (cases h; exact ⟨by decide, fun _ => by decide⟩)
    | cases h

theorem open_local {io : ReadIo} {path : Bytes} {file : Option Bytes} {err : Err}
    (h : SstableReader.open io path file = .error err) : err.Local texts := by
  unfold SstableReader.open at h
  dsimp only at h
  repeat' split at h
  all_goals first
    | (cases h; exact ⟨by decide, fun _ => by decide⟩)
    | (cases h; exact readIndex_local _ ‹_›)
    | (cases h; exact readBloom_local ‹_›)
    | cases h

theorem setBits_local (bs : List Nat) :
    ∀ {bits : Bytes} {err : Err}, BloomFilter.setBits bits bs = .error err → err.Local texts := by
  induction bs with
  | nil => intro bits err h; cases h
  | cons b bs ih =>
      intro bits err h
      rw [BloomFilter.setBits] at h
      cases hb : BloomFilter.setBit bits b with
      | error e =>
          rw [hb] at h
          cases h
          unfold BloomFilter.setBit at hb
          split at hb
          · cases hb; exact ⟨by decide, fun _ => trivial⟩
          · cases hb
      | ok bits' =>
          rw [hb] at h
          exact ih h

theorem addAll_local (keys : List Bytes) :
    ∀ {f : BloomFilter} {err : Err}, f.addAll keys = .error err → err.Local texts := by
  induction keys with
  | nil => intro f err h; cases h
  | cons key keys ih =>
      intro f err h
      rw [BloomFilter.addAll] at h
      cases hadd : f.add key with
      | error e =>
          rw [hadd] at h
          cases h
          unfold BloomFilter.add at hadd
          repeat' split at hadd
          all_goals first
            | (cases hadd; exact setBits_local _ ‹_›)
            | cases hadd
      | ok f' =>
          rw [hadd] at h
          exact ih h

/-! ### Builds and merges -/

theorem writeRecords_local {c : Cipher} {io : BuildIo c} (rs : List SstableRecord) :
    ∀ {i : Nat} {out : OStream} {err : Err},
      (writeRecords c io rs i out).1 = .error err → err.Local texts := by
  induction rs with
  | nil => intro i out err h; cases h
  | cons r rs ih =>
      intro i out err h
      rw [writeRecords] at h
      dsimp only at h
      repeat' split at h
      all_goals first
        | (cases h; exact ⟨by decide, fun _ => by decide⟩)
        | (rename_i heq; cases h; exact ih (congrArg Prod.fst heq))
        | cases h

theorem finishBuild_local {c : Cipher} {io : BuildIo c} {path : Bytes}
    {sorted : List SstableRecord} {index : List (Bytes × Nat)} {out : OStream} {err : Err}
    (h : (finishBuild io path sorted index out).1 = .error err) : err.Local texts := by
  unfold finishBuild at h
  dsimp only at h
  repeat' split at h
  all_goals first
    | (cases h; exact ⟨by decide, fun _ => by decide⟩)
    | (cases h; exact addAll_local _ ‹_›)
    | cases h

theorem textBytes_append (a b : String) : textBytes (a ++ b) = textBytes a ++ textBytes b := by
  simp [textBytes]

theorem build_local {c : Cipher} {io : BuildIo c} (hio : texts → io.TextFits) {path : Bytes}
    {records : List SstableRecord} {err : Err}
    (h : (SstableBuilder.build c io path records).1 = .error err) : err.Local texts := by
  unfold SstableBuilder.build at h
  by_cases hnil : records = []
  · rw [if_pos hnil] at h
    cases h
    exact ⟨by decide, fun _ => by decide⟩
  rw [if_neg hnil] at h
  cases hdir : io.createDirectories with
  | some text =>
      rw [hdir] at h
      cases h
      have hwords : (textBytes "failed creating sstable dir: ").length = 29 := by decide
      refine ⟨fun hcode => (by cases hcode), fun ht => ?_⟩
      have htext := hio ht text hdir
      show 4 + (textBytes ("failed creating sstable dir: " ++ text)).length ≤ _
      rw [textBytes_append, List.length_append, hwords]
      omega
  | none =>
      rw [hdir] at h
      dsimp only at h
      repeat' split at h
      all_goals first
        | (cases h; exact ⟨by decide, fun _ => by decide⟩)
        | (rename_i heq; cases h; exact writeRecords_local _ (congrArg Prod.fst heq))
        | exact finishBuild_local h

theorem collectRecords_local {c : Cipher} {io : MergeIo c} {dir : SortedMap Bytes Bytes}
    (ps : List Bytes) :
    ∀ {i : Nat} {err : Err}, collectRecords c io dir i ps = .error err → err.Local texts := by
  induction ps with
  | nil => intro i err h; cases h
  | cons p ps ih =>
      intro i err h
      rw [collectRecords] at h
      repeat' split at h
      all_goals first
        | (cases h; exact open_local ‹_›)
        | (cases h; exact ih ‹_›)
        | cases h

theorem compact_local {c : Cipher} {io : MergeIo c} (hio : texts → io.build.TextFits)
    {dir : SortedMap Bytes Bytes} {paths : List Bytes} {path : Bytes} {err : Err}
    (h : (compactLevel0ToLevel1 c io dir paths path).1 = .error err) : err.Local texts := by
  unfold compactLevel0ToLevel1 at h
  repeat' split at h
  all_goals first
    | (cases h; exact ⟨by decide, fun _ => by decide⟩)
    | (cases h; exact collectRecords_local _ ‹_›)
    | (rename_i heq; cases h; exact build_local hio (congrArg Prod.fst heq))
    | cases h

/-! ### Operations -/

variable {cfg : Config} {e : Engine} {err : Err}

theorem maybeCompact_local {io : CompactIo cfg.cipher} (hio : texts → io.merge.build.TextFits)
    (h : (e.maybeCompact cfg io).1 = .error err) : err.Local texts := by
  unfold Engine.maybeCompact at h
  dsimp only at h
  repeat' split at h
  all_goals first
    | (rename_i heq; cases h; exact compact_local hio heq)
    | (cases h; exact open_local ‹_›)
    | cases h

theorem buildAndInstall_local {io : FlushIo cfg.cipher} (hio : texts → io.build.TextFits)
    (h : (e.buildAndInstall cfg io).1 = .error err) : err.Local texts := by
  unfold Engine.buildAndInstall at h
  dsimp only at h
  repeat' split at h
  all_goals first
    | (rename_i heq; cases h; exact build_local hio heq)
    | (cases h; exact open_local ‹_›)
    | cases h

theorem flushMemTable_local {io : FlushIo cfg.cipher} (hbuild : texts → io.build.TextFits)
    (hcompact : texts → io.compact.merge.build.TextFits)
    (h : (e.flushMemTable cfg io).1 = .error err) : err.Local texts := by
  unfold Engine.flushMemTable at h
  repeat' split at h
  all_goals first
    | (cases h; exact ⟨by decide, fun _ => by decide⟩)
    | (rename_i heq; cases h; exact buildAndInstall_local hbuild (congrArg Prod.fst heq))
    | exact maybeCompact_local hcompact h
    | cases h

theorem serializeRecord_local {c : Cipher} {rand : c.Rand} {rec : WalRecord}
    (h : serializeRecord c rand rec = .error err) : err.Local texts := by
  unfold serializeRecord at h
  split at h
  · cases h; exact ⟨by decide, fun _ => by decide⟩
  · cases h

theorem append_local {c : Cipher} {capacity ts : Nat} {rand : c.Rand} {op : WalOp}
    {key value : Bytes} {w : Wal}
    (h : (w.append c capacity ts rand op key value).1 = .error err) : err.Local texts := by
  unfold Wal.append at h
  dsimp only at h
  repeat' split at h
  all_goals first
    | (cases h; exact ⟨by decide, fun _ => by decide⟩)
    | (cases h; exact serializeRecord_local ‹_›)
    | cases h

theorem logWrite_local {io : WriteIo cfg.cipher} {op : WalOp} {key value : Bytes}
    (h : (e.logWrite cfg io op key value).1 = .error err) : err.Local texts := by
  unfold Engine.logWrite at h
  repeat' split at h
  all_goals first
    | (cases h; exact ⟨by decide, fun _ => by decide⟩)
    | exact append_local h

theorem applySet_local {io : FlushIo cfg.cipher} (hbuild : texts → io.build.TextFits)
    (hcompact : texts → io.compact.merge.build.TextFits) {key value : Bytes} {seq : Nat}
    (h : (e.applySet cfg io key value seq).1 = .error err) : err.Local texts := by
  unfold Engine.applySet at h
  cases hset : e.memtable.set key value seq with
  | mk res m =>
  rw [hset] at h
  cases res with
  | error err' =>
      cases h
      unfold MemTable.set at hset
      split at hset
      · cases hset; exact ⟨by decide, fun _ => by decide⟩
      · cases hset
  | ok n =>
      dsimp only at h
      repeat' split at h
      all_goals first
        | (rename_i heq; cases h
           exact flushMemTable_local hbuild hcompact (congrArg Prod.fst heq))
        | cases h

/-- **Who refused the write**: a `NoQuorum` comes from the peers, after the
record has reached the log and before anything else has changed. -/
theorem set_noQuorum {io : WriteIo cfg.cipher} {key value : Bytes}
    (h : (e.set cfg io key value).1 = .error err) (hcode : err.code? = some .kNoQuorum) :
    (∃ seq, (e.logWrite cfg io .kSet key value).1 = .ok seq) ∧
      Engine.replicate cfg io.calls = .error err := by
  cases Engine.set_writes cfg io key value e with
  | refused err' hlog hout =>
      rw [hout] at h
      cases h
      have hlocal : err.Local False := logWrite_local (congrArg Prod.fst hlog)
      exact absurd hcode hlocal.own
  | unreplicated seq w err' hrec hrepl hout =>
      rw [hout] at h
      cases h
      exact ⟨⟨seq, congrArg Prod.fst hrec.logWrite⟩, hrepl⟩
  | applied seq w n _ _ hout =>
      rw [hout] at h
      have hlocal : err.Local False := applySet_local False.elim False.elim h
      exact absurd hcode hlocal.own

theorem delete_noQuorum {io : WriteIo cfg.cipher} {key : Bytes}
    (h : (e.delete cfg io key).1 = .error err) (hcode : err.code? = some .kNoQuorum) :
    (∃ seq, (e.logWrite cfg io .kDelete key []).1 = .ok seq) ∧
      Engine.replicate cfg io.calls = .error err := by
  cases Engine.delete_writes cfg io key e with
  | refused err' hlog hout =>
      rw [hout] at h
      cases h
      have hlocal : err.Local False := logWrite_local (congrArg Prod.fst hlog)
      exact absurd hcode hlocal.own
  | unreplicated seq w err' hrec hrepl hout =>
      rw [hout] at h
      cases h
      exact ⟨⟨seq, congrArg Prod.fst hrec.logWrite⟩, hrepl⟩
  | applied seq w n hrec _ hout =>
      rw [hout, Engine.applyDelete, MemTable.delete_of_ne_nil hrec.key_ne] at h
      cases h

end

end VaultKV
