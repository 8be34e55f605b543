import VaultKV.Wal.Recovery

/-!
# Wal — Close and reopen

A log is opened on ARBITRARY bytes, some records are appended, and it is
closed and opened again. The appended records stand where they were
written, but the scan of the second `Open` does not know where the first
one ended: it goes on as long as the bytes parse. So the second `Open`
finds the same log exactly when the ORIGINAL content has no record at the
offset where the last append ended.
-/

namespace VaultKV

open Lib

/-- The arguments of one `Append`, with the clock reading and the
randomness it meets. -/
structure AppendCall (c : Cipher) where
  ts : Nat
  rand : c.Rand
  op : WalOp
  key : Bytes
  value : Bytes

/-- The record a call writes under the number `seq`. -/
def AppendCall.record {c : Cipher} (a : AppendCall c) (seq : Nat) : WalRecord :=
  ⟨a.op, seq, a.ts % 2 ^ 64, a.key, a.value⟩

def AppendCall.run {c : Cipher} (capacity : Nat) (a : AppendCall c) (w : Wal) :
    Res Nat × Wal :=
  w.append c capacity a.ts a.rand a.op a.key a.value

/-- A sequence of appends: the records that went in, and the log after
them. A call that is refused appends nothing. -/
def Wal.appendAll {c : Cipher} (capacity : Nat) :
    List (AppendCall c) → Wal → List WalRecord × Wal
  | [], w => ([], w)
  | a :: calls, w =>
      match a.run capacity w with
      | (.ok seq, w') =>
          let rest := Wal.appendAll capacity calls w'
          (a.record seq :: rest.1, rest.2)
      | (.error _, w') => Wal.appendAll capacity calls w'

/-- Each appended record parses back at its own offset. -/
def Wal.ParseBack {c : Cipher} (capacity : Nat) : List (AppendCall c) → Wal → Prop
  | [], _ => True
  | a :: calls, w =>
      match a.run capacity w with
      | (.ok seq, w') =>
          parseRecordAt c capacity w'.segment w.writeOffset
            = .ok (a.record seq, w'.writeOffset) ∧ Wal.ParseBack capacity calls w'
      | (.error _, w') => Wal.ParseBack capacity calls w'

instance Wal.decidableParseBack {c : Cipher} (capacity : Nat) :
    (calls : List (AppendCall c)) → (w : Wal) → Decidable (Wal.ParseBack capacity calls w)
  | [], _ => isTrue trivial
  | a :: calls, w =>
      match h : a.run capacity w with
      | (.ok seq, w') =>
          have := Wal.decidableParseBack capacity calls w'
          decidable_of_iff
            (parseRecordAt c capacity w'.segment w.writeOffset
              = .ok (a.record seq, w'.writeOffset) ∧ Wal.ParseBack capacity calls w')
            (by simp only [Wal.ParseBack, h])
      | (.error _, w') =>
          have := Wal.decidableParseBack capacity calls w'
          decidable_of_iff (Wal.ParseBack capacity calls w')
            (by simp only [Wal.ParseBack, h])

/-- What `Replay` delivers, in order. -/
def Wal.delivered (c : Cipher) (capacity : Nat) (stop : Bool) (w : Wal) :
    Res Nat × List WalRecord :=
  w.replay c capacity (fun acc r => (.ok 0, acc ++ [r])) stop []

theorem runRecords_collect (rs : List WalRecord) :
    ∀ acc, runRecords (fun acc r => (.ok 0, acc ++ [r])) rs acc = (.ok 0, acc ++ rs) := by
  induction rs with
  | nil => intro acc; simp [runRecords]
  | cons r rs ih => intro acc; simp [runRecords, ih]

theorem Wal.Log.delivered {c : Cipher} {capacity : Nat} {w : Wal} {rs : List WalRecord}
    (h : w.Log c capacity rs) (stop : Bool) :
    w.delivered c capacity stop = (.ok 0, rs) := by
  rw [Wal.delivered, h.replay, runRecords_collect, List.nil_append]

/-- **Appends extend the log**, and leave alone what lies behind the last
of them. -/
theorem Wal.Log.appendAll {c : Cipher} {capacity : Nat} (calls : List (AppendCall c)) :
    ∀ {w : Wal} {rs : List WalRecord}, w.Log c capacity rs →
      Wal.ParseBack capacity calls w →
      (Wal.appendAll capacity calls w).2.Log c capacity
        (rs ++ (Wal.appendAll capacity calls w).1) ∧
      w.writeOffset ≤ (Wal.appendAll capacity calls w).2.writeOffset ∧
      (Wal.appendAll capacity calls w).2.segment.drop
          (Wal.appendAll capacity calls w).2.writeOffset
        = w.segment.drop (Wal.appendAll capacity calls w).2.writeOffset := by
  induction calls with
  | nil =>
      intro w rs hlog _
      exact ⟨by simpa [Wal.appendAll] using hlog, Nat.le_refl _, rfl⟩
  | cons a calls ih =>
      intro w rs hlog hback
      rcases hrun : a.run capacity w with ⟨res, w'⟩
      cases res with
      | error e =>
          have hw : w' = w := append_error hrun
          subst hw
          simp only [Wal.ParseBack, hrun] at hback
          simpa only [Wal.appendAll, hrun] using ih hlog hback
      | ok seq =>
          simp only [Wal.ParseBack, hrun] at hback
          obtain ⟨hlog', htail⟩ := hlog.append hrun hback.1
          obtain ⟨-, -, -, -, encoded, -, -, hw'⟩ := append_eq_of_ok hrun
          have hoff : w.writeOffset ≤ w'.writeOffset := by
            rw [hw']; exact Nat.le_add_right _ _
          obtain ⟨hall, hle, hrest⟩ := ih hlog' hback.2
          simp only [Wal.appendAll, hrun]
          refine ⟨?_, Nat.le_trans hoff hle, ?_⟩
          · simpa [AppendCall.record] using hall
          · -- behind the last record: untouched by this append too
            have hsplit := Nat.add_sub_cancel' hle
            rw [hrest, ← hsplit, ← List.drop_drop, ← List.drop_drop, htail]

/-- Closing an open log keeps the segment. -/
theorem close_of_isOpen {w : Wal} (h : w.isOpen = true) (msync : Option String) :
    (w.close msync).2 = { w with isOpen := false } := by
  rw [Wal.close, if_pos h]

/-- **Reopening a log** recovers its records and whatever the segment
parses behind them. -/
theorem reopen_log {pf : Platform} {c : Cipher} {capacity : Nat} {io : Wal.OpenIo}
    {msync : Option String} {w : Wal} {rs : List WalRecord} (h : w.Log c capacity rs)
    (hok : ((w.close msync).2.open pf c capacity io).1.isOk = true) :
    (((w.close msync).2.open pf c capacity io).2.Log c capacity
        (rs ++ (recordsFrom (walParse c capacity w.segment) capacity w.writeOffset).1)) ∧
      ((w.close msync).2.open pf c capacity io).2.writeOffset
        = (recordsFrom (walParse c capacity w.segment) capacity w.writeOffset).2 := by
  rw [close_of_isOpen h.isOpen] at hok ⊢
  obtain ⟨hlog, -, hend⟩ := open_log rfl hok
  rw [resize_of_length h.length, recovered_of_chain h.chain] at hlog hend
  exact ⟨hlog, hend⟩

/-- Behind the end of the log the segment parses as any bytes with the
same tail do. -/
theorem walParse_congr {c : Cipher} {capacity o : Nat} {segment segment' : Bytes}
    (h : segment.drop o = segment'.drop o) :
    walParse c capacity segment o = walParse c capacity segment' o := by
  rw [walParse, walParse, parseRecordAt_congr h]

/-- **What a second `Open` recovers.** A log opened on arbitrary bytes,
extended and reopened comes back as it was if and only if the original
bytes hold no record at the offset where the last append ended. -/
theorem reopen_exact_iff (pf : Platform) (c : Cipher) (capacity : Nat) (content : Bytes)
    (hlen : content.length = capacity) (io io' : Wal.OpenIo) (msync : Option String)
    (stop : Bool) (calls : List (AppendCall c)) (opened before reopened : Wal)
    (hopened : opened = (({ segment := content } : Wal).open pf c capacity io).2)
    (hok : (({ segment := content } : Wal).open pf c capacity io).1.isOk = true)
    (hback : Wal.ParseBack capacity calls opened)
    (hbefore : before = (Wal.appendAll capacity calls opened).2)
    (hreopened : reopened = ((before.close msync).2.open pf c capacity io').2)
    (hok' : ((before.close msync).2.open pf c capacity io').1.isOk = true) :
    (reopened.delivered c capacity stop
        = (.ok 0, (opened.delivered c capacity stop).2
            ++ (Wal.appendAll capacity calls opened).1) ∧
      reopened.lastSeq = before.lastSeq ∧ reopened.writeOffset = before.writeOffset) ↔
    (parseRecordAt c capacity content before.writeOffset).isOk = false := by
  obtain ⟨hlog, hseg, -⟩ := open_log (w := { segment := content }) rfl hok
  rw [← hopened] at hlog hseg
  rw [resize_of_length hlen] at hlog hseg
  obtain ⟨hall, -, htail⟩ := hlog.appendAll calls hback
  rw [← hbefore, hseg] at htail
  rw [← hbefore] at hall
  obtain ⟨hre, hend⟩ := reopen_log hall hok'
  rw [← hreopened] at hre hend
  rw [hre.delivered, hlog.delivered, hre.lastSeq, hall.lastSeq, hend]
  have hprog := walParse_progress c capacity before.segment
  have hparse : walParse c capacity before.segment before.writeOffset
      = walParse c capacity content before.writeOffset := walParse_congr htail
  constructor
  · -- a record behind the end would have been delivered
    rintro ⟨hdel, -, -⟩
    cases hp : parseRecordAt c capacity content before.writeOffset with
    | error e => rfl
    | ok x =>
        obtain ⟨r, next⟩ := x
        rw [walParse_eq_some.mpr hp] at hparse
        rw [recordsFrom_some hprog hparse] at hdel
        simp at hdel
  · intro hnone
    cases hp : parseRecordAt c capacity content before.writeOffset with
    | ok x => rw [hp] at hnone; cases hnone
    | error e =>
        rw [walParse_eq_none.mpr ⟨e, hp⟩] at hparse
        rw [recordsFrom_none hparse]
        simp

/-! ## A damaged log -/

/-- The calls that wrote the log below: two records of 61 bytes. -/
def damagedLogCalls : List (AppendCall (fallback zeroKey)) :=
  [⟨0, (1 : Nat), .kSet, [97], [49]⟩, ⟨0, (2 : Nat), .kSet, [97], [50]⟩]

/-- A log of two records, a byte of the first one's ciphertext damaged. -/
def damagedLog : Bytes :=
  let empty : Wal := { isOpen := true, segment := List.replicate 122 0 }
  overwrite (Wal.appendAll 122 damagedLogCalls empty).2.segment 60 [0]

theorem damagedLog_maxMap_lt : 4096 < 2 ^ 57 := by decide

def damagedLogPlatform : Platform := { maxMap := 4096, maxMap_lt := damagedLog_maxMap_lt }

/-- The damaged log as `Open` finds it: without any record. -/
def damagedLogOpened : Wal :=
  (({ segment := damagedLog } : Wal).open damagedLogPlatform (fallback zeroKey) 122 {}).2

/-- One record of 61 bytes. -/
def damagedLogAppend : List (AppendCall (fallback zeroKey)) :=
  [⟨0, (3 : Nat), .kSet, [98], [51]⟩]

def damagedLogBefore : Wal := (Wal.appendAll 122 damagedLogAppend damagedLogOpened).2

def damagedLogReopened : Wal :=
  ((damagedLogBefore.close none).2.open damagedLogPlatform (fallback zeroKey) 122 {}).2

/-- **A stale record comes back.** The appended record ends where the
second old record begins: the second `Open` recovers the old record as
well. -/
theorem damagedLog_reopen_delivers_stale :
    damagedLog.length = 122 ∧
    (({ segment := damagedLog } : Wal).open damagedLogPlatform
      (fallback zeroKey) 122 {}).1.isOk = true ∧
    Wal.ParseBack 122 damagedLogAppend damagedLogOpened ∧
    ((damagedLogBefore.close none).2.open damagedLogPlatform
      (fallback zeroKey) 122 {}).1.isOk = true ∧
    damagedLogOpened.delivered (fallback zeroKey) 122 true = (.ok 0, []) ∧
    (Wal.appendAll 122 damagedLogAppend damagedLogOpened).1
      = [⟨.kSet, 1, 0, [98], [51]⟩] ∧
    damagedLogReopened.delivered (fallback zeroKey) 122 true
      = (.ok 0, [⟨.kSet, 1, 0, [98], [51]⟩, ⟨.kSet, 2, 0, [97], [50]⟩]) ∧
    damagedLogBefore.writeOffset = 61 ∧ damagedLogReopened.writeOffset = 122 ∧
    damagedLogBefore.lastSeq = 1 ∧ damagedLogReopened.lastSeq = 2 := by
  decide +kernel

/-- One record of 62 bytes. -/
def damagedLogLonger : List (AppendCall (fallback zeroKey)) :=
  [⟨0, (3 : Nat), .kSet, [98], [51, 51]⟩]

/-- A record one byte longer covers the start of the stale one: now the
log comes back as it was. -/
theorem damagedLog_reopen_exact :
    let before := (Wal.appendAll 122 damagedLogLonger damagedLogOpened).2
    let reopened :=
      ((before.close none).2.open damagedLogPlatform (fallback zeroKey) 122 {}).2
    reopened.delivered (fallback zeroKey) 122 true
      = (.ok 0, (damagedLogOpened.delivered (fallback zeroKey) 122 true).2
          ++ (Wal.appendAll 122 damagedLogLonger damagedLogOpened).1) ∧
      reopened.lastSeq = before.lastSeq ∧ reopened.writeOffset = before.writeOffset :=
  (reopen_exact_iff damagedLogPlatform (fallback zeroKey) 122 damagedLog
    (by decide +kernel) {} {} none true damagedLogLonger damagedLogOpened _ _ rfl
    (by decide +kernel) (by decide +kernel) rfl rfl (by decide +kernel)).mpr
    (by decide +kernel)

end VaultKV
