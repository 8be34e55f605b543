import VaultKV.Lib.Journal
import VaultKV.Wal.Capacity

/-!
# Wal — the build without a mapping (`wal.cpp`, platforms other than Linux)

Where there is no `mmap` the segment is a vector of the process. `Open` reads
the file into it, `FlushFallbackFile` writes the bytes up to `write_offset_`
as the whole new content of the file, and only `Sync` and `Close` call it.
`Append`, `Replay` and `FindEndAndLastSeq` are the same code on the vector, so
`wal` is the model of the other build with `bytes_` as its segment.

Two things follow. What a process that is killed leaves is what the last
flush wrote (`FallbackWal.recovers_last_flush`): nothing it appended since,
and nothing that lay behind the end of the log either. As long as nobody is
killed and nothing fails, the two builds cannot be told apart
(`FallbackWal.builds_agree`).
-/

namespace VaultKV

open Lib

/-- `class Wal` of this build; `file` is the segment file, if there is one. -/
structure FallbackWal where
  wal : Wal := {}
  file : Option Bytes := none
  deriving DecidableEq

namespace FallbackWal

/-- What `Open` meets: the error of `create_directories`, and how many bytes
the stream delivers when it is not all of them (none at all if the file cannot
be opened). -/
structure OpenIo where
  createDirectories : Option String := none
  served : Option Nat := none
  deriving DecidableEq

/-- What a flush meets. A failing device is noticed by `write`, or, for what
is still in the stream's buffer, only when the stream is destroyed. -/
inductive FlushIo where
  | done
  | noFile
  | failed (n : Nat)
  | dropped (n : Nat)
  deriving DecidableEq

/-- What the stream delivers. -/
def content (io : OpenIo) (p : FallbackWal) : Bytes :=
  match io.served with
  | none => p.file.getD []
  | some n => (p.file.getD []).take n

/-- `Wal::Open`. -/
def «open» (c : Cipher) (capacity : Nat) (io : OpenIo) (p : FallbackWal) :
    Res Nat × FallbackWal :=
  if p.wal.isOpen then (.ok 0, p)
  else
    match io.createDirectories with
    | some e => (.error (Status.ioError ("failed creating wal dir: " ++ e)), p)
    | none =>
        if 2 ^ 63 ≤ capacity then (.error (.exception .lengthError), p)
        else
          let bytes := overwrite (List.replicate capacity 0) 0 ((p.content io).take capacity)
          (.ok 0, { p with
            wal := { Wal.findEndAndLastSeq c capacity { p.wal with segment := bytes } with
              isOpen := true } })

/-- `Wal::FlushFallbackFile`. -/
def flushFallbackFile (io : FlushIo) (p : FallbackWal) : Res Nat × FallbackWal :=
  let bytes := p.wal.segment.take p.wal.writeOffset
  match io with
  | .done => (.ok 0, { p with file := some bytes })
  | .noFile => (.error (Status.ioError "failed to open wal for flush"), p)
  | .failed n =>
      (.error (Status.ioError "failed writing wal fallback data"),
        { p with file := some (bytes.take n) })
  | .dropped n => (.ok 0, { p with file := some (bytes.take n) })

/-- `Wal::Sync`. -/
def sync (io : FlushIo) (p : FallbackWal) : Res Nat × FallbackWal :=
  if p.wal.isOpen then p.flushFallbackFile io
  else (.error (Status.ioError "wal not open"), p)

/-- `Wal::Close`: it flushes twice. -/
def close (io io' : FlushIo) (p : FallbackWal) : Res Nat × FallbackWal :=
  if p.wal.isOpen then
    let synced := p.sync io
    let flushed := synced.2.flushFallbackFile io'
    (match flushed.1 with
      | .ok _ => synced.1
      | .error e => .error e,
     { flushed.2 with wal := { flushed.2.wal with segment := [], isOpen := false } })
  else (.ok 0, p)

/-- `Wal::Append`. -/
def append {c : Cipher} (capacity : Nat) (a : AppendCall c) (p : FallbackWal) :
    Res Nat × FallbackWal :=
  ((a.run capacity p.wal).1, { p with wal := (a.run capacity p.wal).2 })

/-- The process is gone; the next one starts with a new `Wal`. -/
def crash (p : FallbackWal) : FallbackWal := { file := p.file }

/-! ## Opening and flushing -/

variable {c : Cipher} {capacity : Nat} {p : FallbackWal}

/-- The vector that is read into is the file, cut or filled up. -/
theorem overwrite_zeros (content : Bytes) (capacity : Nat) :
    overwrite (List.replicate capacity 0) 0 (content.take capacity)
      = Wal.resize content capacity := by
  rw [overwrite, Wal.resize, List.take_zero, List.nil_append, List.drop_replicate,
    List.length_take]
  congr 2
  omega

/-- `Open` with nothing in its way. -/
theorem open_eq (hclosed : p.wal.isOpen = false) (hcap : capacity < 2 ^ 63) :
    p.open c capacity {} = (.ok 0, { p with
      wal := ⟨true, lastSeqOf (recovered c capacity (Wal.resize (p.file.getD []) capacity)).1,
        (recovered c capacity (Wal.resize (p.file.getD []) capacity)).2,
        Wal.resize (p.file.getD []) capacity⟩ }) := by
  have hread : p.content {} = p.file.getD [] := rfl
  rw [FallbackWal.open, if_neg (by simp [hclosed])]
  dsimp only
  rw [if_neg (by omega), hread, overwrite_zeros, findEndAndLastSeq_eq]

/-- **A flush keeps the log.** What it writes is read back as the log,
whatever lay behind its end. -/
theorem recovered_flush {w : Wal} {rs : List WalRecord} (h : w.Log c capacity rs) :
    recovered c capacity (Wal.resize (w.segment.take w.writeOffset) capacity)
      = (rs, w.writeOffset) := by
  have hused := h.writeOffset_le
  have hlen := h.length
  have hcut : (w.segment.take w.writeOffset).length = w.writeOffset := by
    rw [List.length_take]
    omega
  have hchain : Chain (walParse c capacity (w.segment.take w.writeOffset)) 0 rs w.writeOffset :=
    chain_cut h.chain (by rw [List.take_take, Nat.min_self]) hused
  refine recovered_resize hchain (Nat.le_of_eq hcut.symm) hused ?_
  rw [hcut, Nat.sub_self, List.drop_eq_nil_of_le (Nat.le_of_eq hcut)]
  rfl

/-! ## Runs -/

/-- What may happen to the log, and what it meets then. -/
inductive Call (c : Cipher) where
  | open (io : OpenIo)
  | append (a : AppendCall c)
  | sync (io : FlushIo)
  | close (io io' : FlushIo)
  | crash

def step (capacity : Nat) (p : FallbackWal) : Call c → FallbackWal
  | .open io => (p.open c capacity io).2
  | .append a => (p.append capacity a).2
  | .sync io => (p.sync io).2
  | .close io io' => (p.close io io').2
  | .crash => p.crash

def run (capacity : Nat) (p : FallbackWal) (calls : List (Call c)) : FallbackWal :=
  calls.foldl (step capacity) p

/-- What a call does to the journal: an `Open` of an open log and a call that
is refused do nothing. -/
def events (capacity : Nat) (p : FallbackWal) : Call c → List (JournalEvent WalRecord)
  | .open io => if p.wal.isOpen = false ∧ (p.open c capacity io).1.isOk then [.opened] else []
  | .append a =>
      match (p.append capacity a).1 with
      | .ok seq => [.appended (a.record seq)]
      | .error _ => []
  | .sync io => if p.wal.isOpen = true ∧ io = .done then [.flushed] else []
  | .close io io' =>
      if p.wal.isOpen then
        (if io = .done ∨ io' = .done then [.flushed] else []) ++ [.stopped]
      else []
  | .crash => [.stopped]

/-- What happens over a run. -/
def trace (capacity : Nat) : List (Call c) → FallbackWal → List (JournalEvent WalRecord)
  | [], _ => []
  | x :: xs, p => p.events capacity x ++ trace capacity xs (p.step capacity x)

/-- The whole file or nothing is written. -/
def FlushIo.Whole (io : FlushIo) : Prop := io = .done ∨ io = .noFile

instance : DecidablePred FlushIo.Whole := fun _ => inferInstanceAs (Decidable (_ ∨ _))

/-- Nothing is cut short by this call: the file is read to its end, an
appended record parses back, and a flush writes everything or does not open
the file. -/
def Uncut (capacity : Nat) (p : FallbackWal) : Call c → Prop
  | .open io => io.served = none
  | .append a => Wal.ParseBack capacity [a] p.wal
  | .sync io => io.Whole
  | .close io io' => io.Whole ∧ io'.Whole
  | .crash => True

instance (capacity : Nat) (p : FallbackWal) : (x : Call c) → Decidable (p.Uncut capacity x)
  | .open io => inferInstanceAs (Decidable (io.served = none))
  | .append a => inferInstanceAs (Decidable (Wal.ParseBack capacity [a] p.wal))
  | .sync io => inferInstanceAs (Decidable io.Whole)
  | .close io io' => inferInstanceAs (Decidable (io.Whole ∧ io'.Whole))
  | .crash => isTrue trivial

def AllUncut (capacity : Nat) : List (Call c) → FallbackWal → Prop
  | [], _ => True
  | x :: xs, p => p.Uncut capacity x ∧ AllUncut capacity xs (p.step capacity x)

instance decidableAllUncut (capacity : Nat) :
    (xs : List (Call c)) → (p : FallbackWal) → Decidable (AllUncut capacity xs p)
  | [], _ => isTrue trivial
  | x :: xs, p =>
      @instDecidableAnd _ _ (inferInstanceAs (Decidable (p.Uncut capacity x)))
        (decidableAllUncut capacity xs (p.step capacity x))

/-! ## The journal behind a run -/

/-- The file yields the records kept, the vector holds the live ones. -/
structure Refines (c : Cipher) (capacity : Nat) (p : FallbackWal) (j : Journal WalRecord) :
    Prop where
  kept : (recovered c capacity (Wal.resize (p.file.getD []) capacity)).1 = j.kept
  live : ∀ rs, j.live = some rs → p.wal.Log c capacity rs
  closed : j.live = none → p.wal.isOpen = false

variable {j : Journal WalRecord}

theorem Refines.isOpen (h : p.Refines c capacity j) :
    p.wal.isOpen = true ↔ ∃ rs, j.live = some rs := by
  cases hl : j.live with
  | none => simp [h.closed hl]
  | some rs => simp [(h.live rs hl).isOpen]

/-- A closed log is read from the file. -/
theorem Refines.open (h : p.Refines c capacity j) {io : OpenIo} (hio : io.served = none) :
    (p.open c capacity io).2.Refines c capacity (j.run (p.events capacity (c := c) (.open io))) := by
  obtain ⟨dirs, served⟩ := io
  subst hio
  by_cases hopen : p.wal.isOpen = true
  · rw [events, if_neg (by simp [hopen]), FallbackWal.open, if_pos hopen]
    exact h
  · have hclosed : p.wal.isOpen = false := by simpa using hopen
    cases dirs with
    | some e =>
        have hfail : p.open c capacity ⟨some e, none⟩
            = (.error (Status.ioError ("failed creating wal dir: " ++ e)), p) := by
          rw [FallbackWal.open, if_neg hopen]
        rw [events, hfail, if_neg (by simp)]
        exact h
    | none =>
        by_cases hcap : capacity < 2 ^ 63
        · rw [events, open_eq hclosed hcap, if_pos ⟨hclosed, rfl⟩]
          have hchain := (chain_recordsFrom
            (walParse_progress c capacity (Wal.resize (p.file.getD []) capacity)) 0).1
          refine ⟨h.kept, fun rs hrs => ?_, fun hnone => by cases hnone⟩
          obtain rfl : j.kept = rs := Option.some.inj hrs
          rw [← h.kept]
          exact ⟨rfl, length_resize _ _, hchain, rfl⟩
        · have hfail : p.open c capacity ⟨none, none⟩
              = (.error (.exception .lengthError), p) := by
            rw [FallbackWal.open, if_neg hopen]
            exact if_pos (by omega)
          rw [events, hfail, if_neg (by simp)]
          exact h

theorem Refines.append (h : p.Refines c capacity j) {a : AppendCall c}
    (hback : p.Uncut capacity (.append a)) :
    (p.append capacity a).2.Refines c capacity (j.run (p.events capacity (.append a))) := by
  rw [events]
  rw [Uncut, Wal.ParseBack] at hback
  unfold FallbackWal.append
  generalize hrun : a.run capacity p.wal = r at hback ⊢
  obtain ⟨res, w'⟩ := r
  cases res with
  | error e =>
      obtain rfl : w' = p.wal := append_error hrun
      exact h
  | ok seq =>
      obtain ⟨rs, hrs⟩ := h.isOpen.mp (append_eq_of_ok hrun).1
      have hlog := ((h.live rs hrs).append hrun hback.1).1
      refine ⟨h.kept, fun rs' hrs' => ?_, fun hnone => ?_⟩
      · have hlive : rs ++ [a.record seq] = rs' := by simpa [Journal.step, hrs] using hrs'
        rw [← hlive]
        exact hlog
      · simp [Journal.step, hrs] at hnone

/-- A flush that writes everything makes the live records the kept ones. -/
theorem Refines.flush (h : p.Refines c capacity j) {rs : List WalRecord}
    (hrs : j.live = some rs) {io : FlushIo} (hio : io.Whole) :
    (p.flushFallbackFile io).2.Refines c capacity
      (j.run (if io = .done then [.flushed] else [])) ∧
      (p.flushFallbackFile io).2.wal = p.wal := by
  rcases hio with rfl | rfl
  · refine ⟨⟨?_, h.live, h.closed⟩, rfl⟩
    show (recovered c capacity (Wal.resize (p.wal.segment.take p.wal.writeOffset) capacity)).1
      = j.live.getD j.kept
    rw [recovered_flush (h.live rs hrs), hrs]
    rfl
  · exact ⟨h, rfl⟩

theorem Refines.stop (h : p.Refines c capacity j) {w : Wal} (hw : w.isOpen = false) :
    Refines c capacity { p with wal := w } (j.step .stopped) :=
  ⟨h.kept, fun _ hrs => (by cases hrs), fun _ => hw⟩

theorem Refines.sync (h : p.Refines c capacity j) {io : FlushIo} (hio : io.Whole) :
    (p.sync io).2.Refines c capacity (j.run (p.events capacity (c := c) (.sync io))) := by
  rw [events, FallbackWal.sync]
  by_cases hopen : p.wal.isOpen = true
  · obtain ⟨rs, hrs⟩ := h.isOpen.mp hopen
    simp only [hopen, true_and, if_true]
    exact (h.flush hrs hio).1
  · rw [if_neg hopen, if_neg (by simp [hopen])]
    exact h

theorem Refines.close (h : p.Refines c capacity j) {io io' : FlushIo} (hio : io.Whole)
    (hio' : io'.Whole) :
    (p.close io io').2.Refines c capacity (j.run (p.events capacity (c := c) (.close io io'))) := by
  rw [events, FallbackWal.close]
  by_cases hopen : p.wal.isOpen = true
  · obtain ⟨rs, hrs⟩ := h.isOpen.mp hopen
    have hsync : p.sync io = p.flushFallbackFile io := by rw [FallbackWal.sync, if_pos hopen]
    rw [if_pos hopen, if_pos hopen, hsync, Journal.run_append]
    obtain ⟨hfirst, -⟩ := h.flush hrs hio
    have hrs' : (j.run (if io = .done then [.flushed] else [])).live = some rs := by
      split <;> exact hrs
    obtain ⟨hsecond, -⟩ := hfirst.flush hrs' hio'
    -- a second flush of the same log changes nothing
    have htwice : (j.run (if io = .done then [.flushed] else [])).run
          (if io' = .done then [.flushed] else [])
        = j.run (if io = .done ∨ io' = .done then [.flushed] else []) := by
      by_cases h₁ : io = .done <;> by_cases h₂ : io' = .done <;>
        simp [h₁, h₂, Journal.step, hrs]
    rw [htwice] at hsecond
    exact hsecond.stop rfl
  · rw [if_neg hopen, if_neg hopen]
    exact h

theorem Refines.step (h : p.Refines c capacity j) {x : Call c} (hx : p.Uncut capacity x) :
    (p.step capacity x).Refines c capacity (j.run (p.events capacity x)) := by
  cases x with
  | «open» io => exact h.open hx
  | append a => exact h.append hx
  | sync io => exact h.sync hx
  | close io io' => exact h.close hx.1 hx.2
  | crash => exact h.stop rfl

theorem Refines.run (xs : List (Call c)) :
    ∀ {p : FallbackWal} {j : Journal WalRecord}, p.Refines c capacity j →
      AllUncut capacity xs p →
      (p.run capacity xs).Refines c capacity (j.run (trace capacity xs p)) := by
  induction xs with
  | nil => intro p j h _; exact h
  | cons x xs ih =>
      intro p j h hall
      rw [trace, Journal.run_append]
      exact ih (h.step hall.1) hall.2

/-- **A killed process leaves its last flush.** For every file and every run
of calls and crashes in which nothing is cut short: an open log delivers the
live records of the journal, and a process that starts after a crash is
delivered the kept ones, those of the last flush. Neither a record appended
since nor one that lay behind the end of the log comes back. -/
theorem recovers_last_flush {c : Cipher} {capacity : Nat} (hcap : capacity < 2 ^ 63)
    (file : Option Bytes) {calls : List (Call c)}
    (hcalls : AllUncut capacity calls { file := file }) (stop : Bool) :
    let j := Journal.run ⟨(recovered c capacity (Wal.resize (file.getD []) capacity)).1, none⟩
      (trace capacity calls { file := file })
    let p := FallbackWal.run capacity { file := file } calls
    (∀ rs, j.live = some rs → p.wal.delivered c capacity stop = (.ok 0, rs)) ∧
      (p.crash.open c capacity {}).2.wal.delivered c capacity stop = (.ok 0, j.kept) := by
  intro j p
  have hstart : Refines c capacity { file := file }
      ⟨(recovered c capacity (Wal.resize (file.getD []) capacity)).1, none⟩ :=
    ⟨rfl, fun rs hrs => (by cases hrs), fun _ => rfl⟩
  have hrun : p.Refines c capacity j := hstart.run calls hcalls
  refine ⟨fun rs hrs => (hrun.live rs hrs).delivered stop, ?_⟩
  have hopen := (hrun.stop (w := {}) rfl).open (show OpenIo.served {} = none from rfl)
  have hevents : events capacity (c := c) p.crash (.open {}) = [.opened] := by
    rw [events, open_eq rfl hcap, if_pos ⟨rfl, rfl⟩]
  have hlive := hopen.live j.kept
  rw [show ({ p with wal := {} } : FallbackWal) = p.crash from rfl, hevents] at hlive
  exact (hlive rfl).delivered stop

/-- A process that flushes one of its two records and is killed. -/
def killedRun : List (Call (fallback zeroKey)) :=
  [.open {}, .append ⟨0, (1 : Nat), .kSet, [97], [49]⟩, .sync .done,
   .append ⟨0, (2 : Nat), .kSet, [97], [50]⟩]

theorem killedRun_recovers :
    (FallbackWal.run 122 {} killedRun).wal.delivered (fallback zeroKey) 122 true
        = (.ok 0, [⟨.kSet, 1, 0, [97], [49]⟩, ⟨.kSet, 2, 0, [97], [50]⟩]) ∧
      ((FallbackWal.run 122 {} killedRun).crash.open (fallback zeroKey) 122 {}).2.wal.delivered
          (fallback zeroKey) 122 true = (.ok 0, [⟨.kSet, 1, 0, [97], [49]⟩]) := by
  obtain ⟨hlive, hkept⟩ := recovers_last_flush (show 122 < 2 ^ 63 by decide) none
    (show AllUncut 122 killedRun {} by decide +kernel) true
  exact ⟨hlive _ (by decide +kernel), hkept.trans (by decide +kernel)⟩

/-! ## The two builds side by side -/

end FallbackWal

/-- A call on a log of either build, in a process that nothing fails. -/
inductive WalCall (c : Cipher) where
  | open
  | append (a : AppendCall c)
  | replay (stopAtCorruption : Bool)
  | sync
  | close

/-- The Linux build: the answer with the records delivered, and the log
after the call. -/
def Wal.answer {c : Cipher} (pf : Platform) (capacity : Nat) (w : Wal) :
    WalCall c → (Res Nat × List WalRecord) × Wal
  | .open => (((w.open pf c capacity {}).1, []), (w.open pf c capacity {}).2)
  | .append a => (((a.run capacity w).1, []), (a.run capacity w).2)
  | .replay stop => (w.delivered c capacity stop, w)
  | .sync => ((w.sync none, []), w)
  | .close => (((w.close none).1, []), (w.close none).2)

/-- The other build. -/
def FallbackWal.answer {c : Cipher} (capacity : Nat) (p : FallbackWal) :
    WalCall c → (Res Nat × List WalRecord) × FallbackWal
  | .open => (((p.open c capacity {}).1, []), (p.open c capacity {}).2)
  | .append a => (((p.append capacity a).1, []), (p.append capacity a).2)
  | .replay stop => (p.wal.delivered c capacity stop, p)
  | .sync => (((p.sync .done).1, []), (p.sync .done).2)
  | .close => (((p.close .done .done).1, []), (p.close .done .done).2)

/-- The answers of a run. -/
def Wal.answers {c : Cipher} (pf : Platform) (capacity : Nat) :
    List (WalCall c) → Wal → List (Res Nat × List WalRecord)
  | [], _ => []
  | x :: xs, w => (w.answer pf capacity x).1 :: Wal.answers pf capacity xs (w.answer pf capacity x).2

def FallbackWal.answers {c : Cipher} (capacity : Nat) :
    List (WalCall c) → FallbackWal → List (Res Nat × List WalRecord)
  | [], _ => []
  | x :: xs, p => (p.answer capacity x).1 :: FallbackWal.answers capacity xs (p.answer capacity x).2

/-- Every record appended in the run parses back. -/
def Wal.AllBack {c : Cipher} (pf : Platform) (capacity : Nat) : List (WalCall c) → Wal → Prop
  | [], _ => True
  | x :: xs, w =>
      (match x with
        | .append a => Wal.ParseBack capacity [a] w
        | _ => True) ∧ Wal.AllBack pf capacity xs (w.answer pf capacity x).2

namespace FallbackWal

variable {c : Cipher} {capacity : Nat} {p : FallbackWal} {w : Wal}

/-- The builds stand alike: an open log is the same on both, and the files of
a closed one are read alike. -/
inductive Twins (c : Cipher) (capacity : Nat) (w : Wal) (p : FallbackWal) : Prop
  | opened {rs : List WalRecord} : p.wal = w → w.Clean c capacity rs → Twins c capacity w p
  | closed {rs : List WalRecord} : p.wal.isOpen = false → w.Left c rs →
      w.writeOffset ≤ capacity →
      Wal.resize (p.file.getD []) capacity = Wal.resize w.segment capacity → Twins c capacity w p

theorem open_ok {pf : Platform} (hclosed : w.isOpen = false) (hpos : 0 < capacity)
    (hmap : capacity ≤ pf.maxMap) : (w.open pf c capacity {}).1 = .ok 0 := by
  have hsmall : capacity < 2 ^ 57 := Nat.lt_of_le_of_lt hmap pf.maxMap_lt
  have htrunc : Wal.ftruncateError {} capacity = none := if_neg (by omega)
  have hmmap : Wal.mmapError pf {} capacity = none := by
    rw [Wal.mmapError, if_neg (by omega), if_neg (by omega)]
  rw [Wal.open, if_neg (by simp [hclosed])]
  dsimp only
  rw [htrunc]
  dsimp only
  rw [hmmap]

/-- Cutting the zeros off and filling them up again. -/
theorem resize_take {rs : List WalRecord} (h : w.Clean c capacity rs) :
    Wal.resize (w.segment.take w.writeOffset) capacity = w.segment := by
  have hused := h.log.writeOffset_le
  have hlen := h.log.length
  rw [Wal.resize, List.take_take, Nat.min_eq_right hused, List.length_take, hlen,
    Nat.min_eq_left hused, ← h.zeros, List.take_append_drop]

theorem answer_of_open {pf : Platform} {wal : Wal} {rs : List WalRecord}
    (hclean : wal.Clean c capacity rs) (file : Option Bytes) {x : WalCall c}
    {xs : List (WalCall c)} (hback : Wal.AllBack pf capacity (x :: xs) wal) :
    (FallbackWal.answer capacity ⟨wal, file⟩ x).1 = (wal.answer pf capacity x).1 ∧
      Twins c capacity (wal.answer pf capacity x).2
        (FallbackWal.answer capacity ⟨wal, file⟩ x).2 := by
  have hopen := hclean.log.isOpen
  cases x with
  | «open» =>
      have hp : FallbackWal.open c capacity {} ⟨wal, file⟩ = (.ok 0, ⟨wal, file⟩) := by
        rw [FallbackWal.open, if_pos hopen]
      have hw : wal.open pf c capacity {} = (.ok 0, wal) := by
        rw [Wal.open, if_pos hopen]
      rw [FallbackWal.answer, Wal.answer, hp, hw]
      exact ⟨rfl, .opened rfl hclean⟩
  | append a =>
      refine ⟨rfl, ?_⟩
      have hnext := hclean.appendAll hback.1
      have hafter : (Wal.appendAll capacity [a] wal).2 = (a.run capacity wal).2 := by
        rw [Wal.appendAll]
        rcases a.run capacity wal with ⟨res, w'⟩
        cases res <;> rfl
      rw [hafter] at hnext
      exact .opened rfl hnext
  | replay stop => exact ⟨rfl, .opened rfl hclean⟩
  | sync =>
      have hp : FallbackWal.sync .done ⟨wal, file⟩
          = (.ok 0, ⟨wal, some (wal.segment.take wal.writeOffset)⟩) := by
        rw [FallbackWal.sync, if_pos hopen]
        rfl
      have hw : wal.sync none = .ok 0 := by rw [Wal.sync, if_pos hopen]
      rw [FallbackWal.answer, Wal.answer, hp, hw]
      exact ⟨rfl, .opened rfl hclean⟩
  | close =>
      have hp : FallbackWal.close .done .done ⟨wal, file⟩
          = (.ok 0, ⟨{ wal with segment := [], isOpen := false },
              some (wal.segment.take wal.writeOffset)⟩) := by
        rw [FallbackWal.close, if_pos hopen, FallbackWal.sync, if_pos hopen]
        rfl
      have hw : wal.close none = (.ok 0, { wal with isOpen := false }) := by
        rw [Wal.close, if_pos hopen, Wal.sync, if_pos hopen]
      have hleft := hclean.close none
      rw [hw] at hleft
      rw [FallbackWal.answer, Wal.answer, hp, hw]
      refine ⟨rfl, .closed rfl hleft hclean.log.writeOffset_le ?_⟩
      exact (resize_take hclean).trans (resize_of_length hclean.log.length).symm

theorem answer_of_closed {pf : Platform} (hpos : 0 < capacity) (hmap : capacity ≤ pf.maxMap)
    {wal : Wal} {file : Option Bytes} {rs : List WalRecord} (hclosed : wal.isOpen = false)
    (hleft : w.Left c rs) (hused : w.writeOffset ≤ capacity)
    (hfile : Wal.resize (file.getD []) capacity = Wal.resize w.segment capacity)
    (x : WalCall c) :
    (FallbackWal.answer capacity ⟨wal, file⟩ x).1 = (w.answer pf capacity x).1 ∧
      Twins c capacity (w.answer pf capacity x).2
        (FallbackWal.answer capacity ⟨wal, file⟩ x).2 := by
  have hcap : capacity < 2 ^ 63 :=
    Nat.lt_trans (Nat.lt_of_le_of_lt hmap pf.maxMap_lt) (by decide)
  have hwclosed := hleft.closed
  have hsame : Twins c capacity w ⟨wal, file⟩ := .closed hclosed hleft hused hfile
  cases x with
  | «open» =>
      have hok := open_ok (c := c) hwclosed hpos hmap
      obtain ⟨hw, -⟩ := open_eq_of_ok hwclosed (by rw [hok]; rfl)
      have hclean := hleft.open (by rw [hok]; rfl) hused
      rw [FallbackWal.answer, Wal.answer, open_eq hclosed hcap, hok]
      refine ⟨rfl, .opened ?_ hclean⟩
      rw [hw, findEndAndLastSeq_eq, hfile]
  | append a =>
      have hp : a.run capacity wal = (.error (Status.ioError "wal not open"), wal) := by
        rw [AppendCall.run, Wal.append, if_pos hclosed]
      have hw : a.run capacity w = (.error (Status.ioError "wal not open"), w) := by
        rw [AppendCall.run, Wal.append, if_pos hwclosed]
      rw [FallbackWal.answer, FallbackWal.append, Wal.answer, hp, hw]
      exact ⟨rfl, hsame⟩
  | replay stop =>
      refine ⟨?_, hsame⟩
      rw [FallbackWal.answer, Wal.answer, Wal.delivered, Wal.delivered, Wal.replay, Wal.replay,
        if_neg (by simp [hclosed]), if_neg (by simp [hwclosed])]
  | sync =>
      have hp : FallbackWal.sync .done ⟨wal, file⟩
          = (.error (Status.ioError "wal not open"), ⟨wal, file⟩) := by
        rw [FallbackWal.sync, if_neg (by simp [hclosed])]
      have hw : w.sync none = .error (Status.ioError "wal not open") := by
        rw [Wal.sync, if_neg (by simp [hwclosed])]
      rw [FallbackWal.answer, Wal.answer, hp, hw]
      exact ⟨rfl, hsame⟩
  | close =>
      have hp : FallbackWal.close .done .done ⟨wal, file⟩ = (.ok 0, ⟨wal, file⟩) := by
        rw [FallbackWal.close, if_neg (by simp [hclosed])]
      have hw : w.close none = (.ok 0, w) := by
        rw [Wal.close, if_neg (by simp [hwclosed])]
      rw [FallbackWal.answer, Wal.answer, hp, hw]
      exact ⟨rfl, hsame⟩

theorem Twins.answer {pf : Platform} (hpos : 0 < capacity) (hmap : capacity ≤ pf.maxMap)
    (h : Twins c capacity w p) {x : WalCall c} {xs : List (WalCall c)}
    (hback : Wal.AllBack pf capacity (x :: xs) w) :
    (p.answer capacity x).1 = (w.answer pf capacity x).1 ∧
      Twins c capacity (w.answer pf capacity x).2 (p.answer capacity x).2 := by
  rcases h with ⟨rfl, hclean⟩ | ⟨hclosed, hleft, hused, hfile⟩
  · exact answer_of_open hclean p.file hback
  · exact answer_of_closed hpos hmap hclosed hleft hused hfile x

theorem Twins.answers {pf : Platform} (hpos : 0 < capacity) (hmap : capacity ≤ pf.maxMap)
    (xs : List (WalCall c)) :
    ∀ {w : Wal} {p : FallbackWal}, Twins c capacity w p → Wal.AllBack pf capacity xs w →
      FallbackWal.answers capacity xs p = Wal.answers pf capacity xs w := by
  induction xs with
  | nil => intro w p _ _; rfl
  | cons x xs ih =>
      intro w p h hback
      obtain ⟨hanswer, hnext⟩ := h.answer hpos hmap hback
      rw [FallbackWal.answers, Wal.answers, hanswer, ih hnext hback.2]

/-- **The builds agree.** From an empty directory on, over any calls in any
order, closing and opening included, both builds give the same answers and
deliver the same records, as long as nothing fails and every appended record
parses back. -/
theorem builds_agree {pf : Platform} {c : Cipher} {capacity : Nat} (hpos : 0 < capacity)
    (hmap : capacity ≤ pf.maxMap) {calls : List (WalCall c)}
    (hback : Wal.AllBack pf capacity calls {}) :
    FallbackWal.answers capacity calls {} = Wal.answers pf capacity calls {} := by
  refine Twins.answers hpos hmap calls ?_ hback
  exact .closed rfl ⟨rfl, ⟨0, .nil 0⟩, Nat.le_refl 0, rfl⟩ (Nat.zero_le _) rfl

/-- Written, closed, opened again and written once more. -/
def bothCalls : List (WalCall (fallback zeroKey)) :=
  [.replay true, .open, .append ⟨0, (1 : Nat), .kSet, [97], [49]⟩, .close, .sync, .open,
   .append ⟨0, (2 : Nat), .kSet, [97], [50]⟩, .append ⟨0, (3 : Nat), .kSet, [97], [51]⟩,
   .replay true]

theorem bothCalls_agree :
    Wal.answers damagedLogPlatform 122 bothCalls {}
        = [(.error (Status.ioError "wal not open"), []), (.ok 0, []), (.ok 1, []), (.ok 0, []),
           (.error (Status.ioError "wal not open"), []), (.ok 0, []), (.ok 2, []),
           (.error (Status.ioError "wal segment full (rotation not yet implemented)"), []),
           (.ok 0, [⟨.kSet, 1, 0, [97], [49]⟩, ⟨.kSet, 2, 0, [97], [50]⟩])] ∧
      FallbackWal.answers 122 bothCalls {} = Wal.answers damagedLogPlatform 122 bothCalls {} :=
  ⟨by decide +kernel, builds_agree (by decide) (by decide)
    ⟨trivial, trivial, by decide +kernel, trivial, trivial, trivial, by decide +kernel,
      by decide +kernel, trivial, trivial⟩⟩

end FallbackWal

end VaultKV
