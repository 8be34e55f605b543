import VaultKV.Wal.Reopen

/-!
# Wal — another capacity after a restart

`Open` cuts or extends the segment file to the capacity it is given, which
need not be the one the file was written with. Whether a record is read
depends on the capacity only through the place where it ends
(`walParse_cut`). So a log whose records all end within the new capacity
comes back whole, and one that is cut comes back up to the first record that
does not fit.
-/

namespace VaultKV

open Lib

variable {c : Cipher} {capacity capacity' : Nat} {segment segment' : Bytes}

/-! ## Records that end within both capacities -/

theorem parseRecordAt_limit {o next : Nat} {r : WalRecord}
    (h : parseRecordAt c capacity segment o = .ok (r, next)) (hle : next ≤ capacity') :
    parseRecordAt c capacity' segment o = .ok (r, next) := by
  obtain ⟨-, hacc, hnext, hplain⟩ := parseRecordAt_ok_iff.mp h
  have hend : next = o + (59 + readLe 4 ((segment.drop o).drop 27)) := hnext
  exact parseRecordAt_ok_iff.mpr
    ⟨by omega, ⟨hacc.crc_ne, hacc.cap, by omega, hacc.crc_eq⟩, hnext, hplain⟩

/-- A record is read from any segment that agrees up to its end, under any
capacity it ends within. -/
theorem walParse_cut {o next : Nat} {r : WalRecord}
    (h : walParse c capacity segment o = some (r, next))
    (hsame : segment'.take next = segment.take next) (hle : next ≤ capacity') :
    walParse c capacity' segment' o = some (r, next) := by
  have hparse := walParse_eq_some.mp h
  have hbounds := parseRecordAt_bounds hparse
  refine walParse_eq_some.mpr (parseRecordAt_limit (parseRecordAt_local hparse ?_) hle)
  rw [slice, slice, List.take_drop, List.take_drop, Nat.add_sub_cancel' (by omega), hsame]

theorem chain_cut {o e : Nat} {rs : List WalRecord}
    (h : Chain (walParse c capacity segment) o rs e)
    (hsame : segment'.take e = segment.take e) (hle : e ≤ capacity') :
    Chain (walParse c capacity' segment') o rs e := by
  refine h.mono (walParse_progress c capacity segment) fun i r i' hp hi => ?_
  refine walParse_cut hp ?_ (Nat.le_trans hi hle)
  rw [← Nat.min_eq_left hi, ← List.take_take, hsame, List.take_take]

/-- Cutting or extending keeps what lies within both lengths. -/
theorem take_resize {n : Nat} (hn : n ≤ segment.length) (hle : n ≤ capacity') :
    (Wal.resize segment capacity').take n = segment.take n := by
  rw [Wal.resize, List.take_append_of_le_length (by rw [List.length_take]; omega),
    List.take_take, Nat.min_eq_left hle]

/-- Zeros up to the old length become zeros up to the new one. -/
theorem drop_resize {e : Nat} (he : e ≤ segment.length) (hle : e ≤ capacity')
    (hzero : segment.drop e = List.replicate (segment.length - e) 0) :
    (Wal.resize segment capacity').drop e = List.replicate (capacity' - e) 0 := by
  rw [Wal.resize, List.drop_append_of_le_length (by rw [List.length_take]; omega),
    List.drop_take, hzero, List.take_replicate, List.replicate_append_replicate]
  congr 1
  omega

/-! ## A log with nothing behind it -/

/-- The log holds `rs`, and zeros behind them. -/
structure Wal.Clean (c : Cipher) (capacity : Nat) (w : Wal) (rs : List WalRecord) : Prop where
  log : w.Log c capacity rs
  zeros : w.segment.drop w.writeOffset = List.replicate (capacity - w.writeOffset) 0

theorem Wal.Clean.appendAll {w : Wal} {rs : List WalRecord} (h : w.Clean c capacity rs)
    {calls : List (AppendCall c)} (hback : Wal.ParseBack capacity calls w) :
    (Wal.appendAll capacity calls w).2.Clean c capacity
      (rs ++ (Wal.appendAll capacity calls w).1) := by
  obtain ⟨hlog, hle, htail⟩ := h.log.appendAll calls hback
  refine ⟨hlog, ?_⟩
  rw [htail, ← Nat.add_sub_cancel' hle, ← List.drop_drop, h.zeros, List.drop_replicate]
  congr 1
  omega

/-- A segment in which `rs` stand up to `e`, with zeros behind, yields `rs`
under every capacity it has room for. -/
theorem recovered_resize {rs : List WalRecord} {e : Nat}
    (hchain : Chain (walParse c capacity segment) 0 rs e) (he : e ≤ segment.length)
    (hle : e ≤ capacity')
    (hzero : segment.drop e = List.replicate (segment.length - e) 0) :
    recovered c capacity' (Wal.resize segment capacity') = (rs, e) := by
  have hchain' : Chain (walParse c capacity' (Wal.resize segment capacity')) 0 rs e :=
    chain_cut hchain (take_resize he hle) hle
  exact recordsFrom_eq (walParse_progress _ _ _) hchain'
    (walParse_zeros (drop_resize he hle hzero))

/-- **Opening with room for everything.** -/
theorem open_clean {pf : Platform} {io : Wal.OpenIo} {w : Wal} (hclosed : w.isOpen = false)
    {rs : List WalRecord} {e : Nat} (hchain : Chain (walParse c capacity w.segment) 0 rs e)
    (he : e ≤ w.segment.length) (hle : e ≤ capacity')
    (hzero : w.segment.drop e = List.replicate (w.segment.length - e) 0)
    (hok : (w.open pf c capacity' io).1.isOk = true) :
    (w.open pf c capacity' io).2.Clean c capacity' rs ∧
      (w.open pf c capacity' io).2.writeOffset = e := by
  obtain ⟨hlog, hseg, hend⟩ := open_log hclosed hok
  rw [recovered_resize hchain he hle hzero] at hlog hend
  refine ⟨⟨hlog, ?_⟩, hend⟩
  rw [hseg, hend]
  exact drop_resize he hle hzero

/-! ## Processes with capacities of their own -/

/-- One process: the capacity it was given, what its system calls answer,
and the appends it makes. -/
structure Wal.Life (c : Cipher) where
  capacity : Nat
  io : Wal.OpenIo := {}
  msync : Option String := none
  calls : List (AppendCall c)

/-- A process opens the log, appends to it and closes it: the records that
went in, and the log it leaves. -/
def Wal.live {c : Cipher} (pf : Platform) (l : Wal.Life c) (w : Wal) : List WalRecord × Wal :=
  let r := Wal.appendAll l.capacity l.calls (w.open pf c l.capacity l.io).2
  (r.1, (r.2.close l.msync).2)

/-- One process after the other. -/
def Wal.lives {c : Cipher} (pf : Platform) : List (Wal.Life c) → Wal → List WalRecord × Wal
  | [], w => ([], w)
  | l :: ls, w =>
      let rest := Wal.lives pf ls (w.live pf l).2
      ((w.live pf l).1 ++ rest.1, rest.2)

/-- Each process opens the log, with a capacity no smaller than what is in
use, and its records parse back. -/
def Wal.Roomy {c : Cipher} (pf : Platform) : List (Wal.Life c) → Wal → Prop
  | [], _ => True
  | l :: ls, w =>
      ((w.open pf c l.capacity l.io).1.isOk = true ∧ w.writeOffset ≤ l.capacity ∧
        Wal.ParseBack l.capacity l.calls (w.open pf c l.capacity l.io).2) ∧
      Wal.Roomy pf ls (w.live pf l).2

instance Wal.decidableRoomy {c : Cipher} (pf : Platform) :
    (ls : List (Wal.Life c)) → (w : Wal) → Decidable (Wal.Roomy pf ls w)
  | [], _ => isTrue trivial
  | l :: ls, w =>
      @instDecidableAnd _ _ (inferInstanceAs (Decidable (_ ∧ _ ∧ _)))
        (Wal.decidableRoomy pf ls (w.live pf l).2)

/-- What a process leaves: a closed log with nothing behind its end. -/
structure Wal.Left (c : Cipher) (w : Wal) (rs : List WalRecord) : Prop where
  closed : w.isOpen = false
  chain : ∃ capacity, Chain (walParse c capacity w.segment) 0 rs w.writeOffset
  inside : w.writeOffset ≤ w.segment.length
  zeros : w.segment.drop w.writeOffset
    = List.replicate (w.segment.length - w.writeOffset) 0

theorem Wal.Left.open {pf : Platform} {io : Wal.OpenIo} {w : Wal} {rs : List WalRecord}
    (h : w.Left c rs) (hok : (w.open pf c capacity' io).1.isOk = true)
    (hroom : w.writeOffset ≤ capacity') : (w.open pf c capacity' io).2.Clean c capacity' rs := by
  obtain ⟨capacity, hchain⟩ := h.chain
  exact (open_clean h.closed hchain h.inside hroom h.zeros hok).1

theorem Wal.Clean.close {w : Wal} {rs : List WalRecord} (h : w.Clean c capacity rs)
    (msync : Option String) : (w.close msync).2.Left c rs := by
  rw [close_of_isOpen h.log.isOpen]
  refine ⟨rfl, ⟨capacity, h.log.chain⟩, ?_, ?_⟩
  · show w.writeOffset ≤ w.segment.length
    rw [h.log.length]
    exact h.log.writeOffset_le
  · show w.segment.drop w.writeOffset = _
    rw [h.zeros, h.log.length]

theorem Wal.Left.lives {pf : Platform} (ls : List (Wal.Life c)) :
    ∀ {w : Wal} {rs : List WalRecord}, w.Left c rs → Wal.Roomy pf ls w →
      (Wal.lives pf ls w).2.Left c (rs ++ (Wal.lives pf ls w).1) := by
  induction ls with
  | nil =>
      intro w rs h _
      simpa [Wal.lives] using h
  | cons l ls ih =>
      intro w rs h hroomy
      obtain ⟨⟨hok, hroom, hback⟩, hrest⟩ := hroomy
      have hone := ((h.open hok hroom).appendAll hback).close l.msync
      have hall := ih hone hrest
      rwa [List.append_assoc] at hall

/-- **The capacity may change.** Over any number of processes, each with a
capacity of its own but none smaller than what is in use when it starts, no
record is lost: the next one to open the log is delivered all records ever
appended, in order. -/
theorem Wal.lives_keep_all {pf : Platform} {c : Cipher} {ls : List (Wal.Life c)}
    (hroomy : Wal.Roomy pf ls {}) {capacity : Nat} {io : Wal.OpenIo}
    (hok : ((Wal.lives pf ls {}).2.open pf c capacity io).1.isOk = true)
    (hroom : (Wal.lives pf ls {}).2.writeOffset ≤ capacity) (stop : Bool) :
    ((Wal.lives pf ls {}).2.open pf c capacity io).2.delivered c capacity stop
      = (.ok 0, (Wal.lives pf ls {}).1) := by
  have hnew : Wal.Left c {} [] := ⟨rfl, ⟨0, .nil 0⟩, Nat.le_refl 0, rfl⟩
  have hleft := hnew.lives ls hroomy
  exact ((hleft.open hok hroom).log).delivered stop

/-- A log that grows from 61 to 130 bytes and shrinks to 122 again. -/
def grownLives : List (Wal.Life (fallback zeroKey)) :=
  [{ capacity := 61, calls := [⟨0, (1 : Nat), .kSet, [97], [49]⟩] },
   { capacity := 130, calls := [⟨0, (2 : Nat), .kSet, [97], [50]⟩] }]

theorem grownLives_keep_all :
    (Wal.lives damagedLogPlatform grownLives {}).1
        = [⟨.kSet, 1, 0, [97], [49]⟩, ⟨.kSet, 2, 0, [97], [50]⟩] ∧
      ((Wal.lives damagedLogPlatform grownLives {}).2.open damagedLogPlatform
          (fallback zeroKey) 122 {}).2.delivered (fallback zeroKey) 122 true
        = (.ok 0, (Wal.lives damagedLogPlatform grownLives {}).1) :=
  ⟨by decide +kernel, Wal.lives_keep_all (by decide +kernel) (by decide +kernel)
    (by decide +kernel) true⟩

/-! ## A capacity that is too small -/

/-- Behind the last record that fits, the cut segment yields nothing: what
it yields ends within the cut, where the old segment has the same bytes. -/
theorem walParse_resize_none {m next : Nat} {r : WalRecord}
    (hlen : capacity' ≤ segment.length)
    (hp : walParse c capacity segment m = some (r, next)) (hbeyond : capacity' < next)
    (hcap : segment.length ≤ capacity) :
    walParse c capacity' (Wal.resize segment capacity') m = none := by
  cases hq : walParse c capacity' (Wal.resize segment capacity') m with
  | none => rfl
  | some x =>
      obtain ⟨r', next'⟩ := x
      have hend := (parseRecordAt_bounds (walParse_eq_some.mp hq)).2
      have hsame : segment.take next' = (Wal.resize segment capacity').take next' :=
        (take_resize (by omega) hend).symm
      have hback : walParse c capacity segment m = some (r', next') :=
        walParse_cut hq hsame (by omega)
      rw [hp] at hback
      obtain ⟨-, rfl⟩ := Prod.mk.inj (Option.some.inj hback)
      omega

/-- **A capacity below what is in use loses the end of the log.** The next
process gets the records in front of the first one that does not end within
the new capacity, and goes on numbering from there. -/
theorem Wal.shrunk_keeps_front {pf : Platform} {c : Cipher} {capacity capacity' : Nat}
    {io : Wal.OpenIo} {msync : Option String} {w : Wal} {rs : List WalRecord}
    (h : w.Log c capacity rs) (hsmall : capacity' < w.writeOffset)
    (hok : ((w.close msync).2.open pf c capacity' io).1.isOk = true) (stop : Bool) :
    ∃ kept r rest next, rs = kept ++ r :: rest ∧
      ((w.close msync).2.open pf c capacity' io).2.delivered c capacity' stop = (.ok 0, kept) ∧
      ((w.close msync).2.open pf c capacity' io).2.lastSeq = lastSeqOf kept ∧
      parseRecordAt c capacity w.segment
          ((w.close msync).2.open pf c capacity' io).2.writeOffset = .ok (r, next) ∧
      capacity' < next := by
  have hused := h.writeOffset_le
  have hlen := h.length
  rw [close_of_isOpen h.isOpen] at hok ⊢
  obtain ⟨hlog, -, hend⟩ := open_log rfl hok
  obtain ⟨kept, lost, m, rfl, hkept, hm, -, hcut⟩ :=
    h.chain.cut capacity' (walParse_progress c capacity w.segment) (Nat.zero_le _)
  obtain ⟨r, rest, next, rfl, hp, hbeyond⟩ := hcut hsmall
  have hrec : recovered c capacity' (Wal.resize w.segment capacity') = (kept, m) :=
    recordsFrom_eq (walParse_progress _ _ _)
      (chain_cut hkept (take_resize (by omega) hm) hm)
      (walParse_resize_none (by omega) hp hbeyond (by omega))
  rw [hrec] at hlog hend
  refine ⟨kept, r, rest, next, rfl, hlog.delivered stop, hlog.lastSeq, ?_, hbeyond⟩
  rw [hend]
  exact walParse_eq_some.mp hp

/-- Two records of 61 bytes, open. -/
def twoRecordLog : Wal :=
  (Wal.appendAll 122 damagedLogCalls { isOpen := true, segment := List.replicate 122 0 }).2

theorem twoRecordLog_shrunk :
    ∃ kept r rest next, [⟨.kSet, 1, 0, [97], [49]⟩, ⟨.kSet, 2, 0, [97], [50]⟩]
        = kept ++ r :: rest ∧
      ((twoRecordLog.close none).2.open damagedLogPlatform (fallback zeroKey) 121 {}).2.delivered
          (fallback zeroKey) 121 true = (.ok 0, kept) ∧
      ((twoRecordLog.close none).2.open damagedLogPlatform (fallback zeroKey) 121 {}).2.lastSeq
        = lastSeqOf kept ∧
      parseRecordAt (fallback zeroKey) 122 twoRecordLog.segment
          ((twoRecordLog.close none).2.open damagedLogPlatform
            (fallback zeroKey) 121 {}).2.writeOffset = .ok (r, next) ∧
      121 < next := by
  have hempty : Wal.Log (fallback zeroKey) 122
      { isOpen := true, segment := List.replicate 122 0 } [] := ⟨rfl, rfl, .nil 0, rfl⟩
  have hlog := (hempty.appendAll damagedLogCalls (by decide +kernel)).1
  have hrecords : (Wal.appendAll 122 damagedLogCalls
      { isOpen := true, segment := List.replicate 122 0 }).1
      = [⟨.kSet, 1, 0, [97], [49]⟩, ⟨.kSet, 2, 0, [97], [50]⟩] := by decide +kernel
  rw [hrecords] at hlog
  exact Wal.shrunk_keeps_front hlog (by decide +kernel) (by decide +kernel) true

end VaultKV
