import VaultKV.Wal.Format

/-!
# Wal — Recovery

`Log c capacity w rs` says what an open log holds: the segment has its
full length, the records `rs` stand one behind the other from offset 0 to
`writeOffset`, and `lastSeq` is the last one's number. `Open` establishes
it for the records it recovers, `Append` extends it by one record, and
`Replay` delivers exactly those records.

Nothing in it speaks about the bytes BEHIND `writeOffset`. What they are
decides what a later `Open` recovers beyond `rs` (`open_log_append`).
-/

namespace VaultKV

open Lib

/-- The parser of a segment, as the log library reads it. -/
def walParse (c : Cipher) (capacity : Nat) (segment : Bytes) (o : Nat) :
    Option (WalRecord × Nat) :=
  (parseRecordAt c capacity segment o).toOption

/-- The number `FindEndAndLastSeq` is left with. -/
def lastSeqOf (rs : List WalRecord) : Nat := (rs.getLast?.map WalRecord.seq).getD 0

theorem walParse_eq_some {c : Cipher} {capacity o : Nat} {segment : Bytes}
    {x : WalRecord × Nat} :
    walParse c capacity segment o = some x ↔
      parseRecordAt c capacity segment o = .ok x := by
  unfold walParse
  cases parseRecordAt c capacity segment o <;> simp [Except.toOption]

theorem walParse_eq_none {c : Cipher} {capacity o : Nat} {segment : Bytes} :
    walParse c capacity segment o = none ↔
      ∃ e, parseRecordAt c capacity segment o = .error e := by
  unfold walParse
  cases parseRecordAt c capacity segment o <;> simp [Except.toOption]

theorem walParse_progress (c : Cipher) (capacity : Nat) (segment : Bytes) :
    Progress (walParse c capacity segment) capacity := by
  intro o r o' h
  have := parseRecordAt_bounds (walParse_eq_some.mp h)
  omega

/-! ## The two loops of the log are scans -/

/-- `FindEndAndLastSeq` is the library's scan: it ends where the scan ends,
with the number of the last record scanned. -/
theorem findEnd_eq_scan (c : Cipher) (capacity : Nat) (segment : Bytes) (fuel : Nat) :
    ∀ off last, Wal.findEnd c capacity segment fuel off last =
      ((scan (walParse c capacity segment) capacity fuel off).2,
       ((scan (walParse c capacity segment) capacity fuel off).1.getLast?.map
          WalRecord.seq).getD last) := by
  induction fuel with
  | zero => intro off last; rfl
  | succ fuel ih =>
      intro off last
      rw [Wal.findEnd, scan]
      by_cases hoff : off < capacity
      · rw [if_pos hoff, if_pos hoff]
        cases hp : parseRecordAt c capacity segment off with
        | error e => rw [walParse_eq_none.mpr ⟨e, hp⟩]; rfl
        | ok x =>
            obtain ⟨r, next⟩ := x
            rw [walParse_eq_some.mpr hp]
            simp only [ih next r.seq]
            cases hs : (scan (walParse c capacity segment) capacity fuel next).1 with
            | nil => rfl
            | cons r' rs =>
                rw [List.getLast?_cons_cons, List.getLast?_eq_some_getLast (by simp)]
                rfl
      · rw [if_neg hoff, if_neg hoff]; rfl

/-- Running the callback over a list of records, stopping at its first
error. -/
def runRecords {σ : Type} (fn : σ → WalRecord → Res Nat × σ) :
    List WalRecord → σ → Res Nat × σ
  | [], s => (.ok 0, s)
  | r :: rs, s =>
      match fn s r with
      | (.error e, s') => (.error e, s')
      | (.ok _, s') => runRecords fn rs s'

/-- `Replay` over a chain that ends at `writeOffset` runs the callback over
the chain's records. -/
theorem replayFrom_chain {σ : Type} {c : Cipher} {capacity : Nat} {w : Wal}
    (fn : σ → WalRecord → Res Nat × σ) (stop : Bool) {off e : Nat}
    {rs : List WalRecord} (h : Chain (walParse c capacity w.segment) off rs e)
    (he : e = w.writeOffset) :
    ∀ (fuel : Nat) (s : σ), w.writeOffset - off ≤ fuel →
      Wal.replayFrom c capacity w fn stop fuel off s = runRecords fn rs s := by
  induction h with
  | nil o =>
      intro fuel s _
      cases fuel with
      | zero => rfl
      | succ fuel => rw [Wal.replayFrom, if_neg (by omega)]; rfl
  | cons hp hrest ih =>
      intro fuel s hfuel
      have hprog := walParse_progress c capacity w.segment
      have ho := (hprog _ _ _ hp).1
      have hle := hrest.le hprog
      cases fuel with
      | zero => omega
      | succ fuel =>
          rw [Wal.replayFrom, if_pos (by omega), walParse_eq_some.mp hp, runRecords]
          dsimp only
          rcases hfn : fn s _ with ⟨res, s'⟩
          cases res with
          | error e => rfl
          | ok _ => exact ih he fuel s' (by omega)

/-! ## The log invariant -/

/-- The open log `w` holds exactly the records `rs`. -/
structure Wal.Log (c : Cipher) (capacity : Nat) (w : Wal) (rs : List WalRecord) :
    Prop where
  isOpen : w.isOpen = true
  length : w.segment.length = capacity
  chain : Chain (walParse c capacity w.segment) 0 rs w.writeOffset
  lastSeq : w.lastSeq = lastSeqOf rs

theorem Wal.Log.writeOffset_le {c : Cipher} {capacity : Nat} {w : Wal}
    {rs : List WalRecord} (h : w.Log c capacity rs) : w.writeOffset ≤ capacity :=
  h.chain.le_limit (walParse_progress c capacity w.segment) (Nat.zero_le _)

/-- `Replay` on a log delivers its records to the callback. -/
theorem Wal.Log.replay {σ : Type} {c : Cipher} {capacity : Nat} {w : Wal}
    {rs : List WalRecord} (h : w.Log c capacity rs)
    (fn : σ → WalRecord → Res Nat × σ) (stop : Bool) (s : σ) :
    w.replay c capacity fn stop s = runRecords fn rs s := by
  rw [Wal.replay, if_pos h.isOpen]
  exact replayFrom_chain fn stop h.chain rfl _ s (by omega)

theorem length_resize (file : Bytes) (capacity : Nat) :
    (Wal.resize file capacity).length = capacity := by
  rw [Wal.resize, List.length_append, List.length_take, List.length_replicate]
  omega

theorem resize_of_length {file : Bytes} {capacity : Nat} (h : file.length = capacity) :
    Wal.resize file capacity = file := by
  subst h
  simp [Wal.resize]

/-- What a successful `Open` of a closed log leaves. -/
theorem open_eq_of_ok {pf : Platform} {c : Cipher} {capacity : Nat} {io : Wal.OpenIo}
    {w : Wal} (hclosed : w.isOpen = false)
    (hok : (w.open pf c capacity io).1.isOk = true) :
    (w.open pf c capacity io).2 =
      { Wal.findEndAndLastSeq c capacity
          { w with segment := Wal.resize w.segment capacity } with isOpen := true } ∧
      0 < capacity ∧ capacity ≤ pf.maxMap := by
  unfold Wal.open at hok ⊢
  rw [hclosed] at hok ⊢
  simp only [Bool.false_eq_true, if_false] at hok ⊢
  cases h1 : io.createDirectories with
  | some e => simp [h1] at hok
  | none =>
      cases h2 : io.openFile with
      | some e => simp [h1, h2] at hok
      | none =>
          cases h3 : Wal.ftruncateError io capacity with
          | some e => simp [h1, h2, h3] at hok
          | none =>
              cases h4 : Wal.mmapError pf io capacity with
              | some e => simp [h1, h2, h3, h4] at hok
              | none =>
                  refine ⟨rfl, ?_⟩
                  unfold Wal.mmapError at h4
                  by_cases hz : capacity = 0
                  · simp [hz] at h4
                  · by_cases hm : pf.maxMap < capacity
                    · simp [hz, hm] at h4
                    · omega

/-- A failed `Open` may have cut or extended the file, nothing more. -/
theorem open_error {pf : Platform} {c : Cipher} {capacity : Nat} {io : Wal.OpenIo} {w : Wal}
    (hclosed : w.isOpen = false) (herr : (w.open pf c capacity io).1.isOk = false) :
    (w.open pf c capacity io).2 = w ∨
      (w.open pf c capacity io).2 = { w with segment := Wal.resize w.segment capacity } := by
  unfold Wal.open at herr ⊢
  rw [hclosed] at herr ⊢
  simp only [Bool.false_eq_true, if_false] at herr ⊢
  cases h1 : io.createDirectories with
  | some err => exact Or.inl rfl
  | none =>
  cases h2 : io.openFile with
  | some err => exact Or.inl rfl
  | none =>
  cases h3 : Wal.ftruncateError io capacity with
  | some err => exact Or.inl rfl
  | none =>
  cases h4 : Wal.mmapError pf io capacity with
  | some err => exact Or.inr rfl
  | none => simp [h1, h2, h3, h4] at herr

/-- The records a segment yields from its start, and where they end. -/
def recovered (c : Cipher) (capacity : Nat) (segment : Bytes) : List WalRecord × Nat :=
  recordsFrom (walParse c capacity segment) capacity 0

theorem findEndAndLastSeq_eq (c : Cipher) (capacity : Nat) (w : Wal) :
    Wal.findEndAndLastSeq c capacity w =
      { w with writeOffset := (recovered c capacity w.segment).2,
               lastSeq := lastSeqOf (recovered c capacity w.segment).1 } := by
  rw [Wal.findEndAndLastSeq, findEnd_eq_scan,
    scan_eq_recordsFrom (walParse_progress c capacity w.segment) capacity 0 (by omega)]
  rfl

/-- **Opening a log** establishes the invariant for the recovered records,
and the segment parses no further behind them. -/
theorem open_log {pf : Platform} {c : Cipher} {capacity : Nat} {io : Wal.OpenIo}
    {w : Wal} (hclosed : w.isOpen = false)
    (hok : (w.open pf c capacity io).1.isOk = true) :
    ((w.open pf c capacity io).2.Log c capacity
        (recovered c capacity (Wal.resize w.segment capacity)).1) ∧
      (w.open pf c capacity io).2.segment = Wal.resize w.segment capacity ∧
      (w.open pf c capacity io).2.writeOffset
        = (recovered c capacity (Wal.resize w.segment capacity)).2 := by
  obtain ⟨heq, -, -⟩ := open_eq_of_ok hclosed hok
  rw [heq, findEndAndLastSeq_eq]
  have hchain := chain_recordsFrom
    (walParse_progress c capacity (Wal.resize w.segment capacity)) 0
  exact ⟨⟨rfl, length_resize _ _, hchain.1, rfl⟩, rfl, rfl⟩

/-- Reopening a segment in which `rs` stand up to `e` recovers `rs` and
whatever parses from `e` on. -/
theorem recovered_of_chain {c : Cipher} {capacity e : Nat} {segment : Bytes}
    {rs : List WalRecord} (h : Chain (walParse c capacity segment) 0 rs e) :
    recovered c capacity segment =
      (rs ++ (recordsFrom (walParse c capacity segment) capacity e).1,
       (recordsFrom (walParse c capacity segment) capacity e).2) :=
  recordsFrom_chain (walParse_progress c capacity segment) h

/-! ## Zeros -/

theorem readLe_zeros (size n : Nat) : readLe size (List.replicate n 0) = 0 := by
  rw [readLe, List.take_replicate]
  induction min size n with
  | zero => rfl
  | succ m ih => rw [List.replicate_succ, leNat, ih]; rfl

/-- No record begins with zeros: its checksum would be 0. -/
theorem walParse_zeros {c : Cipher} {capacity o n : Nat} {segment : Bytes}
    (h : segment.drop o = List.replicate n 0) : walParse c capacity segment o = none := by
  cases hp : walParse c capacity segment o with
  | none => rfl
  | some x =>
      obtain ⟨-, haccept, -⟩ := parseRecordAt_ok_iff.mp (walParse_eq_some.mp hp)
      rw [h] at haccept
      exact absurd (readLe_zeros 4 n) haccept.crc_ne

/-- A new segment holds no record. -/
theorem recovered_resize_nil (c : Cipher) (capacity : Nat) :
    recovered c capacity (Wal.resize [] capacity) = ([], 0) := by
  refine recordsFrom_none (walParse_zeros (n := capacity) ?_)
  simp [Wal.resize]

/-! ## Appending -/

/-- What a successful `Append` wrote and where. -/
theorem append_eq_of_ok {c : Cipher} {capacity ts : Nat} {rand : c.Rand} {op : WalOp}
    {key value : Bytes} {w w' : Wal} {seq : Nat}
    (h : w.append c capacity ts rand op key value = (.ok seq, w')) :
    w.isOpen = true ∧ key.length < 2 ^ 16 ∧ value.length < 2 ^ 32 ∧
      seq = addU64 w.lastSeq 1 ∧
      ∃ encoded, serializeRecord c rand ⟨op, seq, ts % 2 ^ 64, key, value⟩ = .ok encoded ∧
        w.writeOffset + encoded.length ≤ capacity ∧
        w' = { w with segment := overwrite w.segment w.writeOffset encoded
                      writeOffset := w.writeOffset + encoded.length
                      lastSeq := seq } := by
  unfold Wal.append at h
  by_cases h1 : w.isOpen = false
  · rw [if_pos h1] at h; cases h
  · rw [if_neg h1] at h
    by_cases h2 : key.length > 2 ^ 16 - 1
    · rw [if_pos h2] at h; cases h
    · rw [if_neg h2] at h
      by_cases h3 : value.length > 2 ^ 32 - 1
      · rw [if_pos h3] at h; cases h
      · rw [if_neg h3] at h
        dsimp only at h
        cases hs : serializeRecord c rand
            ⟨op, addU64 w.lastSeq 1, ts % 2 ^ 64, key, value⟩ with
        | error e => simp only [hs] at h; cases h
        | ok encoded =>
            simp only [hs] at h
            by_cases h4 : w.writeOffset + encoded.length > capacity
            · rw [if_pos h4] at h; cases h
            · rw [if_neg h4] at h
              simp only [Prod.mk.injEq, Except.ok.injEq] at h
              obtain ⟨rfl, rfl⟩ := h
              exact ⟨by simpa using h1, by omega, by omega, rfl, encoded, hs,
                by omega, rfl⟩

/-- An `Append` that fails leaves the log as it was. -/
theorem append_error {c : Cipher} {capacity ts : Nat} {rand : c.Rand} {op : WalOp}
    {key value : Bytes} {w w' : Wal} {e : Err}
    (h : w.append c capacity ts rand op key value = (.error e, w')) : w' = w := by
  unfold Wal.append at h
  dsimp only at h
  split at h
  · exact (Prod.mk.inj h).2.symm
  · split at h
    · exact (Prod.mk.inj h).2.symm
    · split at h
      · exact (Prod.mk.inj h).2.symm
      · split at h
        · exact (Prod.mk.inj h).2.symm
        · split at h
          · exact (Prod.mk.inj h).2.symm
          · cases (Prod.mk.inj h).1

/-- The bytes of the record stand in the segment, below the write offset. -/
def Wal.HasRecord (c : Cipher) (w : Wal) (rec : WalRecord) : Prop :=
  ∃ rand encoded off, serializeRecord c rand rec = .ok encoded ∧
    off + encoded.length ≤ w.writeOffset ∧ slice w.segment off encoded.length = encoded

/-- **An appended record is in the log.** -/
theorem append_hasRecord {c : Cipher} {capacity ts : Nat} {rand : c.Rand} {op : WalOp}
    {key value : Bytes} {w w' : Wal} {seq : Nat}
    (h : w.append c capacity ts rand op key value = (.ok seq, w')) :
    w'.HasRecord c ⟨op, seq, ts % 2 ^ 64, key, value⟩ := by
  obtain ⟨-, -, -, -, encoded, henc, -, rfl⟩ := append_eq_of_ok h
  refine ⟨rand, encoded, (w.segment.take w.writeOffset).length, henc, ?_,
    slice_append_of_length rfl rfl⟩
  dsimp only
  rw [List.length_take]
  omega

/-- **A record in the log stays there** when another one is appended. -/
theorem Wal.HasRecord.append {c : Cipher} {w : Wal} {rec : WalRecord} (h : w.HasRecord c rec)
    (capacity ts : Nat) (rand : c.Rand) (op : WalOp) (key value : Bytes) :
    (w.append c capacity ts rand op key value).2.HasRecord c rec := by
  rcases happ : w.append c capacity ts rand op key value with ⟨res, w'⟩
  cases res with
  | error e => rw [append_error happ]; exact h
  | ok seq =>
      obtain ⟨-, -, -, -, encoded, -, -, rfl⟩ := append_eq_of_ok happ
      obtain ⟨rand', old, off, henc, hle, hslice⟩ := h
      refine ⟨rand', old, off, henc, hle.trans (Nat.le_add_right _ _), ?_⟩
      -- the old bytes lie in the part of the segment that is kept
      have hlen := congrArg List.length hslice
      rw [slice, List.length_take, List.length_drop] at hlen
      by_cases hnil : old.length = 0
      · have : old = [] := List.eq_nil_of_length_eq_zero hnil
        rw [this]
        rfl
      · have hkept : slice (w.segment.take w.writeOffset) off old.length = old := by
          rw [slice, List.drop_take, List.take_take, min_eq_left (by omega)]
          exact hslice
        refine Eq.trans (slice_append_left ?_) hkept
        rw [List.length_take]
        omega

/-- An `Append` of a record that fits its fields and the segment succeeds. -/
theorem append_of_room {c : Cipher} (hc : c.Lawful)
    (hcrypto : ∀ rand p, (c.encrypt rand p).isSome) {capacity : Nat} {w : Wal}
    (hopen : w.isOpen = true) (ts : Nat) (rand : c.Rand) (op : WalOp) {key value : Bytes}
    (hk : key.length < 2 ^ 16) (hv : value.length < 2 ^ 32)
    (hroom : w.writeOffset + (59 + (key.length + value.length)) ≤ capacity) :
    ∃ w', w.append c capacity ts rand op key value = (.ok (addU64 w.lastSeq 1), w') := by
  obtain ⟨blob, hblob⟩ := Option.isSome_iff_exists.mp (hcrypto rand (key ++ value))
  obtain ⟨encoded, hencoded⟩ : ∃ b, serializeRecord c rand
      ⟨op, addU64 w.lastSeq 1, ts % 2 ^ 64, key, value⟩ = .ok b := by
    rw [serializeRecord, hblob]
    exact ⟨_, rfl⟩
  have hlen := length_serializeRecord hc hencoded
  rw [Wal.append, if_neg (by simp [hopen]), if_neg (by omega), if_neg (by omega)]
  dsimp only
  rw [hencoded]
  dsimp only at hlen ⊢
  rw [if_neg (by omega)]
  exact ⟨_, rfl⟩

/-- **Appending to a log** adds one record at its end, provided the record
parses back; nothing behind the record changes. -/
theorem Wal.Log.append {c : Cipher} {capacity ts : Nat} {rand : c.Rand} {op : WalOp}
    {key value : Bytes} {w w' : Wal} {seq : Nat} {rs : List WalRecord}
    (hlog : w.Log c capacity rs)
    (h : w.append c capacity ts rand op key value = (.ok seq, w'))
    (hback : parseRecordAt c capacity w'.segment w.writeOffset
      = .ok (⟨op, seq, ts % 2 ^ 64, key, value⟩, w'.writeOffset)) :
    w'.Log c capacity (rs ++ [⟨op, seq, ts % 2 ^ 64, key, value⟩]) ∧
      w'.segment.drop w'.writeOffset = w.segment.drop w'.writeOffset := by
  obtain ⟨hopen, -, -, -, encoded, -, hroom, rfl⟩ := append_eq_of_ok h
  have hoff := hlog.writeOffset_le
  have hlen := hlog.length
  refine ⟨⟨hopen, ?_, ?_, ?_⟩, ?_⟩
  · rw [length_overwrite (by omega), hlen]
  · -- the old records lie in front of the copy, the new one is the copy
    refine Chain.append (hlog.chain.mono
      (walParse_progress c capacity w.segment) ?_) (Chain.single (walParse_eq_some.mpr hback))
    intro i r i' hp hi
    have hp := walParse_eq_some.mp hp
    have hb := parseRecordAt_bounds hp
    refine walParse_eq_some.mpr (parseRecordAt_local hp ?_)
    rw [slice, slice, List.take_drop, List.take_drop,
      take_overwrite (by omega) (by omega)]
  · simp [lastSeqOf]
  · exact drop_overwrite (Nat.le_refl _) (by omega)

/-! ## Any segment at all -/

theorem parseFields_seq {offset limit : Nat} {base : Bytes} {f : Fields}
    (h : parseFields offset base limit = .ok f) : f.seq < 2 ^ 64 := by
  unfold parseFields at h
  dsimp only at h
  repeat' split at h
  all_goals cases h
  exact readLe_lt 8 _

/-- A number read from a segment has 64 bits. -/
theorem parseRecordAt_seq {c : Cipher} {capacity off next : Nat} {base : Bytes}
    {rec : WalRecord} (h : parseRecordAt c capacity base off = .ok (rec, next)) :
    rec.seq < 2 ^ 64 := by
  unfold parseRecordAt at h
  by_cases hend : off + 4 > capacity
  · rw [if_pos hend] at h; cases h
  rw [if_neg hend] at h
  cases hf : parseFields off base capacity with
  | error err => rw [hf] at h; cases h
  | ok f =>
      rw [hf] at h
      dsimp only at h
      repeat' split at h
      all_goals cases h
      exact parseFields_seq hf

/-- **A replay keeps what its callback keeps.** -/
theorem Wal.replay_invariant {σ : Type} {P : σ → Prop} {c : Cipher} {capacity : Nat}
    {w : Wal} {fn : σ → WalRecord → Res Nat × σ} {stop : Bool}
    (hfn : ∀ s rec, rec.seq < 2 ^ 64 → P s → P (fn s rec).2) {s : σ} (hs : P s) :
    P (w.replay c capacity fn stop s).2 := by
  have hloop : ∀ fuel off s, P s → P (w.replayFrom c capacity fn stop fuel off s).2 := by
    intro fuel
    induction fuel with
    | zero => intro off s hs; exact hs
    | succ fuel ih =>
        intro off s hs
        rw [Wal.replayFrom]
        by_cases hoff : off < w.writeOffset
        · rw [if_pos hoff]
          cases hp : parseRecordAt c capacity w.segment off with
          | error err =>
              dsimp only
              repeat' split
              all_goals exact hs
          | ok x =>
              obtain ⟨rec, next⟩ := x
              have hnext := hfn s rec (parseRecordAt_seq hp) hs
              dsimp only
              rcases hr : fn s rec with ⟨res, s'⟩
              rw [hr] at hnext
              cases res with
              | error err => exact hnext
              | ok n => exact ih next s' hnext
        · rw [if_neg hoff]
          exact hs
  rw [Wal.replay]
  by_cases hopen : w.isOpen = true
  · rw [if_pos hopen]
    exact hloop _ _ _ hs
  · rw [if_neg hopen]
    exact hs

/-- The number of an appended record has 64 bits. -/
theorem Wal.append_seq {c : Cipher} {capacity ts seq : Nat} {rand : c.Rand} {op : WalOp}
    {key value : Bytes} {w w' : Wal}
    (h : w.append c capacity ts rand op key value = (.ok seq, w')) : seq < 2 ^ 64 := by
  unfold Wal.append at h
  dsimp only at h
  repeat' split at h
  all_goals cases h
  exact Nat.mod_lt _ (by decide)

end VaultKV
