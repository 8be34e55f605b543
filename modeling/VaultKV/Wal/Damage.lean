import VaultKV.Checksum
import VaultKV.Wal.Reopen

/-!
# Wal — what the reader does not take

Two ways in which a record that `Append` acknowledged is not delivered.

* The WRITER accepts more than the reader: a record whose checksum happens
  to be 0, the reader's end marker, or whose ciphertext exceeds the
  reader's cap, is the end of the log for every later `Replay`.
* A DAMAGED record is the end of the log for `Open`, which looks for the
  first offset that does not parse and forgets why it did not. `Replay`
  then only looks at what is in front of it, so its error path is never
  taken after an `Open`.
-/

namespace VaultKV

open Lib

/-! ## What the reader takes -/

/-- The reader takes the record of the call: its checksum is not the end
marker and its ciphertext is within the cap. -/
def AppendCall.Taken {c : Cipher} (a : AppendCall c) (seq : Nat) : Prop :=
  ∀ blob ∈ c.encrypt a.rand (a.key ++ a.value),
    (crc32 (recordBody (a.record seq) blob)).toNat ≠ 0 ∧
      a.key.length + a.value.length ≤ 128 * 1024 * 1024

instance {c : Cipher} (a : AppendCall c) (seq : Nat) : Decidable (a.Taken seq) :=
  inferInstanceAs (Decidable (∀ blob ∈ _, _))

/-- Every append that succeeds writes such a record. -/
def Wal.AllTaken {c : Cipher} (capacity : Nat) : List (AppendCall c) → Wal → Prop
  | [], _ => True
  | a :: calls, w =>
      match a.run capacity w with
      | (.ok seq, w') => a.Taken seq ∧ Wal.AllTaken capacity calls w'
      | (.error _, w') => Wal.AllTaken capacity calls w'

theorem readable_iff_taken {c : Cipher} (hc : c.Lawful) {a : AppendCall c} {seq : Nat}
    {encoded : Bytes} (henc : serializeRecord c a.rand (a.record seq) = .ok encoded) :
    Readable encoded ↔ a.Taken seq := by
  obtain ⟨blob, hblob, rfl⟩ := serializeRecord_ok henc
  have hlen := length_serializeRecord hc henc
  have hblob : c.encrypt a.rand (a.key ++ a.value) = some blob := hblob
  rw [Readable, hlen, readLe_appendLe (crc32_toNat_lt _), AppendCall.Taken, hblob]
  simp only [Option.mem_some_iff, forall_eq', AppendCall.record]
  omega

/-- **A record reads back** exactly when the reader takes it. -/
theorem run_reads_back_iff {c : Cipher} (hc : c.Lawful) {capacity : Nat} {w w' : Wal}
    (hlen : w.segment.length = capacity) {a : AppendCall c} {seq : Nat}
    (hop : WalOp.ofByte a.op.toByte = a.op) (hrun : a.run capacity w = (.ok seq, w')) :
    parseRecordAt c capacity w'.segment w.writeOffset = .ok (a.record seq, w'.writeOffset) ↔
      a.Taken seq := by
  obtain ⟨-, hkey, hval, hseq, encoded, henc, hroom, rfl⟩ := append_eq_of_ok hrun
  have hsize : encoded.length = 59 + (a.key.length + a.value.length) :=
    length_serializeRecord hc henc
  have hbase : (overwrite w.segment w.writeOffset encoded).drop w.writeOffset
      = encoded ++ w.segment.drop (w.writeOffset + encoded.length) :=
    drop_overwrite_self (by omega)
  rw [← readable_iff_taken hc henc]
  constructor
  · intro hparse
    obtain ⟨-, hacc, hnext, -⟩ := parseRecordAt_ok_iff.mp hparse
    have hcap := hacc.cap
    have hcrc := hacc.crc_ne
    simp only [fieldsAt] at hnext hcap hcrc
    rw [hbase, readLe, List.take_append_of_le_length (by omega)] at hcrc
    exact ⟨hcrc, by omega⟩
  · intro hread
    have hfits : (a.record seq).Fits :=
      ⟨hop, by rw [AppendCall.record, hseq]; exact Nat.mod_lt _ (by decide),
        Nat.mod_lt _ (by decide), hkey, hval⟩
    exact parseRecordAt_serialize hc hfits henc hread hbase hroom

theorem Wal.AllTaken.parseBack {c : Cipher} (hc : c.Lawful) {capacity : Nat}
    (calls : List (AppendCall c)) :
    ∀ {w : Wal}, w.segment.length = capacity →
      (∀ a ∈ calls, WalOp.ofByte a.op.toByte = a.op) →
      Wal.AllTaken capacity calls w → Wal.ParseBack capacity calls w := by
  induction calls with
  | nil => intro w _ _ _; trivial
  | cons a calls ih =>
      intro w hlen hops htaken
      have hrest := fun b hb => hops b (List.mem_cons_of_mem _ hb)
      rw [Wal.AllTaken] at htaken
      rw [Wal.ParseBack]
      rcases hrun : a.run capacity w with ⟨res, w'⟩
      rw [hrun] at htaken
      cases res with
      | error err =>
          obtain rfl : w' = w := append_error hrun
          exact ih hlen hrest htaken
      | ok seq =>
          have hlen' : w'.segment.length = capacity := by
            obtain ⟨-, -, -, -, encoded, -, hroom, rfl⟩ := append_eq_of_ok hrun
            rw [length_overwrite (by omega), hlen]
          exact ⟨(run_reads_back_iff hc hlen (hops a List.mem_cons_self) hrun).mpr htaken.1,
            ih hlen' hrest htaken.2⟩

/-- **Which appends can be read back.** For every mapped log and every call
that `Append` answers with `Ok`, `ParseRecordAt` at the old write offset
gives back the operation, key, value and number, and ends at the new write
offset, if and only if the checksum is not 0 and key and value together
have at most 128 MiB. Where this holds of all calls of a sequence `Replay`
delivers them all. -/
theorem append_reads_back_iff {c : Cipher} (hc : c.Lawful) {capacity : Nat} {w : Wal}
    (hlen : w.segment.length = capacity) (stop : Bool) :
    (∀ (a : AppendCall c) (seq : Nat) (w' : Wal), WalOp.ofByte a.op.toByte = a.op →
      a.run capacity w = (.ok seq, w') →
      (parseRecordAt c capacity w'.segment w.writeOffset
          = .ok (a.record seq, w'.writeOffset) ↔ a.Taken seq)) ∧
    ∀ (rs : List WalRecord) (calls : List (AppendCall c)), w.Log c capacity rs →
      (∀ a ∈ calls, WalOp.ofByte a.op.toByte = a.op) → Wal.AllTaken capacity calls w →
      (Wal.appendAll capacity calls w).2.delivered c capacity stop
        = (.ok 0, rs ++ (Wal.appendAll capacity calls w).1) := by
  refine ⟨fun a seq w' hop hrun => run_reads_back_iff hc hlen hop hrun,
    fun rs calls hlog hops htaken => ?_⟩
  exact (hlog.appendAll calls (htaken.parseBack hc calls hlen hops)).1.delivered stop

/-- An empty log of 122 bytes, open. -/
def emptyLog : Wal := { isOpen := true, segment := List.replicate 122 0 }

/-- A record like most. -/
def luckyCall : AppendCall (fallback zeroKey) := ⟨0, (1 : Nat), .kSet, [97], [49]⟩

theorem luckyAppend_reads_back :
    parseRecordAt (fallback zeroKey) 122 (luckyCall.run 122 emptyLog).2.segment 0
      = .ok (⟨.kSet, 1, 0, [97], [49]⟩, 61) := by
  have hlen : emptyLog.segment.length = 122 := List.length_replicate
  have hrun : luckyCall.run 122 emptyLog = (.ok 1, (luckyCall.run 122 emptyLog).2) :=
    Prod.ext (by decide +kernel) rfl
  have hoff : (luckyCall.run 122 emptyLog).2.writeOffset = 61 := by decide +kernel
  rw [← hoff]
  exact ((append_reads_back_iff (fallback_lawful zeroKey) hlen true).1 luckyCall 1 _ rfl
    hrun).mpr (by decide +kernel)

/-- The clock reading that makes the checksum of the first record 0. -/
def unluckyCall : AppendCall (fallback zeroKey) :=
  ⟨1763337599813262079, (0 : Nat), .kSet, [97], [49]⟩

/-- **An acknowledged record that is the end of the log**: also for the
record behind it. -/
theorem unluckyAppend_lost :
    (unluckyCall.run 122 emptyLog).1 = .ok 1 ∧
    parseRecordAt (fallback zeroKey) 122 (unluckyCall.run 122 emptyLog).2.segment 0
      = .error (Status.notFound "end of wal") ∧
    (Wal.appendAll 122 [unluckyCall, ⟨0, (1 : Nat), .kSet, [97], [50]⟩] emptyLog).1.length = 2 ∧
    (Wal.appendAll 122 [unluckyCall, ⟨0, (1 : Nat), .kSet, [97], [50]⟩]
      emptyLog).2.delivered (fallback zeroKey) 122 true = (.ok 0, []) := by
  decide +kernel

/-! ## One changed byte -/

/-- A length close to the end of 32 bits stays large when one byte of it
changes. -/
theorem leNat_set_large {a : Bytes} (ha : a.length = 4) (hbig : 2 ^ 32 - 2 ^ 16 ≤ leNat a)
    (j : Nat) (b : UInt8) : 2 ^ 16 ≤ leNat (a.set j b) := by
  rcases a with _ | ⟨w, _ | ⟨x, _ | ⟨y, _ | ⟨z, _ | ⟨_, _⟩⟩⟩⟩⟩ <;> cases ha
  have hw := w.toNat_lt
  have hx := x.toNat_lt
  have hy := y.toNat_lt
  have hz := z.toNat_lt
  simp only [leNat] at hbig
  rcases j with _ | _ | _ | _ | j
  all_goals
    simp only [List.set, leNat]
    omega

/-! ## Records as they were written -/

/-- Ciphers whose decryption keeps the length, as both ciphers of
`crypto.cpp` do. -/
def Cipher.KeepsLength (c : Cipher) : Prop :=
  ∀ blob plain, c.decrypt blob = some plain → plain.length = blob.ciphertext.length

theorem fallback_keepsLength (key : ByteArr 32) : (fallback key).KeepsLength := by
  intro blob plain h
  simp only [fallback, Fallback.decrypt] at h
  by_cases htag : Fallback.tag key blob.ciphertext = blob.tag
  · rw [if_pos htag] at h
    rw [← Option.some.inj h, Fallback.length_mask]
  · rw [if_neg htag] at h; cases h

/-- The bytes of one record that `Append` writes. -/
def Written (c : Cipher) (encoded : Bytes) : Prop :=
  ∃ rand rec, WalRecord.Fits rec ∧ serializeRecord c rand rec = .ok encoded

/-- What the damage arguments need of a written record at the front of
`q`: its lengths and its checksum. -/
structure Framed (q : Bytes) (keyLen valLen : Nat) : Prop where
  key_lt : keyLen < 2 ^ 16
  val_lt : valLen < 2 ^ 32
  keyLen_eq : readLe 2 (q.drop 21) = keyLen
  valLen_eq : readLe 4 (q.drop 23) = valLen
  cipherLen_eq : readLe 4 (q.drop 27) = (keyLen + valLen) % 2 ^ 32
  length_le : 59 + (keyLen + valLen) ≤ q.length
  crc_eq : (crc32 ((q.drop 4).take (55 + (keyLen + valLen)))).toNat = readLe 4 q

theorem Written.framed {c : Cipher} (hc : c.Lawful) {encoded : Bytes}
    (h : Written c encoded) (rest : Bytes) :
    ∃ keyLen valLen, encoded.length = 59 + (keyLen + valLen) ∧
      Framed (encoded ++ rest) keyLen valLen := by
  obtain ⟨rand, rec, hfit, hs⟩ := h
  have hlen := length_serializeRecord hc hs
  obtain ⟨blob, hb, rfl⟩ := serializeRecord_ok hs
  have hlenb : blob.ciphertext.length = rec.key.length + rec.value.length := by
    rw [hc.length_encrypt _ _ _ hb, List.length_append]
  have hf := fieldsAt_serialize_mod hfit blob (crc32 (recordBody rec blob)).toNat rest
  rw [hlenb] at hf
  refine ⟨rec.key.length, rec.value.length, hlen, hfit.key, hfit.value,
    congrArg Fields.keyLen hf, congrArg Fields.valLen hf, congrArg Fields.cipherLen hf, ?_, ?_⟩
  · rw [List.length_append]; omega
  · rw [List.append_assoc, readLe_appendLe (crc32_toNat_lt _),
      List.drop_left' (length_appendLe 4 _), ← hlenb,
      List.take_left' (length_recordBody rec blob)]

/-- In what the reader accepts the lengths agree. -/
theorem lengths_of_parse {c : Cipher} (hk : c.KeepsLength) {capacity o next : Nat}
    {segment : Bytes} {r : WalRecord} (hlen : segment.length = capacity)
    (h : parseRecordAt c capacity segment o = .ok (r, next)) :
    readLe 4 ((segment.drop o).drop 27)
      = readLe 2 ((segment.drop o).drop 21) + readLe 4 ((segment.drop o).drop 23) := by
  obtain ⟨-, hacc, -, plain, hd, hplain, -⟩ := parseRecordAt_ok_iff.mp h
  have hfits := hacc.fits
  have hcipher := hk _ _ hd
  simp only [blobAt, fieldsAt, List.length_take, List.length_drop] at hcipher hplain
  omega

/-- **A changed byte is noticed**: whatever byte of a written record is
changed, the reader does not accept it any more. -/
theorem Framed.damaged {c : Cipher} (hk : c.KeepsLength) {q : Bytes} {keyLen valLen : Nat}
    (hq : Framed q keyLen valLen) {capacity o j : Nat} {segment : Bytes} {b : UInt8}
    (hlen : segment.length = capacity) (hseg : segment.drop o = q.set j b)
    (hj : j < 59 + (keyLen + valLen)) (hb : q[j]? ≠ some b) :
    walParse c capacity segment o = none := by
  cases hp : walParse c capacity segment o with
  | none => rfl
  | some x =>
  exfalso
  have hlens := lengths_of_parse hk hlen (walParse_eq_some.mp hp)
  obtain ⟨-, hacc, -⟩ := parseRecordAt_ok_iff.mp (walParse_eq_some.mp hp)
  have hkl := hq.key_lt
  have hvl := hq.val_lt
  have hql := hq.length_le
  have hcl := hq.cipherLen_eq
  rw [hseg] at hlens hacc
  by_cases hfield : 27 ≤ j ∧ j < 31
  · -- the length of the ciphertext has changed, the other two have not
    rw [readLe_set_of_outside (k := 21) b (Or.inr (by omega)),
      readLe_set_of_outside (k := 23) b (Or.inr (by omega)), hq.keyLen_eq,
      hq.valLen_eq] at hlens
    have hlt := readLe_lt 4 ((q.set j b).drop 27)
    refine readLe_set_ne (by omega) hfield.1 hfield.2 hb (n := 4) ?_
    omega
  have hsame := readLe_set_of_outside (p := q) (j := j) (k := 27) (n := 4) b (by omega)
  have hcrc := hacc.crc_eq
  rw [hsame, hcl] at hlens hcrc
  by_cases hbig : 2 ^ 32 ≤ keyLen + valLen
  · -- then the stored length of the ciphertext is small, that of the value is not
    have hval : 2 ^ 16 ≤ readLe 4 ((q.set j b).drop 23) := by
      by_cases hin : 23 ≤ j
      · rw [readLe, field_set_of_inside b hin]
        refine leNat_set_large ?_ ?_ _ _
        · rw [List.length_take, List.length_drop]; omega
        · have := hq.valLen_eq
          rw [readLe] at this
          omega
      · rw [readLe_set_of_outside b (Or.inl (by omega)), hq.valLen_eq]
        omega
    omega
  rw [Nat.mod_eq_of_lt (by omega)] at hcrc
  by_cases hfront : j < 4
  · -- the stored checksum has changed, what it covers has not
    rw [field_set_of_outside b (Or.inl hfront), hq.crc_eq] at hcrc
    exact readLe_set_ne (k := 0) (n := 4) (by omega) (Nat.zero_le j) (by omega) hb hcrc.symm
  · -- what the checksum covers has changed, the stored one has not
    have hstored : readLe 4 (q.set j b) = readLe 4 q :=
      readLe_set_of_outside (k := 0) b (Or.inr (by omega))
    rw [field_set_of_inside b (by omega), hstored, ← hq.crc_eq] at hcrc
    refine crc32_set_ne ?_ ?_ (BitVec.eq_of_toNat_eq hcrc)
    · rw [List.length_take, List.length_drop]; omega
    · rw [getElem?_field (by omega) (by omega)]; exact hb

/-- What the reader accepts has the lengths and the checksum of a written
record, whoever wrote it. -/
theorem framed_of_parse {c : Cipher} (hk : c.KeepsLength) {capacity o next : Nat}
    {segment : Bytes} {r : WalRecord} (hlen : segment.length = capacity)
    (h : parseRecordAt c capacity segment o = .ok (r, next)) :
    ∃ keyLen valLen, next = o + (59 + (keyLen + valLen)) ∧
      Framed (segment.drop o) keyLen valLen := by
  have hlens := lengths_of_parse hk hlen h
  obtain ⟨-, hacc, hnext, -⟩ := parseRecordAt_ok_iff.mp h
  have hcap := hacc.cap
  have hfits := hacc.fits
  have hcrc := hacc.crc_eq
  have hkey := readLe_lt 2 ((segment.drop o).drop 21)
  have hval := readLe_lt 4 ((segment.drop o).drop 23)
  simp only [fieldsAt] at hnext
  rw [hlens] at hnext hcap hfits hcrc
  refine ⟨_, _, hnext, hkey, hval, rfl, rfl, ?_, ?_, hcrc⟩
  · rw [hlens]
    omega
  · rw [List.length_drop]
    omega

/-- What the reader takes of a written record is the whole of it. -/
theorem Written.of_parse {c : Cipher} (hc : c.Lawful) (hk : c.KeepsLength)
    {encoded rest segment : Bytes} (hw : Written c encoded) {capacity o next : Nat}
    {r : WalRecord} (hlen : segment.length = capacity)
    (hseg : segment.drop o = encoded ++ rest)
    (h : parseRecordAt c capacity segment o = .ok (r, next)) :
    next = o + encoded.length ∧ Readable encoded := by
  obtain ⟨keyLen, valLen, hsize, hq⟩ := hw.framed hc rest
  have hlens := lengths_of_parse hk hlen h
  obtain ⟨-, hacc, hnext, -⟩ := parseRecordAt_ok_iff.mp h
  have hcap := hacc.cap
  have hcrc := hacc.crc_ne
  rw [hseg, hq.keyLen_eq, hq.valLen_eq] at hlens
  simp only [fieldsAt] at hnext
  rw [hseg, hlens] at hnext hcap
  rw [hseg, readLe, List.take_append_of_le_length (by omega)] at hcrc
  exact ⟨by omega, hcrc, by omega⟩

/-! ## Whole segments -/

/-- The log's records are the byte strings `encs`, one behind the other,
each as `Append` wrote it. -/
structure Wal.Holds (c : Cipher) (capacity : Nat) (w : Wal) (encs : List Bytes) : Prop where
  length : w.segment.length = capacity
  written : ∀ e ∈ encs, Written c e
  front : w.segment.take w.writeOffset = encs.flatten
  writeOffset_le : w.writeOffset ≤ capacity

/-- **Append keeps it**: an `Ok` adds one byte string, any other answer
none. -/
theorem Wal.Holds.run {c : Cipher} {capacity : Nat} {w w' : Wal} {encs : List Bytes}
    (h : w.Holds c capacity encs) {a : AppendCall c} {seq : Nat}
    (hop : WalOp.ofByte a.op.toByte = a.op) (hrun : a.run capacity w = (.ok seq, w')) :
    ∃ encoded, w'.Holds c capacity (encs ++ [encoded]) := by
  obtain ⟨-, hkey, hval, hseq, encoded, henc, hroom, rfl⟩ := append_eq_of_ok hrun
  have hlen := h.length
  have hfits : (a.record seq).Fits :=
    ⟨hop, by rw [AppendCall.record, hseq]; exact Nat.mod_lt _ (by decide),
      Nat.mod_lt _ (by decide), hkey, hval⟩
  refine ⟨encoded, ?_, ?_, ?_, hroom⟩
  · rw [length_overwrite (by omega), hlen]
  · intro e he
    rcases List.mem_append.mp he with he | he
    · exact h.written e he
    · rw [List.mem_singleton.mp he]
      exact ⟨a.rand, a.record seq, hfits, henc⟩
  · have hfront : (w.segment.take w.writeOffset).length = w.writeOffset := by
      rw [List.length_take]; omega
    rw [List.flatten_append, List.flatten_singleton, ← h.front, overwrite,
      ← List.append_assoc]
    refine List.take_left' ?_
    rw [List.length_append, hfront]

theorem Wal.Holds.appendAll {c : Cipher} {capacity : Nat} (calls : List (AppendCall c)) :
    ∀ {w : Wal} {encs : List Bytes}, w.Holds c capacity encs →
      (∀ a ∈ calls, WalOp.ofByte a.op.toByte = a.op) →
      ∃ more, (Wal.appendAll capacity calls w).2.Holds c capacity (encs ++ more) ∧
        more.length = (Wal.appendAll capacity calls w).1.length := by
  induction calls with
  | nil =>
      intro w encs h _
      exact ⟨[], by rw [List.append_nil]; exact h, rfl⟩
  | cons a calls ih =>
      intro w encs h hops
      have hrest := fun b hb => hops b (List.mem_cons_of_mem _ hb)
      rw [Wal.appendAll]
      rcases hrun : a.run capacity w with ⟨res, w'⟩
      cases res with
      | error err =>
          obtain rfl : w' = w := append_error hrun
          exact ih h hrest
      | ok seq =>
          obtain ⟨encoded, h'⟩ := h.run (hops a List.mem_cons_self) hrun
          obtain ⟨more, hmore, hlen⟩ := ih h' hrest
          refine ⟨encoded :: more, ?_, ?_⟩
          · rw [List.append_assoc] at hmore
            exact hmore
          · rw [List.length_cons, hlen]
            rfl

/-- Readable records are delivered. -/
theorem length_recordsFrom_of_readable {c : Cipher} (hc : c.Lawful) {capacity : Nat}
    {segment : Bytes} (hlen : segment.length = capacity) (encs : List Bytes) :
    ∀ {o : Nat} {rest : Bytes}, segment.drop o = encs.flatten ++ rest →
      o ≤ capacity → (∀ e ∈ encs, Written c e ∧ Readable e) →
      encs.length ≤ (recordsFrom (walParse c capacity segment) capacity o).1.length := by
  induction encs with
  | nil => intro o rest _ _ _; exact Nat.zero_le _
  | cons e encs ih =>
      intro o rest hseg ho hall
      rw [List.flatten_cons, List.append_assoc] at hseg
      obtain ⟨⟨rand, rec, hfit, hs⟩, hread⟩ := hall e List.mem_cons_self
      have hroom : o + e.length ≤ capacity := by
        have := congrArg List.length hseg
        rw [List.length_drop, List.length_append] at this
        omega
      have hparse := parseRecordAt_serialize hc hfit hs hread hseg hroom
      rw [recordsFrom_some (walParse_progress c capacity segment)
        (walParse_eq_some.mpr hparse), List.length_cons, List.length_cons]
      exact Nat.succ_le_succ (ih (drop_step hseg rfl) hroom
        fun e' he' => hall e' (List.mem_cons_of_mem _ he'))

/-- An unreadable record is the end of the log. -/
theorem length_recordsFrom_of_unreadable {c : Cipher} (hc : c.Lawful) (hk : c.KeepsLength)
    {capacity : Nat} {segment : Bytes} (hlen : segment.length = capacity)
    (encs : List Bytes) :
    ∀ {o : Nat} {rest : Bytes}, segment.drop o = encs.flatten ++ rest →
      (∀ e ∈ encs, Written c e) → (∃ e ∈ encs, ¬ Readable e) →
      (recordsFrom (walParse c capacity segment) capacity o).1.length < encs.length := by
  induction encs with
  | nil => rintro o rest _ _ ⟨e, he, -⟩; cases he
  | cons e encs ih =>
      intro o rest hseg hall hbad
      rw [List.flatten_cons, List.append_assoc] at hseg
      cases hp : walParse c capacity segment o with
      | none => rw [recordsFrom_none hp]; exact Nat.succ_pos _
      | some x =>
          obtain ⟨r, next⟩ := x
          obtain ⟨rfl, hread⟩ := (hall e List.mem_cons_self).of_parse hc hk hlen hseg
            (walParse_eq_some.mp hp)
          rw [recordsFrom_some (walParse_progress c capacity segment) hp]
          refine Nat.succ_lt_succ (ih (drop_step hseg rfl)
            (fun e' he' => hall e' (List.mem_cons_of_mem _ he')) ?_)
          obtain ⟨e', he', hne⟩ := hbad
          rcases List.mem_cons.mp he' with rfl | he'
          · exact absurd hread hne
          · exact ⟨e', he', hne⟩

/-- A damaged record is the end of the log. -/
theorem length_recordsFrom_of_damaged {c : Cipher} (hc : c.Lawful) (hk : c.KeepsLength)
    {capacity : Nat} {segment : Bytes} (hlen : segment.length = capacity) {b : UInt8}
    (encs : List Bytes) :
    ∀ {o j : Nat} {rest : Bytes}, segment.drop o = (encs.flatten ++ rest).set j b →
      (∀ e ∈ encs, Written c e) → j < encs.flatten.length →
      (encs.flatten ++ rest)[j]? ≠ some b →
      (recordsFrom (walParse c capacity segment) capacity o).1.length < encs.length := by
  induction encs with
  | nil => intro o j rest _ _ hj _; cases hj
  | cons e encs ih =>
      intro o j rest hseg hall hj hb
      rw [List.flatten_cons, List.append_assoc] at hseg hb
      rw [List.flatten_cons, List.length_append] at hj
      cases hp : walParse c capacity segment o with
      | none => rw [recordsFrom_none hp]; exact Nat.succ_pos _
      | some x =>
          obtain ⟨r, next⟩ := x
          by_cases hin : j < e.length
          · obtain ⟨keyLen, valLen, hsize, hq⟩ :=
              (hall e List.mem_cons_self).framed hc (encs.flatten ++ rest)
            rw [hq.damaged hk hlen hseg (by omega) hb] at hp
            cases hp
          · rw [List.set_append_right _ _ (by omega)] at hseg
            rw [List.getElem?_append_right (by omega)] at hb
            obtain ⟨rfl, -⟩ := (hall e List.mem_cons_self).of_parse hc hk hlen hseg
              (walParse_eq_some.mp hp)
            rw [recordsFrom_some (walParse_progress c capacity segment) hp]
            exact Nat.succ_lt_succ (ih (drop_step hseg rfl)
              (fun e' he' => hall e' (List.mem_cons_of_mem _ he')) (by omega) hb)

/-- `Replay` either delivers all `n` records or says that the log is
corrupt. -/
def Reported (n : Nat) : Res Nat × List WalRecord → Prop
  | (.ok _, rs) => n ≤ rs.length
  | (.error e, _) => e.code? = some .kCorruption

instance (n : Nat) (out : Res Nat × List WalRecord) : Decidable (Reported n out) :=
  match out with
  | (.ok _, rs) => inferInstanceAs (Decidable (n ≤ rs.length))
  | (.error e, _) => inferInstanceAs (Decidable (e.code? = some .kCorruption))

/-- **Damage is swallowed.** For every log of written records and every
byte of them that is overwritten, `Open` and then `Replay` with
`stop_at_corruption` answer `Ok`; they deliver all records, or report the
corruption, only if the byte was overwritten by itself and every record was
readable in the first place. -/
theorem damage_reported_iff {c : Cipher} (hc : c.Lawful) (hk : c.KeepsLength)
    {pf : Platform} {io : Wal.OpenIo} {capacity : Nat} {w : Wal} {encs : List Bytes}
    (h : w.Holds c capacity encs) {i : Nat} (hi : i < w.writeOffset) (b : UInt8)
    (hok : (({ segment := w.segment.set i b } : Wal).open pf c capacity io).1.isOk = true) :
    let out := (({ segment := w.segment.set i b } : Wal).open pf c capacity io).2.delivered
      c capacity true
    out.1 = .ok 0 ∧
      (Reported encs.length out ↔ w.segment[i]? = some b ∧ ∀ e ∈ encs, Readable e) := by
  have hlen : (w.segment.set i b).length = capacity := by rw [List.length_set, h.length]
  have hlog := (open_log (w := { segment := w.segment.set i b }) rfl hok).1
  rw [resize_of_length hlen] at hlog
  dsimp only
  rw [hlog.delivered true]
  refine ⟨rfl, ?_⟩
  have hoff := h.writeOffset_le
  have hsplit : w.segment = encs.flatten ++ w.segment.drop w.writeOffset := by
    rw [← h.front, List.take_append_drop]
  have hflat : encs.flatten.length = w.writeOffset := by
    rw [← h.front, List.length_take, h.length]
    omega
  by_cases hsame : w.segment[i]? = some b
  · -- nothing has changed
    have hset : w.segment.set i b = w.segment := by
      obtain ⟨hin, rfl⟩ := List.getElem?_eq_some_iff.mp hsame
      exact List.set_getElem_self hin
    rw [hset, Reported, recovered]
    have hdrop : w.segment.drop 0 = encs.flatten ++ w.segment.drop w.writeOffset := by
      rw [List.drop_zero]; exact hsplit
    constructor
    · intro hall
      refine ⟨hsame, fun e he => ?_⟩
      by_contra hbad
      have := length_recordsFrom_of_unreadable hc hk h.length encs hdrop h.written
        ⟨e, he, hbad⟩
      omega
    · rintro ⟨-, hread⟩
      exact length_recordsFrom_of_readable hc h.length encs hdrop (Nat.zero_le _)
        fun e he => ⟨h.written e he, hread e he⟩
  · have hdrop : (w.segment.set i b).drop 0
        = (encs.flatten ++ w.segment.drop w.writeOffset).set i b := by
      rw [List.drop_zero, ← hsplit]
    have hshort := length_recordsFrom_of_damaged hc hk hlen encs hdrop h.written
      (by omega) (by rw [← hsplit]; exact hsame)
    rw [Reported, recovered]
    constructor
    · intro hall; omega
    · rintro ⟨hb, -⟩; exact absurd hb hsame

/-- Two records, written one behind the other into a log of 122 bytes. -/
def twoRecords : Wal := (Wal.appendAll 122 damagedLogCalls emptyLog).2

theorem twoRecords_holds : twoRecords.Holds (fallback zeroKey) 122
    [twoRecords.segment.take 61, twoRecords.segment.drop 61] where
  length := by decide +kernel
  written := by
    intro e he
    rcases List.mem_cons.mp he with rfl | he
    · exact ⟨(1 : Nat), ⟨.kSet, 1, 0, [97], [49]⟩, ⟨by decide, by decide, by decide,
        by decide, by decide⟩, by decide +kernel⟩
    · rw [List.mem_singleton.mp he]
      exact ⟨(2 : Nat), ⟨.kSet, 2, 0, [97], [50]⟩, ⟨by decide, by decide, by decide,
        by decide, by decide⟩, by decide +kernel⟩
  front := by decide +kernel
  writeOffset_le := by decide +kernel

theorem twoRecords_damage : ¬ Reported 2
    ((({ segment := twoRecords.segment.set 60 0 } : Wal).open damagedLogPlatform
      (fallback zeroKey) 122 {}).2.delivered (fallback zeroKey) 122 true) := by
  have hi : 60 < twoRecords.writeOffset := by decide +kernel
  have hok : (({ segment := twoRecords.segment.set 60 0 } : Wal).open damagedLogPlatform
      (fallback zeroKey) 122 {}).1.isOk = true := by decide +kernel
  have hchanged : twoRecords.segment[60]? ≠ some 0 := by decide +kernel
  have hiff := (damage_reported_iff (fallback_lawful zeroKey)
    (fallback_keepsLength zeroKey) twoRecords_holds hi 0 hok).2
  simp only [List.length_cons, List.length_nil, Nat.reduceAdd] at hiff
  rw [hiff]
  exact fun h => hchanged h.1

/-- **A damaged record is never accepted.** Whatever the segment holds, a
record that `ParseRecordAt` accepts is not accepted any more once one byte
of it, up to the offset behind it, has changed. -/
theorem damaged_record_refused {c : Cipher} (hk : c.KeepsLength) {capacity o next : Nat}
    {segment : Bytes} {r : WalRecord} (hlen : segment.length = capacity)
    (h : parseRecordAt c capacity segment o = .ok (r, next)) {i : Nat} (hi : o ≤ i)
    (hin : i < next) {b : UInt8} (hb : segment[i]? ≠ some b) :
    ∀ r' next', parseRecordAt c capacity (segment.set i b) o ≠ .ok (r', next') := by
  intro r' next' h'
  obtain ⟨keyLen, valLen, hnext, hframed⟩ := framed_of_parse hk hlen h
  have hseg : (segment.set i b).drop o = (segment.drop o).set (i - o) b := by
    rw [List.drop_set, if_neg (by omega)]
  have hbyte : (segment.drop o)[i - o]? ≠ some b := by
    rwa [List.getElem?_drop, Nat.add_sub_cancel' hi]
  have hnone := hframed.damaged hk (by rw [List.length_set, hlen]) hseg (by omega) hbyte
  rw [walParse_eq_some.mpr h'] at hnone
  cases hnone

/-- The second of two records, a byte of its value's length changed. -/
theorem secondRecord_refused :
    parseRecordAt (fallback zeroKey) 122 twoRecords.segment 61
      = .ok (⟨.kSet, 2, 0, [97], [50]⟩, 122) ∧
    ∀ r next, parseRecordAt (fallback zeroKey) 122 (twoRecords.segment.set 84 7) 61
      ≠ .ok (r, next) := by
  have hparse : parseRecordAt (fallback zeroKey) 122 twoRecords.segment 61
      = .ok (⟨.kSet, 2, 0, [97], [50]⟩, 122) := by decide +kernel
  have hbyte : twoRecords.segment[84]? ≠ some 7 := by decide +kernel
  exact ⟨hparse, damaged_record_refused (fallback_keepsLength zeroKey)
    twoRecords_holds.length hparse (by omega) (by omega) hbyte⟩

/-- Three records, a byte in the second one's ciphertext damaged. -/
def threeRecords : Wal :=
  (Wal.appendAll 183 (damagedLogCalls ++ damagedLogAppend)
    { isOpen := true, segment := List.replicate 183 0 }).2

/-- **Two acknowledged records gone without a word**: of three records only
the first comes back, and the answer is `Ok`. -/
theorem damage_swallowed :
    (Wal.appendAll 183 (damagedLogCalls ++ damagedLogAppend)
      { isOpen := true, segment := List.replicate 183 0 }).1.length = 3 ∧
    threeRecords.delivered (fallback zeroKey) 183 true
      = (.ok 0, [⟨.kSet, 1, 0, [97], [49]⟩, ⟨.kSet, 2, 0, [97], [50]⟩,
          ⟨.kSet, 3, 0, [98], [51]⟩]) ∧
    threeRecords.segment[121]? ≠ some 0 ∧
    (({ segment := threeRecords.segment.set 121 0 } : Wal).open damagedLogPlatform
      (fallback zeroKey) 183 {}).1 = .ok 0 ∧
    (({ segment := threeRecords.segment.set 121 0 } : Wal).open damagedLogPlatform
      (fallback zeroKey) 183 {}).2.delivered (fallback zeroKey) 183 true
      = (.ok 0, [⟨.kSet, 1, 0, [97], [49]⟩]) := by
  decide +kernel

end VaultKV
