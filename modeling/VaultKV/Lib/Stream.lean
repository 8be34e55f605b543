import VaultKV.Lib.Bytes

/-!
# Stream — binary file streams

An output stream is the list of the WRITE CALLS it issued, so that what a
file holds after any number of them can be asked for (`effect`); a call
that fails has no effect and no later one has any. An input stream is the
part of the file that is still in front of it, and the number of read
calls the device will still serve.
-/

namespace VaultKV.Lib

/-! ## Output -/

/-- One write call: where, and what. -/
structure WriteCall where
  offset : Nat
  bytes : Bytes
  deriving DecidableEq

/-- What a file created empty holds after these calls. -/
def effect (calls : List WriteCall) : Bytes :=
  calls.foldl (fun file w => overwrite file w.offset w.bytes) []

structure OStream where
  calls : List WriteCall := []
  pos : Nat := 0
  bad : Bool := false
  deriving DecidableEq

namespace OStream

/-- Write at the current position; `failAt` is the call the device fails
at. Offsets are signed 64-bit numbers, so no call writes beyond. -/
def write (failAt : Option Nat) (s : OStream) (b : Bytes) : OStream :=
  if s.bad then s
  else if failAt = some s.calls.length ∨ 2 ^ 63 ≤ s.pos + b.length then
    { s with bad := true }
  else { s with calls := s.calls ++ [⟨s.pos, b⟩], pos := s.pos + b.length }

/-- One write call for each chunk. -/
def writeAll (failAt : Option Nat) (s : OStream) (chunks : List Bytes) : OStream :=
  chunks.foldl (write failAt) s

/-- The position; a failed stream has none and says `-1`. -/
def tellp (s : OStream) : Nat := if s.bad then 2 ^ 64 - 1 else s.pos

def seekp (s : OStream) (off : Nat) : OStream := if s.bad then s else { s with pos := off }

def file (s : OStream) : Bytes := effect s.calls

end OStream

/-- The calls that write the chunks one behind the other from `pos` on. -/
def callsFrom : Nat → List Bytes → List WriteCall
  | _, [] => []
  | pos, b :: bs => ⟨pos, b⟩ :: callsFrom (pos + b.length) bs

theorem callsFrom_append (a b : List Bytes) :
    ∀ pos, callsFrom pos (a ++ b)
      = callsFrom pos a ++ callsFrom (pos + a.flatten.length) b := by
  induction a with
  | nil => intro pos; rfl
  | cons x a ih =>
      intro pos
      rw [List.cons_append, callsFrom, callsFrom, ih, List.flatten_cons,
        List.length_append, List.cons_append, Nat.add_assoc]

theorem callsFrom_take (chunks : List Bytes) :
    ∀ pos n, (callsFrom pos chunks).take n = callsFrom pos (chunks.take n) := by
  induction chunks with
  | nil => intro pos n; simp [callsFrom]
  | cons b bs ih =>
      intro pos n
      cases n with
      | zero => rfl
      | succ n => rw [callsFrom, List.take_succ_cons, List.take_succ_cons, callsFrom, ih]

/-- Writing at the end appends. -/
theorem foldl_callsFrom (chunks : List Bytes) :
    ∀ file : Bytes, (callsFrom file.length chunks).foldl
        (fun file w => overwrite file w.offset w.bytes) file = file ++ chunks.flatten := by
  induction chunks with
  | nil => intro file; simp [callsFrom]
  | cons b bs ih =>
      intro file
      have happ : overwrite file file.length b = file ++ b := by
        simp [overwrite]
      rw [callsFrom, List.foldl_cons, happ, ← List.length_append, ih, List.flatten_cons,
        List.append_assoc]

theorem effect_callsFrom (chunks : List Bytes) :
    effect (callsFrom 0 chunks) = chunks.flatten :=
  (foldl_callsFrom chunks []).trans (List.nil_append _)

theorem effect_append (a b : List WriteCall) :
    effect (a ++ b) = b.foldl (fun file w => overwrite file w.offset w.bytes) (effect a) :=
  List.foldl_append

namespace OStream

theorem writeAll_cons (failAt : Option Nat) (s : OStream) (b : Bytes) (bs : List Bytes) :
    s.writeAll failAt (b :: bs) = (s.write failAt b).writeAll failAt bs := rfl

/-- The chunks `cs`, and nothing else, were written from the start. -/
structure Wrote (s : OStream) (cs : List Bytes) : Prop where
  calls : s.calls = callsFrom 0 cs
  pos : s.bad = false → s.pos = cs.flatten.length
  fits : s.bad = false → s.pos < 2 ^ 63

theorem Wrote.file {s : OStream} {cs : List Bytes} (h : s.Wrote cs) :
    s.file = cs.flatten := by
  rw [OStream.file, h.calls, effect_callsFrom]

theorem Wrote.empty : Wrote {} [] := ⟨rfl, fun _ => rfl, fun _ => Nat.two_pow_pos 63⟩

theorem writeAll_bad (failAt : Option Nat) (chunks : List Bytes) :
    ∀ s : OStream, s.bad = true → s.writeAll failAt chunks = s := by
  induction chunks with
  | nil => intro s _; rfl
  | cons b bs ih =>
      intro s hs
      have hw : s.write failAt b = s := by simp [write, hs]
      rw [writeAll_cons, hw, ih s hs]

/-- One call: it went bad and wrote nothing, or the chunk is there. -/
theorem Wrote.write {s : OStream} {cs : List Bytes} (h : s.Wrote cs)
    (failAt : Option Nat) (b : Bytes) :
    ((s.write failAt b).bad = true ∧ (s.write failAt b).Wrote cs) ∨
      (s.bad = false ∧ (s.write failAt b).bad = false ∧
        (s.write failAt b).Wrote (cs ++ [b])) := by
  by_cases hs : s.bad = true
  · have hw : s.write failAt b = s := by simp [OStream.write, hs]
    rw [hw]
    exact Or.inl ⟨hs, h⟩
  · have hgood : s.bad = false := by simpa using hs
    by_cases hf : failAt = some s.calls.length ∨ 2 ^ 63 ≤ s.pos + b.length
    · refine Or.inl ?_
      unfold OStream.write
      rw [if_neg hs, if_pos hf]
      exact ⟨rfl, h.calls, (fun hbad => by cases hbad), fun hbad => by cases hbad⟩
    · refine Or.inr ⟨hgood, ?_⟩
      unfold OStream.write
      rw [if_neg hs, if_neg hf]
      refine ⟨hgood, ?_, fun _ => ?_, fun _ => ?_⟩
      · rw [h.calls, callsFrom_append, h.pos hgood, Nat.zero_add]
        rfl
      · rw [h.pos hgood]
        simp
      · exact Nat.not_le.1 fun hle => hf (Or.inr hle)

/-- **What a stream can have written**: the first of the chunks, and all of
them unless it went bad. -/
theorem Wrote.writeAll (failAt : Option Nat) (chunks : List Bytes) :
    ∀ {s : OStream} {cs : List Bytes}, s.Wrote cs →
      ∃ n, n ≤ chunks.length ∧
        (s.writeAll failAt chunks).Wrote (cs ++ chunks.take n) ∧
        ((s.writeAll failAt chunks).bad = false → s.bad = false ∧ n = chunks.length) := by
  induction chunks with
  | nil =>
      intro s cs h
      exact ⟨0, Nat.le_refl _, by simpa [OStream.writeAll] using h, fun hbad => ⟨hbad, rfl⟩⟩
  | cons b bs ih =>
      intro s cs h
      rw [writeAll_cons]
      rcases h.write failAt b with ⟨hbad, hw⟩ | ⟨hs, hgood, hw⟩
      · rw [writeAll_bad failAt bs _ hbad]
        exact ⟨0, Nat.zero_le _, by simpa using hw, fun hg => absurd hg (by simp [hbad])⟩
      · obtain ⟨n, hn, hwrote, hall⟩ := ih hw
        refine ⟨n + 1, Nat.succ_le_succ hn, ?_, fun hg => ⟨hs, ?_⟩⟩
        · simpa using hwrote
        · rw [(hall hg).2, List.length_cons]

/-- A device that does not fail writes what ends below `2 ^ 63`. -/
theorem write_none {s : OStream} (hs : s.bad = false) {b : Bytes}
    (hfit : s.pos + b.length < 2 ^ 63) :
    (s.write none b).bad = false ∧ (s.write none b).pos = s.pos + b.length := by
  have hno : ¬ (none = some s.calls.length ∨ 2 ^ 63 ≤ s.pos + b.length) := by
    rintro (h | h)
    · cases h
    · omega
  rw [OStream.write, if_neg (by simp [hs]), if_neg hno]
  exact ⟨hs, rfl⟩

theorem seekp_good {s : OStream} (hs : s.bad = false) (off : Nat) :
    (s.seekp off).bad = false ∧ (s.seekp off).pos = off := by
  rw [OStream.seekp, if_neg (by simp [hs])]
  exact ⟨hs, rfl⟩

theorem writeAll_none (chunks : List Bytes) :
    ∀ {s : OStream}, s.bad = false → s.pos + chunks.flatten.length < 2 ^ 63 →
      (s.writeAll none chunks).bad = false ∧
        (s.writeAll none chunks).pos = s.pos + chunks.flatten.length := by
  induction chunks with
  | nil => intro s hs _; exact ⟨hs, rfl⟩
  | cons b bs ih =>
      intro s hs hfit
      rw [List.flatten_cons, List.length_append] at hfit ⊢
      obtain ⟨hgood, hpos⟩ := write_none hs (b := b) (by omega)
      obtain ⟨hgood', hpos'⟩ := ih hgood (by omega)
      rw [writeAll_cons]
      exact ⟨hgood', by omega⟩

theorem Wrote.writeAll_good {failAt : Option Nat} {s : OStream} {cs chunks : List Bytes}
    (h : s.Wrote cs) (hgood : (s.writeAll failAt chunks).bad = false) :
    s.bad = false ∧ (s.writeAll failAt chunks).Wrote (cs ++ chunks) := by
  obtain ⟨n, -, hwrote, hall⟩ := h.writeAll failAt chunks
  obtain ⟨hs, rfl⟩ := hall hgood
  rw [List.take_length] at hwrote
  exact ⟨hs, hwrote⟩

end OStream

/-! ## Input -/

structure IStream where
  file : Bytes
  rest : Bytes
  budget : Option Nat := none
  bad : Bool := false
  deriving DecidableEq

namespace IStream

def ofFile (file : Bytes) (budget : Option Nat) : IStream := ⟨file, file, budget, false⟩

/-- Read exactly `n` bytes. -/
def read (n : Nat) (s : IStream) : Option (Bytes × IStream) :=
  if s.bad || s.budget == some 0 then none
  else if s.rest.length < n then none
  else some (s.rest.take n,
    { s with rest := s.rest.drop n, budget := s.budget.map (· - 1) })

/-- Seek from the start. An offset that is negative as a signed 64-bit
number fails, and with it every later read. -/
def seekg (off : Nat) (s : IStream) : IStream :=
  if 2 ^ 63 ≤ off then { s with bad := true } else { s with rest := s.file.drop off }

theorem read_append {a b file : Bytes} {n : Nat} (h : a.length = n) :
    (⟨file, a ++ b, none, false⟩ : IStream).read n = some (a, ⟨file, b, none, false⟩) := by
  subst h
  simp [read]

/-- A read at a known offset of a device that does not fail. -/
theorem read_at {file : Bytes} {i n : Nat} (h : i ≤ file.length ∨ 0 < n) :
    (⟨file, file.drop i, none, false⟩ : IStream).read n
      = if file.length < i + n then none
        else some (slice file i n, ⟨file, file.drop (i + n), none, false⟩) := by
  simp only [read, List.length_drop, List.drop_drop, slice, Bool.false_or, Option.map_none]
  rw [if_neg (by decide)]
  by_cases hlt : file.length < i + n
  · rw [if_pos hlt, if_pos (by omega)]
  · rw [if_neg hlt, if_neg (by omega)]

/-- The same stream on a device that does not fail. -/
def reliable (s : IStream) : IStream := { s with budget := none }

@[simp] theorem reliable_seekg (off : Nat) (s : IStream) :
    (s.seekg off).reliable = s.reliable.seekg off := by
  unfold seekg
  by_cases h : 2 ^ 63 ≤ off
  · rw [if_pos h, if_pos h]; rfl
  · rw [if_neg h, if_neg h]; rfl

/-- What a failing device served, any device serves. -/
theorem read_reliable {s s' : IStream} {n : Nat} {b : Bytes}
    (h : s.read n = some (b, s')) : s.reliable.read n = some (b, s'.reliable) := by
  unfold read at h ⊢
  split_ifs at h with h1 h2
  simp only [Option.some.injEq, Prod.mk.injEq] at h
  obtain ⟨rfl, rfl⟩ := h
  have hbad : s.bad = false := by
    cases hb : s.bad with
    | false => rfl
    | true => exact absurd (by simp [hb]) h1
  simp only [reliable, hbad, Option.map_none]
  rw [if_neg (by simp), if_neg h2]

end IStream

end VaultKV.Lib
