import VaultKV.Gateway.Connection

/-!
# Gateway — every reply to its own request

A connection is QUIET when all replies to what was sent on it have been read.
The one in use is quiet whenever the lock is free, and so every call of
`send_frame` writes to a quiet connection and finds its own reply next on it
(`Link.replies_paired`). A connection that `restart_node` puts in between is
quiet too, so a call that goes on reading from it gets nothing; when only the
body is missing it waits without a timeout, with the lock
(`Link.body_waits_forever`).
-/

namespace VaultKV.Gateway

open Lib

namespace Link

section

variable (answer : Nat → Nat → Frame) (conns : Nat → Conn)

/-- All replies to what was sent on the connection have been read. -/
def Quiet (x : Nat) : Prop :=
  (conns x).taken = (stream (once answer) x (conns x).sent.length).length

/-- The frame of call `i` is the last one on `c`, the `k`-th, and `n` bytes
of the reply to it have been read. -/
structure Out (c i k n : Nat) : Prop where
  entry : ∃ frame, (conns c).sent[k]? = some (i, frame)
  last : (conns c).sent.length = k + 1
  taken : (conns c).taken = (stream (once answer) c k).length + n

/-- The connection in use is quiet, unless it is `c`. -/
def QuietBut (current : Option Nat) (c : Nat) : Prop :=
  ∀ x, current = some x → x ≠ c → Quiet answer conns x

/-- What holds of the call that has the lock. -/
def Stands (current : Option Nat) (i : Nat) : Stage → Prop
  | .connecting => ∀ x, current = some x → Quiet answer conns x
  | .draining c => (∃ k, Out answer conns c i k 0) ∧ QuietBut answer conns current c
  | .header c r => (∃ k, Out answer conns c i k 0) ∧ QuietBut answer conns current c ∧
      (r ≠ c → Quiet answer conns r)
  | .body c r rtype rlen => QuietBut answer conns current c ∧ 0 < rlen ∧
      (r ≠ c → Quiet answer conns r) ∧
      (r = c → ∃ k, Out answer conns c i k 6 ∧ rtype = (answer c k).type.toByte.toNat ∧
        rlen = (answer c k).payload.length)
  | .closing => True

/-- The reply is the one to the frame of the call. -/
def Answered (i rtype : Nat) (body : Bytes) : Prop :=
  ∃ c k frame, (conns c).sent[k]? = some (i, frame) ∧
    rtype = (answer c k).type.toByte.toNat ∧ body = (answer c k).payload

/-- What holds whoever has the lock. -/
structure Base (s : Link) : Prop where
  fresh : ∀ x, s.next ≤ x → s.conns x = {}
  bound : ∀ x, (s.conns x).arrived ≤ (stream (once answer) x (s.conns x).sent.length).length
  inside : ∀ x, s.current = some x → x < s.next
  frames : ∀ x, ∀ e ∈ (s.conns x).sent, s.frameOf e.1 = some e.2
  answered : ∀ i rtype body, (i, .returned rtype body) ∈ s.ended →
    Answered answer s.conns i rtype body

structure Sound (s : Link) : Prop where
  base : Base answer s
  free : s.holder = none → ∀ x, s.current = some x → Quiet answer s.conns x
  held : ∀ i st, s.holder = some (i, st) → Stands answer s.conns s.current i st

end

variable {answer : Nat → Nat → Frame} {replies : Nat → Nat → List Frame} {s : Link} {i : Nat}

/-- Nothing can be read from a quiet connection. -/
theorem Base.read_quiet (h : Base answer s) {r n : Nat} (hq : Quiet answer s.conns r)
    (hn : 0 < n) : s.read (once answer) r n = none := by
  have hbound := h.bound r
  rw [Quiet] at hq
  exact if_neg (by omega)

/-! ## The lock is taken, kept and left -/

theorem Base.finish (h : Base answer s)
    (hq : ∀ x, s.current = some x → Quiet answer s.conns x) {e : CallEnd}
    (he : ∀ rtype body, e = .returned rtype body → Answered answer s.conns i rtype body) :
    Sound answer (s.finish i e) := by
  refine ⟨⟨h.fresh, h.bound, h.inside, h.frames, fun j rtype body hmem => ?_⟩,
    fun _ => hq, fun j st hst => (by cases hst)⟩
  rcases List.mem_append.mp hmem with hmem | hmem
  · exact h.answered j rtype body hmem
  · obtain ⟨rfl, heq⟩ := Prod.mk.inj (List.mem_singleton.mp hmem)
    exact he rtype body heq.symm

theorem Base.raise (h : Base answer s)
    (hq : ∀ x, s.current = some x → Quiet answer s.conns x) (i : Nat) :
    Sound answer (s.finish i .raised) :=
  h.finish hq fun _ _ he => by cases he

theorem Base.hold (h : Base answer s) {st : Stage}
    (hst : Stands answer s.conns s.current i st) :
    Sound answer { s with holder := some (i, st) } := by
  refine ⟨⟨h.fresh, h.bound, h.inside, h.frames, h.answered⟩, fun hnone => (by cases hnone),
    fun j st' heq => ?_⟩
  obtain ⟨rfl, rfl⟩ := Prod.mk.inj (Option.some.inj heq)
  exact hst

theorem Base.mark (h : Base answer s) (healthy : Bool) :
    Base answer { s with healthy := healthy } :=
  ⟨h.fresh, h.bound, h.inside, h.frames, h.answered⟩

theorem Base.drop (h : Base answer s) :
    Base answer { s with current := none, healthy := false } :=
  ⟨h.fresh, h.bound, fun x hx => absurd hx (Option.some_ne_none x).symm, h.frames, h.answered⟩

/-- A call that fails gives its connection up before it leaves the lock. -/
theorem Base.fail (h : Base answer s) (i : Nat) : Sound answer (s.fail i) := by
  rw [Link.fail]
  split
  · next hc =>
    refine (h.mark false).raise (fun x hx => ?_) i
    cases hc.symm.trans hx
  · exact h.hold (show Stands answer s.conns s.current i .closing from trivial)

/-- The reply is there, and it was the last one. -/
theorem Base.reply (h : Base answer s)
    (hq : ∀ x, s.current = some x → Quiet answer s.conns x) {rtype : Nat} {body : Bytes}
    (hbody : Answered answer s.conns i rtype body) : Sound answer (s.reply i rtype body) := by
  refine (h.mark true).finish hq fun rtype' body' he => ?_
  obtain ⟨rfl, rfl⟩ := CallEnd.returned.inj he
  exact hbody

/-- One more frame on a connection. -/
theorem Base.send (h : Base answer s) {c : Nat} (hc : s.current = some c) {frame : Bytes}
    (hf : s.frameOf i = some frame) :
    Base answer (s.modifyConn c fun k => { k with sent := k.sent ++ [(i, frame)] }) := by
  have hinside := h.inside c hc
  refine ⟨fun x hx => ?_, fun x => ?_, h.inside, fun x e he => ?_,
    fun j rtype body hmem => ?_⟩
  · have hxc : x ≠ c := by
      rintro rfl
      exact absurd hinside (Nat.not_lt.mpr hx)
    rw [conns_modifyConn_of_ne hxc]
    exact h.fresh x hx
  · by_cases hxc : x = c
    · subst hxc
      have hbound := h.bound x
      rw [conns_modifyConn_self]
      dsimp only
      rw [List.length_append, List.length_singleton, length_stream_succ]
      omega
    · rw [conns_modifyConn_of_ne hxc]
      exact h.bound x
  · by_cases hxc : x = c
    · subst hxc
      rw [conns_modifyConn_self] at he
      rcases List.mem_append.mp he with he | he
      · exact h.frames x e he
      · rw [List.mem_singleton.mp he]
        exact hf
    · rw [conns_modifyConn_of_ne hxc] at he
      exact h.frames x e he
  · obtain ⟨x, k, f, hk, htype, hbody⟩ := h.answered j rtype body hmem
    refine ⟨x, k, f, ?_, htype, hbody⟩
    by_cases hxc : x = c
    · subst hxc
      rw [conns_modifyConn_self, List.getElem?_append_left (List.getElem?_eq_some_iff.mp hk).1]
      exact hk
    · rw [conns_modifyConn_of_ne hxc]
      exact hk

/-- A frame is written to a quiet connection. -/
theorem Base.write (h : Base answer s)
    (hq : ∀ x, s.current = some x → Quiet answer s.conns x) (i : Nat) :
    Sound answer (s.write i) := by
  rw [Link.write]
  split
  · exact h.raise hq i
  · next c hc =>
    split
    · exact h.raise hq i
    · next frame hf =>
      refine (h.send hc hf).hold ⟨⟨(s.conns c).sent.length, ⟨frame, ?_⟩, ?_, ?_⟩,
        fun x hx hxc => ?_⟩
      · rw [conns_modifyConn_self]
        exact List.getElem?_concat_length
      · rw [conns_modifyConn_self]
        exact List.length_append
      · rw [conns_modifyConn_self]
        exact hq c hc
      · rw [Quiet, conns_modifyConn_of_ne hxc]
        exact hq x hx

/-! ## Reading -/

/-- What a successful read leaves. -/
theorem read_eq_some {r n : Nat} {b : Bytes} {s' : Link} (h : s.read replies r n = some (b, s')) :
    (s.conns r).taken + n ≤ (s.conns r).arrived ∧
      b = slice (stream replies r (s.conns r).sent.length) (s.conns r).taken n ∧
      s' = s.modifyConn r fun k => { k with taken := k.taken + n } := by
  rw [Link.read] at h
  split at h
  · next hle =>
    obtain ⟨rfl, rfl⟩ := Prod.mk.inj (Option.some.inj h)
    exact ⟨hle, rfl, rfl⟩
  · cases h

theorem Base.take (h : Base answer s) {r n : Nat} (hn : 0 < n)
    (hle : (s.conns r).taken + n ≤ (s.conns r).arrived) :
    Base answer (s.modifyConn r fun k => { k with taken := k.taken + n }) := by
  have hsent : ∀ x, ((s.modifyConn r fun k => { k with taken := k.taken + n }).conns x).sent
      = (s.conns x).sent := by
    intro x
    by_cases hxr : x = r
    · subst hxr; rw [conns_modifyConn_self]
    · rw [conns_modifyConn_of_ne hxr]
  refine ⟨fun x hx => ?_, fun x => ?_, h.inside, fun x e he => ?_,
    fun j rtype body hmem => ?_⟩
  · have hxr : x ≠ r := by
      rintro rfl
      rw [h.fresh x hx] at hle
      exact absurd hle (by simp; omega)
    rw [conns_modifyConn_of_ne hxr]
    exact h.fresh x hx
  · rw [hsent]
    by_cases hxr : x = r
    · subst hxr
      rw [conns_modifyConn_self]
      exact h.bound x
    · rw [conns_modifyConn_of_ne hxr]
      exact h.bound x
  · rw [hsent] at he
    exact h.frames x e he
  · obtain ⟨x, k, f, hk, hrest⟩ := h.answered j rtype body hmem
    exact ⟨x, k, f, by rw [hsent]; exact hk, hrest⟩

/-- Reading from `c` leaves every other connection as quiet as it was. -/
theorem QuietBut.take {c n : Nat} {current : Option Nat}
    (h : QuietBut answer s.conns current c) :
    QuietBut answer (s.modifyConn c fun k => { k with taken := k.taken + n }).conns current c := by
  intro x hx hxc
  rw [Quiet, conns_modifyConn_of_ne hxc]
  exact h x hx hxc

theorem Out.take {c k m n : Nat} (h : Out answer s.conns c i k m) :
    Out answer (s.modifyConn c fun k => { k with taken := k.taken + n }).conns c i k (m + n) := by
  refine ⟨?_, ?_, ?_⟩
  all_goals rw [conns_modifyConn_self]
  · exact h.entry
  · exact h.last
  · show (s.conns c).taken + n = _
    rw [h.taken, Nat.add_assoc]

/-- With the whole reply read the connection is quiet. -/
theorem Out.quiet {conns : Nat → Conn} {c k : Nat}
    (h : Out answer conns c i k (6 + (answer c k).payload.length)) :
    Quiet answer conns c := by
  rw [Quiet, h.last, h.taken, length_stream_succ]

theorem QuietBut.all {conns : Nat → Conn} {current : Option Nat} {c : Nat}
    (h : QuietBut answer conns current c) (hc : Quiet answer conns c) :
    ∀ x, current = some x → Quiet answer conns x := by
  intro x hx
  by_cases hxc : x = c
  · exact hxc ▸ hc
  · exact h x hx hxc

/-! ## Steps of the call that has the lock -/

theorem Base.connected (h : Base answer s) (ok : Bool) :
    Base answer (s.connected ok) ∧
      ∀ x, (s.connected ok).current = some x → Quiet answer (s.connected ok).conns x := by
  cases ok with
  | true =>
      have hnew := h.fresh s.next (Nat.le_refl _)
      refine ⟨⟨fun x hx => h.fresh x (Nat.le_of_succ_le hx), h.bound, fun x hx => ?_, h.frames,
        h.answered⟩, fun x hx => ?_⟩
      · obtain rfl : s.next = x := Option.some.inj hx
        exact Nat.lt_succ_self _
      · obtain rfl : s.next = x := Option.some.inj hx
        show (s.conns s.next).taken
          = (stream (once answer) s.next (s.conns s.next).sent.length).length
        rw [hnew]
        rfl
  | false =>
      exact ⟨⟨h.fresh, h.bound, fun x hx => (by cases hx), h.frames, h.answered⟩,
        fun x hx => by cases hx⟩

/-- The header of the call's own reply has been read. -/
theorem Base.headerRead (hlen : ∀ c k, (answer c k).payload.length < 2 ^ 32)
    (h : Base answer s) {c k : Nat} (hout : Out answer s.conns c i k 6)
    (hquiet : QuietBut answer s.conns s.current c) :
    Sound answer (s.headerRead i c ([(answer c k).type.toByte, (answer c k).flags]
      ++ appendLe 4 (answer c k).payload.length)) := by
  rw [Link.headerRead, unpack_type, unpack_length (hlen c k)]
  obtain ⟨frame, hentry⟩ := hout.entry
  split
  · next hzero =>
    have hbody : (answer c k).payload = [] := List.eq_nil_of_length_eq_zero hzero
    have hdone : Quiet answer s.conns c := Out.quiet (by rw [hzero]; exact hout)
    exact h.reply (hquiet.all hdone) ⟨c, k, frame, hentry, rfl, hbody.symm⟩
  · next hpos =>
    split
    · exact h.fail i
    · next r hr =>
      refine h.hold ⟨hquiet, Nat.pos_of_ne_zero hpos, fun hne => hquiet r hr hne, ?_⟩
      exact fun _ => ⟨k, hout, rfl, rfl⟩

theorem Sound.wake (hlen : ∀ c k, (answer c k).payload.length < 2 ^ 32) (h : Sound answer s)
    (ok : Bool) : Sound answer (s.wake (once answer) ok) := by
  rw [Link.wake]
  split
  · exact h
  · next i hh =>
    obtain ⟨hbase, hquiet⟩ := h.base.connected ok
    exact hbase.write hquiet i
  · next i c hh =>
    obtain ⟨hout, hquiet⟩ := h.held i _ hh
    split
    · split
      · exact h.base.fail i
      · next r hr => exact h.base.hold ⟨hout, hquiet, fun hne => hquiet r hr hne⟩
    · exact h.base.fail i
  · next i c r hh =>
    obtain ⟨⟨k, hout⟩, hquiet, hother⟩ := h.held i _ hh
    split
    · split
      · exact h
      · next hdr s' hread =>
        -- only the connection the frame went to has bytes to read
        by_cases hrc : r = c
        · subst hrc
          obtain ⟨hle, rfl, rfl⟩ := read_eq_some hread
          have htaken : (s.conns r).taken = (stream (once answer) r k).length := hout.taken
          rw [hout.last, htaken, slice_header]
          exact (h.base.take (by decide) hle).headerRead hlen hout.take hquiet.take
        · rw [h.base.read_quiet (hother hrc) (by decide)] at hread
          cases hread
    · exact h.base.fail i
  · next i c r rtype rlen hh =>
    obtain ⟨hquiet, hpos, hother, hown⟩ := h.held i _ hh
    split
    · split
      · exact h
      · next body s' hread =>
        by_cases hrc : r = c
        · obtain ⟨k, hout, rfl, rfl⟩ := hown hrc
          subst hrc
          obtain ⟨hle, rfl, rfl⟩ := read_eq_some hread
          obtain ⟨frame, hentry⟩ := hout.entry
          have hout' := hout.take (n := (answer r k).payload.length)
          rw [hout.last, hout.taken, slice_body]
          refine (h.base.take hpos hle).reply (hquiet.take.all hout'.quiet) ?_
          obtain ⟨frame', hentry'⟩ := hout'.entry
          exact ⟨r, k, frame', hentry', rfl, rfl⟩
        · rw [h.base.read_quiet (hother hrc) hpos] at hread
          cases hread
    · exact h.base.fail i
  · next i hh => exact h.base.drop.raise (fun x hx => absurd hx (Option.some_ne_none x).symm) i

/-! ## Everything else -/

/-- An event beside the lock: no frame is sent and nothing read, and another
connection in use is a quiet one. -/
theorem Stands.beside {conns conns' : Nat → Conn} {current current' : Option Nat} {st : Stage}
    (hsame : ∀ x, (conns' x).sent = (conns x).sent ∧ (conns' x).taken = (conns x).taken)
    (hcur : ∀ x, current' = some x → current = some x ∨ Quiet answer conns' x)
    (h : Stands answer conns current i st) : Stands answer conns' current' i st := by
  have hquiet : ∀ x, Quiet answer conns x → Quiet answer conns' x := by
    intro x hx
    rw [Quiet, (hsame x).1, (hsame x).2]
    exact hx
  have hbut : ∀ c, QuietBut answer conns current c → QuietBut answer conns' current' c := by
    intro c hc x hx hxc
    rcases hcur x hx with hold | hnew
    · exact hquiet x (hc x hold hxc)
    · exact hnew
  have hout : ∀ {c k n}, Out answer conns c i k n → Out answer conns' c i k n := by
    rintro c k n ⟨hentry, hlast, htaken⟩
    exact ⟨by rwa [(hsame c).1], by rwa [(hsame c).1], by rwa [(hsame c).2]⟩
  cases st with
  | connecting =>
      intro x hx
      rcases hcur x hx with hold | hnew
      · exact hquiet x (h x hold)
      · exact hnew
  | draining c =>
      obtain ⟨⟨k, hk⟩, hb⟩ := h
      exact ⟨⟨k, hout hk⟩, hbut c hb⟩
  | header c r =>
      obtain ⟨⟨k, hk⟩, hb, hr⟩ := h
      exact ⟨⟨k, hout hk⟩, hbut c hb, fun hne => hquiet r (hr hne)⟩
  | body c r rtype rlen =>
      obtain ⟨hb, hpos, hr, hown⟩ := h
      refine ⟨hbut c hb, hpos, fun hne => hquiet r (hr hne), fun heq => ?_⟩
      obtain ⟨k, hk, hrest⟩ := hown heq
      exact ⟨k, hout hk, hrest⟩
  | closing => trivial

theorem Sound.beside (h : Sound answer s) {s' : Link} (hbase : Base answer s')
    (hholder : s'.holder = s.holder)
    (hsame : ∀ x, (s'.conns x).sent = (s.conns x).sent ∧ (s'.conns x).taken = (s.conns x).taken)
    (hcur : ∀ x, s'.current = some x → s.current = some x ∨ Quiet answer s'.conns x) :
    Sound answer s' := by
  refine ⟨hbase, fun hnone x hx => ?_, fun i st hst => ?_⟩
  · -- a free lock is as good as a call that stands at the beginning
    have hstart : Stands answer s.conns s.current 0 .connecting := h.free (hholder ▸ hnone)
    exact hstart.beside hsame hcur x hx
  · exact (h.held i st (hholder ▸ hst)).beside hsame hcur

theorem frameOf_append {i : Nat} {frame : Bytes} (s : Link) (x : Nat × Bytes)
    (waiting : List Nat) (h : s.frameOf i = some frame) :
    frameOf { s with calls := s.calls ++ [x], waiting := waiting } i = some frame := by
  rw [frameOf] at h ⊢
  split at h
  · cases h
  · next op payload hi =>
    dsimp only
    rw [List.getElem?_append_left (List.getElem?_eq_some_iff.mp hi).1, hi]
    exact h

theorem Sound.arrive (h : Sound answer s) (c n : Nat) :
    Sound answer (s.step (once answer) (.arrive c n)) := by
  have hsame : ∀ x, ((s.step (once answer) (.arrive c n)).conns x).sent = (s.conns x).sent ∧
      ((s.step (once answer) (.arrive c n)).conns x).taken = (s.conns x).taken := by
    intro x
    rw [Link.step]
    by_cases hxc : x = c
    · subst hxc
      rw [conns_modifyConn_self]
      exact ⟨rfl, rfl⟩
    · rw [conns_modifyConn_of_ne hxc]
      exact ⟨rfl, rfl⟩
  refine h.beside ⟨fun x hx => ?_, fun x => ?_, h.base.inside, fun x e he => ?_,
    fun j rtype body hmem => ?_⟩ rfl hsame fun x hx => .inl hx
  · rw [Link.step]
    have hnew := h.base.fresh x hx
    by_cases hxc : x = c
    · subst hxc
      rw [conns_modifyConn_self, hnew]
      simp [stream]
    · rw [conns_modifyConn_of_ne hxc]
      exact hnew
  · rw [(hsame x).1, Link.step]
    by_cases hxc : x = c
    · subst hxc
      rw [conns_modifyConn_self]
      exact Nat.min_le_right _ _
    · rw [conns_modifyConn_of_ne hxc]
      exact h.base.bound x
  · rw [(hsame x).1] at he
    exact h.base.frames x e he
  · obtain ⟨x, k, f, hk, hrest⟩ := h.base.answered j rtype body hmem
    exact ⟨x, k, f, by rw [(hsame x).1]; exact hk, hrest⟩

/-- The call may be cancelled: it does not have the lock, or has written
nothing yet. -/
def Cancellable (i : Nat) : Option (Nat × Stage) → Prop
  | some (j, st) => j = i → st = .connecting
  | none => True

instance (i : Nat) : (o : Option (Nat × Stage)) → Decidable (Cancellable i o)
  | some (j, st) => inferInstanceAs (Decidable (j = i → st = .connecting))
  | none => isTrue trivial

/-- No call is cancelled once its frame is written. -/
def Calm (ev : LinkEvent) (s : Link) : Prop :=
  match ev with
  | .cancel i => Cancellable i s.holder
  | _ => True

instance (ev : LinkEvent) (s : Link) : Decidable (Calm ev s) :=
  match ev with
  | .cancel i => inferInstanceAs (Decidable (Cancellable i s.holder))
  | .call _ _ => isTrue trivial
  | .acquire _ => isTrue trivial
  | .wake _ => isTrue trivial
  | .arrive _ _ => isTrue trivial
  | .reconnect _ => isTrue trivial
  | .shutDown => isTrue trivial
  | .mark _ => isTrue trivial

theorem Sound.cancel (h : Sound answer s) {i : Nat} (hcalm : Calm (.cancel i) s) :
    Sound answer (s.step (once answer) (.cancel i)) := by
  rw [Link.step]
  split
  · refine h.beside ⟨h.base.fresh, h.base.bound, h.base.inside, h.base.frames,
      fun j rtype body hmem => ?_⟩ rfl (fun x => ⟨rfl, rfl⟩) fun x hx => .inl hx
    rcases List.mem_append.mp hmem with hmem | hmem
    · exact h.base.answered j rtype body hmem
    · cases (Prod.mk.inj (List.mem_singleton.mp hmem)).2
  · split
    · exact h
    · next j st hh =>
      split
      · next hji =>
        subst hji
        rw [Calm, hh] at hcalm
        have hst : st = .connecting := hcalm rfl
        subst hst
        exact h.base.finish (h.held j _ hh) fun rtype body he => by cases he
      · exact h

theorem Sound.step (hlen : ∀ c k, (answer c k).payload.length < 2 ^ 32) (ev : LinkEvent)
    (s : Link) (h : Sound answer s) (hcalm : Calm ev s) :
    Sound answer (s.step (once answer) ev) := by
  cases ev with
  | call op payload =>
      refine h.beside ⟨h.base.fresh, h.base.bound, h.base.inside, fun x e he => ?_,
        h.base.answered⟩ rfl (fun x => ⟨rfl, rfl⟩) fun x hx => .inl hx
      exact frameOf_append s _ _ (h.base.frames x e he)
  | acquire i =>
      rw [Link.step]
      split
      · next hfree =>
        have hbase : Base answer { s with waiting := s.waiting.erase i } :=
          ⟨h.base.fresh, h.base.bound, h.base.inside, h.base.frames, h.base.answered⟩
        rw [Link.enter]
        split
        · exact hbase.write (h.free hfree.2) i
        · exact hbase.hold (h.free hfree.2)
      · exact h
  | wake ok => exact h.wake hlen ok
  | arrive c n => exact h.arrive c n
  | reconnect ok =>
      obtain ⟨hbase, hquiet⟩ := h.base.connected ok
      refine h.beside hbase ?_ ?_ fun x hx => .inr (hquiet x hx)
      · cases ok <;> rfl
      · cases ok <;> exact fun x => ⟨rfl, rfl⟩
  | shutDown =>
      exact h.beside h.base.drop rfl (fun x => ⟨rfl, rfl⟩)
        fun x hx => absurd hx (Option.some_ne_none x).symm
  | mark healthy =>
      exact h.beside (h.base.mark healthy) rfl (fun x => ⟨rfl, rfl⟩) fun x hx => .inl hx
  | cancel i => exact h.cancel hcalm

theorem sound_initial : Sound answer {} :=
  ⟨⟨fun _ _ => rfl, fun _ => Nat.zero_le _, fun _ hx => (by cases hx), fun _ _ he => (by cases he),
    fun _ _ _ hmem => (by cases hmem)⟩, fun _ _ hx => (by cases hx), fun _ _ hh => by cases hh⟩

/-! ## No frame is written twice -/

/-- Some frame of the call has been written. -/
def Sent (conns : Nat → Conn) (i : Nat) : Prop := ∃ x, ∃ e ∈ (conns x).sent, e.1 = i

/-- A call that waits or connects has written nothing, and every other call
has written one frame at most. -/
structure Once (s : Link) : Prop where
  known : ∀ i, Sent s.conns i → i < s.calls.length
  waits : ∀ i ∈ s.waiting, i < s.calls.length ∧ ¬ Sent s.conns i
  nodup : s.waiting.Nodup
  holds : ∀ i st, s.holder = some (i, st) → i < s.calls.length ∧ i ∉ s.waiting
  connects : ∀ i, s.holder = some (i, .connecting) → ¬ Sent s.conns i
  once : ∀ (x y k l : Nat) (e f : Nat × Bytes), (s.conns x).sent[k]? = some e →
    (s.conns y).sent[l]? = some f → e.1 = f.1 → x = y ∧ k = l

/-- A step that writes no frame and starts no call. -/
theorem Once.keep (h : Once s) {s' : Link}
    (hsent : ∀ x, (s'.conns x).sent = (s.conns x).sent) (hcalls : s'.calls = s.calls)
    (hwaiting : s'.waiting = s.waiting)
    (hholder : s'.holder = s.holder ∨ s'.holder = none ∨
      ∃ i st st', s.holder = some (i, st) ∧ s'.holder = some (i, st') ∧ st' ≠ .connecting) :
    Once s' := by
  have hiff : ∀ i, Sent s'.conns i ↔ Sent s.conns i := by
    intro i
    simp only [Sent, hsent]
  refine ⟨fun i hi => ?_, fun i hi => ?_, hwaiting ▸ h.nodup, fun i st hst => ?_,
    fun i hst => ?_, fun x y k l e f he hf => ?_⟩
  · rw [hcalls]
    exact h.known i ((hiff i).mp hi)
  · rw [hcalls, hiff]
    exact h.waits i (hwaiting ▸ hi)
  · rw [hcalls, hwaiting]
    rcases hholder with hh | hh | ⟨j, st', st'', hj, hj', -⟩
    · exact h.holds i st (hh ▸ hst)
    · cases hh.symm.trans hst
    · obtain ⟨rfl, -⟩ := Prod.mk.inj (Option.some.inj (hj'.symm.trans hst))
      exact h.holds j st' hj
  · rw [hiff]
    rcases hholder with hh | hh | ⟨j, st', st'', hj, hj', hne⟩
    · exact h.connects i (hh ▸ hst)
    · cases hh.symm.trans hst
    · exact absurd (Prod.mk.inj (Option.some.inj (hj'.symm.trans hst))).2 hne
  · rw [hsent] at he hf
    exact h.once x y k l e f he hf

theorem sent_modifyConn_taken (c n : Nat) (s : Link) (x : Nat) :
    ((s.modifyConn c fun k => { k with taken := k.taken + n }).conns x).sent
      = (s.conns x).sent := by
  by_cases hxc : x = c
  · subst hxc; rw [conns_modifyConn_self]
  · rw [conns_modifyConn_of_ne hxc]

/-- The frame of a call that had written none. -/
theorem Once.send (h : Once s) {c : Nat} {frame : Bytes} (hi : i < s.calls.length)
    (hwait : i ∉ s.waiting) (hnew : ¬ Sent s.conns i) :
    Once { s.modifyConn c (fun k => { k with sent := k.sent ++ [(i, frame)] }) with
      holder := some (i, .draining c) } := by
  have hsent : ∀ x e, e ∈ ((s.modifyConn c
      fun k => { k with sent := k.sent ++ [(i, frame)] }).conns x).sent →
      e ∈ (s.conns x).sent ∨ e = (i, frame) := by
    intro x e he
    by_cases hxc : x = c
    · subst hxc
      rw [conns_modifyConn_self] at he
      exact (List.mem_append.mp he).imp id List.mem_singleton.mp
    · rw [conns_modifyConn_of_ne hxc] at he
      exact .inl he
  have hentry : ∀ x k e, ((s.modifyConn c
      fun k => { k with sent := k.sent ++ [(i, frame)] }).conns x).sent[k]? = some e →
      (s.conns x).sent[k]? = some e ∨ x = c ∧ k = (s.conns c).sent.length ∧ e.1 = i := by
    intro x k e he
    by_cases hxc : x = c
    · subst hxc
      rw [conns_modifyConn_self] at he
      rcases Nat.lt_or_ge k (s.conns x).sent.length with hlt | hge
      · exact .inl (by rwa [List.getElem?_append_left hlt] at he)
      · rw [List.getElem?_append_right hge] at he
        have hk : k = (s.conns x).sent.length := by
          have := (List.getElem?_eq_some_iff.mp he).1
          rw [List.length_singleton] at this
          omega
        subst hk
        rw [Nat.sub_self] at he
        obtain rfl : (i, frame) = e := Option.some.inj he
        exact .inr ⟨rfl, rfl, rfl⟩
    · rw [conns_modifyConn_of_ne hxc] at he
      exact .inl he
  refine ⟨fun j hj => ?_, fun j hj => ⟨(h.waits j hj).1, ?_⟩, h.nodup, fun j st hst => ?_,
    fun j hst => (by cases hst), fun x y k l e f he hf hef => ?_⟩
  · obtain ⟨x, e, he, rfl⟩ := hj
    rcases hsent x e he with he | rfl
    · exact h.known _ ⟨x, e, he, rfl⟩
    · exact hi
  · rintro ⟨x, e, he, rfl⟩
    rcases hsent x e he with he | rfl
    · exact (h.waits _ hj).2 ⟨x, e, he, rfl⟩
    · exact hwait hj
  · obtain ⟨rfl, -⟩ := Prod.mk.inj (Option.some.inj hst)
    exact ⟨hi, hwait⟩
  · rcases hentry x k e he with hx | ⟨hx, hk, hei⟩
    · rcases hentry y l f hf with hy | ⟨-, -, hfi⟩
      · exact h.once x y k l e f hx hy hef
      · exact absurd ⟨x, e, List.mem_of_getElem? hx, hef.trans hfi⟩ hnew
    · rcases hentry y l f hf with hy | ⟨hy, hl, -⟩
      · exact absurd ⟨y, f, List.mem_of_getElem? hy, hef.symm.trans hei⟩ hnew
      · exact ⟨hx.trans hy.symm, hk.trans hl.symm⟩

theorem Once.finish (h : Once s) (i : Nat) (e : CallEnd) : Once (s.finish i e) :=
  h.keep (fun _ => rfl) rfl rfl (.inr (.inl rfl))

theorem Once.write (h : Once s) (hi : i < s.calls.length) (hwait : i ∉ s.waiting)
    (hnew : ¬ Sent s.conns i) : Once (s.write i) := by
  rw [Link.write]
  split
  · exact h.finish i _
  · split
    · exact h.finish i _
    · exact h.send hi hwait hnew

theorem Once.fail (h : Once s) {st : Stage} (hh : s.holder = some (i, st)) :
    Once (s.fail i) := by
  rw [Link.fail]
  split
  · exact h.keep (fun _ => rfl) rfl rfl (.inr (.inl rfl))
  · exact h.keep (fun _ => rfl) rfl rfl
      (.inr (.inr ⟨i, st, .closing, hh, rfl, Stage.noConfusion⟩))

theorem Once.wake (h : Once s) (ok : Bool) : Once (s.wake replies ok) := by
  rw [Link.wake]
  split
  · exact h
  · next i hh =>
    obtain ⟨hi, hwait⟩ := h.holds i _ hh
    have hconnected : Once (s.connected ok) := by
      cases ok <;> exact h.keep (fun _ => rfl) rfl rfl (.inl rfl)
    refine hconnected.write ?_ ?_ ?_ <;> cases ok
    all_goals first
      | exact hi
      | exact hwait
      | exact h.connects i hh
  · next i c hh =>
    split
    · split
      · exact h.fail hh
      · next r _ =>
        exact h.keep (fun _ => rfl) rfl rfl
          (.inr (.inr ⟨i, _, .header c r, hh, rfl, Stage.noConfusion⟩))
    · exact h.fail hh
  · next i c r hh =>
    split
    · split
      · exact h
      · next hdr s' hread =>
        obtain ⟨-, -, rfl⟩ := read_eq_some hread
        have hread : Once (s.modifyConn r fun k => { k with taken := k.taken + 6 }) :=
          h.keep (sent_modifyConn_taken r 6 s) rfl rfl (.inl rfl)
        rw [Link.headerRead]
        split
        · exact hread.keep (fun _ => rfl) rfl rfl (.inr (.inl rfl))
        · split
          · exact hread.fail hh
          · next r' _ =>
            exact hread.keep (fun _ => rfl) rfl rfl
              (.inr (.inr ⟨i, _, .body c r' _ _, hh, rfl, Stage.noConfusion⟩))
    · exact h.fail hh
  · next i c r rtype rlen hh =>
    split
    · split
      · exact h
      · next body s' hread =>
        obtain ⟨-, -, rfl⟩ := read_eq_some hread
        exact h.keep (sent_modifyConn_taken r rlen s) rfl rfl (.inr (.inl rfl))
    · exact h.fail hh
  · exact h.keep (fun _ => rfl) rfl rfl (.inr (.inl rfl))

theorem Once.call (h : Once s) (op : Nat) (payload : Bytes) :
    Once (s.step replies (.call op payload)) := by
  have hnew : ¬ Sent s.conns s.calls.length := fun hsent => Nat.lt_irrefl _ (h.known _ hsent)
  have hgrow : ∀ i, i < s.calls.length → i < (s.calls ++ [(op, payload)]).length := by
    intro i hi
    rw [List.length_append]
    omega
  refine ⟨fun i hi => hgrow i (h.known i hi), fun i hi => ?_, ?_, fun i st hst => ?_,
    h.connects, h.once⟩
  · rcases List.mem_append.mp hi with hi | hi
    · exact ⟨hgrow i (h.waits i hi).1, (h.waits i hi).2⟩
    · obtain rfl := List.mem_singleton.mp hi
      refine ⟨?_, hnew⟩
      show s.calls.length < (s.calls ++ [(op, payload)]).length
      simp
  · show (s.waiting ++ [s.calls.length]).Nodup
    refine List.nodup_append.mpr ⟨h.nodup, List.nodup_singleton _, fun i hi j hj => ?_⟩
    rw [List.mem_singleton.mp hj]
    exact Nat.ne_of_lt (h.waits i hi).1
  · obtain ⟨hi, hwait⟩ := h.holds i st hst
    refine ⟨hgrow i hi, fun hmem => ?_⟩
    rcases List.mem_append.mp hmem with hmem | hmem
    · exact hwait hmem
    · exact absurd (List.mem_singleton.mp hmem) (Nat.ne_of_lt hi)

/-- A call leaves the queue. -/
theorem Once.leave (h : Once s) (i : Nat) (ended : List (Nat × CallEnd)) :
    Once { s with waiting := s.waiting.erase i, ended := ended } :=
  ⟨h.known, fun j hj => h.waits j (List.mem_of_mem_erase hj), h.nodup.erase i,
    fun j st hst => ⟨(h.holds j st hst).1, fun hmem =>
      (h.holds j st hst).2 (List.mem_of_mem_erase hmem)⟩, h.connects, h.once⟩

theorem Once.acquire (h : Once s) (i : Nat) : Once (s.step replies (.acquire i)) := by
  rw [Link.step]
  split
  · next hfree =>
    obtain ⟨hi, hnew⟩ := h.waits i hfree.1
    have hgone : i ∉ s.waiting.erase i := h.nodup.not_mem_erase
    have hleft : Once { s with waiting := s.waiting.erase i } := h.leave i s.ended
    rw [Link.enter]
    split
    · exact hleft.write hi hgone hnew
    · refine ⟨hleft.known, hleft.waits, hleft.nodup, fun j st hst => ?_, fun j hst => ?_,
        hleft.once⟩
      · obtain ⟨rfl, -⟩ := Prod.mk.inj (Option.some.inj hst)
        exact ⟨hi, hgone⟩
      · obtain ⟨rfl, -⟩ := Prod.mk.inj (Option.some.inj hst)
        exact hnew
  · exact h

theorem Once.step (ev : LinkEvent) (s : Link) (h : Once s) : Once (s.step replies ev) := by
  cases ev with
  | call op payload => exact h.call op payload
  | acquire i => exact h.acquire i
  | wake ok => exact h.wake ok
  | arrive c n =>
      refine h.keep (fun x => ?_) rfl rfl (.inl rfl)
      rw [Link.step]
      by_cases hxc : x = c
      · subst hxc; rw [conns_modifyConn_self]
      · rw [conns_modifyConn_of_ne hxc]
  | reconnect ok => cases ok <;> exact h.keep (fun _ => rfl) rfl rfl (.inl rfl)
  | shutDown => exact h.keep (fun _ => rfl) rfl rfl (.inl rfl)
  | mark healthy => exact h.keep (fun _ => rfl) rfl rfl (.inl rfl)
  | cancel i =>
      rw [Link.step]
      split
      · exact h.leave i _
      · split
        · exact h
        · split
          · exact h.finish i _
          · exact h

theorem once_initial : Once {} :=
  ⟨fun _ ⟨_, _, he, _⟩ => (by cases he), fun _ hi => (by cases hi), List.nodup_nil,
    fun _ _ hh => (by cases hh), fun _ hh => (by cases hh), fun _ _ _ _ _ _ he => by cases he⟩

/-! ## What a run comes to -/

/-- A new node after these events. -/
def after (replies : Nat → Nat → List Frame) (evs : List LinkEvent) : Link :=
  runAlong (step replies) evs {}

theorem sound_after (hlen : ∀ c k, (answer c k).payload.length < 2 ^ 32)
    {evs : List LinkEvent} (hcalm : Along (step (once answer)) Calm evs {}) :
    Sound answer (after (once answer) evs) :=
  hcalm.keeps (fun ev s h hc => h.step hlen ev s hc) evs sound_initial

/-- **Every reply to its own request.** In any order of calls, waits,
arriving bytes, timeouts, broken connections, writes of `healthy` and
connections made outside of the lock, as long as no call is cancelled once its
frame is written and the node sends one reply for each frame, of less than
4 GiB: a call that returns has written its frame exactly once, and
what it returns is the node's reply to that frame. -/
theorem replies_paired {answer : Nat → Nat → Frame}
    (hlen : ∀ c k, (answer c k).payload.length < 2 ^ 32) {evs : List LinkEvent}
    (hcalm : Along (step (once answer)) Calm evs {}) {i rtype : Nat} {body : Bytes}
    (hreturned : (i, .returned rtype body) ∈ (after (once answer) evs).ended) :
    ∃ c k frame, ((after (once answer) evs).conns c).sent[k]? = some (i, frame) ∧
      (after (once answer) evs).frameOf i = some frame ∧
      (∀ c' k' frame', ((after (once answer) evs).conns c').sent[k']? = some (i, frame') →
        c' = c ∧ k' = k) ∧
      rtype = (answer c k).type.toByte.toNat ∧ body = (answer c k).payload := by
  have hsound := sound_after hlen hcalm
  have honce : Once (after (once answer) evs) :=
    runAlong_keeps (fun ev s h => h.step ev s) evs once_initial
  obtain ⟨c, k, frame, hentry, htype, hbody⟩ := hsound.base.answered i rtype body hreturned
  refine ⟨c, k, frame, hentry, ?_, fun c' k' frame' hother => ?_, htype, hbody⟩
  · exact hsound.base.frames c _ (List.mem_of_getElem? hentry)
  · exact honce.once c' c k' k _ _ hother hentry rfl

/-- A node that answers every request with its number on the connection. -/
def numbered (_ k : Nat) : Frame := { type := .ack, flags := 0, payload := [UInt8.ofNat k] }

theorem length_numbered (c k : Nat) : (numbered c k).payload.length < 2 ^ 32 :=
  show 1 < 2 ^ 32 by decide

/-- Two calls. The first one is out when `restart_node` connects anew and gives
up after its timeout; the second one connects again. -/
def restartedCalls : List LinkEvent :=
  [.call 1 [], .acquire 0, .wake true, .call 3 [1, 0, 97], .reconnect true, .wake true,
   .arrive 0 7, .wake false, .wake true, .acquire 1, .wake true, .wake true, .arrive 2 7,
   .wake true, .wake true]

theorem restartedCalls_paired :
    ∃ c k frame, ((after (once numbered) restartedCalls).conns c).sent[k]? = some (1, frame) ∧
      (after (once numbered) restartedCalls).frameOf 1 = some frame ∧
      (∀ c' k' frame', ((after (once numbered) restartedCalls).conns c').sent[k']? = some (1, frame') →
        c' = c ∧ k' = k) ∧
      128 = (numbered c k).type.toByte.toNat ∧ [0] = (numbered c k).payload :=
  replies_paired length_numbered (by decide +kernel) (by decide +kernel)

-- a call cancelled while it waits for its reply leaves the reply to the next, and so does a
-- node that sends a second reply
example : (1, .returned 128 [0]) ∈ (after (once numbered)
    [.call 1 [], .acquire 0, .wake true, .wake true, .cancel 0, .call 1 [], .acquire 1,
     .wake true, .arrive 0 14, .wake true, .wake true]).ended ∧
    (1, .returned 128 [0]) ∈ (after (fun c k => [numbered c k, numbered c k])
    [.call 1 [], .acquire 0, .wake true, .wake true, .arrive 0 14, .wake true, .wake true,
     .call 1 [], .acquire 1, .wake true, .wake true, .wake true]).ended := by decide +kernel

/-! ## A wait without an end -/

/-- A connection other than the one the frame was written to has no request
on it. -/
def Alone (conns : Nat → Conn) (current : Option Nat) : Stage → Prop
  | .connecting => True
  | .draining c => ∀ x, current = some x → x ≠ c → (conns x).sent = []
  | .header c r => (∀ x, current = some x → x ≠ c → (conns x).sent = []) ∧
      (r ≠ c → (conns r).sent = [])
  | .body c r _ rlen => 0 < rlen ∧ (r ≠ c → (conns r).sent = [])
  | .closing => True

/-- What holds whether or not calls are cancelled. -/
structure Apart (replies : Nat → Nat → List Frame) (s : Link) : Prop where
  fresh : ∀ x, s.next ≤ x → s.conns x = {}
  inside : ∀ x, s.current = some x → x < s.next
  bound : ∀ x, (s.conns x).arrived ≤ (stream replies x (s.conns x).sent.length).length
  alone : ∀ i st, s.holder = some (i, st) → Alone s.conns s.current st

namespace Apart

theorem hold (h : Apart replies s) {st : Stage} (hst : Alone s.conns s.current st) :
    Apart replies { s with holder := some (i, st) } := by
  refine ⟨h.fresh, h.inside, h.bound, fun j st' heq => ?_⟩
  obtain ⟨rfl, rfl⟩ := Prod.mk.inj (Option.some.inj heq)
  exact hst

theorem finish (h : Apart replies s) (i : Nat) (e : CallEnd) : Apart replies (s.finish i e) :=
  ⟨h.fresh, h.inside, h.bound, fun _ _ heq => by cases heq⟩

theorem fail (h : Apart replies s) (i : Nat) : Apart replies (s.fail i) := by
  rw [Link.fail]
  split
  · exact (show Apart replies { s with healthy := false } from
      ⟨h.fresh, h.inside, h.bound, h.alone⟩).finish i _
  · exact h.hold trivial

/-- A new connection has no request on it. -/
theorem connected (h : Apart replies s) (ok : Bool) : Apart replies (s.connected ok) := by
  have hnew : ∀ x, (s.connected ok).current = some x → (s.conns x).sent = [] := by
    intro x hx
    cases ok with
    | true =>
        obtain rfl : s.next = x := Option.some.inj hx
        rw [h.fresh s.next (Nat.le_refl _)]
    | false => cases hx
  have halone : ∀ i st, s.holder = some (i, st) →
      Alone s.conns (s.connected ok).current st := by
    intro i st hst
    have hold := h.alone i st hst
    cases st with
    | connecting => trivial
    | draining c => exact fun x hx _ => hnew x hx
    | header c r => exact ⟨fun x hx _ => hnew x hx, hold.2⟩
    | body c r rtype rlen => exact hold
    | closing => trivial
  cases ok with
  | true =>
      refine ⟨fun x hx => h.fresh x (Nat.le_of_succ_le hx), fun x hx => ?_, h.bound, halone⟩
      obtain rfl : s.next = x := Option.some.inj hx
      exact Nat.lt_succ_self _
  | false => exact ⟨h.fresh, fun x hx => (by cases hx), h.bound, halone⟩

theorem write (h : Apart replies s) (i : Nat) : Apart replies (s.write i) := by
  rw [Link.write]
  split
  · exact h.finish i _
  · next c hc =>
    split
    · exact h.finish i _
    · next frame hf =>
      refine ⟨fun x hx => ?_, h.inside, fun x => ?_, fun j st heq => ?_⟩
      · have hxc : x ≠ c := by
          rintro rfl
          exact absurd (h.inside x hc) (Nat.not_lt.mpr hx)
        rw [conns_modifyConn_of_ne hxc]
        exact h.fresh x hx
      · by_cases hxc : x = c
        · subst hxc
          have hgrow : (stream replies x (s.conns x).sent.length).length
              ≤ (stream replies x ((s.conns x).sent.length + 1)).length := by
            simp [stream, List.range_succ]
          rw [conns_modifyConn_self]
          dsimp only
          rw [List.length_append, List.length_singleton]
          exact (h.bound x).trans hgrow
        · rw [conns_modifyConn_of_ne hxc]
          exact h.bound x
      · obtain ⟨-, rfl⟩ := Prod.mk.inj (Option.some.inj heq)
        intro x hx hxc
        exact absurd (Option.some.inj (hx.symm.trans hc)) hxc

theorem take (h : Apart replies s) {r n : Nat} {b : Bytes} {s' : Link}
    (hread : s.read replies r n = some (b, s')) (hn : 0 < n) : Apart replies s' := by
  obtain ⟨hle, -, rfl⟩ := read_eq_some hread
  have hsent := sent_modifyConn_taken r n s
  have harrived : ∀ x, ((s.modifyConn r fun k => { k with taken := k.taken + n }).conns x).arrived
      = (s.conns x).arrived := by
    intro x
    by_cases hxr : x = r
    · subst hxr; rw [conns_modifyConn_self]
    · rw [conns_modifyConn_of_ne hxr]
  refine ⟨fun x hx => ?_, h.inside, fun x => ?_, fun i st hst => ?_⟩
  · have hxr : x ≠ r := by
      rintro rfl
      rw [h.fresh x hx] at hle
      exact absurd hle (by simp; omega)
    rw [conns_modifyConn_of_ne hxr]
    exact h.fresh x hx
  · rw [hsent, harrived]
    exact h.bound x
  · have hold := h.alone i st hst
    cases st with
    | connecting => trivial
    | draining c => exact fun x hx hxc => (hsent x).trans (hold x hx hxc)
    | header c r' =>
        exact ⟨fun x hx hxc => (hsent x).trans (hold.1 x hx hxc),
          fun hne => (hsent r').trans (hold.2 hne)⟩
    | body c r' rtype rlen => exact ⟨hold.1, fun hne => (hsent r').trans (hold.2 hne)⟩
    | closing => trivial

theorem wake (h : Apart replies s) (ok : Bool) : Apart replies (s.wake replies ok) := by
  rw [Link.wake]
  split
  · exact h
  · next i hh => exact (h.connected ok).write i
  · next i c hh =>
    have halone := h.alone i _ hh
    split
    · split
      · exact h.fail i
      · next r hr => exact h.hold ⟨halone, halone r hr⟩
    · exact h.fail i
  · next i c r hh =>
    split
    · split
      · exact h
      · next hdr s' hread =>
        have htaken := h.take hread (by decide)
        obtain ⟨-, -, rfl⟩ := read_eq_some hread
        rw [Link.headerRead]
        split
        · exact (show Apart replies { s.modifyConn r _ with healthy := true } from
            ⟨htaken.fresh, htaken.inside, htaken.bound, htaken.alone⟩).finish i _
        · next hpos =>
          split
          · exact htaken.fail i
          · next r' hr' =>
            have halone := htaken.alone i _ hh
            exact htaken.hold ⟨Nat.pos_of_ne_zero hpos, halone.1 r' hr'⟩
    · exact h.fail i
  · next i c r rtype rlen hh =>
    split
    · split
      · exact h
      · next body s' hread =>
        have htaken := h.take hread (h.alone i _ hh).1
        exact (show Apart replies { s' with healthy := true } from
          ⟨htaken.fresh, htaken.inside, htaken.bound, htaken.alone⟩).finish i _
    · exact h.fail i
  · next i hh =>
    exact (show Apart replies { s with current := none, healthy := false, holder := none } from
      ⟨h.fresh, fun x hx => (by cases hx), h.bound, fun _ _ heq => (by cases heq)⟩).finish i _

theorem arrive (h : Apart replies s) (c n : Nat) :
    Apart replies (s.step replies (.arrive c n)) := by
  have hsent : ∀ x, ((s.step replies (.arrive c n)).conns x).sent = (s.conns x).sent := by
    intro x
    rw [Link.step]
    by_cases hxc : x = c
    · subst hxc; rw [conns_modifyConn_self]
    · rw [conns_modifyConn_of_ne hxc]
  refine ⟨fun x hx => ?_, h.inside, fun x => ?_, fun i st hst => ?_⟩
  · rw [Link.step]
    have hnew := h.fresh x hx
    by_cases hxc : x = c
    · subst hxc
      rw [conns_modifyConn_self, hnew]
      simp [stream]
    · rw [conns_modifyConn_of_ne hxc]
      exact hnew
  · rw [hsent, Link.step]
    by_cases hxc : x = c
    · subst hxc
      rw [conns_modifyConn_self]
      exact Nat.min_le_right _ _
    · rw [conns_modifyConn_of_ne hxc]
      exact h.bound x
  · have hold := h.alone i st hst
    cases st with
    | connecting => trivial
    | draining c => exact fun x hx hxc => (hsent x).trans (hold x hx hxc)
    | header c r =>
        exact ⟨fun x hx hxc => (hsent x).trans (hold.1 x hx hxc),
          fun hne => (hsent r).trans (hold.2 hne)⟩
    | body c r rtype rlen => exact ⟨hold.1, fun hne => (hsent r).trans (hold.2 hne)⟩
    | closing => trivial

/-- **Every step.** -/
theorem step (ev : LinkEvent) (s : Link) (h : Apart replies s) :
    Apart replies (s.step replies ev) := by
  cases ev with
  | call op payload => exact ⟨h.fresh, h.inside, h.bound, h.alone⟩
  | acquire i =>
      rw [Link.step]
      split
      · have hleft : Apart replies { s with waiting := s.waiting.erase i } :=
          ⟨h.fresh, h.inside, h.bound, h.alone⟩
        rw [Link.enter]
        split
        · exact hleft.write i
        · exact hleft.hold trivial
      · exact h
  | wake ok => exact h.wake ok
  | arrive c n => exact h.arrive c n
  | reconnect ok => exact h.connected ok
  | shutDown =>
      refine ⟨h.fresh, fun x hx => (by cases hx), h.bound, fun i st hst => ?_⟩
      have hold := h.alone i st hst
      cases st with
      | connecting => trivial
      | draining c => exact fun x hx => (by cases hx)
      | header c r => exact ⟨fun x hx => (by cases hx), hold.2⟩
      | body c r rtype rlen => exact hold
      | closing => trivial
  | mark healthy => exact ⟨h.fresh, h.inside, h.bound, h.alone⟩
  | cancel i =>
      rw [Link.step]
      split
      · exact ⟨h.fresh, h.inside, h.bound, h.alone⟩
      · split
        · exact h
        · split
          · exact h.finish i _
          · exact h

theorem initial : Apart replies {} :=
  ⟨fun _ _ => rfl, fun _ hx => (by cases hx), fun _ => Nat.zero_le _, fun _ _ hh => by cases hh⟩

end Apart

/-- The call that has the lock waits for a body on a connection on which
nothing was asked. -/
structure Stuck (i c r rtype rlen : Nat) (base s : Link) : Prop where
  held : s.holder = some (i, .body c r rtype rlen)
  sent : ∀ x, (s.conns x).sent = (base.conns x).sent
  silent : (s.conns r).sent = [] ∧ (s.conns r).arrived = 0
  ended : ∀ j rtype body, (j, .returned rtype body) ∈ s.ended →
    (j, .returned rtype body) ∈ base.ended

theorem Stuck.step {c r rtype rlen : Nat} {base : Link} (hpos : 0 < rlen) (ev : LinkEvent)
    (s : Link) (h : Stuck i c r rtype rlen base s)
    (hev : ev ≠ .wake false ∧ ev ≠ .cancel i) :
    Stuck i c r rtype rlen base (s.step replies ev) := by
  cases ev with
  | call op payload => exact ⟨h.held, h.sent, h.silent, h.ended⟩
  | acquire j =>
      rw [Link.step, if_neg (by rw [h.held]; simp)]
      exact h
  | wake ok =>
      cases ok with
      | false => exact absurd rfl hev.1
      | true =>
          have hread : s.read replies r rlen = none := if_neg (by rw [h.silent.2]; omega)
          have hwake : s.wake replies true = s := by
            rw [Link.wake, h.held]
            dsimp only
            rw [if_pos rfl, hread]
          rw [Link.step, hwake]
          exact h
  | arrive x n =>
      have hsame : ∀ y, ((s.step replies (.arrive x n)).conns y).sent = (s.conns y).sent := by
        intro y
        rw [Link.step]
        by_cases hyx : y = x
        · subst hyx; rw [conns_modifyConn_self]
        · rw [conns_modifyConn_of_ne hyx]
      refine ⟨h.held, fun y => (hsame y).trans (h.sent y), ⟨(hsame r).trans h.silent.1, ?_⟩,
        h.ended⟩
      rw [Link.step]
      by_cases hrx : r = x
      · subst hrx
        rw [conns_modifyConn_self, h.silent.1]
        simp [stream]
      · rw [conns_modifyConn_of_ne hrx]
        exact h.silent.2
  | reconnect ok => cases ok <;> exact ⟨h.held, h.sent, h.silent, h.ended⟩
  | shutDown => exact ⟨h.held, h.sent, h.silent, h.ended⟩
  | mark healthy => exact ⟨h.held, h.sent, h.silent, h.ended⟩
  | cancel j =>
      have hji : i ≠ j := fun heq => hev.2 (heq ▸ rfl)
      rw [Link.step]
      split
      · refine ⟨h.held, h.sent, h.silent, fun j' rtype' body hmem => ?_⟩
        rcases List.mem_append.mp hmem with hmem | hmem
        · exact h.ended j' rtype' body hmem
        · cases (Prod.mk.inj (List.mem_singleton.mp hmem)).2
      · rw [h.held]
        dsimp only
        rw [if_neg hji]
        exact h

/-- **A restart can silence a node.** When `restart_node` connects anew between
the header and the body of a reply, the call goes on reading from the new
connection, without a timeout and with the lock. Whatever happened before,
cancelled calls included, and whatever happens then, other calls, replies on
either connection and further restarts included, it keeps waiting, no other
frame is sent to the node and no other call returns, until that connection
breaks or the call is cancelled. -/
theorem body_waits_forever {replies : Nat → Nat → List Frame} {evs : List LinkEvent}
    {i c r rtype rlen : Nat}
    (hheld : (after replies evs).holder = some (i, .body c r rtype rlen)) (hother : r ≠ c)
    {later : List LinkEvent} (hlater : ∀ ev ∈ later, ev ≠ .wake false ∧ ev ≠ .cancel i) :
    let s := runAlong (step replies) later (after replies evs)
    s.holder = some (i, .body c r rtype rlen) ∧
      (∀ x, (s.conns x).sent = ((after replies evs).conns x).sent) ∧
      ∀ j rtype' body, (j, .returned rtype' body) ∈ s.ended →
        (j, .returned rtype' body) ∈ (after replies evs).ended := by
  intro s
  have hapart : Apart replies (after replies evs) :=
    runAlong_keeps (fun ev s h => h.step ev s) evs Apart.initial
  obtain ⟨hpos, hquiet⟩ := hapart.alone i _ hheld
  have harrived : ((after replies evs).conns r).arrived = 0 := by
    have hbound := hapart.bound r
    rw [hquiet hother] at hbound
    exact Nat.le_zero.mp hbound
  have hstart : Stuck i c r rtype rlen (after replies evs) (after replies evs) :=
    ⟨hheld, fun _ => rfl, ⟨hquiet hother, harrived⟩, fun _ _ _ hmem => hmem⟩
  have hend : Stuck i c r rtype rlen (after replies evs) s :=
    (along_of_all later hlater _).keeps (fun ev s h hev => h.step hpos ev s hev) later hstart
  exact ⟨hend.held, hend.sent, hend.ended⟩

/-- The header is there, and a restart comes before the body is asked for. -/
def restartedBetween : List LinkEvent :=
  [.call 1 [], .acquire 0, .wake true, .wake true, .arrive 0 6, .reconnect true, .wake true]

theorem restartedBetween_waits :
    let s := runAlong (step (once numbered))
      [.arrive 0 1, .call 1 [], .acquire 1, .wake true, .reconnect true, .wake true]
      (after (once numbered) restartedBetween)
    (after (once numbered) restartedBetween).holder = some (0, .body 0 1 128 1) ∧
      s.holder = some (0, .body 0 1 128 1) ∧
      (∀ x, (s.conns x).sent = ((after (once numbered) restartedBetween).conns x).sent) ∧
      ∀ j rtype' body, (j, .returned rtype' body) ∈ s.ended →
        (j, .returned rtype' body) ∈ (after (once numbered) restartedBetween).ended :=
  ⟨by decide +kernel, body_waits_forever (by decide +kernel) (by decide) (by decide)⟩

end Link

end VaultKV.Gateway
