import VaultKV.Framing
import VaultKV.Gateway
import VaultKV.Lib.Trace

/-!
# Gateway — one node's connection under many requests (`cluster.py`)

All requests to a node share one connection. `send_frame` takes the node's
lock, connects if it has to, writes its frame and reads six bytes and then as
many as they say; nothing in a reply tells which request it answers. What
pairs them is the lock, and that a connection on which anything went wrong is
given up.

The lock does not cover everything. `connect`, called by `restart_node`, puts
another connection in the place of the one a request is out on, and
`send_frame` looks at `self._reader` again before each read. A cancelled task
leaves the lock but not the connection: `except Exception` does not see it.

The node answers the requests in their order; `replies c k` is what it sends
for the `k`-th one on connection `c`. That is ONE frame (`once`), unless the
payload is above 4 MiB: then the server sends one error for each batch of the
request that it reads.
-/

namespace VaultKV.Gateway

open Lib

/-- A connection: the frames written to it and the calls they are of, how
many bytes of replies have come in and how many of them were read. -/
structure Conn where
  sent : List (Nat × Bytes) := []
  arrived : Nat := 0
  taken : Nat := 0
  deriving DecidableEq, Repr

/-- Where `send_frame` waits while it has the lock. `c` is the connection the
frame was written to, `r` the one it reads from. -/
inductive Stage where
  | connecting
  | draining (c : Nat)
  | header (c r : Nat)
  | body (c r : Nat) (rtype rlen : Nat)
  | closing
  deriving DecidableEq, Repr

/-- How a call of `send_frame` ends. -/
inductive CallEnd where
  | returned (rtype : Nat) (body : Bytes)
  | raised
  | cancelled
  deriving DecidableEq, Repr

/-- `VaultKVNode`, with the calls of `send_frame` and all connections ever
opened; a call is its opcode and payload, and its number. -/
structure Link where
  healthy : Bool := false
  current : Option Nat := none
  conns : Nat → Conn := fun _ => {}
  next : Nat := 0
  calls : List (Nat × Bytes) := []
  waiting : List Nat := []
  holder : Option (Nat × Stage) := none
  ended : List (Nat × CallEnd) := []

/-- `struct.pack("<BBL", op, 0, len(payload)) + payload`. -/
def packFrame (op : Nat) (payload : Bytes) : Option Bytes := do
  let o ← pack 1 op
  let f ← pack 1 0
  let l ← pack 4 payload.length
  some (o ++ (f ++ (l ++ payload)))

/-- The bytes a node sends for the first `n` requests on a connection. -/
def stream (replies : Nat → Nat → List Frame) (c n : Nat) : Bytes :=
  ((List.range n).flatMap (replies c)).flatMap Frame.bytes

/-- A node that sends one reply for each request. -/
def once (answer : Nat → Nat → Frame) (c k : Nat) : List Frame := [answer c k]

namespace Link

/-- The frame of a call. -/
def frameOf (s : Link) (i : Nat) : Option Bytes :=
  match s.calls[i]? with
  | none => none
  | some (op, payload) => packFrame op payload

def modifyConn (c : Nat) (f : Conn → Conn) (s : Link) : Link :=
  { s with conns := Function.update s.conns c (f (s.conns c)) }

@[simp] theorem conns_modifyConn_self (c : Nat) (f : Conn → Conn) (s : Link) :
    (s.modifyConn c f).conns c = f (s.conns c) :=
  Function.update_self c _ s.conns

theorem conns_modifyConn_of_ne {c x : Nat} (h : x ≠ c) (f : Conn → Conn) (s : Link) :
    (s.modifyConn c f).conns x = s.conns x :=
  Function.update_of_ne h _ s.conns

/-- The call is over and the lock is free. -/
def finish (i : Nat) (e : CallEnd) (s : Link) : Link :=
  { s with holder := none, ended := s.ended ++ [(i, e)] }

/-- `connect`, when it knows the outcome. -/
def connected (ok : Bool) (s : Link) : Link :=
  if ok then { s with current := some s.next, next := s.next + 1, healthy := true }
  else { s with current := none, healthy := false }

/-- `send_frame`, behind the first check, up to `drain`: without a connection
it raises, and so does `struct.pack` for a payload that is too long. -/
def write (i : Nat) (s : Link) : Link :=
  match s.current with
  | none => s.finish i .raised
  | some c =>
      match s.frameOf i with
      | none => s.finish i .raised
      | some frame =>
          { s.modifyConn c (fun k => { k with sent := k.sent ++ [(i, frame)] }) with
            holder := some (i, .draining c) }

/-- `send_frame`, from the lock on. -/
def enter (i : Nat) (s : Link) : Link :=
  if s.current.isSome && s.healthy then s.write i
  else { s with holder := some (i, .connecting) }

/-- The `except` branch, up to the await of `close`, which there is none of
when there is nothing to close. -/
def fail (i : Nat) (s : Link) : Link :=
  match s.current with
  | none => { s with healthy := false }.finish i .raised
  | some _ => { s with holder := some (i, .closing) }

/-- `readexactly(n)`, if the bytes are there. -/
def read (replies : Nat → Nat → List Frame) (r n : Nat) (s : Link) : Option (Bytes × Link) :=
  if (s.conns r).taken + n ≤ (s.conns r).arrived then
    some (slice (stream replies r (s.conns r).sent.length) (s.conns r).taken n,
      s.modifyConn r fun k => { k with taken := k.taken + n })
  else none

/-- The reply is complete. -/
def reply (i rtype : Nat) (body : Bytes) (s : Link) : Link :=
  { s with healthy := true }.finish i (.returned rtype body)

/-- `send_frame`, when the header is there. -/
def headerRead (i c : Nat) (hdr : Bytes) (s : Link) : Link :=
  let rtype := unpackFrom 1 hdr 0
  let rlen := unpackFrom 4 hdr 2
  if rlen = 0 then s.reply i rtype []
  else
    match s.current with
    | none => s.fail i
    | some r => { s with holder := some (i, .body c r rtype rlen) }

/-- The call that has the lock goes on: what it awaits came, or failed. -/
def wake (replies : Nat → Nat → List Frame) (ok : Bool) (s : Link) : Link :=
  match s.holder with
  | none => s
  | some (i, .connecting) => (s.connected ok).write i
  | some (i, .draining c) =>
      if ok then
        match s.current with
        | none => s.fail i
        | some r => { s with holder := some (i, .header c r) }
      else s.fail i
  | some (i, .header c r) =>
      if ok then
        match s.read replies r 6 with
        | none => s
        | some (hdr, s') => s'.headerRead i c hdr
      else s.fail i
  | some (i, .body _ r rtype rlen) =>
      if ok then
        match s.read replies r rlen with
        | none => s
        | some (body, s') => s'.reply i rtype body
      else s.fail i
  | some (i, .closing) => { s with current := none, healthy := false }.finish i .raised

end Link

/-- What can happen to a node's connection. -/
inductive LinkEvent where
  | call (op : Nat) (payload : Bytes)
  | acquire (i : Nat)
  | wake (ok : Bool)
  | arrive (c n : Nat)
  | reconnect (ok : Bool)
  | shutDown
  | mark (healthy : Bool)
  | cancel (i : Nat)
  deriving DecidableEq, Repr

namespace Link

/-- One event. `reconnect` is the end of a `connect` outside of `send_frame`,
`mark` a write of `healthy` by whoever; a node sends no more than its replies
to what it was sent. -/
def step (replies : Nat → Nat → List Frame) (ev : LinkEvent) (s : Link) : Link :=
  match ev with
  | .call op payload =>
      { s with calls := s.calls ++ [(op, payload)], waiting := s.waiting ++ [s.calls.length] }
  | .acquire i =>
      if i ∈ s.waiting ∧ s.holder = none then
        { s with waiting := s.waiting.erase i }.enter i
      else s
  | .wake ok => s.wake replies ok
  | .arrive c n =>
      s.modifyConn c fun k =>
        { k with arrived := min (k.arrived + n) (stream replies c k.sent.length).length }
  | .reconnect ok => s.connected ok
  | .shutDown => { s with current := none, healthy := false }
  | .mark healthy => { s with healthy := healthy }
  | .cancel i =>
      if i ∈ s.waiting then
        { s with waiting := s.waiting.erase i, ended := s.ended ++ [(i, .cancelled)] }
      else
        match s.holder with
        | none => s
        | some (j, _) => if j = i then s.finish i .cancelled else s

end Link

/-! ## The bytes of the replies -/

section

variable (answer : Nat → Nat → Frame)

theorem stream_succ (c n : Nat) :
    stream (once answer) c (n + 1) = stream (once answer) c n ++ (answer c n).bytes := by
  simp [stream, once, List.range_succ]

theorem length_stream_succ (c n : Nat) :
    (stream (once answer) c (n + 1)).length
      = (stream (once answer) c n).length + (6 + (answer c n).payload.length) := by
  rw [stream_succ, List.length_append, length_bytes]

theorem bytes_eq (f : Frame) :
    f.bytes = ([f.type.toByte, f.flags] ++ appendLe 4 f.payload.length) ++ f.payload := by
  simp [Frame.bytes, encodeFrame]

/-- The header of the next reply. -/
theorem slice_header (c n : Nat) :
    slice (stream (once answer) c (n + 1)) (stream (once answer) c n).length 6
      = [(answer c n).type.toByte, (answer c n).flags]
          ++ appendLe 4 (answer c n).payload.length := by
  rw [stream_succ, bytes_eq]
  exact slice_append_of_length rfl (by simp [length_appendLe])

/-- The body behind it. -/
theorem slice_body (c n : Nat) :
    slice (stream (once answer) c (n + 1)) ((stream (once answer) c n).length + 6)
        (answer c n).payload.length = (answer c n).payload := by
  have hfront : (stream (once answer) c n ++ ([(answer c n).type.toByte, (answer c n).flags]
      ++ appendLe 4 (answer c n).payload.length)).length
        = (stream (once answer) c n).length + 6 := by
    simp [length_appendLe]
  have hbody := slice_append_of_length (b := (answer c n).payload) (c := []) hfront rfl
  rwa [List.append_nil, List.append_assoc, ← bytes_eq, ← stream_succ] at hbody

theorem unpack_type (f : Frame) (x : Bytes) :
    unpackFrom 1 ([f.type.toByte, f.flags] ++ x) 0 = f.type.toByte.toNat := by
  simp [unpackFrom, slice, leNat]

theorem unpack_length {f : Frame} (hlen : f.payload.length < 2 ^ 32) :
    unpackFrom 4 ([f.type.toByte, f.flags] ++ appendLe 4 f.payload.length) 2
      = f.payload.length := by
  have hread := readLe_appendLe (show f.payload.length < 256 ^ 4 by omega) []
  rw [List.append_nil] at hread
  exact hread

end

end VaultKV.Gateway
