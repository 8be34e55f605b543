import VaultKV.Engine.Runs

/-!
# Replica — engines that replicate over a network

A node that takes a write appends it to its own log and sends one frame to
each peer, each on a connection of its own. A frame is executed by the peer
(`HandleFrame`) at some time, or lost; the peer's reply reaches the waiting
node, or is lost, or comes too late. The waiting node then decides with
what it has (`ReplicateToQuorum`). Frames carry no number: a frame that was
given up on may still be executed, after frames that were sent later.

What a run is judged by is written down on the side (`Note`). No node reads
it.
-/

namespace VaultKV

open Lib

/-- A write as a client asks for it. -/
inductive ClientWrite where
  | set (key value : Bytes)
  | delete (key : Bytes)
  deriving DecidableEq, Repr

namespace ClientWrite

def op : ClientWrite → WalOp
  | .set _ _ => .kSet
  | .delete _ => .kDelete

def key : ClientWrite → Bytes
  | .set key _ => key
  | .delete key => key

def value : ClientWrite → Bytes
  | .set _ value => value
  | .delete _ => []

/-- The answer for its key that the write asks for. -/
def answer : ClientWrite → Option Bytes
  | .set _ value => some value
  | .delete _ => none

/-- The frame that replicates the write. -/
def frame? (w : ClientWrite) : Option Frame := replicationFrame ⟨w.op, 0, 0, w.key, w.value⟩

/-- What a peer decodes the frame to. -/
def command : ClientWrite → Command
  | .set key value => { type := .set, key := key, value := value }
  | .delete key => { type := .del, key := key }

/-- The write as an operation of one engine. -/
def toOp {c : Cipher} (io : WriteIo c) : ClientWrite → Op c
  | .set key value => .set io key value
  | .delete key => .delete io key

end ClientWrite

/-- The last part of `Set` or `Delete`. -/
def Engine.applyWrite (cfg : Config) (io : FlushIo cfg.cipher) (w : ClientWrite) (seq : Nat)
    (e : Engine) : Res Nat × Engine :=
  match w with
  | .set key value => e.applySet cfg io key value seq
  | .delete key => e.applyDelete key seq

/-- The configuration of every node, and its peers. -/
structure System where
  cfg : Nat → Config
  peers : Nat → List Nat

/-- A frame or a reply on the connection of one call to one peer. `write` is
what the frame asks for. -/
structure InFlight where
  call : Nat
  peer : Nat
  write : ClientWrite
  frame : Frame

/-- A call that waits for its peers: `acks` are those whose ACK came in, with
the time, in nanoseconds since the call's deadline was set. -/
structure Waiting where
  call : Nat
  node : Nat
  write : ClientWrite
  seq : Nat
  acks : List (Nat × Nat)

structure Net where
  nodes : Nat → Engine
  frames : List InFlight := []
  replies : List InFlight := []
  waiting : List Waiting := []
  calls : Nat := 0

/-- What happens next. The I/O of a step is given for every node, since the
state says which node takes it. -/
inductive Event (sys : System) where
  | start (n : Nat) (io : WriteIo (sys.cfg n).cipher) (w : ClientWrite)
  | deliver (i : Nat) (io : ∀ n, WriteIo (sys.cfg n).cipher)
  | lose (i : Nat)
  | answer (i doneAt : Nat)
  | loseAnswer (i : Nat)
  | finish (i : Nat) (waits : Nat → Nat × Nat) (io : ∀ n, FlushIo (sys.cfg n).cipher)
  | flush (n : Nat) (io : FlushIo (sys.cfg n).cipher)
  | compact (n : Nat) (io : CompactIo (sys.cfg n).cipher)
  | restart (n : Nat) (io : OpenIo)

/-- What a run has shown: an ACK taken by a waiting call, the result of a
client's call, the result of a frame. -/
inductive Note where
  | acked (call peer doneAt : Nat)
  | returned (call node : Nat) (w : ClientWrite) (res : Res Nat)
  | executed (node : Nat) (w : ClientWrite) (res : Res Nat)
  deriving DecidableEq

namespace Net

variable (sys : System)

/-- The node's engine is now `e`. -/
def put (net : Net) (n : Nat) (e : Engine) : Net :=
  { net with nodes := Function.update net.nodes n e }

/-- Whether a node waits for its peers. -/
def replicates (n : Nat) : Bool :=
  (sys.cfg n).opts.enableReplication && decide (1 < (sys.cfg n).opts.quorumSize)

/-- The frames of a call; without a transport none is sent. -/
def framesOf (n call : Nat) (w : ClientWrite) : List InFlight :=
  if (sys.cfg n).transport then
    (sys.peers n).filterMap fun p => w.frame?.map (InFlight.mk call p w)
  else []

/-- A client's call of `Set` or `Delete` on node `n`, up to the peers. -/
def start (n : Nat) (io : WriteIo (sys.cfg n).cipher) (w : ClientWrite) (net : Net) :
    Net × List Note :=
  match (net.nodes n).logWrite (sys.cfg n) io w.op w.key w.value with
  | (.error err, e) =>
      ({ net.put n e with calls := net.calls + 1 }, [.returned net.calls n w (.error err)])
  | (.ok seq, e) =>
      if replicates sys n then
        ({ net.put n e with
            frames := net.frames ++ framesOf sys n net.calls w
            waiting := net.waiting ++ [⟨net.calls, n, w, seq, []⟩]
            calls := net.calls + 1 }, [])
      else
        let r := e.applyWrite (sys.cfg n) io.flush w seq
        ({ net.put n r.2 with calls := net.calls + 1 }, [.returned net.calls n w r.1])

/-- The peer executes a frame and replies. -/
def deliver (f : InFlight) (io : WriteIo (sys.cfg f.peer).cipher) (net : Net) :
    Net × List Note :=
  let e := net.nodes f.peer
  let r := e.handleFrame (sys.cfg f.peer) io f.frame
  ({ net.put f.peer r.2 with
      replies := net.replies ++ (r.1.map fun reply => { f with frame := reply }).toList },
    [.executed f.peer f.write (e.step (sys.cfg f.peer) (f.write.toOp io)).1])

/-- A reply reaches the call that waits for it, if one still does. -/
def take (f : InFlight) (doneAt : Nat) (net : Net) : Net × List Note :=
  if f.frame.type = .ack then
    ({ net with waiting := net.waiting.map fun x =>
        if x.call = f.call then { x with acks := (f.peer, doneAt) :: x.acks } else x },
      [.acked f.call f.peer doneAt])
  else (net, [])

/-- What the waiting call knows of a peer: when its `Replicate` returned, and
whether an ACK came in. -/
def peerCall (x : Waiting) (waits : Nat → Nat × Nat) (p : Nat) : PeerCall :=
  match x.acks.lookup p with
  | some doneAt => ⟨doneAt, true, (waits p).2⟩
  | none => ⟨(waits p).1, false, (waits p).2⟩

def callsOf (x : Waiting) (waits : Nat → Nat × Nat) : List PeerCall :=
  (sys.peers x.node).map (peerCall x waits)

/-- The call decides with what came in, and returns. -/
def finish (x : Waiting) (waits : Nat → Nat × Nat) (io : FlushIo (sys.cfg x.node).cipher)
    (net : Net) : Net × List Note :=
  match Engine.replicate (sys.cfg x.node) (callsOf sys x waits) with
  | .error err => (net, [.returned x.call x.node x.write (.error err)])
  | .ok _ =>
      let r := (net.nodes x.node).applyWrite (sys.cfg x.node) io x.write x.seq
      (net.put x.node r.2, [.returned x.call x.node x.write r.1])

def step (ev : Event sys) (net : Net) : Net × List Note :=
  match ev with
  | .start n io w => net.start sys n io w
  | .deliver i io =>
      match net.frames[i]? with
      | none => (net, [])
      | some f => { net with frames := net.frames.eraseIdx i }.deliver sys f (io f.peer)
  | .lose i => ({ net with frames := net.frames.eraseIdx i }, [])
  | .answer i doneAt =>
      match net.replies[i]? with
      | none => (net, [])
      | some f => { net with replies := net.replies.eraseIdx i }.take f doneAt
  | .loseAnswer i => ({ net with replies := net.replies.eraseIdx i }, [])
  | .finish i waits io =>
      match net.waiting[i]? with
      | none => (net, [])
      | some x =>
          { net with waiting := net.waiting.eraseIdx i }.finish sys x waits (io x.node)
  | .flush n io => (net.put n ((net.nodes n).flushMemTable (sys.cfg n) io).2, [])
  | .compact n io => (net.put n ((net.nodes n).maybeCompact (sys.cfg n) io).2, [])
  | .restart n io =>
      ({ net.put n (((net.nodes n).boot (sys.cfg n)).open (sys.cfg n) io).2 with
          waiting := net.waiting.filter fun x => x.node ≠ n }, [])

def run : List (Event sys) → Net → Net
  | [], net => net
  | ev :: evs, net => run evs (net.step sys ev).1

/-- The notes of a run, oldest first. -/
def notes : List (Event sys) → Net → List Note
  | [], _ => []
  | ev :: evs, net => (net.step sys ev).2 ++ notes evs (net.step sys ev).1

theorem run_append (evs later : List (Event sys)) :
    ∀ net : Net, net.run sys (evs ++ later) = (net.run sys evs).run sys later := by
  induction evs with
  | nil => intro net; rfl
  | cons ev evs ih => intro net; exact ih _

theorem notes_append (evs later : List (Event sys)) :
    ∀ net : Net, net.notes sys (evs ++ later)
      = net.notes sys evs ++ (net.run sys evs).notes sys later := by
  induction evs with
  | nil => intro net; rfl
  | cons ev evs ih =>
      intro net
      rw [List.cons_append, notes, ih, notes, run, List.append_assoc]

/-- Nothing is under way. -/
structure Quiet (net : Net) : Prop where
  frames : net.frames = []
  replies : net.replies = []
  waiting : net.waiting = []

end Net

/-! ## Writes and their frames -/

theorem ClientWrite.decodeCommand_frame {w : ClientWrite} {f : Frame} (h : w.frame? = some f) :
    decodeCommand f = .ok w.command := by
  cases w with
  | set key value =>
      have h : (if key.length > 2 ^ 16 - 1 ∨ value.length > 2 ^ 32 - 1 then none
          else some { type := .set, flags := 0, payload := setPayload key value }) = some f := h
      by_cases hbig : key.length > 2 ^ 16 - 1 ∨ value.length > 2 ^ 32 - 1
      · rw [if_pos hbig] at h; cases h
      · rw [if_neg hbig] at h
        obtain rfl := Option.some.inj h
        exact decodeCommand_set (by omega) (by omega) 0
  | delete key =>
      have h : (if key.length > 2 ^ 16 - 1 then none
          else some { type := .del, flags := 0, payload := keyPayload key }) = some f := h
      by_cases hbig : key.length > 2 ^ 16 - 1
      · rw [if_pos hbig] at h; cases h
      · rw [if_neg hbig] at h
        obtain rfl := Option.some.inj h
        exact decodeCommand_del (by omega) 0

/-- **The frame of a write** makes the peer execute the write. -/
theorem handleFrame_write {cfg : Config} {io : WriteIo cfg.cipher} {w : ClientWrite} {f : Frame}
    (h : w.frame? = some f) (e : Engine) : e.handleFrame cfg io f =
      (Engine.writeReply (e.step cfg (w.toOp io)).1, (e.step cfg (w.toOp io)).2) := by
  rw [Engine.handleFrame, ClientWrite.decodeCommand_frame h]
  cases w <;> rfl

/-- A frame of a call carries the call's number and its write. -/
theorem mem_framesOf {sys : System} {n call : Nat} {w : ClientWrite} {f : InFlight}
    (h : f ∈ Net.framesOf sys n call w) :
    f.call = call ∧ f.write = w ∧ f.write.frame? = some f.frame := by
  unfold Net.framesOf at h
  by_cases ht : (sys.cfg n).transport = true
  · rw [if_pos ht] at h
    obtain ⟨p, -, hp⟩ := List.mem_filterMap.mp h
    obtain ⟨frame, hframe, rfl⟩ := Option.map_eq_some_iff.mp hp
    exact ⟨rfl, rfl, hframe⟩
  · rw [if_neg ht] at h; cases h

/-- A write, part by part. -/
theorem Engine.step_write (cfg : Config) (io : WriteIo cfg.cipher) (w : ClientWrite) (e : Engine) :
    e.step cfg (w.toOp io) =
      match e.logWrite cfg io w.op w.key w.value with
      | (.error err, e) => (.error err, e)
      | (.ok seq, e) =>
          match Engine.replicate cfg io.calls with
          | .error err => (.error err, e)
          | .ok _ => e.applyWrite cfg io.flush w seq := by
  cases w <;> rfl

/-! ## The cluster of three -/

/-- Node 1 asks for a quorum of 2 and has the peers 2 and 3, which are plain
engines. -/
def trio : System where
  cfg n := { smallConfig 4096 with
    opts := { (smallConfig 4096).opts with
      enableReplication := decide (n = 1), quorumSize := if n = 1 then 2 else 1 }
    transport := decide (n = 1) }
  peers n := if n = 1 then [2, 3] else []

namespace Trio

/-- Every node opened on an empty directory. -/
def opened : Net where
  nodes n := ((Engine.fresh (trio.cfg n)).open (trio.cfg n) {}).2

def set (n : Nat) (k v : UInt8) : Event trio := .start n (.quiet (0 : Nat)) (.set [k] [v])

def deliver (i : Nat) : Event trio := .deliver i fun _ => .quiet (0 : Nat)

/-- A peer that has not answered is waited for until the deadline. -/
def finish : Event trio := .finish 0 (fun _ => (300 * 1000000 + 1, 0)) fun _ => .quiet (0 : Nat)

end Trio

end VaultKV
