import VaultKV.Server
import VaultKV.Lib.Serial

/-!
# Server — the event loop (`EpollServer::Start`)

One thread serves all clients. It waits for events, accepts connections,
appends what a socket has to the connection's read buffer, handles the frames
in it, sends what a socket takes of the connection's write buffer, and asks
`epoll` for `EPOLLOUT` as long as something is left to send. A connection ends
when the peer is gone, when a call on its socket fails, or after two minutes
without a byte.

What the kernel answers is part of the run: which descriptor `accept` returns,
what each `recv` and `send` does, what the clock says. `log` is not in the
source: it lists what has happened, and connections are numbered in the order
of their acceptance, since descriptors are used again.
-/

namespace VaultKV

open Lib

/-- `struct Connection`, with the number of its acceptance. Times are in
nanoseconds. -/
structure Connection where
  id : Nat
  rbuf : Bytes := []
  wbuf : Bytes := []
  lastActivity : Nat
  deriving DecidableEq

/-- What `recv` does; `rd == 0` is `data` without bytes. -/
inductive Recv where
  | data (bytes : Bytes) (now : Nat)
  | wouldBlock
  | failed

/-- What `send` does: it takes `more + 1` bytes if there are so many. The
process does not ignore `SIGPIPE`, and no call passes `MSG_NOSIGNAL`. -/
inductive Send where
  | took (more : Nat) (now : Nat)
  | wouldBlock
  | failed
  | brokenPipe

/-- How the loop around `send` ends. -/
inductive SendEnd where
  | done
  | failed
  | killed
  deriving DecidableEq

/-- The flags of an event. -/
structure Flags where
  err : Bool := false
  hup : Bool := false
  rdhup : Bool := false
  input : Bool := false
  output : Bool := false

/-- What a connection asks of the engine: to handle a frame, or to say what is
wrong with bytes that hold none. -/
inductive Ask where
  | frame (f : Frame)
  | malformed (err : String)
  deriving DecidableEq

/-- The bytes a reply adds to a write buffer. -/
def replyBytes : Option Frame → Bytes
  | some resp => resp.bytes
  | none => []

/-- **The engine as one sequential object.** `ios n` is what the `n`-th frame
it handles meets outside the program; without a reply the process has
ended. -/
def Engine.answer (cfg : Config) (ios : Nat → WriteIo cfg.cipher) (s : Engine × Nat) :
    Ask → Option Frame × (Engine × Nat)
  | .frame f =>
      let r := s.1.handleFrame cfg (ios s.2) f
      (r.1, r.2, s.2 + 1)
  | .malformed err => (some (encodeError 400 (textBytes err)), s)

/-! ## Reading and writing one socket -/

namespace Connection

/-- The loop around `recv`: what it appends to the read buffer, or `none` for
`close_now`. Where the calls end, the socket is empty. -/
def recvAll : List Recv → Connection → Option (Bytes × Connection)
  | [], c => some ([], c)
  | .data bytes now :: rs, c =>
      if bytes = [] then none
      else
        (recvAll rs { c with rbuf := c.rbuf ++ bytes, lastActivity := now }).map fun r =>
          (bytes ++ r.1, r.2)
  | .wouldBlock :: _, c => some ([], c)
  | .failed :: _, _ => none

/-- The loop around `send`: what the socket takes, the connection afterwards,
and how the loop ends. -/
def sendAll : List Send → Connection → Bytes × Connection × SendEnd
  | [], c => ([], c, .done)
  | r :: rs, c =>
      if c.wbuf = [] then ([], c, .done)
      else
        match r with
        | .took more now =>
            let r := sendAll rs { c with wbuf := c.wbuf.drop (more + 1), lastActivity := now }
            (c.wbuf.take (more + 1) ++ r.1, r.2)
        | .wouldBlock => ([], c, .done)
        | .failed => ([], c, .failed)
        | .brokenPipe => ([], c, .killed)

/-- `idle > 120`, in whole seconds. -/
def idle (now : Nat) (c : Connection) : Bool := (now - c.lastActivity) / 1000000000 > 120

end Connection

/-- What the parser's result asks of the engine: an error discards the frames
in front of it. -/
def asksIn : Option String × List Frame × Bytes → List Ask
  | (some err, _, _) => [.malformed err]
  | (none, fs, _) => fs.map .frame

/-! ## The server -/

/-- What has happened. -/
inductive Happened where
  | accepted (id fd : Nat)
  | parsed (id : Nat) (batch : Bytes)
  | answered (id : Nat) (ask : Ask) (reply : Option Frame)
  | sent (id : Nat) (bytes : Bytes)
  | closed (id fd : Nat)
  deriving DecidableEq

/-- The local variables of `Start` and the engine. `interest` is what `epoll`
knows: the descriptors added to it, and whether `EPOLLOUT` is asked for. -/
structure EpollServer where
  engine : Engine
  handled : Nat := 0
  alive : Bool := true
  conns : SortedMap Nat Connection := .empty
  interest : SortedMap Nat Bool := .empty
  accepted : Nat := 0
  log : List Happened := []

namespace EpollServer

/-- The lambda `close_conn`. -/
def closeConn (fd : Nat) (s : EpollServer) : EpollServer :=
  match s.conns.find fd with
  | none => s
  | some c =>
      { s with conns := s.conns.erase fd, interest := s.interest.erase fd,
               log := s.log ++ [.closed c.id fd] }

/-- One round of the loop around `accept`. -/
def accept (fd now : Nat) (s : EpollServer) : EpollServer :=
  { s with conns := s.conns.insert fd { id := s.accepted, lastActivity := now },
           interest := s.interest.insert fd false, accepted := s.accepted + 1,
           log := s.log ++ [.accepted s.accepted fd] }

section

variable (cfg : Config) (ios : Nat → WriteIo cfg.cipher)

/-- The engine answers, and the answer goes to the write buffer. -/
def ask (fd : Nat) (s : EpollServer) (a : Ask) : EpollServer :=
  match s.conns.find fd with
  | none => s
  | some c =>
      if s.alive = false then s
      else
        let r := Engine.answer cfg ios (s.engine, s.handled) a
        { s with engine := r.2.1, handled := r.2.2, alive := r.1.isSome,
                 conns := s.conns.insert fd { c with wbuf := c.wbuf ++ replyBytes r.1 },
                 log := s.log ++ [.answered c.id a r.1] }

/-- The branch for `EPOLLIN`. -/
def readable (fd : Nat) (recvs : List Recv) (s : EpollServer) : EpollServer :=
  match s.conns.find fd with
  | none => s
  | some c =>
      match c.recvAll recvs with
      | none => s.closeConn fd
      | some (batch, c) =>
          let r := tryParseFrames c.rbuf
          (asksIn r).foldl (ask cfg ios fd)
            { s with conns := s.conns.insert fd { c with rbuf := r.2.2 },
                     log := s.log ++ [.parsed c.id batch] }

/-- The branch for `EPOLLOUT`. -/
def writable (fd : Nat) (sends : List Send) (s : EpollServer) : EpollServer :=
  match s.conns.find fd with
  | none => s
  | some c =>
      if s.alive = false then s
      else
        let r := c.sendAll sends
        let s := { s with conns := s.conns.insert fd r.2.1, log := s.log ++ [.sent c.id r.1] }
        match r.2.2 with
        | .done => s
        | .failed => s.closeConn fd
        | .killed => { s with alive := false }

/-- `EPOLL_CTL_MOD` at the end of an event, if the connection is still
there. -/
def update (fd : Nat) (s : EpollServer) : EpollServer :=
  match s.conns.find fd with
  | none => s
  | some c =>
      if s.alive = false then s
      else { s with interest := s.interest.insert fd (!c.wbuf.isEmpty) }

/-- An event of a client socket. A branch that closes the connection leaves
nothing to do for the next ones. -/
def ready (fd : Nat) (flags : Flags) (recvs : List Recv) (sends : List Send)
    (s : EpollServer) : EpollServer :=
  if flags.err || flags.hup || flags.rdhup then s.closeConn fd
  else
    let s := if flags.input then s.readable cfg ios fd recvs else s
    let s := if flags.output then s.writable fd sends else s
    s.update fd

/-- The loop over the connections after each batch of events. -/
def sweep (now : Nat) (s : EpollServer) : EpollServer :=
  ((s.conns.entries.filter fun p => p.2.idle now).map Prod.fst).foldl
    (fun s fd => s.closeConn fd) s

/-- `Start` returns: every socket left is closed. -/
def stop (s : EpollServer) : EpollServer :=
  { s with conns := .empty, interest := .empty,
           log := s.log ++ s.conns.entries.map fun p => .closed p.2.id p.1 }

end

end EpollServer

/-- What happens next in the loop. -/
inductive LoopStep where
  | accept (fd now : Nat)
  | ready (fd : Nat) (flags : Flags) (recvs : List Recv) (sends : List Send)
  | sweep (now : Nat)

namespace EpollServer

variable (cfg : Config) (ios : Nat → WriteIo cfg.cipher)

def step (ev : LoopStep) (s : EpollServer) : EpollServer :=
  if s.alive = false then s
  else
    match ev with
    | .accept fd now => s.accept fd now
    | .ready fd flags recvs sends => s.ready cfg ios fd flags recvs sends
    | .sweep now => s.sweep now

def run (evs : List LoopStep) (s : EpollServer) : EpollServer := runAlong (step cfg ios) evs s

/-! ## What the log tells -/

end EpollServer

namespace Happened

/-- A request with its answer. -/
def exchange? : Happened → Option (Exchange Nat Ask (Option Frame))
  | .answered id a reply => some ⟨id, a, reply⟩
  | _ => none

def batchOf (client : Nat) : Happened → List Bytes
  | .parsed id batch => if id = client then [batch] else []
  | _ => []

def sentTo (client : Nat) : Happened → Bytes
  | .sent id bytes => if id = client then bytes else []
  | _ => []

def opens (fd : Nat) : Happened → Bool
  | .accepted _ fd' => fd' = fd
  | _ => false

def closes (fd : Nat) : Happened → Bool
  | .closed _ fd' => fd' = fd
  | _ => false

end Happened

/-- The requests of all connections, in the order in which they are
answered. -/
def history (log : List Happened) : List (Exchange Nat Ask (Option Frame)) :=
  log.filterMap Happened.exchange?

/-- What a connection has received, cut as the loop has cut it. -/
def batchesOf (client : Nat) (log : List Happened) : List Bytes :=
  log.flatMap (Happened.batchOf client)

/-- What a connection has been sent. -/
def sentTo (client : Nat) (log : List Happened) : Bytes := log.flatMap (Happened.sentTo client)

/-- What a connection has asked for. -/
def asksOf (client : Nat) (log : List Happened) : List Ask :=
  (exchangesOf client (history log)).map Exchange.request

/-- What a connection has been answered. -/
def repliesTo (client : Nat) (log : List Happened) : Bytes :=
  (exchangesOf client (history log)).flatMap fun c => replyBytes c.reply

def opened (fd : Nat) (log : List Happened) : Nat := log.countP (Happened.opens fd)

def closed (fd : Nat) (log : List Happened) : Nat := log.countP (Happened.closes fd)

/-- What batches ask for, one parser call after each, and the bytes left
over. -/
def asked (batches : List Bytes) : Bytes × List Ask :=
  Framing.feed tryParseFrames (fun out f => out ++ [.frame f])
    (fun out err => out ++ [.malformed err]) [] [] batches

end VaultKV
