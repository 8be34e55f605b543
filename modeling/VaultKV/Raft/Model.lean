import VaultKV.Lib.Election

/-!
# Raft — one node (`raft.h`, `raft.cpp`)

A node's handlers as functions of its state. The clock reading and the
random election timeout a call draws are arguments; what a call sends
through its broadcaster, and the leader callback, are results. The log
position a node compares in `OnRequestVote` is read but never written by
`RaftNode`.
-/

namespace VaultKV

open Lib

inductive RaftRole where
  | kFollower
  | kCandidate
  | kLeader
  deriving DecidableEq, Repr

structure RequestVote where
  term : Nat := 0
  candidateId : Int := -1
  lastLogIndex : Nat := 0
  lastLogTerm : Nat := 0
  deriving DecidableEq, Repr

structure RequestVoteReply where
  term : Nat := 0
  voteGranted : Bool := false
  deriving DecidableEq, Repr

structure AppendEntries where
  term : Nat := 0
  leaderId : Int := -1
  deriving DecidableEq, Repr

/-- What a node hands to its broadcasters. -/
inductive Broadcast where
  | requestVote (rv : RequestVote)
  | heartbeat (ae : AppendEntries)
  deriving DecidableEq, Repr

/-- `class RaftNode`. -/
structure RaftNode where
  myId : Int
  peers : List Int
  role : RaftRole := .kFollower
  term : Nat := 0
  votedFor : Int := -1
  votesReceived : Nat := 0
  lastHeartbeatMs : Nat := 0
  electionTimeoutMs : Nat := 200
  heartbeatIntervalMs : Nat := 50
  myLastLogIndex : Nat := 0
  myLastLogTerm : Nat := 0
  deriving DecidableEq, Repr

namespace RaftNode

/-- The constructor; `timeoutMs` is the timeout it draws. -/
def new (myId : Int) (peers : List Int) (timeoutMs : Nat) : RaftNode :=
  { myId := myId, peers := peers, electionTimeoutMs := timeoutMs }

/-- `MajorityCount`. -/
def majorityCount (n : RaftNode) : Nat := (n.peers.length + 1) / 2 + 1

/-- `StartElectionLocked`. -/
def startElectionLocked (nowMs timeoutMs : Nat) (n : RaftNode) : RequestVote × RaftNode :=
  let n := { n with
    role := .kCandidate
    term := (n.term + 1) % 2 ^ 64
    votedFor := n.myId
    votesReceived := 1
    lastHeartbeatMs := nowMs
    electionTimeoutMs := timeoutMs }
  ({ term := n.term, candidateId := n.myId, lastLogIndex := n.myLastLogIndex,
     lastLogTerm := n.myLastLogTerm }, n)

/-- `now_ms - last_heartbeat_ms_`, on unsigned numbers. -/
def elapsed (nowMs : Nat) (n : RaftNode) : Nat :=
  (nowMs + 2 ^ 64 - n.lastHeartbeatMs) % 2 ^ 64

/-- The first test of `Tick`. -/
def electionDue (nowMs : Nat) (n : RaftNode) : Bool :=
  (n.role == .kFollower || n.role == .kCandidate) &&
    decide (n.electionTimeoutMs < n.elapsed nowMs)

/-- The second test of `Tick`. -/
def heartbeatDue (nowMs : Nat) (n : RaftNode) : Bool :=
  n.role == .kLeader && decide (n.heartbeatIntervalMs ≤ n.elapsed nowMs)

/-- `Tick`. -/
def tick (nowMs timeoutMs : Nat) (n : RaftNode) : Option Broadcast × RaftNode :=
  if n.electionDue nowMs then
    let r := n.startElectionLocked nowMs timeoutMs
    (some (.requestVote r.1), r.2)
  else if n.heartbeatDue nowMs then
    (some (.heartbeat { term := n.term, leaderId := n.myId }),
      { n with lastHeartbeatMs := nowMs })
  else (none, n)

/-- `OnRequestVote`. -/
def onRequestVote (nowMs : Nat) (req : RequestVote) (n : RaftNode) :
    RequestVoteReply × RaftNode :=
  if req.term < n.term then ({ term := n.term, voteGranted := false }, n)
  else
    let n := if n.term < req.term then
        { n with term := req.term, role := .kFollower, votedFor := -1 }
      else n
    let logOk := decide (n.myLastLogTerm < req.lastLogTerm) ||
      (req.lastLogTerm == n.myLastLogTerm && decide (n.myLastLogIndex ≤ req.lastLogIndex))
    if (n.votedFor == -1 || n.votedFor == req.candidateId) && logOk then
      ({ term := n.term, voteGranted := true },
        { n with votedFor := req.candidateId, lastHeartbeatMs := nowMs })
    else ({ term := n.term, voteGranted := false }, n)

/-- A reply that `OnRequestVoteReply` counts. -/
def counts (reply : RequestVoteReply) (n : RaftNode) : Bool :=
  n.role == .kCandidate && reply.voteGranted && reply.term == n.term

/-- `OnRequestVoteReply`, with the term given to the leader callback. -/
def onRequestVoteReply (nowMs : Nat) (reply : RequestVoteReply) (n : RaftNode) :
    Option Nat × RaftNode :=
  if n.role ≠ .kCandidate then (none, n)
  else if n.term < reply.term then
    (none, { n with term := reply.term, role := .kFollower, votedFor := -1,
                    votesReceived := 0 })
  else if reply.voteGranted = false ∨ reply.term ≠ n.term then (none, n)
  else
    let n := { n with votesReceived := n.votesReceived + 1 }
    if n.majorityCount ≤ n.votesReceived then
      (some n.term, { n with role := .kLeader, lastHeartbeatMs := nowMs })
    else (none, n)

/-- `OnAppendEntries`. -/
def onAppendEntries (nowMs : Nat) (req : AppendEntries) (n : RaftNode) : RaftNode :=
  if req.term < n.term then n
  else { n with term := req.term, role := .kFollower, votedFor := req.leaderId,
                lastHeartbeatMs := nowMs }

end RaftNode

end VaultKV
