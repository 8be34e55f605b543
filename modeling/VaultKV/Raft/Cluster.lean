import VaultKV.Raft.Model

/-!
# Raft — a cluster and its network

Every node of the cluster has all the others as its peers. A message in
transit may be delivered in any order or never; a network that duplicates
may first add a copy of it. What the cluster is judged by is written down
on the side (`past`): the votes granted, a node's vote for itself included,
the votes counted, the heartbeats accepted and the nodes that became
leader. No handler reads it.
-/

namespace VaultKV

open Lib

/-- A message in transit, with its sender and its receiver. -/
inductive Packet where
  | requestVote (src dst : Int) (req : RequestVote)
  | voteReply (src dst : Int) (reply : RequestVoteReply)
  | appendEntries (src dst : Int) (req : AppendEntries)
  deriving DecidableEq, Repr

/-- What happens next. -/
inductive Action where
  | tick (node : Int) (nowMs timeoutMs : Nat)
  | startElection (node : Int) (nowMs timeoutMs : Nat)
  | deliver (p : Packet) (nowMs : Nat)
  | duplicate (p : Packet)
  deriving DecidableEq, Repr

structure Cluster where
  nodes : Int → RaftNode
  net : List Packet := []
  past : Record Int := {}

namespace Cluster

/-- The constructors have run. -/
def initial (ids : List Int) (timeouts : Int → Nat) : Cluster :=
  { nodes := fun i => RaftNode.new i (ids.erase i) (timeouts i) }

/-- A node has run, and its broadcaster sent what it was given to every
peer. -/
def after (s : Cluster) (i : Int) : Option Broadcast × RaftNode → Cluster
  | (none, n) => { s with nodes := Function.update s.nodes i n }
  | (some (.requestVote rv), n) =>
      { nodes := Function.update s.nodes i n
        net := s.net ++ n.peers.map (Packet.requestVote i · rv)
        past := { s.past with votes := ⟨i, rv.candidateId, rv.term⟩ :: s.past.votes } }
  | (some (.heartbeat ae), n) =>
      { s with nodes := Function.update s.nodes i n
               net := s.net ++ n.peers.map (Packet.appendEntries i · ae) }

/-- The receiver of a message that left the network handles it; the reply to
a vote request goes to the candidate it came from. -/
def receive (s : Cluster) (nowMs : Nat) : Packet → Cluster
  | .requestVote c v req =>
      let r := (s.nodes v).onRequestVote nowMs req
      { nodes := Function.update s.nodes v r.2
        net := s.net ++ [.voteReply v c r.1]
        past := { s.past with
          votes := if r.1.voteGranted then ⟨v, req.candidateId, req.term⟩ :: s.past.votes
            else s.past.votes } }
  | .voteReply v c reply =>
      let r := (s.nodes c).onRequestVoteReply nowMs reply
      { s with
        nodes := Function.update s.nodes c r.2
        past := { s.past with
          counted := if (s.nodes c).counts reply then ⟨v, c, reply.term⟩ :: s.past.counted
            else s.past.counted
          led := match r.1 with
            | some t => (c, t) :: s.past.led
            | none => s.past.led } }
  | .appendEntries _ v req =>
      { s with
        nodes := Function.update s.nodes v ((s.nodes v).onAppendEntries nowMs req)
        past := { s.past with
          heard := if req.term < (s.nodes v).term then s.past.heard
            else ⟨v, req.leaderId, req.term⟩ :: s.past.heard } }

/-- One action. A node outside the cluster does nothing, and a message that
is not in transit is not delivered. -/
def step (ids : List Int) (s : Cluster) : Action → Cluster
  | .tick i nowMs timeoutMs =>
      if i ∈ ids then s.after i ((s.nodes i).tick nowMs timeoutMs) else s
  | .startElection i nowMs timeoutMs =>
      if i ∈ ids then
        let r := (s.nodes i).startElectionLocked nowMs timeoutMs
        s.after i (some (.requestVote r.1), r.2)
      else s
  | .deliver p nowMs =>
      if p ∈ s.net then receive { s with net := s.net.erase p } nowMs p else s
  | .duplicate p => if p ∈ s.net then { s with net := s.net ++ [p] } else s

def run (ids : List Int) (s : Cluster) (acts : List Action) : Cluster :=
  acts.foldl (step ids) s

/-- The term counter does not wrap around in this action. -/
def Fits (s : Cluster) : Action → Prop
  | .tick i nowMs _ =>
      (s.nodes i).electionDue nowMs = true → (s.nodes i).term + 1 < 2 ^ 64
  | .startElection i _ _ => (s.nodes i).term + 1 < 2 ^ 64
  | _ => True

instance (s : Cluster) : (a : Action) → Decidable (s.Fits a)
  | .tick i nowMs _ => inferInstanceAs
      (Decidable ((s.nodes i).electionDue nowMs = true → (s.nodes i).term + 1 < 2 ^ 64))
  | .startElection i _ _ => inferInstanceAs (Decidable ((s.nodes i).term + 1 < 2 ^ 64))
  | .deliver _ _ => isTrue trivial
  | .duplicate _ => isTrue trivial

/-- Terms stay below `2 ^ 64` along the run. -/
def TermsFit (ids : List Int) (s : Cluster) : List Action → Prop
  | [] => True
  | a :: as => s.Fits a ∧ TermsFit ids (s.step ids a) as

instance (ids : List Int) : (acts : List Action) → (s : Cluster) →
    Decidable (TermsFit ids s acts)
  | [], _ => isTrue trivial
  | a :: as, s =>
      @instDecidableAnd _ _ (inferInstanceAs (Decidable (s.Fits a)))
        (instDecidableTermsFit ids as (s.step ids a))

/-- `i` is in role `kLeader` for term `t`. -/
def Leads (s : Cluster) (i : Int) (t : Nat) : Prop :=
  (s.nodes i).role = .kLeader ∧ (s.nodes i).term = t

instance (s : Cluster) (i : Int) (t : Nat) : Decidable (s.Leads i t) :=
  inferInstanceAs (Decidable (_ ∧ _))

end Cluster

end VaultKV
