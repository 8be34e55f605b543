import VaultKV.Raft.Model
import VaultKV.Lib.Trace

/-!
# Raft — one node under any calls (`raft.cpp`)

A node as its callers see it: `Tick`, `StartElection` and the three message
handlers, in any order, with any arguments and at ANY times. `Tick` is given
a time point that its caller read earlier; the other calls read the clock
themselves. Nothing orders the two readings, and the peer list has any
length, so `MajorityCount` is kept as the `int` that the source casts it to.

Two questions are settled over whole runs: whether an election waits for the
timeout to pass since the last heartbeat, and whether a node's role says how
many votes it has.
-/

namespace VaultKV

open Lib

/-! ## Clock readings and drawn timeouts -/

/-- `std::chrono::steady_clock::time_point`: nanoseconds in a signed 64-bit
count. -/
structure TimePoint where
  ns : Int
  lower : -2 ^ 63 ≤ ns
  upper : ns < 2 ^ 63

namespace TimePoint

/-- `duration_cast<milliseconds>`, which rounds towards zero. -/
def ms (t : TimePoint) : Int := t.ns.tdiv 1000000

/-- `to_ms`: the same number as an unsigned one. -/
def toMs (t : TimePoint) : Nat := (t.ms % 2 ^ 64).toNat

theorem natAbs_ms_lt (t : TimePoint) : t.ms.natAbs < 2 ^ 44 := by
  have hns : t.ns.natAbs ≤ 2 ^ 63 := by
    have := t.lower
    have := t.upper
    omega
  have hms : t.ms.natAbs = t.ns.natAbs / 1000000 := Int.natAbs_tdiv t.ns 1000000
  omega

end TimePoint

/-- A value of `RandomizedElectionTimeoutMs`. -/
structure ElectionTimeout where
  ms : Nat
  least : 150 ≤ ms
  most : ms ≤ 300

/-! ## The calls -/

/-- A call, with the clock reading it uses and the timeout it would draw. -/
inductive NodeCall where
  | tick (now : TimePoint) (timeout : ElectionTimeout)
  | startElection (now : TimePoint) (timeout : ElectionTimeout)
  | onRequestVote (now : TimePoint) (req : RequestVote)
  | onRequestVoteReply (now : TimePoint) (reply : RequestVoteReply)
  | onAppendEntries (now : TimePoint) (req : AppendEntries)

namespace RaftNode

/-- `MajorityCount` as the source returns it, cast to `int`. -/
def majorityInt (n : RaftNode) : Int := Int.bmod (n.majorityCount : Int) (2 ^ 32)

/-- `OnRequestVoteReply` with the `int` comparison of the source. -/
def onRequestVoteReplyInt (nowMs : Nat) (reply : RequestVoteReply) (n : RaftNode) :
    Option Nat × RaftNode :=
  if n.role ≠ .kCandidate then (none, n)
  else if n.term < reply.term then
    (none, { n with term := reply.term, role := .kFollower, votedFor := -1,
                    votesReceived := 0 })
  else if reply.voteGranted = false ∨ reply.term ≠ n.term then (none, n)
  else
    let n := { n with votesReceived := n.votesReceived + 1 }
    if n.majorityInt ≤ n.votesReceived then
      (some n.term, { n with role := .kLeader, lastHeartbeatMs := nowMs })
    else (none, n)

theorem majorityInt_lt (n : RaftNode) : n.majorityInt < 2 ^ 31 := by
  have hlt : n.majorityInt < (((2 ^ 32 : Nat) : Int) + 1) / 2 := Int.bmod_lt (by decide)
  omega

/-- Up to here the cast changes nothing. -/
theorem majorityInt_eq {n : RaftNode} (h : n.peers.length < 2 ^ 32 - 3) :
    n.majorityInt = n.majorityCount := by
  have hcount : n.majorityCount < 2 ^ 31 := by
    unfold majorityCount
    omega
  exact Int.bmod_eq_of_le (by omega) (by omega)

/-- **In a cluster of any size one meets**, the handler is the one of the
cluster's model. -/
theorem onRequestVoteReplyInt_eq {n : RaftNode} (h : n.peers.length < 2 ^ 32 - 3)
    (nowMs : Nat) (reply : RequestVoteReply) :
    n.onRequestVoteReplyInt nowMs reply = n.onRequestVoteReply nowMs reply := by
  have hmaj : ∀ votes, RaftNode.majorityInt { n with votesReceived := votes }
      = RaftNode.majorityCount { n with votesReceived := votes } :=
    fun votes => majorityInt_eq h
  simp only [onRequestVoteReplyInt, onRequestVoteReply, hmaj, Int.ofNat_le]

/-- The node after a call. -/
def call (n : RaftNode) : NodeCall → RaftNode
  | .tick now timeout => (n.tick now.toMs timeout.ms).2
  | .startElection now timeout => (n.startElectionLocked now.toMs timeout.ms).2
  | .onRequestVote now req => (n.onRequestVote now.toMs req).2
  | .onRequestVoteReply now reply => (n.onRequestVoteReplyInt now.toMs reply).2
  | .onAppendEntries now req => n.onAppendEntries now.toMs req

/-- The node after calls, in their order. -/
def calls (n : RaftNode) (cs : List NodeCall) : RaftNode := cs.foldl call n

/-! ## What each handler can do -/

/-- **A tick** elects, sends a heartbeat, or does nothing. -/
theorem tick_cases (n : RaftNode) (nowMs timeoutMs : Nat) :
    (n.electionDue nowMs = true ∧
      n.tick nowMs timeoutMs = (some (.requestVote (n.startElectionLocked nowMs timeoutMs).1),
        (n.startElectionLocked nowMs timeoutMs).2)) ∨
    (n.electionDue nowMs = false ∧ n.heartbeatDue nowMs = true ∧
      n.tick nowMs timeoutMs = (some (.heartbeat { term := n.term, leaderId := n.myId }),
        { n with lastHeartbeatMs := nowMs })) ∨
    (n.electionDue nowMs = false ∧ n.heartbeatDue nowMs = false ∧
      n.tick nowMs timeoutMs = (none, n)) := by
  unfold tick
  cases helect : n.electionDue nowMs with
  | true => exact Or.inl ⟨rfl, rfl⟩
  | false =>
      cases hbeat : n.heartbeatDue nowMs with
      | true => exact Or.inr (Or.inl ⟨rfl, rfl, rfl⟩)
      | false => exact Or.inr (Or.inr ⟨rfl, rfl, rfl⟩)

/-- **A vote request** is refused by a node that keeps its office, makes a
node of an older term a follower, or is granted. -/
theorem onRequestVote_cases (n : RaftNode) (nowMs : Nat) (req : RequestVote) :
    ((n.onRequestVote nowMs req).1.voteGranted = false ∧ (n.onRequestVote nowMs req).2 = n) ∨
    ((n.onRequestVote nowMs req).1.voteGranted = false ∧
      (n.onRequestVote nowMs req).2
        = { n with term := req.term, role := .kFollower, votedFor := -1 }) ∨
    ((n.onRequestVote nowMs req).1.voteGranted = true ∧
      (n.onRequestVote nowMs req).2
        = { n with term := req.term, role := .kFollower, votedFor := req.candidateId,
                   lastHeartbeatMs := nowMs }) ∨
    ((n.onRequestVote nowMs req).1.voteGranted = true ∧
      (n.votedFor = -1 ∨ n.votedFor = req.candidateId) ∧
      (n.onRequestVote nowMs req).2
        = { n with votedFor := req.candidateId, lastHeartbeatMs := nowMs }) := by
  unfold onRequestVote
  by_cases hold : req.term < n.term
  · rw [if_pos hold]
    exact Or.inl ⟨rfl, rfl⟩
  rw [if_neg hold]
  by_cases hnew : n.term < req.term
  · rw [if_pos hnew]
    dsimp only
    split
    · exact Or.inr (Or.inr (Or.inl ⟨rfl, rfl⟩))
    · exact Or.inr (Or.inl ⟨rfl, rfl⟩)
  · rw [if_neg hnew]
    dsimp only
    split
    · rename_i hgrant
      have hfree : n.votedFor = -1 ∨ n.votedFor = req.candidateId := by
        simp only [Bool.and_eq_true, Bool.or_eq_true, beq_iff_eq] at hgrant
        exact hgrant.1
      exact Or.inr (Or.inr (Or.inr ⟨rfl, hfree, rfl⟩))
    · exact Or.inl ⟨rfl, rfl⟩

/-- **A vote reply** is ignored, makes a candidate give way, or is counted;
the count may win the election. -/
theorem onRequestVoteReplyInt_cases (n : RaftNode) (nowMs : Nat) (reply : RequestVoteReply) :
    n.onRequestVoteReplyInt nowMs reply = (none, n) ∨
    n.onRequestVoteReplyInt nowMs reply
      = (none, { n with term := reply.term, role := .kFollower, votedFor := -1,
                        votesReceived := 0 }) ∨
    (n.role = .kCandidate ∧ n.majorityInt ≤ (n.votesReceived + 1 : Nat) ∧
      n.onRequestVoteReplyInt nowMs reply
        = (some n.term, { n with votesReceived := n.votesReceived + 1, role := .kLeader,
                                 lastHeartbeatMs := nowMs })) ∨
    (n.role = .kCandidate ∧ ((n.votesReceived + 1 : Nat) : Int) < n.majorityInt ∧
      n.onRequestVoteReplyInt nowMs reply
        = (none, { n with votesReceived := n.votesReceived + 1 })) := by
  unfold onRequestVoteReplyInt
  by_cases hrole : n.role = .kCandidate
  swap
  · rw [if_pos hrole]
    exact Or.inl rfl
  rw [if_neg (not_not_intro hrole)]
  by_cases hlt : n.term < reply.term
  · rw [if_pos hlt]
    exact Or.inr (Or.inl rfl)
  rw [if_neg hlt]
  by_cases hno : reply.voteGranted = false ∨ reply.term ≠ n.term
  · rw [if_pos hno]
    exact Or.inl rfl
  rw [if_neg hno]
  by_cases hwon : n.majorityInt ≤ (n.votesReceived + 1 : Nat)
  · exact Or.inr (Or.inr (Or.inl ⟨hrole, hwon, if_pos hwon⟩))
  · exact Or.inr (Or.inr (Or.inr ⟨hrole, Int.not_le.mp hwon, if_neg hwon⟩))

/-! ## The last refresh -/

/-- The time a call writes to `last_heartbeat_ms_`, if it writes one. -/
def refresh (n : RaftNode) : NodeCall → Option TimePoint
  | .tick now _ => if n.electionDue now.toMs || n.heartbeatDue now.toMs then some now else none
  | .startElection now _ => some now
  | .onRequestVote now req =>
      if (n.onRequestVote now.toMs req).1.voteGranted then some now else none
  | .onRequestVoteReply now reply =>
      if (n.onRequestVoteReplyInt now.toMs reply).1.isSome then some now else none
  | .onAppendEntries now req => if req.term < n.term then none else some now

/-- **Nothing else is written there.** -/
theorem lastHeartbeatMs_call (n : RaftNode) (c : NodeCall) :
    (n.call c).lastHeartbeatMs = (n.refresh c).elim n.lastHeartbeatMs TimePoint.toMs := by
  cases c with
  | tick now timeout =>
      rcases n.tick_cases now.toMs timeout.ms with
        ⟨helect, htick⟩ | ⟨helect, hbeat, htick⟩ | ⟨helect, hbeat, htick⟩
      · simp [call, refresh, htick, helect, startElectionLocked]
      · simp [call, refresh, htick, helect, hbeat]
      · simp [call, refresh, htick, helect, hbeat]
  | startElection now timeout => rfl
  | onRequestVote now req =>
      rcases n.onRequestVote_cases now.toMs req with
        ⟨hno, hreq⟩ | ⟨hno, hreq⟩ | ⟨hyes, hreq⟩ | ⟨hyes, _, hreq⟩
      · simp [call, refresh, hno, hreq]
      · simp [call, refresh, hno, hreq]
      · simp [call, refresh, hyes, hreq]
      · simp [call, refresh, hyes, hreq]
  | onRequestVoteReply now reply =>
      rcases n.onRequestVoteReplyInt_cases now.toMs reply with
        hreply | hreply | ⟨_, _, hreply⟩ | ⟨_, _, hreply⟩ <;>
        simp [call, refresh, hreply]
  | onAppendEntries now req =>
      by_cases hold : req.term < n.term <;> simp [call, refresh, onAppendEntries, hold]

/-- A drawn timeout is at most 300 ms, and only an election draws another. -/
theorem electionTimeoutMs_call {n : RaftNode} (h : n.electionTimeoutMs ≤ 300) (c : NodeCall) :
    (n.call c).electionTimeoutMs ≤ 300 := by
  cases c with
  | tick now timeout =>
      rcases n.tick_cases now.toMs timeout.ms with ⟨_, htick⟩ | ⟨_, _, htick⟩ | ⟨_, _, htick⟩
      · rw [call, htick]
        exact timeout.most
      · rw [call, htick]
        exact h
      · rw [call, htick]
        exact h
  | startElection now timeout => exact timeout.most
  | onRequestVote now req =>
      rcases n.onRequestVote_cases now.toMs req with
        ⟨_, hreq⟩ | ⟨_, hreq⟩ | ⟨_, hreq⟩ | ⟨_, _, hreq⟩ <;>
        rw [call, hreq] <;> exact h
  | onRequestVoteReply now reply =>
      rcases n.onRequestVoteReplyInt_cases now.toMs reply with
        hreply | hreply | ⟨_, _, hreply⟩ | ⟨_, _, hreply⟩ <;>
        rw [call, hreply] <;> exact h
  | onAppendEntries now req =>
      by_cases hold : req.term < n.term <;> simpa [call, onAppendEntries, hold] using h

/-! ## An election waits for the timeout -/

/-- `Tick` starts an election. -/
def startsElection (n : RaftNode) (now : TimePoint) (timeout : ElectionTimeout) : Bool :=
  match (n.tick now.toMs timeout.ms).1 with
  | some (.requestVote _) => true
  | _ => false

theorem startsElection_eq (n : RaftNode) (now : TimePoint) (timeout : ElectionTimeout) :
    n.startsElection now timeout = n.electionDue now.toMs := by
  rcases n.tick_cases now.toMs timeout.ms with
    ⟨helect, htick⟩ | ⟨helect, _, htick⟩ | ⟨helect, _, htick⟩ <;>
    rw [startsElection, htick, helect]

/-- **The unsigned difference** is the integer one modulo `2 ^ 64`. -/
theorem elapsed_eq {n : RaftNode} {h : TimePoint} (hlast : n.lastHeartbeatMs = h.toMs)
    (now : TimePoint) : (n.elapsed now.toMs : Int) = (now.ms - h.ms) % 2 ^ 64 := by
  unfold elapsed
  rw [hlast]
  unfold TimePoint.toMs
  omega

end RaftNode

/-- A node with the time of its last refresh. -/
structure Timed where
  node : RaftNode
  refreshed : Option TimePoint := none

namespace Timed

def step (c : NodeCall) (s : Timed) : Timed where
  node := s.node.call c
  refreshed := (s.node.refresh c).or s.refreshed

/-- A `Tick` of a refreshed node starts an election only when more than the
election timeout has passed since the refresh, as a difference of integers. -/
def Waits : NodeCall → Timed → Prop
  | .tick now timeout, ⟨n, some h⟩ =>
      n.startsElection now timeout = true → (n.electionTimeoutMs : Int) < now.ms - h.ms
  | _, _ => True

/-- A `Tick` of a refreshed follower or candidate is not given a time point
from before the refresh. -/
def NotBefore : NodeCall → Timed → Prop
  | .tick now _, ⟨n, some h⟩ => n.role = .kLeader ∨ h.ms ≤ now.ms
  | _, _ => True

/-- What a node knows of its refresh. -/
structure Recorded (s : Timed) : Prop where
  timeout : s.node.electionTimeoutMs ≤ 300
  last : ∀ h, s.refreshed = some h → s.node.lastHeartbeatMs = h.toMs

theorem Recorded.step {s : Timed} (h : s.Recorded) (c : NodeCall) : (s.step c).Recorded where
  timeout := RaftNode.electionTimeoutMs_call h.timeout c
  last := by
    intro t ht
    show (s.node.call c).lastHeartbeatMs = t.toMs
    rw [RaftNode.lastHeartbeatMs_call]
    change (s.node.refresh c).or s.refreshed = some t at ht
    cases hnew : s.node.refresh c with
    | none =>
        rw [hnew] at ht
        exact h.last t ht
    | some t' =>
        rw [hnew] at ht
        cases ht
        rfl

/-- **One tick.** Readings in order give their true difference. A reading
from before the refresh wraps round to almost `2 ^ 64`, past every timeout. -/
theorem Recorded.waits_iff {s : Timed} (h : s.Recorded) (c : NodeCall) :
    Waits c s ↔ NotBefore c s := by
  obtain ⟨n, refreshed⟩ := s
  cases c with
  | tick now timeout =>
      cases refreshed with
      | none => exact Iff.rfl
      | some t =>
          have hlast : n.lastHeartbeatMs = t.toMs := h.last t rfl
          have helapsed := RaftNode.elapsed_eq hlast now
          have htimeout : n.electionTimeoutMs ≤ 300 := h.timeout
          have hnow := now.natAbs_ms_lt
          have ht := t.natAbs_ms_lt
          show (_ → _) ↔ (_ ∨ _)
          rw [RaftNode.startsElection_eq, RaftNode.electionDue]
          -- both counts are below 2 ^ 44, so a negative difference wraps far past 300
          cases hrole : n.role with
          | kLeader => simp
          | kFollower => simp; omega
          | kCandidate => simp; omega
  | startElection now timeout => exact Iff.rfl
  | onRequestVote now req => exact Iff.rfl
  | onRequestVoteReply now reply => exact Iff.rfl
  | onAppendEntries now req => exact Iff.rfl

instance Waits.decidable : (c : NodeCall) → (s : Timed) → Decidable (Waits c s)
  | .tick _ _, ⟨_, some _⟩ => inferInstanceAs (Decidable (_ → _))
  | .tick _ _, ⟨_, none⟩ => isTrue trivial
  | .startElection _ _, _ => isTrue trivial
  | .onRequestVote _ _, _ => isTrue trivial
  | .onRequestVoteReply _ _, _ => isTrue trivial
  | .onAppendEntries _ _, _ => isTrue trivial

instance NotBefore.decidable : (c : NodeCall) → (s : Timed) → Decidable (NotBefore c s)
  | .tick _ _, ⟨_, some _⟩ => inferInstanceAs (Decidable (_ ∨ _))
  | .tick _ _, ⟨_, none⟩ => isTrue trivial
  | .startElection _ _, _ => isTrue trivial
  | .onRequestVote _ _, _ => isTrue trivial
  | .onRequestVoteReply _ _, _ => isTrue trivial
  | .onAppendEntries _ _, _ => isTrue trivial

/-- The constructed node: no call has written `last_heartbeat_ms_` yet. -/
def fresh (id : Int) (peers : List Int) (timeout : ElectionTimeout) : Timed :=
  { node := RaftNode.new id peers timeout.ms }

theorem recorded_fresh (id : Int) (peers : List Int) (timeout : ElectionTimeout) :
    (fresh id peers timeout).Recorded where
  timeout := timeout.most
  last := by
    intro h hnone
    cases hnone

/-- **No election while heartbeats are fresh** — along the runs whose ticks
are not given a time point from before the last refresh, and along no
others. -/
theorem elections_wait_iff (id : Int) (peers : List Int) (timeout : ElectionTimeout)
    (cs : List NodeCall) :
    Along step Waits cs (fresh id peers timeout) ↔
      Along step NotBefore cs (fresh id peers timeout) :=
  along_congr (I := Recorded) (fun c _ h => h.step c) (fun c _ h => h.waits_iff c) cs
    (recorded_fresh id peers timeout)

def atMs (ms : Fin 10000) : TimePoint where
  ns := ms * 1000000
  lower := by omega
  upper := by omega

def twoHundred : ElectionTimeout := ⟨200, by decide, by decide⟩

/-- A heartbeat handled at 1000 ms, then a tick. -/
def heartbeatThenTick (ms : Fin 10000) : List NodeCall :=
  [.onAppendEntries (atMs 1000) ⟨1, 2⟩, .tick (atMs ms) twoHundred]

/-- A tick 201 ms later may elect: it is in order. -/
theorem laterTick_waits :
    Along step Waits (heartbeatThenTick 1201) (fresh 1 [2, 3] twoHundred) := by
  have horder : Along step NotBefore (heartbeatThenTick 1201) (fresh 1 [2, 3] twoHundred) := by
    decide +kernel
  exact (elections_wait_iff 1 [2, 3] twoHundred (heartbeatThenTick 1201)).mpr horder

/-- **A tick whose time point was read one millisecond before the heartbeat
was handled** starts an election. -/
theorem earlierTick_elects :
    ¬ Along step Waits (heartbeatThenTick 999) (fresh 1 [2, 3] twoHundred) := by
  decide +kernel

end Timed

/-! ## A role says how many votes there are -/

namespace RaftNode

/-- A candidate lacks votes; a leader has them, and voted for itself. -/
structure Earned (n : RaftNode) : Prop where
  candidate : n.role = .kCandidate → (n.votesReceived : Int) < n.majorityInt
  leader : n.role = .kLeader → n.majorityInt ≤ n.votesReceived ∧ n.votedFor = n.myId

/-- What makes `Earned` inductive. A candidate votes for itself, and its id
is not the `-1` that `OnRequestVote` takes for "no vote yet". -/
structure Campaign (n : RaftNode) : Prop where
  id : 0 ≤ n.myId
  quorum : 1 < n.majorityInt
  own : n.role ≠ .kFollower → n.votedFor = n.myId
  candidate : n.role = .kCandidate → (n.votesReceived : Int) < n.majorityInt
  leader : n.role = .kLeader → n.majorityInt ≤ n.votesReceived

variable {n n' : RaftNode}

theorem majorityInt_congr (h : n'.peers = n.peers) : n'.majorityInt = n.majorityInt := by
  unfold majorityInt majorityCount
  rw [h]

theorem Campaign.earned (h : n.Campaign) : n.Earned where
  candidate := h.candidate
  leader := by
    intro hlead
    exact ⟨h.leader hlead, h.own (by simp [hlead])⟩

/-- A node that follows owes nothing. -/
theorem Campaign.follow (h : n.Campaign) (hid : n'.myId = n.myId) (hpeers : n'.peers = n.peers)
    (hrole : n'.role = .kFollower) : n'.Campaign := by
  constructor
  · rw [hid]; exact h.id
  · rw [majorityInt_congr hpeers]; exact h.quorum
  · intro hne; exact absurd hrole hne
  · simp [hrole]
  · simp [hrole]

/-- A node that keeps its office, its votes and its own vote. -/
theorem Campaign.keep (h : n.Campaign) (hid : n'.myId = n.myId) (hpeers : n'.peers = n.peers)
    (hrole : n'.role = n.role) (hvotes : n'.votesReceived = n.votesReceived)
    (hown : n.role ≠ .kFollower → n'.votedFor = n.votedFor) : n'.Campaign := by
  have hmaj := majorityInt_congr hpeers
  constructor
  · rw [hid]; exact h.id
  · rw [hmaj]; exact h.quorum
  · rw [hrole, hid]
    intro hne
    rw [hown hne]
    exact h.own hne
  · rw [hrole, hvotes, hmaj]; exact h.candidate
  · rw [hrole, hvotes, hmaj]; exact h.leader

/-- **An election** starts with one vote, which must not be enough. -/
theorem Campaign.startElectionLocked (h : n.Campaign) (nowMs timeoutMs : Nat) :
    (n.startElectionLocked nowMs timeoutMs).2.Campaign where
  id := h.id
  quorum := h.quorum
  own := fun _ => rfl
  candidate := fun _ => h.quorum
  leader := by
    intro hlead
    cases hlead

theorem Campaign.tick (h : n.Campaign) (nowMs timeoutMs : Nat) :
    (n.tick nowMs timeoutMs).2.Campaign := by
  rcases n.tick_cases nowMs timeoutMs with ⟨_, htick⟩ | ⟨_, _, htick⟩ | ⟨_, _, htick⟩ <;>
    rw [htick]
  · exact h.startElectionLocked nowMs timeoutMs
  · exact h.keep rfl rfl rfl rfl fun _ => rfl
  · exact h

theorem Campaign.onRequestVote (h : n.Campaign) (nowMs : Nat) (req : RequestVote) :
    (n.onRequestVote nowMs req).2.Campaign := by
  rcases n.onRequestVote_cases nowMs req with
    ⟨_, hreq⟩ | ⟨_, hreq⟩ | ⟨_, hreq⟩ | ⟨_, hfree, hreq⟩ <;> rw [hreq]
  · exact h
  · exact h.follow rfl rfl rfl
  · exact h.follow rfl rfl rfl
  · -- granted in the node's own term: a node in office can only grant its own request again
    refine h.keep rfl rfl rfl rfl fun hne => ?_
    have hid := h.id
    have hown := h.own hne
    show req.candidateId = n.votedFor
    omega

theorem Campaign.onRequestVoteReplyInt (h : n.Campaign) (nowMs : Nat)
    (reply : RequestVoteReply) : (n.onRequestVoteReplyInt nowMs reply).2.Campaign := by
  rcases n.onRequestVoteReplyInt_cases nowMs reply with
    hreply | hreply | ⟨hrole, hwon, hreply⟩ | ⟨hrole, hfew, hreply⟩ <;> rw [hreply]
  · exact h
  · exact h.follow rfl rfl rfl
  · -- only a candidate gets here, so the new leader's own vote is the candidate's
    refine ⟨h.id, h.quorum, fun _ => h.own (by simp [hrole]), ?_, fun _ => hwon⟩
    intro hcand
    cases hcand
  · refine ⟨h.id, h.quorum, h.own, fun _ => hfew, ?_⟩
    intro hlead
    cases hrole.symm.trans hlead

theorem Campaign.onAppendEntries (h : n.Campaign) (nowMs : Nat) (req : AppendEntries) :
    (n.onAppendEntries nowMs req).Campaign := by
  unfold RaftNode.onAppendEntries
  split
  · exact h
  · exact h.follow rfl rfl rfl

theorem Campaign.call (h : n.Campaign) (c : NodeCall) : (n.call c).Campaign := by
  cases c with
  | tick now timeout => exact h.tick now.toMs timeout.ms
  | startElection now timeout => exact h.startElectionLocked now.toMs timeout.ms
  | onRequestVote now req => exact h.onRequestVote now.toMs req
  | onRequestVoteReply now reply => exact h.onRequestVoteReplyInt now.toMs reply
  | onAppendEntries now req => exact h.onAppendEntries now.toMs req

/-- The constructed node follows. -/
theorem campaign_new {id : Int} (hid : 0 ≤ id) {peers : List Int} {timeoutMs : Nat}
    (hquorum : 1 < (new id peers timeoutMs).majorityInt) : (new id peers timeoutMs).Campaign := by
  constructor
  · exact hid
  · exact hquorum
  · intro hne; exact absurd rfl hne
  · intro hcand; cases hcand
  · intro hlead; cases hlead

theorem one_lt_majorityInt_iff (h : n.peers.length < 2 ^ 32 - 3) :
    1 < n.majorityInt ↔ n.peers ≠ [] := by
  rw [majorityInt_eq h, majorityCount, ← List.length_pos_iff]
  omega

/-- **A role says how many votes there are**, in every state that calls lead
to, exactly when one vote is no majority: for a peer list of any length one
meets, when it is not empty. -/
theorem role_earned_iff (id : Int) (hid : 0 ≤ id) (peers : List Int)
    (timeout : ElectionTimeout) :
    ((∀ cs, ((new id peers timeout.ms).calls cs).Earned) ↔
      1 < (new id peers timeout.ms).majorityInt) ∧
    (peers.length < 2 ^ 32 - 3 →
      (1 < (new id peers timeout.ms).majorityInt ↔ peers ≠ [])) := by
  refine ⟨⟨?_, ?_⟩, ?_⟩
  · -- the first election already leaves a candidate with one vote
    intro hall
    exact (hall [.startElection ⟨0, by decide, by decide⟩ timeout]).candidate rfl
  · intro hquorum cs
    have hcampaign := cs.foldlRecOn (motive := Campaign) call (campaign_new hid hquorum)
      (fun _ h c _ => h.call c)
    exact hcampaign.earned
  · intro hlen
    exact one_lt_majorityInt_iff (n := new id peers timeout.ms) hlen

/-- A node with two peers. -/
theorem threeNodes_earned :
    ([2, 3] : List Int) ≠ [] ∧ ∀ cs, ((new 1 [2, 3] 200).calls cs).Earned :=
  ⟨by decide, (role_earned_iff 1 (by decide) [2, 3] Timed.twoHundred).1.mpr (by decide)⟩

/-- **A node without peers** stays a candidate with the one vote that is its
majority: `StartElection` does not compare. -/
theorem loneNode_not_earned :
    ¬ ((new 1 [] 200).calls [.startElection (Timed.atMs 0) Timed.twoHundred]).Earned := by
  intro h
  exact absurd (h.candidate rfl) (by decide)

/-! ## The counter fits its type -/

/-- `votes_received_` is an `int`: a candidate has room for one more. -/
structure VotesFit (n : RaftNode) : Prop where
  range : n.votesReceived < 2 ^ 31
  room : n.role = .kCandidate → n.votesReceived = 1 ∨ (n.votesReceived : Int) < n.majorityInt

theorem VotesFit.keep (h : n.VotesFit) (hpeers : n'.peers = n.peers)
    (hrole : n'.role = n.role ∨ n'.role = .kFollower)
    (hvotes : n'.votesReceived = n.votesReceived) : n'.VotesFit := by
  constructor
  · rw [hvotes]; exact h.range
  · rw [hvotes, majorityInt_congr hpeers]
    intro hcand
    rcases hrole with hrole | hrole
    · exact h.room (hrole ▸ hcand)
    · cases hrole.symm.trans hcand

theorem votesFit_startElectionLocked (n : RaftNode) (nowMs timeoutMs : Nat) :
    (n.startElectionLocked nowMs timeoutMs).2.VotesFit where
  range := show 1 < 2 ^ 31 by decide
  room := fun _ => Or.inl rfl

theorem VotesFit.onRequestVoteReplyInt (h : n.VotesFit) (nowMs : Nat)
    (reply : RequestVoteReply) : (n.onRequestVoteReplyInt nowMs reply).2.VotesFit := by
  have hmaj := n.majorityInt_lt
  rcases n.onRequestVoteReplyInt_cases nowMs reply with
    hreply | hreply | ⟨hrole, _, hreply⟩ | ⟨hrole, hfew, hreply⟩ <;> rw [hreply]
  · exact h
  · refine ⟨show 0 < 2 ^ 31 by decide, fun hcand => ?_⟩
    cases hcand
  · refine ⟨?_, fun hcand => ?_⟩
    · -- the first vote, or one below a majority that is an `int` itself
      have hroom := h.room hrole
      show n.votesReceived + 1 < 2 ^ 31
      omega
    · cases hcand
  · refine ⟨?_, fun _ => Or.inr hfew⟩
    show n.votesReceived + 1 < 2 ^ 31
    omega

theorem VotesFit.call (h : n.VotesFit) (c : NodeCall) : (n.call c).VotesFit := by
  cases c with
  | tick now timeout =>
      rcases n.tick_cases now.toMs timeout.ms with ⟨_, htick⟩ | ⟨_, _, htick⟩ | ⟨_, _, htick⟩ <;>
        rw [RaftNode.call, htick]
      · exact n.votesFit_startElectionLocked now.toMs timeout.ms
      · exact h.keep rfl (Or.inl rfl) rfl
      · exact h
  | startElection now timeout => exact n.votesFit_startElectionLocked now.toMs timeout.ms
  | onRequestVote now req =>
      rcases n.onRequestVote_cases now.toMs req with
        ⟨_, hreq⟩ | ⟨_, hreq⟩ | ⟨_, hreq⟩ | ⟨_, _, hreq⟩ <;> rw [RaftNode.call, hreq]
      · exact h
      · exact h.keep rfl (Or.inr rfl) rfl
      · exact h.keep rfl (Or.inr rfl) rfl
      · exact h.keep rfl (Or.inl rfl) rfl
  | onRequestVoteReply now reply => exact h.onRequestVoteReplyInt now.toMs reply
  | onAppendEntries now req =>
      rw [RaftNode.call, RaftNode.onAppendEntries]
      split
      · exact h
      · exact h.keep rfl (Or.inr rfl) rfl

/-- **`++votes_received_` never overflows**, whatever the peers and the
calls, so the count is the number the model has. -/
theorem votesReceived_calls_lt (id : Int) (peers : List Int) (timeoutMs : Nat)
    (cs : List NodeCall) : ((new id peers timeoutMs).calls cs).votesReceived < 2 ^ 31 := by
  have hnew : (new id peers timeoutMs).VotesFit := by
    refine ⟨show 0 < 2 ^ 31 by decide, fun hcand => ?_⟩
    cases hcand
  have hfit := cs.foldlRecOn (motive := VotesFit) call hnew (fun _ h c _ => h.call c)
  exact hfit.range

end RaftNode

end VaultKV
