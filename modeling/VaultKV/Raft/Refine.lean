import VaultKV.Raft.Cluster

/-!
# Raft — the cluster carries out elections

Forgetting clocks and messages turns a cluster into an `Election`
(`Cluster.view`). Every action of the cluster is a legal call there, or
changes nothing (`step_view`): a vote is counted only if it was granted,
because the messages in transit tell the truth (`Packet.Ok`).
-/

namespace VaultKV

open Lib

def RaftRole.office : RaftRole → Office
  | .kFollower => .follower
  | .kCandidate => .candidate
  | .kLeader => .leader

/-- What a node knows about the election; `-1` stands for no vote. -/
def RaftNode.seat (n : RaftNode) : Seat Int where
  office := n.role.office
  term := n.term
  choice := if n.votedFor = -1 then none else some n.votedFor
  tally := n.votesReceived

def Cluster.view (s : Cluster) : Election Int := ⟨fun i => (s.nodes i).seat, s.past⟩

/-- A quorum of the cluster. -/
def quorumOf (ids : List Int) : Nat := ids.length / 2 + 1

/-! ## One node -/

/-- `n` is node `i` of the cluster. -/
structure RaftNode.Member (ids : List Int) (i : Int) (n : RaftNode) : Prop where
  id : n.myId = i
  peers : n.peers = ids.erase i
  lastLogIndex : n.myLastLogIndex = 0
  lastLogTerm : n.myLastLogTerm = 0

variable {ids : List Int} {i : Int} {n : RaftNode}

theorem RaftNode.Member.majorityCount (h : n.Member ids i) (hi : i ∈ ids) :
    n.majorityCount = quorumOf ids := by
  have hpos := List.length_pos_of_mem hi
  rw [RaftNode.majorityCount, h.peers, List.length_erase_of_mem hi, quorumOf]
  omega

theorem choice_of_nonneg {c : Int} (h : 0 ≤ c) :
    (if c = -1 then none else some c) = some c := if_neg (by omega)

/-- Starting an election makes the node a candidate of the next term. -/
theorem RaftNode.seat_startElectionLocked (nowMs timeoutMs : Nat)
    (hfit : n.term + 1 < 2 ^ 64) (hid : 0 ≤ n.myId) :
    (n.startElectionLocked nowMs timeoutMs).2.seat = ⟨.candidate, n.term + 1, some n.myId, 1⟩ ∧
      (n.startElectionLocked nowMs timeoutMs).1.term = n.term + 1 := by
  have hmod : (n.term + 1) % 2 ^ 64 = n.term + 1 := Nat.mod_eq_of_lt hfit
  refine ⟨?_, hmod⟩
  show Seat.mk _ ((n.term + 1) % 2 ^ 64) (if n.myId = -1 then none else some n.myId) 1 = _
  rw [hmod, choice_of_nonneg hid]
  rfl

/-- **A vote request** is granted, or leaves the node as it is. -/
theorem RaftNode.Member.onRequestVote (h : n.Member ids i) (nowMs : Nat) (req : RequestVote) :
    (n.onRequestVote nowMs req = (⟨req.term, true⟩,
        { n with term := req.term
                 role := if n.term < req.term then .kFollower else n.role
                 votedFor := req.candidateId
                 lastHeartbeatMs := nowMs }) ∧
      n.term ≤ req.term ∧
      (n.term = req.term → n.votedFor = -1 ∨ n.votedFor = req.candidateId)) ∨
    (n.onRequestVote nowMs req).1.voteGranted = false ∧
      (n.onRequestVote nowMs req).2 = n ∧
      (n.term ≤ req.term → n.votedFor ≠ req.candidateId) := by
  obtain ⟨myId, peers, role, term, votedFor, votes, beat, timeout, interval, index, logTerm⟩ := n
  obtain rfl : index = 0 := h.lastLogIndex
  obtain rfl : logTerm = 0 := h.lastLogTerm
  -- nobody's log is ahead of an empty one
  have hlog : (decide (0 < req.lastLogTerm) ||
      (req.lastLogTerm == 0 && decide (0 ≤ req.lastLogIndex))) = true := by
    by_cases hz : req.lastLogTerm = 0
    · simp [hz]
    · simp [Nat.pos_of_ne_zero hz]
  unfold RaftNode.onRequestVote
  by_cases hold : req.term < term
  · rw [if_pos hold]
    exact Or.inr ⟨rfl, rfl, fun hle => absurd hle (Nat.not_le.2 hold)⟩
  rw [if_neg hold]
  by_cases hnew : term < req.term
  · simp only [if_pos hnew, hlog]
    exact Or.inl ⟨rfl, by omega, fun heq => by omega⟩
  · obtain rfl : term = req.term := by omega
    simp only [if_neg hnew, hlog, Bool.and_true]
    by_cases hfree : votedFor = -1 ∨ votedFor = req.candidateId
    · rw [if_pos (by simpa using hfree)]
      exact Or.inl ⟨rfl, Nat.le_refl _, fun _ => hfree⟩
    · rw [if_neg (by simpa using hfree)]
      exact Or.inr ⟨rfl, rfl, fun _ hc => hfree (Or.inr hc)⟩

/-- **A reply** is ignored, makes a candidate give way, or is counted. -/
theorem RaftNode.onRequestVoteReply_cases (n : RaftNode) (nowMs : Nat) (reply : RequestVoteReply) :
    (n.counts reply = false ∧ n.onRequestVoteReply nowMs reply = (none, n)) ∨
    (n.counts reply = false ∧ n.term < reply.term ∧
      n.onRequestVoteReply nowMs reply
        = (none, { n with term := reply.term, role := .kFollower, votedFor := -1,
                          votesReceived := 0 })) ∨
    (n.counts reply = true ∧ n.role = .kCandidate ∧ reply = ⟨n.term, true⟩ ∧
      n.onRequestVoteReply nowMs reply
        = if n.majorityCount ≤ n.votesReceived + 1 then
            (some n.term, { n with votesReceived := n.votesReceived + 1, role := .kLeader,
                                   lastHeartbeatMs := nowMs })
          else (none, { n with votesReceived := n.votesReceived + 1 })) := by
  obtain ⟨term, granted⟩ := reply
  unfold RaftNode.onRequestVoteReply RaftNode.counts
  by_cases hrole : n.role = .kCandidate
  swap
  · rw [if_pos hrole]
    exact Or.inl ⟨by simp [hrole], rfl⟩
  rw [if_neg (not_not_intro hrole)]
  by_cases hlt : n.term < term
  · rw [if_pos hlt]
    exact Or.inr (Or.inl ⟨by simp; omega, hlt, rfl⟩)
  rw [if_neg hlt]
  by_cases hno : granted = false ∨ term ≠ n.term
  · rw [if_pos hno]
    refine Or.inl ⟨?_, rfl⟩
    rcases hno with rfl | hne
    · simp
    · simp [hne]
  · rw [if_neg hno]
    have hg : granted = true := by
      cases granted with
      | false => exact absurd (Or.inl rfl) hno
      | true => rfl
    have ht : term = n.term := not_not.1 fun hne => hno (Or.inr hne)
    subst hg ht
    exact Or.inr (Or.inr ⟨by simp [hrole], hrole, rfl, rfl⟩)

/-! ## The messages tell the truth -/

/-- What a message in transit is known to say. -/
def Packet.Ok (ids : List Int) (past : Record Int) : Packet → Prop
  | .requestVote c v req => c ∈ ids ∧ v ∈ ids ∧ v ≠ c ∧ req = ⟨req.term, c, 0, 0⟩
  | .voteReply v c reply => c ∈ ids ∧ v ≠ c ∧
      (reply.voteGranted = true → ⟨v, c, reply.term⟩ ∈ past.votes)
  | .appendEntries l v req => v ∈ ids ∧ l ∈ ids ∧ req.leaderId = l ∧ (l, req.term) ∈ past.led

structure Cluster.Wired (ids : List Int) (s : Cluster) : Prop where
  member : ∀ i ∈ ids, (s.nodes i).Member ids i
  net : ∀ p ∈ s.net, p.Ok ids s.past

/-- What is written down stays written down. -/
structure RecordGrows (past past' : Record Int) : Prop where
  votes : past.votes ⊆ past'.votes
  led : past.led ⊆ past'.led
  counted : past.counted <:+ past'.counted

theorem RecordGrows.refl (past : Record Int) : RecordGrows past past :=
  ⟨List.Subset.refl _, List.Subset.refl _, List.suffix_refl _⟩

theorem RecordGrows.trans {p₁ p₂ p₃ : Record Int} (h : RecordGrows p₁ p₂)
    (h' : RecordGrows p₂ p₃) : RecordGrows p₁ p₃ :=
  ⟨List.Subset.trans h.votes h'.votes, List.Subset.trans h.led h'.led,
    h.counted.trans h'.counted⟩

theorem Packet.Ok.mono {past past' : Record Int} (hsub : RecordGrows past past') {p : Packet}
    (h : p.Ok ids past) : p.Ok ids past' := by
  cases p with
  | requestVote c v req => exact h
  | voteReply v c reply => exact ⟨h.1, h.2.1, fun hg => hsub.votes (h.2.2 hg)⟩
  | appendEntries l v req => exact ⟨h.1, h.2.1, h.2.2.1, hsub.led h.2.2.2⟩

/-- A node of a wired cluster is replaced and messages are sent. -/
theorem Cluster.Wired.update {s : Cluster} (h : s.Wired ids) {j : Int} {n : RaftNode}
    (hn : j ∈ ids → n.Member ids j) {net : List Packet} {past : Record Int}
    (hsub : RecordGrows s.past past) (hnet : ∀ p ∈ net, p ∈ s.net ∨ p.Ok ids past) :
    Cluster.Wired ids ⟨Function.update s.nodes j n, net, past⟩ where
  member i hi := by
    by_cases hij : i = j
    · subst hij
      show (Function.update s.nodes i n i).Member ids i
      rw [Function.update_self]
      exact hn hi
    · show (Function.update s.nodes j n i).Member ids i
      rw [Function.update_of_ne hij]
      exact h.member i hi
  net p hp := (hnet p hp).elim (fun hold => (h.net p hold).mono hsub) id

/-- The same with nothing sent. -/
theorem Cluster.Wired.put {s : Cluster} (h : s.Wired ids) {j : Int} {n : RaftNode}
    {past : Record Int} (hn : n.Member ids j) (hsub : RecordGrows s.past past) :
    Cluster.Wired ids ⟨Function.update s.nodes j n, s.net, past⟩ :=
  h.update (fun _ => hn) hsub fun _ hp => Or.inl hp

theorem Cluster.wired_initial (ids : List Int) (timeouts : Int → Nat) :
    (Cluster.initial ids timeouts).Wired ids where
  member _ _ := ⟨rfl, rfl, rfl, rfl⟩
  net _ hp := absurd hp List.not_mem_nil

/-! ## Every action is a call -/

namespace Cluster

variable {s : Cluster}

theorem view_update (j : Int) (n : RaftNode) (net : List Packet) (past : Record Int) :
    (⟨Function.update s.nodes j n, net, past⟩ : Cluster).view
      = ⟨Function.update s.view.seat j n.seat, past⟩ := by
  have hseat : (fun i => (Function.update s.nodes j n i).seat)
      = Function.update s.view.seat j n.seat :=
    Function.comp_update RaftNode.seat s.nodes j n
  show Election.mk _ _ = _
  rw [hseat]

/-- Replacing a node by one with the same seat changes nothing. -/
theorem view_update_same {j : Int} {n : RaftNode} (h : n.seat = (s.nodes j).seat)
    (net : List Packet) :
    (⟨Function.update s.nodes j n, net, s.past⟩ : Cluster).view = s.view := by
  rw [view_update, h]
  show Election.mk (Function.update s.view.seat j (s.view.seat j)) _ = _
  rw [Function.update_eq_self]
  rfl

/-- The receiver voted for another node before it accepted a heartbeat of
the candidate whose request reaches it now, all in one term. -/
def LateRequest (s : Cluster) : Action → Prop
  | .deliver (.requestVote c v req) _ =>
      .requestVote c v req ∈ s.net ∧ (s.nodes v).term = req.term ∧
        ⟨v, c, req.term⟩ ∈ s.past.heard ∧
        ∃ b ∈ s.past.votes, b.voter = v ∧ b.term = req.term ∧ b.candidate ≠ c
  | _ => False

instance (s : Cluster) : (a : Action) → Decidable (s.LateRequest a)
  | .deliver (.requestVote _ _ _) _ => inferInstanceAs (Decidable (_ ∧ _ ∧ _ ∧ _))
  | .deliver (.voteReply _ _ _) _ => isFalse id
  | .deliver (.appendEntries _ _ _) _ => isFalse id
  | .tick _ _ _ => isFalse id
  | .startElection _ _ _ => isFalse id
  | .duplicate _ => isFalse id

/-- An action leaves the election alone, or makes one legal call in it. -/
def Follows (ids : List Int) (a : Action) (s s' : Cluster) : Prop :=
  s'.Wired ids ∧ (s'.view = s.view ∨ ∃ call, s.view.Legal ids.toFinset call ∧
    s'.view = s.view.act (quorumOf ids) call ∧ (s.view.Late call → s.LateRequest a))

theorem Wired.startElection (h : s.Wired ids) (hpos : ∀ i ∈ ids, 0 ≤ i)
    (hids : ids.Nodup) {i : Int} (hi : i ∈ ids) (hfit : (s.nodes i).term + 1 < 2 ^ 64)
    (nowMs timeoutMs : Nat) :
    let r := (s.nodes i).startElectionLocked nowMs timeoutMs
    let s' := s.after i (some (.requestVote r.1), r.2)
    s'.Wired ids ∧ s'.view = s.view.act (quorumOf ids) (.stand i) := by
  intro r s'
  have hm := h.member i hi
  obtain ⟨hseat, hterm⟩ := RaftNode.seat_startElectionLocked nowMs timeoutMs hfit
    (by rw [hm.id]; exact hpos i hi)
  have hcand : r.1.candidateId = i := hm.id
  constructor
  · apply h.update
    · exact fun _ => ⟨hm.id, hm.peers, hm.lastLogIndex, hm.lastLogTerm⟩
    · exact ⟨List.subset_cons_self .., List.Subset.refl _, List.suffix_refl _⟩
    intro p hp
    rcases List.mem_append.1 hp with hold | hnew
    · exact Or.inl hold
    · obtain ⟨v, hv, rfl⟩ := List.mem_map.1 hnew
      have hv : v ∈ ids.erase i := by rw [← hm.peers]; exact hv
      refine Or.inr ⟨hi, List.mem_of_mem_erase hv, (hids.mem_erase_iff.1 hv).1, ?_⟩
      show RequestVote.mk r.1.term (s.nodes i).myId (s.nodes i).myLastLogIndex
        (s.nodes i).myLastLogTerm = _
      rw [hm.id, hm.lastLogIndex, hm.lastLogTerm]
  · show (⟨_, _, _⟩ : Cluster).view = _
    rw [view_update, hseat, hcand, hterm, hm.id]
    rfl

theorem Wired.heartbeat (h : s.Wired ids)
    (hs : s.view.Sound ids.toFinset (quorumOf ids)) {i : Int} (hi : i ∈ ids)
    (hlead : (s.nodes i).role = .kLeader) (nowMs : Nat) :
    let s' := s.after i (some (.heartbeat ⟨(s.nodes i).term, (s.nodes i).myId⟩),
      { s.nodes i with lastHeartbeatMs := nowMs })
    s'.Wired ids ∧ s'.view = s.view := by
  intro s'
  have hm := h.member i hi
  constructor
  · apply h.update
    · exact fun _ => ⟨hm.id, hm.peers, hm.lastLogIndex, hm.lastLogTerm⟩
    · exact ⟨List.Subset.refl _, List.Subset.refl _, List.suffix_refl _⟩
    intro p hp
    rcases List.mem_append.1 hp with hold | hnew
    · exact Or.inl hold
    · obtain ⟨v, hv, rfl⟩ := List.mem_map.1 hnew
      have hv : v ∈ ids.erase i := by rw [← hm.peers]; exact hv
      refine Or.inr ⟨List.mem_of_mem_erase hv, hi, hm.id, hs.leading i ?_⟩
      show (s.nodes i).role.office = .leader
      rw [hlead]
      rfl
  · show (⟨Function.update s.nodes i _, _, s.past⟩ : Cluster).view = s.view
    apply view_update_same
    rfl

theorem Wired.lose (h : s.Wired ids) (p : Packet) :
    Wired ids { s with net := s.net.erase p } :=
  ⟨h.member, fun _ hp => h.net _ (List.mem_of_mem_erase hp)⟩

/-- The seat of a node that has granted its vote. -/
theorem seat_grant {v c : Int} (hc : 0 ≤ c) (q t nowMs : Nat) :
    RaftNode.seat
      { s.nodes v with
        term := t
        role := if (s.nodes v).term < t then .kFollower else (s.nodes v).role
        votedFor := c
        lastHeartbeatMs := nowMs } = s.view.next q (.grant v c t) := by
  have hrole : (if (s.nodes v).term < t then RaftRole.kFollower else (s.nodes v).role).office
      = if (s.nodes v).term < t then .follower else (s.nodes v).role.office := by
    split <;> rfl
  show Seat.mk _ _ (if c = -1 then none else some c) _ = _
  rw [choice_of_nonneg hc]
  show Seat.mk (RaftRole.office (if _ then _ else _)) _ _ _ = _
  rw [hrole]
  rfl

/-- A vote request that is granted is a `grant`. -/
theorem Wired.requestVote (h : s.Wired ids) (hpos : ∀ i ∈ ids, 0 ≤ i) {c v : Int}
    {req : RequestVote} (hok : (Packet.requestVote c v req).Ok ids s.past) (nowMs : Nat) :
    let s' := s.receive nowMs (.requestVote c v req)
    s'.Wired ids ∧
      (s.view.Legal ids.toFinset (.grant v c req.term) ∧
          s'.view = s.view.act (quorumOf ids) (.grant v c req.term) ∨
        s'.view = s.view ∧
          ((s.nodes v).term ≤ req.term → (s.nodes v).votedFor ≠ c)) := by
  intro s'
  obtain ⟨hc, hv, hvc, hreq⟩ := hok
  have hm := h.member v hv
  have hcand : req.candidateId = c := by rw [hreq]
  have hcpos := hpos c hc
  rcases hm.onRequestVote nowMs req with ⟨hr, hle, hfree⟩ | ⟨hno, hsame, hother⟩
  · have hs' : s' = ⟨Function.update s.nodes v
        { s.nodes v with
          term := req.term
          role := if (s.nodes v).term < req.term then .kFollower else (s.nodes v).role
          votedFor := c
          lastHeartbeatMs := nowMs },
        s.net ++ [.voteReply v c ⟨req.term, true⟩],
        { s.past with votes := ⟨v, c, req.term⟩ :: s.past.votes }⟩ := by
      show Cluster.mk _ _ _ = _
      rw [hr, hcand]
      rfl
    rw [hs']
    constructor
    · apply h.update
      · exact fun _ => ⟨hm.id, hm.peers, hm.lastLogIndex, hm.lastLogTerm⟩
      · exact ⟨List.subset_cons_self .., List.Subset.refl _, List.suffix_refl _⟩
      intro p hp
      rcases List.mem_append.1 hp with hold | hnew
      · exact Or.inl hold
      · obtain rfl := List.mem_singleton.1 hnew
        exact Or.inr ⟨hc, hvc, fun _ => List.mem_cons_self ..⟩
    · refine Or.inl ⟨⟨List.mem_toFinset.2 hv, hle, fun ht => ?_⟩, ?_⟩
      · show (if (s.nodes v).votedFor = -1 then none else some (s.nodes v).votedFor) = none ∨
          (if (s.nodes v).votedFor = -1 then none else some (s.nodes v).votedFor) = some c
        rcases hfree ht with hnone | hsome
        · exact Or.inl (if_pos hnone)
        · rw [hsome, hcand, choice_of_nonneg hcpos]
          exact Or.inr rfl
      · rw [view_update]
        rw [seat_grant hcpos (quorumOf ids)]
        rfl
  · have hs' : s' = ⟨Function.update s.nodes v (s.nodes v),
        s.net ++ [.voteReply v c ((s.nodes v).onRequestVote nowMs req).1], s.past⟩ := by
      show Cluster.mk _ _ _ = _
      rw [hsame, hno]
      rfl
    rw [hs']
    constructor
    · apply h.update
      · exact fun _ => hm
      · exact ⟨List.Subset.refl _, List.Subset.refl _, List.suffix_refl _⟩
      intro p hp
      rcases List.mem_append.1 hp with hold | hnew
      · exact Or.inl hold
      · obtain rfl := List.mem_singleton.1 hnew
        exact Or.inr ⟨hc, hvc, fun hg => by rw [hno] at hg; cases hg⟩
    · refine Or.inr ⟨?_, by rwa [hcand] at hother⟩
      apply view_update_same
      rfl

theorem act_count (q : Nat) (c v : Int) :
    s.view.act q (.count c v) = ⟨Function.update s.view.seat c
        { (s.nodes c).seat with
          office := if q ≤ (s.nodes c).votesReceived + 1 then .leader
            else (s.nodes c).role.office
          tally := (s.nodes c).votesReceived + 1 },
      { s.past with
        counted := ⟨v, c, (s.nodes c).term⟩ :: s.past.counted
        led := if q ≤ (s.nodes c).votesReceived + 1 then (c, (s.nodes c).term) :: s.past.led
          else s.past.led }⟩ := rfl

/-- A granting reply in its term is counted once more by its candidate. -/
theorem Wired.voteReply (h : s.Wired ids) {v c : Int} {reply : RequestVoteReply}
    (hok : (Packet.voteReply v c reply).Ok ids s.past) (nowMs : Nat) :
    let s' := s.receive nowMs (.voteReply v c reply)
    s'.Wired ids ∧ (s'.view = s.view ∨ ∃ call, s.view.Legal ids.toFinset call ∧
      s'.view = s.view.act (quorumOf ids) call ∧ ¬ s.view.Late call) := by
  intro s'
  obtain ⟨hc, hvc, hvote⟩ := hok
  have hm := h.member c hc
  rcases (s.nodes c).onRequestVoteReply_cases nowMs reply with
    ⟨hno, hr⟩ | ⟨hno, hlt, hr⟩ | ⟨hyes, hrole, hreply, hr⟩
  · have hs' : s' = ⟨Function.update s.nodes c (s.nodes c), s.net, s.past⟩ := by
      show Cluster.mk _ _ _ = _
      rw [hr, hno]
      rfl
    rw [hs']
    refine ⟨h.put hm (.refl _), Or.inl ?_⟩
    apply view_update_same
    rfl
  · have hs' : s' = ⟨Function.update s.nodes c
        { s.nodes c with term := reply.term, role := .kFollower, votedFor := -1,
                         votesReceived := 0 }, s.net, s.past⟩ := by
      show Cluster.mk _ _ _ = _
      rw [hr, hno]
      rfl
    rw [hs']
    refine ⟨?_, Or.inr ⟨.yield c reply.term, hlt, ?_, id⟩⟩
    · apply h.put
      · exact ⟨hm.id, hm.peers, hm.lastLogIndex, hm.lastLogTerm⟩
      · exact ⟨List.Subset.refl _, List.Subset.refl _, List.suffix_refl _⟩
    · rw [view_update]
      rfl
  · have hlegal : s.view.Legal ids.toFinset (.count c v) := by
      refine ⟨?_, hvc, ?_⟩
      · show (s.nodes c).role.office = .candidate
        rw [hrole]
        rfl
      · have := hvote (by rw [hreply])
        rw [hreply] at this
        exact this
    rw [hm.majorityCount hc] at hr
    by_cases hq : quorumOf ids ≤ (s.nodes c).votesReceived + 1
    · rw [if_pos hq] at hr
      have hs' : s' = ⟨Function.update s.nodes c
          { s.nodes c with votesReceived := (s.nodes c).votesReceived + 1, role := .kLeader,
                           lastHeartbeatMs := nowMs }, s.net,
          { s.past with counted := ⟨v, c, (s.nodes c).term⟩ :: s.past.counted
                        led := (c, (s.nodes c).term) :: s.past.led }⟩ := by
        show Cluster.mk _ _ _ = _
        rw [hr, hyes, show reply.term = (s.nodes c).term by rw [hreply]]
        rfl
      rw [hs']
      refine ⟨?_, Or.inr ⟨.count c v, hlegal, ?_, id⟩⟩
      · apply h.put
        · exact ⟨hm.id, hm.peers, hm.lastLogIndex, hm.lastLogTerm⟩
        · exact ⟨List.Subset.refl _, List.subset_cons_self .., List.suffix_cons ..⟩
      · rw [view_update, act_count, if_pos hq, if_pos hq]
        rfl
    · rw [if_neg hq] at hr
      have hs' : s' = ⟨Function.update s.nodes c
          { s.nodes c with votesReceived := (s.nodes c).votesReceived + 1 }, s.net,
          { s.past with counted := ⟨v, c, (s.nodes c).term⟩ :: s.past.counted }⟩ := by
        show Cluster.mk _ _ _ = _
        rw [hr, hyes, show reply.term = (s.nodes c).term by rw [hreply]]
        rfl
      rw [hs']
      refine ⟨?_, Or.inr ⟨.count c v, hlegal, ?_, id⟩⟩
      · apply h.put
        · exact ⟨hm.id, hm.peers, hm.lastLogIndex, hm.lastLogTerm⟩
        · exact ⟨List.Subset.refl _, List.Subset.refl _, List.suffix_cons ..⟩
      · rw [view_update, act_count, if_neg hq, if_neg hq]
        rfl

/-- A heartbeat that is not from an older term makes its receiver follow. -/
theorem Wired.appendEntries (h : s.Wired ids) (hpos : ∀ i ∈ ids, 0 ≤ i) {l v : Int}
    {req : AppendEntries} (hok : (Packet.appendEntries l v req).Ok ids s.past) (nowMs : Nat) :
    let s' := s.receive nowMs (.appendEntries l v req)
    s'.Wired ids ∧ (s'.view = s.view ∨ ∃ call, s.view.Legal ids.toFinset call ∧
      s'.view = s.view.act (quorumOf ids) call ∧ ¬ s.view.Late call) := by
  intro s'
  obtain ⟨hv, hl, hlead, hled⟩ := hok
  have hm := h.member v hv
  by_cases hold : req.term < (s.nodes v).term
  · have hs' : s' = ⟨Function.update s.nodes v (s.nodes v), s.net, s.past⟩ := by
      simp only [s', receive, RaftNode.onAppendEntries, if_pos hold]
    rw [hs']
    refine ⟨h.put hm (.refl _), Or.inl ?_⟩
    apply view_update_same
    rfl
  · have hs' : s' = ⟨Function.update s.nodes v
        { s.nodes v with term := req.term, role := .kFollower, votedFor := l,
                         lastHeartbeatMs := nowMs }, s.net,
        { s.past with heard := ⟨v, l, req.term⟩ :: s.past.heard }⟩ := by
      simp only [s', receive, RaftNode.onAppendEntries, if_neg hold, hlead]
    rw [hs']
    refine ⟨?_, Or.inr ⟨.follow v l req.term, ⟨hled, Nat.le_of_not_lt hold⟩, ?_, id⟩⟩
    · apply h.put
      · exact ⟨hm.id, hm.peers, hm.lastLogIndex, hm.lastLogTerm⟩
      · exact ⟨List.Subset.refl _, List.Subset.refl _, List.suffix_refl _⟩
    · rw [view_update]
      show Election.mk (Function.update _ v
        (Seat.mk _ _ (if l = -1 then none else some l) _)) _ = _
      rw [choice_of_nonneg (hpos l hl)]
      rfl

theorem Follows.idle {a : Action} (h : s.Wired ids) : Follows ids a s s := ⟨h, Or.inl rfl⟩

/-- **The cluster carries out elections**: every action keeps the messages
truthful and is a legal call of the election, or none. -/
theorem Wired.step (hids : ids.Nodup) (hpos : ∀ i ∈ ids, 0 ≤ i) (h : s.Wired ids)
    (hs : s.view.Sound ids.toFinset (quorumOf ids)) {a : Action} (hfit : s.Fits a) :
    Follows ids a s (s.step ids a) := by
  cases a with
  | tick i nowMs timeoutMs =>
      show Follows ids _ s (if i ∈ ids then _ else _)
      by_cases hi : i ∈ ids
      swap
      · rw [if_neg hi]
        exact .idle h
      rw [if_pos hi, RaftNode.tick]
      by_cases hdue : (s.nodes i).electionDue nowMs = true
      · rw [if_pos hdue]
        obtain ⟨hw, hv⟩ := h.startElection hpos hids hi (hfit hdue) nowMs timeoutMs
        exact ⟨hw, Or.inr ⟨.stand i, List.mem_toFinset.2 hi, hv, False.elim⟩⟩
      rw [if_neg hdue]
      by_cases hbeat : (s.nodes i).heartbeatDue nowMs = true
      · rw [if_pos hbeat]
        have hlead : (s.nodes i).role = .kLeader := by
          simp only [RaftNode.heartbeatDue, Bool.and_eq_true, beq_iff_eq] at hbeat
          exact hbeat.1
        obtain ⟨hw, hv⟩ := h.heartbeat hs hi hlead nowMs
        exact ⟨hw, Or.inl hv⟩
      · rw [if_neg hbeat]
        exact ⟨h.put (h.member i hi) (.refl _),
          Or.inl (view_update_same rfl _)⟩
  | startElection i nowMs timeoutMs =>
      show Follows ids _ s (if i ∈ ids then _ else _)
      by_cases hi : i ∈ ids
      · rw [if_pos hi]
        obtain ⟨hw, hv⟩ := h.startElection hpos hids hi hfit nowMs timeoutMs
        exact ⟨hw, Or.inr ⟨.stand i, List.mem_toFinset.2 hi, hv, False.elim⟩⟩
      · rw [if_neg hi]
        exact .idle h
  | duplicate p =>
      show Follows ids _ s (if p ∈ s.net then _ else _)
      by_cases hp : p ∈ s.net
      · rw [if_pos hp]
        refine ⟨⟨h.member, fun p' hp' => ?_⟩, Or.inl rfl⟩
        rcases List.mem_append.1 hp' with hold | hnew
        · exact h.net p' hold
        · rw [List.mem_singleton.1 hnew]
          exact h.net p hp
      · rw [if_neg hp]
        exact .idle h
  | deliver p nowMs =>
      show Follows ids _ s (if p ∈ s.net then _ else _)
      by_cases hp : p ∈ s.net
      swap
      · rw [if_neg hp]
        exact .idle h
      rw [if_pos hp]
      have hok := h.net p hp
      have h₀ := h.lose p
      cases p with
      | requestVote c v req =>
          obtain ⟨hw, hv⟩ := h₀.requestVote hpos hok nowMs
          refine ⟨hw, ?_⟩
          rcases hv with ⟨hlegal, hv⟩ | ⟨hv, -⟩
          · refine Or.inr ⟨.grant v c req.term, hlegal, hv, ?_⟩
            rintro ⟨ht, hheard, c', hne, hvote⟩
            exact ⟨hp, ht, hheard, _, hvote, rfl, rfl, hne⟩
          · exact Or.inl hv
      | voteReply v c reply =>
          obtain ⟨hw, hv⟩ := h₀.voteReply hok nowMs
          exact ⟨hw, hv.imp_right fun ⟨call, hl, hv, hno⟩ =>
            ⟨call, hl, hv, fun hlate => absurd hlate hno⟩⟩
      | appendEntries l v req =>
          obtain ⟨hw, hv⟩ := h₀.appendEntries hpos hok nowMs
          exact ⟨hw, hv.imp_right fun ⟨call, hl, hv, hno⟩ =>
            ⟨call, hl, hv, fun hlate => absurd hlate hno⟩⟩

end Cluster

end VaultKV
