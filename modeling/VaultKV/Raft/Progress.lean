import VaultKV.Raft.Safety

/-!
# Raft — an election can always be won

Safety says what no run does. This module says what every state of every run
still allows: whatever votes were split, lost or counted before, a node that
is not leader can win an election and have every other node follow it. The
schedule is explicit (`settle`): the node's timer runs out often enough to
pass all other terms, its last vote requests and the replies to them are
delivered, and so are the heartbeats it sends fifty milliseconds later. A
node that has no peers never becomes leader, since a vote is only ever counted
when a reply arrives.
-/

namespace VaultKV

open Lib

namespace RaftNode

variable {n : RaftNode}

theorem elapsed_of_le {nowMs : Nat} (hle : n.lastHeartbeatMs ≤ nowMs) (hnow : nowMs < 2 ^ 64) :
    n.elapsed nowMs = nowMs - n.lastHeartbeatMs := by
  rw [elapsed]
  omega

/-- The timer of a node that does not lead has run out. -/
theorem tick_elects {nowMs timeoutMs : Nat} (hrole : n.role ≠ .kLeader)
    (hlate : n.lastHeartbeatMs + n.electionTimeoutMs < nowMs) (hnow : nowMs < 2 ^ 64) :
    n.tick nowMs timeoutMs = (some (.requestVote (n.startElectionLocked nowMs timeoutMs).1),
      (n.startElectionLocked nowMs timeoutMs).2) := by
  have helapsed := elapsed_of_le (n := n) (show n.lastHeartbeatMs ≤ nowMs by omega) hnow
  have hdue : n.electionDue nowMs = true := by
    rw [electionDue, helapsed]
    cases hr : n.role with
    | kLeader => exact absurd hr hrole
    | kFollower => simp; omega
    | kCandidate => simp; omega
  rw [tick, if_pos hdue]

/-- A leader's heartbeat is due. -/
theorem tick_beats {nowMs timeoutMs : Nat} (hrole : n.role = .kLeader)
    (hlate : n.lastHeartbeatMs + n.heartbeatIntervalMs ≤ nowMs) (hnow : nowMs < 2 ^ 64) :
    n.tick nowMs timeoutMs = (some (.heartbeat { term := n.term, leaderId := n.myId }),
      { n with lastHeartbeatMs := nowMs }) := by
  have helapsed := elapsed_of_le (n := n) (show n.lastHeartbeatMs ≤ nowMs by omega) hnow
  have hnot : n.electionDue nowMs = false := by simp [electionDue, hrole]
  have hdue : n.heartbeatDue nowMs = true := by
    simp [heartbeatDue, hrole, helapsed]
    omega
  rw [tick, if_neg (by simp [hnot]), if_pos hdue]

/-- A request of a higher term gets the vote. -/
theorem onRequestVote_grants {nowMs T : Nat} {i : Int} (hterm : n.term < T)
    (hindex : n.myLastLogIndex = 0) (hlog : n.myLastLogTerm = 0) :
    n.onRequestVote nowMs ⟨T, i, 0, 0⟩ = (⟨T, true⟩,
      { n with term := T, role := .kFollower, votedFor := i, lastHeartbeatMs := nowMs }) := by
  rw [onRequestVote, if_neg (by simp; omega)]
  simp [hterm, hindex, hlog]

/-- A granted vote is counted, and with a majority the node leads. -/
theorem onRequestVoteReply_counts (nowMs : Nat) (hrole : n.role = .kCandidate) :
    (n.onRequestVoteReply nowMs ⟨n.term, true⟩).2
      = if n.majorityCount ≤ n.votesReceived + 1 then
          { n with votesReceived := n.votesReceived + 1, role := .kLeader,
                   lastHeartbeatMs := nowMs }
        else { n with votesReceived := n.votesReceived + 1 } := by
  rw [onRequestVoteReply, if_neg (by simp [hrole]), if_neg (by simp), if_neg (by simp)]
  have hmaj : majorityCount { n with votesReceived := n.votesReceived + 1 }
      = n.majorityCount := rfl
  dsimp only
  rw [hmaj]
  split <;> rfl

/-- A heartbeat of the node's own term is followed. -/
theorem onAppendEntries_follows (n : RaftNode) (nowMs : Nat) (i : Int) :
    n.onAppendEntries nowMs ⟨n.term, i⟩
      = { n with role := .kFollower, votedFor := i, lastHeartbeatMs := nowMs } := by
  rw [onAppendEntries, if_neg (Nat.lt_irrefl _)]

end RaftNode

namespace Cluster

variable {ids : List Int} {i : Int} {s : Cluster}

/-! ## The schedule -/

/-- The timer of a node runs out `k` times. -/
def campaign (i : Int) (now k : Nat) : List Action :=
  (List.range k).map fun j => .tick i (now + 301 * (j + 1)) 150

/-- The vote requests of a term are delivered. -/
def requests (i : Int) (T now : Nat) (voters : List Int) : List Action :=
  voters.map fun v => .deliver (.requestVote i v ⟨T, i, 0, 0⟩) now

/-- The votes are delivered. -/
def replies (i : Int) (T now : Nat) (voters : List Int) : List Action :=
  voters.map fun v => .deliver (.voteReply v i ⟨T, true⟩) now

/-- The heartbeats are delivered. -/
def beats (i : Int) (T now : Nat) (voters : List Int) : List Action :=
  voters.map fun v => .deliver (.appendEntries i v ⟨T, i⟩) now

/-- The last campaign is carried through: all others vote, all votes are
counted, and the heartbeats that are due fifty milliseconds later arrive. -/
def poll (ids : List Int) (i : Int) (T now : Nat) : List Action :=
  requests i T now (ids.erase i) ++ replies i T now (ids.erase i)
    ++ .tick i (now + 50) 150 :: beats i T (now + 50) (ids.erase i)

/-- Node `i`, now in a term `k` below `T`, is elected for `T` by all others
and heard by all of them. -/
def settle (ids : List Int) (i : Int) (T now k : Nat) : List Action :=
  campaign i now k ++ poll ids i T (now + 301 * k)

/-- A node leads, and all others follow it. -/
def Settled (ids : List Int) (i : Int) (T : Nat) (s : Cluster) : Prop :=
  s.Leads i T ∧ ∀ j ∈ ids, j ≠ i →
    (s.nodes j).role = .kFollower ∧ (s.nodes j).term = T ∧ (s.nodes j).votedFor = i

/-! ## The timer -/

/-- What a node needs to have in order for its timer to work. -/
structure Ready (ids : List Int) (i : Int) (n : RaftNode) : Prop where
  member : n.Member ids i
  wait : n.electionTimeoutMs ≤ 300
  interval : n.heartbeatIntervalMs = 50

/-- Node `i` runs for term `T`; the others are as they were in `base`. -/
structure Runs (ids : List Int) (i : Int) (T now : Nat) (base s : Cluster) : Prop where
  ready : Ready ids i (s.nodes i)
  role : (s.nodes i).role = .kCandidate
  term : (s.nodes i).term = T
  votes : (s.nodes i).votesReceived = 1
  beat : (s.nodes i).lastHeartbeatMs = now
  others : ∀ j, j ≠ i → s.nodes j = base.nodes j
  asked : ∀ v ∈ ids.erase i, .requestVote i v ⟨T, i, 0, 0⟩ ∈ s.net

theorem runs_tick (hi : i ∈ ids) (hready : Ready ids i (s.nodes i))
    (hrole : (s.nodes i).role ≠ .kLeader) {nowMs : Nat}
    (hlate : (s.nodes i).lastHeartbeatMs + 301 ≤ nowMs) (hnow : nowMs < 2 ^ 64)
    (hterm : (s.nodes i).term + 1 < 2 ^ 64) :
    Runs ids i ((s.nodes i).term + 1) nowMs s (s.step ids (.tick i nowMs 150)) := by
  have hwait := hready.wait
  rw [step, if_pos hi, RaftNode.tick_elects hrole (by omega) hnow]
  obtain ⟨hid, hpeers, hindex, hlog⟩ := hready.member
  constructor
  case ready =>
    refine ⟨⟨?_, ?_, ?_, ?_⟩, ?_, ?_⟩ <;> simp [after, RaftNode.startElectionLocked, *]
    exact hready.interval
  case role => simp [after, RaftNode.startElectionLocked]
  case term => simpa [after, RaftNode.startElectionLocked] using hterm
  case votes => simp [after, RaftNode.startElectionLocked]
  case beat => simp [after, RaftNode.startElectionLocked]
  case others => intro j hj; simp [after, hj]
  case asked =>
    intro v hv
    refine List.mem_append_right _ (List.mem_map.mpr ⟨v, ?_, ?_⟩)
    · simpa [RaftNode.startElectionLocked, hpeers] using hv
    · simpa [RaftNode.startElectionLocked, hid, hindex, hlog] using hterm

/-- **The campaign.** Each time the timer runs out, the node runs for the next
term. -/
theorem runs_campaign (hi : i ∈ ids) (hready : Ready ids i (s.nodes i))
    (hrole : (s.nodes i).role ≠ .kLeader) {now : Nat}
    (hclock : (s.nodes i).lastHeartbeatMs ≤ now) (k : Nat)
    (hnow : now + 301 * (k + 1) < 2 ^ 64) (hterm : (s.nodes i).term + (k + 1) < 2 ^ 64) :
    Runs ids i ((s.nodes i).term + (k + 1)) (now + 301 * (k + 1)) s
        (s.run ids (campaign i now (k + 1))) ∧
      TermsFit ids s (campaign i now (k + 1)) := by
  induction k with
  | zero =>
      have hone : campaign i now 1 = [.tick i (now + 301) 150] := rfl
      rw [Nat.zero_add] at hnow hterm ⊢
      rw [Nat.mul_one] at hnow ⊢
      rw [hone]
      constructor
      · exact runs_tick hi hready hrole (Nat.add_le_add_right hclock 301) hnow hterm
      · exact ⟨fun _ => hterm, trivial⟩
  | succ k ih =>
      have hnow' : now + 301 * (k + 1) < 2 ^ 64 := Nat.lt_of_le_of_lt (by omega) hnow
      have hterm' : (s.nodes i).term + (k + 1) < 2 ^ 64 := Nat.lt_of_succ_lt hterm
      obtain ⟨hruns, hfit⟩ := ih hnow' hterm'
      have hsplit : campaign i now (k + 1 + 1)
          = campaign i now (k + 1) ++ [.tick i (now + 301 * (k + 1 + 1)) 150] := by
        rw [campaign, List.range_succ, List.map_append]
        rfl
      have hnext := runs_tick hi hruns.ready (by rw [hruns.role]; decide)
        (show _ ≤ now + 301 * (k + 1 + 1) by rw [hruns.beat]; omega) hnow
        (by rw [hruns.term]; omega)
      rw [hruns.term] at hnext
      rw [hsplit, run_append, termsFit_append]
      refine ⟨⟨hnext.ready, hnext.role, hnext.term, hnext.votes, hnext.beat, ?_, hnext.asked⟩,
        hfit, fun _ => ?_, trivial⟩
      · intro j hj
        exact (hnext.others j hj).trans (hruns.others j hj)
      · rw [hruns.term]; omega

/-! ## The votes -/

theorem termsFit_deliveries (ids : List Int) (voters : List Int) (p : Int → Packet) (now : Nat) :
    ∀ s : Cluster, TermsFit ids s (voters.map fun v => .deliver (p v) now) := by
  induction voters with
  | nil => intro s; trivial
  | cons v voters ih => intro s; exact ⟨trivial, ih _⟩

/-- The voters that got the request have voted; the others still can. -/
structure Voting (ids : List Int) (i : Int) (T : Nat) (cand : RaftNode) (done todo : List Int)
    (s : Cluster) : Prop where
  cand : s.nodes i = cand
  voted : ∀ v ∈ done, (s.nodes v).term = T ∧ .voteReply v i ⟨T, true⟩ ∈ s.net
  below : ∀ v ∈ todo, (s.nodes v).term < T ∧ (s.nodes v).Member ids v ∧
    .requestVote i v ⟨T, i, 0, 0⟩ ∈ s.net

theorem Voting.deliver {T : Nat} {cand : RaftNode} {done todo : List Int} {v : Int}
    (h : Voting ids i T cand done (v :: todo) s) (now : Nat) (hvi : v ≠ i) (hdone : v ∉ done)
    (htodo : v ∉ todo) :
    Voting ids i T cand (done ++ [v]) todo
      (s.step ids (.deliver (.requestVote i v ⟨T, i, 0, 0⟩) now)) := by
  obtain ⟨hterm, hmember, hnet⟩ := h.below v List.mem_cons_self
  rw [step, if_pos hnet]
  unfold receive
  dsimp only
  rw [RaftNode.onRequestVote_grants hterm hmember.lastLogIndex hmember.lastLogTerm]
  constructor
  case cand =>
    dsimp only
    rw [Function.update_of_ne (Ne.symm hvi)]
    exact h.cand
  case voted =>
    intro w hw
    by_cases hwv : w = v
    · subst hwv
      exact ⟨by simp, List.mem_append_right _ List.mem_cons_self⟩
    · have hold : w ∈ done := by
        rcases List.mem_append.mp hw with hw | hw
        · exact hw
        · exact absurd (List.mem_singleton.mp hw) hwv
      dsimp only
      rw [Function.update_of_ne hwv]
      refine ⟨(h.voted w hold).1, List.mem_append_left _ ?_⟩
      exact (List.mem_erase_of_ne (by simp)).mpr (h.voted w hold).2
  case below =>
    intro w hw
    have hwv : w ≠ v := fun heq => htodo (heq ▸ hw)
    obtain ⟨hterm, hmember, hnet⟩ := h.below w (List.mem_cons_of_mem _ hw)
    dsimp only
    rw [Function.update_of_ne hwv]
    refine ⟨hterm, hmember, List.mem_append_left _ ?_⟩
    exact (List.mem_erase_of_ne (by simp [hwv])).mpr hnet

theorem Voting.run {T : Nat} {cand : RaftNode} {s : Cluster} {done : List Int} (now : Nat)
    (todo : List Int) (h : Voting ids i T cand done todo s) (hi : i ∉ todo)
    (hnodup : (done ++ todo).Nodup) :
    Voting ids i T cand (done ++ todo) [] (s.run ids (requests i T now todo)) := by
  induction todo generalizing s done with
  | nil =>
      rwa [List.append_nil]
  | cons v todo ih =>
      have hsplit : done ++ v :: todo = done ++ [v] ++ todo := by simp
      obtain ⟨-, hcons, hdisj⟩ := List.nodup_append.mp hnodup
      have hdone : v ∉ done := fun hv => hdisj v hv v List.mem_cons_self rfl
      have hstep := h.deliver now (fun heq => hi (heq ▸ List.mem_cons_self)) hdone
        (List.nodup_cons.mp hcons).1
      rw [hsplit] at hnodup ⊢
      exact ih hstep (fun hmem => hi (List.mem_cons_of_mem _ hmem)) hnodup

/-! ## The count -/

/-- The candidate has counted `m` votes, its own included, unless it leads
already; the replies of `todo` are on their way. -/
structure Counting (ids : List Int) (i : Int) (T now m : Nat) (peers todo : List Int)
    (s : Cluster) : Prop where
  ready : Ready ids i (s.nodes i)
  term : (s.nodes i).term = T
  beat : (s.nodes i).lastHeartbeatMs = now
  role : (s.nodes i).role = .kLeader ∨ (s.nodes i).role = .kCandidate ∧
    (s.nodes i).votesReceived = m ∧ (m = 1 ∨ m < quorumOf ids)
  voted : ∀ v ∈ peers, (s.nodes v).term = T
  net : ∀ v ∈ todo, .voteReply v i ⟨T, true⟩ ∈ s.net

theorem Counting.deliver (hi : i ∈ ids) {T now m : Nat} {peers todo : List Int} {v : Int}
    (h : Counting ids i T now m peers (v :: todo) s) (hpeers : i ∉ peers) (htodo : v ∉ todo) :
    Counting ids i T now (m + 1) peers todo
      (s.step ids (.deliver (.voteReply v i ⟨T, true⟩) now)) := by
  have hnet := h.net v List.mem_cons_self
  have hothers : ∀ w ∈ peers, w ≠ i := fun w hw heq => hpeers (heq ▸ hw)
  have hrest : ∀ w ∈ todo, .voteReply w i ⟨T, true⟩ ∈ s.net.erase (.voteReply v i ⟨T, true⟩) := by
    intro w hw
    have hwv : w ≠ v := fun heq => htodo (heq ▸ hw)
    exact (List.mem_erase_of_ne (by simp [hwv])).mpr (h.net w (List.mem_cons_of_mem _ hw))
  have hmaj := h.ready.member.majorityCount hi
  rw [step, if_pos hnet]
  unfold receive
  dsimp only
  rcases h.role with hlead | ⟨hcand, hvotes, -⟩
  · -- a leader counts no more
    have hsame : ((s.nodes i).onRequestVoteReply now ⟨T, true⟩) = (none, s.nodes i) := by
      rw [RaftNode.onRequestVoteReply, if_pos (by simp [hlead])]
    rw [hsame]
    refine ⟨?_, ?_, ?_, .inl ?_, ?_, hrest⟩
    · simpa using h.ready
    · simpa using h.term
    · simpa using h.beat
    · simpa using hlead
    · intro w hw
      simpa [hothers w hw] using h.voted w hw
  · have hcount := RaftNode.onRequestVoteReply_counts now hcand
    rw [h.term, hmaj, hvotes] at hcount
    refine ⟨?_, ?_, ?_, ?_, ?_, hrest⟩
    all_goals dsimp only
    · rw [Function.update_self, hcount]
      obtain ⟨⟨hid, hp, hx, hl⟩, hwait, hint⟩ := h.ready
      split <;> exact ⟨⟨hid, hp, hx, hl⟩, hwait, hint⟩
    · rw [Function.update_self, hcount]
      split <;> rfl
    · rw [Function.update_self, hcount]
      split
      · rfl
      · exact h.beat
    · rw [Function.update_self, hcount]
      split
      · exact .inl rfl
      · next hfew => exact .inr ⟨hcand, rfl, .inr (Nat.lt_of_not_le hfew)⟩
    · intro w hw
      rw [Function.update_of_ne (hothers w hw)]
      exact h.voted w hw

theorem Counting.run (hi : i ∈ ids) {T now m : Nat} {peers : List Int} {s : Cluster}
    (hpeers : i ∉ peers) (todo : List Int) (h : Counting ids i T now m peers todo s)
    (hnodup : todo.Nodup) :
    Counting ids i T now (m + todo.length) peers [] (s.run ids (replies i T now todo)) := by
  induction todo generalizing s m with
  | nil => exact h
  | cons v todo ih =>
      obtain ⟨hv, hnodup⟩ := List.nodup_cons.mp hnodup
      have hstep := ih (h.deliver hi hpeers hv) hnodup
      rwa [Nat.add_assoc, Nat.add_comm 1] at hstep

/-! ## The heartbeats -/

/-- The leader leads; the nodes that heard it follow it, the others are in its
term. -/
structure Beating (i : Int) (T : Nat) (done todo : List Int) (s : Cluster) : Prop where
  leads : s.Leads i T
  heard : ∀ v ∈ done, (s.nodes v).role = .kFollower ∧ (s.nodes v).term = T ∧
    (s.nodes v).votedFor = i
  below : ∀ v ∈ todo, (s.nodes v).term = T ∧ .appendEntries i v ⟨T, i⟩ ∈ s.net

theorem Beating.deliver {T : Nat} {done todo : List Int} {v : Int}
    (h : Beating i T done (v :: todo) s) (ids : List Int) (now : Nat) (hvi : v ≠ i)
    (htodo : v ∉ todo) :
    Beating i T (done ++ [v]) todo (s.step ids (.deliver (.appendEntries i v ⟨T, i⟩) now)) := by
  obtain ⟨hterm, hnet⟩ := h.below v List.mem_cons_self
  have hfollow := RaftNode.onAppendEntries_follows (s.nodes v) now i
  rw [hterm] at hfollow
  rw [step, if_pos hnet]
  unfold receive
  dsimp only
  rw [hfollow]
  constructor
  case leads =>
    obtain ⟨hrole, ht⟩ := h.leads
    rw [Leads]
    dsimp only
    rw [Function.update_of_ne (Ne.symm hvi)]
    exact ⟨hrole, ht⟩
  case heard =>
    intro w hw
    by_cases hwv : w = v
    · subst hwv
      simp
    · have hold : w ∈ done := by
        rcases List.mem_append.mp hw with hw | hw
        · exact hw
        · exact absurd (List.mem_singleton.mp hw) hwv
      dsimp only
      rw [Function.update_of_ne hwv]
      exact h.heard w hold
  case below =>
    intro w hw
    have hwv : w ≠ v := fun heq => htodo (heq ▸ hw)
    obtain ⟨ht, hp⟩ := h.below w (List.mem_cons_of_mem _ hw)
    dsimp only
    rw [Function.update_of_ne hwv]
    exact ⟨ht, (List.mem_erase_of_ne (by simp [hwv])).mpr hp⟩

theorem Beating.run {T : Nat} {s : Cluster} {done : List Int} (ids : List Int) (now : Nat)
    (todo : List Int) (h : Beating i T done todo s) (hi : i ∉ todo) (hnodup : todo.Nodup) :
    Beating i T (done ++ todo) [] (s.run ids (beats i T now todo)) := by
  induction todo generalizing s done with
  | nil => rwa [List.append_nil]
  | cons v todo ih =>
      obtain ⟨hv, hnodup⟩ := List.nodup_cons.mp hnodup
      have hstep := ih (h.deliver ids now (fun heq => hi (heq ▸ List.mem_cons_self)) hv)
        (fun hmem => hi (List.mem_cons_of_mem _ hmem)) hnodup
      rwa [List.append_assoc] at hstep

/-! ## The whole schedule -/

/-- All others vote for a node that runs above their terms, and with two nodes
or more that is a majority. -/
theorem Runs.elected {base : Cluster} {T now : Nat} (h : Runs ids i T now base s)
    (hids : ids.Nodup) (htwo : 2 ≤ ids.length) (hi : i ∈ ids) (hwired : base.Wired ids)
    (hbelow : ∀ j ∈ ids, j ≠ i → (base.nodes j).term < T) :
    Counting ids i T now ids.length (ids.erase i) []
        (s.run ids (requests i T now (ids.erase i) ++ replies i T now (ids.erase i))) ∧
      (s.run ids (requests i T now (ids.erase i) ++ replies i T now (ids.erase i))).Leads i T := by
  have hpeers : (ids.erase i).Nodup := hids.erase i
  have hself : i ∉ ids.erase i := hids.not_mem_erase
  have hvoting : Voting ids i T (s.nodes i) [] (ids.erase i) s := by
    refine ⟨rfl, fun v hv => (by cases hv), fun v hv => ?_⟩
    have hvi : v ≠ i := fun heq => hself (heq ▸ hv)
    have hmem : v ∈ ids := List.mem_of_mem_erase hv
    rw [h.others v hvi]
    exact ⟨hbelow v hmem hvi, hwired.member v hmem, h.asked v hv⟩
  have hvoted := hvoting.run now (ids.erase i) hself (by simpa using hpeers)
  rw [List.nil_append] at hvoted
  rw [run_append]
  generalize s.run ids (requests i T now (ids.erase i)) = s' at hvoted ⊢
  have hcounting : Counting ids i T now 1 (ids.erase i) (ids.erase i) s' := by
    refine ⟨?_, ?_, ?_, .inr ⟨?_, ?_, .inl rfl⟩, fun v hv => (hvoted.voted v hv).1,
      fun v hv => (hvoted.voted v hv).2⟩
    all_goals rw [hvoted.cand]
    · exact h.ready
    · exact h.term
    · exact h.beat
    · exact h.role
    · exact h.votes
  have hcounted := hcounting.run hi hself (ids.erase i) hpeers
  have hall : 1 + (ids.erase i).length = ids.length := by
    rw [List.length_erase_of_mem hi]
    omega
  rw [hall] at hcounted
  refine ⟨hcounted, ?_, hcounted.term⟩
  rcases hcounted.role with hlead | ⟨-, -, hfew⟩
  · exact hlead
  · -- everyone's vote is more than enough
    rw [quorumOf] at hfew
    omega

/-- The heartbeats of a new leader are heard by all nodes of its term. -/
theorem Counting.heard {T now m : Nat} (h : Counting ids i T now m (ids.erase i) [] s)
    (hids : ids.Nodup) (hi : i ∈ ids) (hlead : s.Leads i T) (hnow : now + 50 < 2 ^ 64) :
    Beating i T (ids.erase i) []
      (s.run ids (.tick i (now + 50) 150 :: beats i T (now + 50) (ids.erase i))) := by
  obtain ⟨hrole, hterm⟩ := hlead
  have hself : i ∉ ids.erase i := hids.not_mem_erase
  have hbeat : s.step ids (.tick i (now + 50) 150)
      = s.after i (some (.heartbeat ⟨T, i⟩),
          { s.nodes i with lastHeartbeatMs := now + 50 }) := by
    have hdue : (s.nodes i).lastHeartbeatMs + (s.nodes i).heartbeatIntervalMs ≤ now + 50 := by
      rw [h.beat, h.ready.interval]
    have hmsg : AppendEntries.mk (s.nodes i).term (s.nodes i).myId = ⟨T, i⟩ := by
      rw [hterm, h.ready.member.id]
    rw [step, if_pos hi, RaftNode.tick_beats hrole hdue hnow, hmsg]
  have hbeating : Beating i T [] (ids.erase i) (s.step ids (.tick i (now + 50) 150)) := by
    rw [hbeat]
    refine ⟨⟨by simp [after, hrole], by simp [after, hterm]⟩, fun v hv => (by cases hv),
      fun v hv => ⟨?_, ?_⟩⟩
    · have hvi : v ≠ i := fun heq => hself (heq ▸ hv)
      simpa [after, hvi] using h.voted v hv
    · refine List.mem_append_right _ (List.mem_map.mpr ⟨v, ?_, rfl⟩)
      simpa [h.ready.member.peers] using hv
  exact hbeating.run ids (now + 50) (ids.erase i) hself (hids.erase i)

/-- The rest of the schedule, once the node runs for `T`. -/
theorem Runs.settled {base : Cluster} {T now : Nat} (h : Runs ids i T now base s)
    (hids : ids.Nodup) (htwo : 2 ≤ ids.length) (hi : i ∈ ids) (hwired : base.Wired ids)
    (hbelow : ∀ j ∈ ids, j ≠ i → (base.nodes j).term < T) (hnow : now + 50 < 2 ^ 64) :
    Settled ids i T (s.run ids (poll ids i T now)) ∧ TermsFit ids s (poll ids i T now) := by
  obtain ⟨hcounted, hlead⟩ := h.elected hids htwo hi hwired hbelow
  have hheard := hcounted.heard hids hi hlead hnow
  rw [poll]
  constructor
  · rw [run_append]
    refine ⟨hheard.leads, fun j hj hji => ?_⟩
    exact hheard.heard j ((List.mem_erase_of_ne hji).mpr hj)
  · refine termsFit_append.mpr ⟨termsFit_append.mpr
      ⟨termsFit_deliveries ids _ _ now _, termsFit_deliveries ids _ _ now _⟩, ?_,
      termsFit_deliveries ids _ _ (now + 50) _⟩
    -- a leader's tick starts no election
    intro hdue
    simp [RaftNode.electionDue, hlead.1] at hdue

theorem settled_settle (hids : ids.Nodup) (htwo : 2 ≤ ids.length) (hi : i ∈ ids)
    (hwired : s.Wired ids) (hready : Ready ids i (s.nodes i))
    (hrole : (s.nodes i).role ≠ .kLeader) {now k : Nat} (hk : 1 ≤ k)
    (hbelow : ∀ j ∈ ids, j ≠ i → (s.nodes j).term < (s.nodes i).term + k)
    (hclock : (s.nodes i).lastHeartbeatMs ≤ now) (hnow : now + 301 * k + 50 < 2 ^ 64)
    (hterm : (s.nodes i).term + k < 2 ^ 64) :
    Settled ids i ((s.nodes i).term + k)
        (s.run ids (settle ids i ((s.nodes i).term + k) now k)) ∧
      TermsFit ids s (settle ids i ((s.nodes i).term + k) now k) := by
  obtain ⟨k, rfl⟩ := Nat.exists_eq_add_of_le' hk
  obtain ⟨hruns, hfit⟩ := runs_campaign hi hready hrole hclock k
    (Nat.lt_of_le_of_lt (Nat.le_add_right _ 50) hnow) hterm
  obtain ⟨hsettled, hfits⟩ := hruns.settled hids htwo hi hwired hbelow hnow
  rw [settle, run_append, termsFit_append]
  exact ⟨hsettled, hfit, hfits⟩

/-! ## The timers of a run -/

/-- The timeout an action draws is one `RandomizedElectionTimeoutMs` can return. -/
def Drawn : Action → Prop
  | .tick _ _ timeoutMs => timeoutMs ≤ 300
  | .startElection _ _ timeoutMs => timeoutMs ≤ 300
  | _ => True

instance : DecidablePred Drawn
  | .tick _ _ timeoutMs => inferInstanceAs (Decidable (timeoutMs ≤ 300))
  | .startElection _ _ timeoutMs => inferInstanceAs (Decidable (timeoutMs ≤ 300))
  | .deliver _ _ => isTrue trivial
  | .duplicate _ => isTrue trivial

/-- Every node's timers are within their bounds. -/
def Timed (s : Cluster) : Prop :=
  ∀ j, (s.nodes j).electionTimeoutMs ≤ 300 ∧ (s.nodes j).heartbeatIntervalMs = 50

theorem Timed.update (h : s.Timed) {j : Int} {n : RaftNode} {net : List Packet}
    {past : Record Int} (hwait : n.electionTimeoutMs ≤ 300) (hint : n.heartbeatIntervalMs = 50) :
    Timed ⟨Function.update s.nodes j n, net, past⟩ := by
  intro w
  by_cases hw : w = j
  · subst hw
    simp [hwait, hint]
  · simpa [hw] using h w

theorem Timed.after (h : s.Timed) {j : Int} {r : Option Broadcast × RaftNode}
    (hwait : r.2.electionTimeoutMs ≤ 300) (hint : r.2.heartbeatIntervalMs = 50) :
    (s.after j r).Timed := by
  obtain ⟨b, n⟩ := r
  rcases b with _ | (rv | ae)
  all_goals exact h.update hwait hint

theorem Timed.receive (h : s.Timed) (nowMs : Nat) (p : Packet) : (s.receive nowMs p).Timed := by
  cases p with
  | requestVote c v req =>
      obtain ⟨hwait, hint⟩ := h v
      unfold Cluster.receive
      refine h.update ?_ ?_
      all_goals
        rw [RaftNode.onRequestVote]
        split
        · assumption
        · dsimp only
          split <;> split <;> assumption
  | voteReply v c reply =>
      obtain ⟨hwait, hint⟩ := h c
      unfold Cluster.receive
      refine h.update ?_ ?_
      all_goals
        rw [RaftNode.onRequestVoteReply]
        split
        · assumption
        · split
          · assumption
          · split
            · assumption
            · dsimp only
              split <;> assumption
  | appendEntries l v req =>
      obtain ⟨hwait, hint⟩ := h v
      unfold Cluster.receive
      refine h.update ?_ ?_
      all_goals
        rw [RaftNode.onAppendEntries]
        split <;> assumption

theorem Timed.step (h : s.Timed) {a : Action} (ha : Drawn a) : (s.step ids a).Timed := by
  cases a with
  | tick i nowMs timeoutMs =>
      obtain ⟨hwait, hint⟩ := h i
      rw [Cluster.step]
      split
      · refine h.after ?_ ?_
        all_goals
          rw [RaftNode.tick]
          split
          · assumption
          · split <;> assumption
      · exact h
  | startElection i nowMs timeoutMs =>
      rw [Cluster.step]
      split
      · exact h.after ha (h i).2
      · exact h
  | deliver p nowMs =>
      rw [Cluster.step]
      split
      · exact Timed.receive (s := { s with net := s.net.erase p }) h nowMs p
      · exact h
  | duplicate p =>
      rw [Cluster.step]
      split <;> exact h

theorem timed_run {acts : List Action} (h : s.Timed) (hdrawn : ∀ a ∈ acts, Drawn a) :
    (s.run ids acts).Timed := by
  induction acts generalizing s with
  | nil => exact h
  | cons a acts ih =>
      exact ih (h.step (hdrawn a List.mem_cons_self))
        fun b hb => hdrawn b (List.mem_cons_of_mem a hb)

/-- **No state is stuck.** After any run, a node that does not lead can still
win: when its timer has run out often enough for its term to pass all others,
the votes of the last campaign make it leader and its first heartbeats make
every other node follow it. -/
theorem undisturbed_election_settles {ids : List Int} (hids : ids.Nodup)
    (hpos : ∀ j ∈ ids, 0 ≤ j) (htwo : 2 ≤ ids.length) {timeouts : Int → Nat}
    (htimeouts : ∀ j, timeouts j ≤ 300) {acts : List Action}
    (hfit : TermsFit ids (initial ids timeouts) acts) (hdrawn : ∀ a ∈ acts, Drawn a)
    {i : Int} (hi : i ∈ ids) {now k : Nat} (hk : 1 ≤ k) :
    let s := (initial ids timeouts).run ids acts
    let T := (s.nodes i).term + k
    (s.nodes i).role ≠ .kLeader →
    (∀ j ∈ ids, j ≠ i → (s.nodes j).term < T) →
    (s.nodes i).lastHeartbeatMs ≤ now → now + 301 * k + 50 < 2 ^ 64 → T < 2 ^ 64 →
      Settled ids i T (s.run ids (settle ids i T now k)) ∧
        TermsFit ids s (settle ids i T now k) := by
  intro s T hrole hbelow hclock hnow hterm
  have hwired : s.Wired ids := (inv_run_initial hids hpos hfit).wired
  have htimed : s.Timed := timed_run (fun j => ⟨htimeouts j, rfl⟩) hdrawn
  exact settled_settle hids htwo hi hwired ⟨hwired.member i hi, (htimed i).1, (htimed i).2⟩
    hrole hk hbelow hclock hnow hterm

/-- Three nodes that all ran at once and refused each other. -/
def splitRun : List Action :=
  [.tick 0 301 150, .tick 1 301 150, .tick 2 301 150,
   .deliver (.requestVote 0 1 ⟨1, 0, 0, 0⟩) 302, .deliver (.requestVote 1 2 ⟨1, 1, 0, 0⟩) 302,
   .deliver (.requestVote 2 0 ⟨1, 2, 0, 0⟩) 302]

theorem splitRun_settles :
    let s := (initial [0, 1, 2] fun _ => 200).run [0, 1, 2] splitRun
    (∀ j ∈ [0, 1, 2], (s.nodes j).role = .kCandidate) ∧
      Settled [0, 1, 2] 1 2 (s.run [0, 1, 2] (settle [0, 1, 2] 1 2 400 1)) ∧
      TermsFit [0, 1, 2] s (settle [0, 1, 2] 1 2 400 1) := by
  refine ⟨by decide, ?_⟩
  exact undisturbed_election_settles (by decide) (by decide) (by decide) (fun _ => by decide)
    (by decide) (by decide) (by decide) (by decide) (by decide) (by decide) (by decide)
    (by decide) (by decide)

/-! ## Who can be elected -/

/-- No vote is on its way and nobody leads. -/
structure Mute (ids : List Int) (s : Cluster) : Prop where
  net : s.net = []
  role : ∀ i ∈ ids, (s.nodes i).role ≠ .kLeader
  peers : ∀ i ∈ ids, (s.nodes i).peers = []

theorem Mute.after (h : s.Mute ids) {j : Int} {r : Option Broadcast × RaftNode}
    (hrole : r.2.role ≠ .kLeader) (hpeers : r.2.peers = []) : (s.after j r).Mute ids := by
  obtain ⟨b, n⟩ := r
  have hnodes : ∀ i ∈ ids, (Function.update s.nodes j n i).role ≠ .kLeader ∧
      (Function.update s.nodes j n i).peers = [] := by
    intro i hi
    by_cases hij : i = j
    · subst hij
      rw [Function.update_self]
      exact ⟨hrole, hpeers⟩
    · rw [Function.update_of_ne hij]
      exact ⟨h.role i hi, h.peers i hi⟩
  have hsent : ∀ f : Int → Packet, s.net ++ n.peers.map f = [] := by
    intro f
    rw [h.net, show n.peers = [] from hpeers]
    rfl
  rcases b with _ | (rv | ae)
  · exact ⟨h.net, fun i hi => (hnodes i hi).1, fun i hi => (hnodes i hi).2⟩
  · exact ⟨hsent _, fun i hi => (hnodes i hi).1, fun i hi => (hnodes i hi).2⟩
  · exact ⟨hsent _, fun i hi => (hnodes i hi).1, fun i hi => (hnodes i hi).2⟩

theorem Mute.step (h : s.Mute ids) (a : Action) : (s.step ids a).Mute ids := by
  cases a with
  | tick i nowMs timeoutMs =>
      rw [Cluster.step]
      split
      · next hi =>
        refine h.after ?_ ?_
        all_goals
          rw [RaftNode.tick]
          split
          · first | exact h.peers i hi | exact RaftRole.noConfusion
          · split
            · first | exact h.peers i hi | exact h.role i hi
            · first | exact h.peers i hi | exact h.role i hi
      · exact h
  | startElection i nowMs timeoutMs =>
      rw [Cluster.step]
      split
      · next hi => exact h.after RaftRole.noConfusion (h.peers i hi)
      · exact h
  | deliver p nowMs =>
      rw [Cluster.step, if_neg (by rw [h.net]; exact List.not_mem_nil)]
      exact h
  | duplicate p =>
      rw [Cluster.step, if_neg (by rw [h.net]; exact List.not_mem_nil)]
      exact h

theorem mute_run {acts : List Action} (h : s.Mute ids) : (s.run ids acts).Mute ids := by
  induction acts generalizing s with
  | nil => exact h
  | cons a acts ih => exact ih (h.step a)

theorem mute_initial {timeouts : Int → Nat} (hone : ids.length ≤ 1) :
    (initial ids timeouts).Mute ids := by
  refine ⟨rfl, fun i _ => RaftRole.noConfusion, fun i hi => ?_⟩
  refine List.eq_nil_of_length_eq_zero ?_
  show (ids.erase i).length = 0
  rw [List.length_erase_of_mem hi]
  omega

/-- **Two nodes make a cluster.** Some run elects a leader exactly when there
are two nodes or more: a node without peers runs for one term after the other
and never leads. -/
theorem leader_possible_iff {ids : List Int} (hids : ids.Nodup)
    {timeouts : Int → Nat} (htimeouts : ∀ j, timeouts j ≤ 300) :
    (∃ acts, TermsFit ids (initial ids timeouts) acts ∧
        ∃ i ∈ ids, ∃ t, ((initial ids timeouts).run ids acts).Leads i t) ↔ 2 ≤ ids.length := by
  constructor
  · rintro ⟨acts, -, i, hi, t, hrole, -⟩
    by_contra hfew
    exact (mute_run (mute_initial (by omega))).role i hi hrole
  · intro htwo
    obtain ⟨i, hi⟩ := List.exists_mem_of_length_pos (show 0 < ids.length by omega)
    have hwired := wired_initial ids timeouts
    have hready : Ready ids i ((initial ids timeouts).nodes i) :=
      ⟨hwired.member i hi, htimeouts i, rfl⟩
    obtain ⟨hsettled, hfit⟩ := settled_settle hids htwo hi hwired hready
      RaftRole.noConfusion (le_refl 1) (fun j _ _ => Nat.zero_lt_succ 0) (le_refl 0)
      (by decide) (show 0 + 1 < 2 ^ 64 by decide)
    exact ⟨_, hfit, i, hi, _, hsettled.1⟩

theorem leader_possible_iff_pair :
    [0, 1].Nodup ∧ ∃ acts, TermsFit [0, 1] (initial [0, 1] fun _ => 200) acts ∧
      ∃ i ∈ [0, 1], ∃ t, ((initial [0, 1] fun _ => 200).run [0, 1] acts).Leads i t :=
  ⟨by decide, (leader_possible_iff (by decide) (fun _ => by decide)).mpr (by decide)⟩

end Cluster

end VaultKV
