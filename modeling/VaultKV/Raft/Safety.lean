import VaultKV.Raft.Refine

/-!
# Raft — safety of elections over whole runs

Over every run of the cluster, whatever the network does, the record and
the nodes agree (`Cluster.Inv`). Replies carry no voter, so how many voters
a leader has depends on the network: without duplicates every vote request
is a TOKEN that turns into at most one reply and at most one counted vote
(`tokens`), and a tally is a number of voters.
-/

namespace VaultKV

open Lib

namespace Cluster

variable {ids : List Int} {s : Cluster} {a : Action}

theorem quorumOf_majority (hids : ids.Nodup) : ids.toFinset.card < 2 * quorumOf ids := by
  rw [List.toFinset_card_of_nodup hids, quorumOf]
  omega

/-- What every run keeps. -/
structure Inv (ids : List Int) (s : Cluster) : Prop where
  wired : s.Wired ids
  sound : s.view.Sound ids.toFinset (quorumOf ids)

theorem inv_initial (ids : List Int) (timeouts : Int → Nat) :
    (initial ids timeouts).Inv ids where
  wired := wired_initial ids timeouts
  sound :=
    { member := fun _ hb => absurd hb List.not_mem_nil
      reached := fun _ hb => absurd hb List.not_mem_nil
      backed := fun _ hb => absurd hb List.not_mem_nil
      heard_led := fun _ hb => absurd hb List.not_mem_nil
      counted := fun _ hb => absurd hb List.not_mem_nil
      own := fun _ hi => absurd rfl hi
      tally := fun _ hi => absurd rfl hi
      quorum := fun _ hi => nomatch hi
      leading := fun _ hi => nomatch hi }

theorem Inv.step (hids : ids.Nodup) (hpos : ∀ i ∈ ids, 0 ≤ i) (h : s.Inv ids)
    (hfit : s.Fits a) : (s.step ids a).Inv ids := by
  obtain ⟨hw, hv | ⟨call, hlegal, hv, -⟩⟩ := h.wired.step hids hpos h.sound hfit
  · exact ⟨hw, hv ▸ h.sound⟩
  · exact ⟨hw, hv ▸ h.sound.act hlegal⟩

theorem Inv.run (hids : ids.Nodup) (hpos : ∀ i ∈ ids, 0 ≤ i) (h : s.Inv ids)
    {acts : List Action} (hfit : TermsFit ids s acts) : (s.run ids acts).Inv ids := by
  induction acts generalizing s with
  | nil => exact h
  | cons a as ih => exact ih (h.step hids hpos hfit.1) hfit.2

/-! ## The record only grows -/

theorem Inv.grows_step (hids : ids.Nodup) (hpos : ∀ i ∈ ids, 0 ≤ i) (h : s.Inv ids)
    (hfit : s.Fits a) : RecordGrows s.past (s.step ids a).past := by
  obtain ⟨-, hv | ⟨call, -, hv, -⟩⟩ := h.wired.step hids hpos h.sound hfit
  · have : (s.step ids a).past = s.past := congrArg Election.past hv
    rw [this]
    exact .refl _
  · have : (s.step ids a).past = (s.view.act (quorumOf ids) call).past :=
      congrArg Election.past hv
    rw [this]
    exact ⟨fun _ hb => Election.votes_act (s := s.view) hb,
      fun _ hw => Election.led_act (s := s.view) hw, Election.counted_act (s := s.view) call⟩

theorem Inv.grows_run (hids : ids.Nodup) (hpos : ∀ i ∈ ids, 0 ≤ i) (h : s.Inv ids)
    {acts : List Action} (hfit : TermsFit ids s acts) :
    RecordGrows s.past (s.run ids acts).past := by
  induction acts generalizing s with
  | nil => exact .refl _
  | cons a as ih =>
      exact (h.grows_step hids hpos hfit.1).trans (ih (h.step hids hpos hfit.1) hfit.2)

theorem run_append (as bs : List Action) :
    s.run ids (as ++ bs) = (s.run ids as).run ids bs := List.foldl_append ..

theorem termsFit_append {as bs : List Action} :
    TermsFit ids s (as ++ bs) ↔ TermsFit ids s as ∧ TermsFit ids (s.run ids as) bs := by
  induction as generalizing s with
  | nil => exact ⟨fun h => ⟨trivial, h⟩, And.right⟩
  | cons a as ih =>
      show _ ∧ TermsFit ids _ (as ++ bs) ↔ (_ ∧ _) ∧ _
      rw [ih, and_assoc]
      rfl

/-! ## Fairness while no vote is counted twice -/

abbrev Fair (ids : List Int) (s : Cluster) : Prop :=
  s.view.Fair ids.toFinset (quorumOf ids)

theorem fair_initial (ids : List Int) (timeouts : Int → Nat) :
    (initial ids timeouts).Fair ids where
  single _ _ _ _ hb := absurd hb List.not_mem_nil
  won _ hw := absurd hw List.not_mem_nil
  follows _ hb := absurd hb List.not_mem_nil

theorem Inv.fair_step (hids : ids.Nodup) (hpos : ∀ i ∈ ids, 0 ≤ i) (h : s.Inv ids)
    (hf : s.Fair ids) (hfit : s.Fits a) (hn : (s.step ids a).past.counted.Nodup) :
    (s.step ids a).Fair ids := by
  obtain ⟨-, hv | ⟨call, hlegal, hv, -⟩⟩ := h.wired.step hids hpos h.sound hfit
  · rw [Fair, hv]
    exact hf
  · have hn : (s.view.act (quorumOf ids) call).past.counted.Nodup := hv ▸ hn
    rw [Fair, hv]
    exact hf.act (quorumOf_majority hids) h.sound hlegal hn

theorem Inv.fair_run (hids : ids.Nodup) (hpos : ∀ i ∈ ids, 0 ≤ i) (h : s.Inv ids)
    (hf : s.Fair ids) {acts : List Action} (hfit : TermsFit ids s acts)
    (hn : (s.run ids acts).past.counted.Nodup) : (s.run ids acts).Fair ids := by
  induction acts generalizing s with
  | nil => exact hf
  | cons a as ih =>
      have h' := h.step hids hpos hfit.1
      have hn' : (s.step ids a).past.counted.Nodup :=
        hn.sublist (h'.grows_run hids hpos hfit.2).counted.sublist
      exact ih h' (h.fair_step hids hpos hf hfit.1 hn') hfit.2 hn

/-! ## Tokens -/

/-- How often the vote of `v` for `c` in term `t` is on its way: as a
request, as a granting reply, or counted. -/
def tokens (s : Cluster) (c v : Int) (t : Nat) : Nat :=
  s.net.count (.requestVote c v ⟨t, c, 0, 0⟩) + s.net.count (.voteReply v c ⟨t, true⟩) +
    s.past.counted.count ⟨v, c, t⟩

/-- No vote is on its way twice, or for a term its candidate is yet to
reach. -/
def Once (s : Cluster) : Prop :=
  ∀ c v t, s.tokens c v t ≤ 1 ∧ (0 < s.tokens c v t → t ≤ (s.nodes c).term)

theorem once_initial (ids : List Int) (timeouts : Int → Nat) : (initial ids timeouts).Once :=
  fun _ _ _ => ⟨Nat.zero_le _, fun h => absurd h (Nat.lt_irrefl 0)⟩

theorem Once.nodup (h : s.Once) : s.past.counted.Nodup := by
  rw [List.nodup_iff_count_le_one]
  rintro ⟨v, c, t⟩
  exact (Nat.le_add_left ..).trans (h c v t).1

/-- An action that adds no token. -/
theorem Once.of_le {s' : Cluster} (h : s.Once)
    (hle : ∀ c v t, s'.tokens c v t ≤ s.tokens c v t)
    (hterm : ∀ c, (s.nodes c).term ≤ (s'.nodes c).term) : s'.Once := fun c v t =>
  ⟨(hle c v t).trans (h c v t).1, fun hpos =>
    ((h c v t).2 (hpos.trans_le (hle c v t))).trans (hterm c)⟩

theorem Inv.term_step (hids : ids.Nodup) (hpos : ∀ i ∈ ids, 0 ≤ i) (h : s.Inv ids)
    (hfit : s.Fits a) (c : Int) : (s.nodes c).term ≤ ((s.step ids a).nodes c).term := by
  have hterm : ∀ s : Cluster, (s.nodes c).term = (s.view.seat c).term := fun _ => rfl
  obtain ⟨-, hv | ⟨call, hlegal, hv, -⟩⟩ := h.wired.step hids hpos h.sound hfit
  · rw [hterm, hterm, hv]
  · rw [hterm, hterm, hv]
    exact Election.term_act hlegal c

/-- A new election sends one token to each peer, for a new term. -/
theorem Once.startElection (hids : ids.Nodup) (h : s.Once) (hw : s.Wired ids) {i : Int}
    (hi : i ∈ ids) (hfit : (s.nodes i).term + 1 < 2 ^ 64) (nowMs timeoutMs : Nat) :
    let r := (s.nodes i).startElectionLocked nowMs timeoutMs
    (s.after i (some (.requestVote r.1), r.2)).Once := by
  intro r c v t
  have hm := hw.member i hi
  have hrt : r.1.term = (s.nodes i).term + 1 := Nat.mod_eq_of_lt hfit
  have hpeers : r.2.peers.Nodup := by
    rw [show r.2.peers = ids.erase i from hm.peers]
    exact hids.erase i
  have hold := h c v t
  have htok : (s.after i (some (.requestVote r.1), r.2)).tokens c v t
      = s.tokens c v t
        + (r.2.peers.map (Packet.requestVote i · r.1)).count (.requestVote c v ⟨t, c, 0, 0⟩) := by
    have hrep : (r.2.peers.map (Packet.requestVote i · r.1)).count
        (Packet.voteReply v c ⟨t, true⟩) = 0 := List.count_eq_zero.2 (by simp)
    show (s.net ++ _).count _ + (s.net ++ _).count _ + s.past.counted.count _ = _
    rw [List.count_append, List.count_append, hrep, tokens]
    omega
  rw [htok]
  have hterm : (s.nodes c).term
      ≤ ((s.after i (some (.requestVote r.1), r.2)).nodes c).term := by
    show _ ≤ (Function.update s.nodes i r.2 c).term
    by_cases hci : c = i
    · rw [hci, Function.update_self]
      show _ ≤ r.1.term
      omega
    · rw [Function.update_of_ne hci]
  by_cases hmem : Packet.requestVote c v ⟨t, c, 0, 0⟩
      ∈ r.2.peers.map (Packet.requestVote i · r.1)
  · -- the new requests are for a term nothing is on its way for
    obtain ⟨w, -, hw⟩ := List.mem_map.1 hmem
    obtain ⟨rfl, rfl, hreq⟩ := Packet.requestVote.inj hw
    have ht : t = (s.nodes i).term + 1 := by rw [← hrt, hreq]
    have hzero : s.tokens i w t = 0 := by
      by_contra hne
      have := hold.2 (Nat.pos_of_ne_zero hne)
      omega
    have hone := List.nodup_iff_count_le_one.1
      (hpeers.map (f := fun x => Packet.requestVote i x r.1)
        fun x y hxy => (Packet.requestVote.inj hxy).2.1) (.requestVote i w ⟨t, i, 0, 0⟩)
    refine ⟨by omega, fun _ => ?_⟩
    show t ≤ (Function.update s.nodes i r.2 i).term
    rw [Function.update_self]
    show t ≤ r.1.term
    omega
  · rw [List.count_eq_zero.2 hmem]
    exact ⟨hold.1, fun hpos => (hold.2 hpos).trans hterm⟩

theorem count_erase_le (net : List Packet) (p p' : Packet) :
    (net.erase p).count p' ≤ net.count p' := List.Sublist.count_le p' List.erase_sublist

/-- A request turns into at most one granting reply. -/
theorem tokens_requestVote {c v : Int} {req : RequestVote}
    (hm : (s.nodes v).Member ids v) (hreq : req = ⟨req.term, c, 0, 0⟩)
    (hp : .requestVote c v req ∈ s.net) (nowMs : Nat) (c' v' : Int) (t : Nat) :
    (receive { s with net := s.net.erase (.requestVote c v req) } nowMs
      (.requestVote c v req)).tokens c' v' t ≤ s.tokens c' v' t := by
  have hgrant : ((s.nodes v).onRequestVote nowMs req).1 = ⟨t, true⟩ → t = req.term := by
    rcases hm.onRequestVote nowMs req with ⟨hr, -, -⟩ | ⟨hno, -, -⟩
    · rw [hr]
      intro h
      exact (RequestVoteReply.mk.inj h).1.symm
    · intro h
      rw [h] at hno
      cases hno
  show (s.net.erase _ ++ [_]).count _ + (s.net.erase _ ++ [_]).count _
    + s.past.counted.count _ ≤ _
  rw [List.count_append, List.count_append, List.count_singleton, List.count_singleton, tokens]
  have hcount := List.count_pos_iff.2 hp
  have hle := count_erase_le s.net (.requestVote c v req) (.voteReply v' c' ⟨t, true⟩)
  by_cases hrep : Packet.voteReply v c ((s.nodes v).onRequestVote nowMs req).1
      = Packet.voteReply v' c' ⟨t, true⟩
  · obtain ⟨rfl, rfl, hrep'⟩ := Packet.voteReply.inj hrep
    have hsame : Packet.requestVote c v ⟨t, c, 0, 0⟩ = .requestVote c v req := by
      rw [hgrant hrep', ← hreq]
    rw [hsame, List.count_erase_self]
    have hne : (Packet.voteReply v c ((s.nodes v).onRequestVote nowMs req).1
      == Packet.requestVote c v req) = false := rfl
    simp only [hne, Bool.false_eq_true, if_false]
    split <;> omega
  · have hle' := count_erase_le s.net (.requestVote c v req)
      (.requestVote c' v' ⟨t, c', 0, 0⟩)
    rw [if_neg (by simp), if_neg (by simpa using hrep)]
    omega

/-- A granting reply is counted at most once. -/
theorem tokens_voteReply {c v : Int} {reply : RequestVoteReply}
    (hp : .voteReply v c reply ∈ s.net) (nowMs : Nat) (c' v' : Int) (t : Nat) :
    (receive { s with net := s.net.erase (.voteReply v c reply) } nowMs
      (.voteReply v c reply)).tokens c' v' t ≤ s.tokens c' v' t := by
  show (s.net.erase _).count _ + (s.net.erase _).count _ +
    List.count _ (if (s.nodes c).counts reply then ⟨v, c, reply.term⟩ :: s.past.counted
      else s.past.counted) ≤ _
  rw [tokens]
  have hcount := List.count_pos_iff.2 hp
  have hle := count_erase_le s.net (.voteReply v c reply) (.requestVote c' v' ⟨t, c', 0, 0⟩)
  by_cases hrep : Packet.voteReply v c reply = Packet.voteReply v' c' ⟨t, true⟩
  · obtain ⟨rfl, rfl, rfl⟩ := Packet.voteReply.inj hrep
    rw [List.count_erase_self]
    split
    · rw [List.count_cons_self]
      omega
    · omega
  · have hle' := count_erase_le s.net (.voteReply v c reply) (.voteReply v' c' ⟨t, true⟩)
    split
    · next hcounts =>
      -- what is counted here is a granting reply, but another one
      have hne : (⟨v, c, reply.term⟩ : Ballot Int) ≠ ⟨v', c', t⟩ := by
        intro heq
        obtain ⟨rfl, rfl, rfl⟩ := Ballot.mk.inj heq
        have hg : reply.voteGranted = true := by
          simp only [RaftNode.counts, Bool.and_eq_true] at hcounts
          exact hcounts.1.2
        exact hrep (by rw [← hg])
      rw [List.count_cons_of_ne hne]
      omega
    · omega

theorem Once.step (hids : ids.Nodup) (hpos : ∀ i ∈ ids, 0 ≤ i) (h : s.Inv ids) (ho : s.Once)
    (hfit : s.Fits a) (hdup : ∀ p, a ≠ .duplicate p) : (s.step ids a).Once := by
  have hterm := h.term_step hids hpos hfit
  cases a with
  | tick i nowMs timeoutMs =>
      show (if i ∈ ids then _ else _ : Cluster).Once
      by_cases hi : i ∈ ids
      swap
      · rw [if_neg hi]
        exact ho
      rw [if_pos hi, RaftNode.tick]
      by_cases hdue : (s.nodes i).electionDue nowMs = true
      · rw [if_pos hdue]
        exact ho.startElection hids h.wired hi (hfit hdue) nowMs timeoutMs
      rw [if_neg hdue]
      have hkeep : ∀ n, n.term = (s.nodes i).term → ∀ c,
          (s.nodes c).term ≤ (Function.update s.nodes i n c).term := by
        intro n hn c
        by_cases hc : c = i
        · rw [hc, Function.update_self, hn]
        · rw [Function.update_of_ne hc]
      by_cases hbeat : (s.nodes i).heartbeatDue nowMs = true
      · rw [if_pos hbeat]
        refine ho.of_le (fun c v t => le_of_eq ?_) (hkeep _ rfl)
        have hnone : ∀ (peers : List Int) ae, ∀ p, (∀ dst, Packet.appendEntries i dst ae ≠ p) →
            (peers.map (Packet.appendEntries i · ae)).count p = 0 := by
          intro peers ae p hp
          apply List.count_eq_zero.2
          intro hmem
          obtain ⟨dst, _, heq⟩ := List.mem_map.1 hmem
          exact hp dst heq
        show (s.net ++ _).count _ + (s.net ++ _).count _ + s.past.counted.count _ = _
        rw [List.count_append, List.count_append, hnone _ _ _ (by simp), hnone _ _ _ (by simp)]
        rfl
      · rw [if_neg hbeat]
        exact ho.of_le (fun _ _ _ => Nat.le_refl _) (hkeep _ rfl)
  | startElection i nowMs timeoutMs =>
      show (if i ∈ ids then _ else _ : Cluster).Once
      by_cases hi : i ∈ ids
      · rw [if_pos hi]
        exact ho.startElection hids h.wired hi hfit nowMs timeoutMs
      · rw [if_neg hi]
        exact ho
  | duplicate p => exact absurd rfl (hdup p)
  | deliver p nowMs =>
      by_cases hp : p ∈ s.net
      swap
      · rw [show s.step ids (.deliver p nowMs) = s from if_neg hp]
        exact ho
      have hstep : s.step ids (.deliver p nowMs)
          = receive { s with net := s.net.erase p } nowMs p := if_pos hp
      rw [hstep] at hterm ⊢
      refine ho.of_le (fun c' v' t => ?_) hterm
      cases p with
      | requestVote c v req =>
          obtain ⟨-, hv, -, hreq⟩ := h.wired.net _ hp
          exact tokens_requestVote (h.wired.member v hv) hreq hp nowMs c' v' t
      | voteReply v c reply => exact tokens_voteReply hp nowMs c' v' t
      | appendEntries l v req =>
          have hle := count_erase_le s.net (.appendEntries l v req)
          have h₁ := hle (.requestVote c' v' ⟨t, c', 0, 0⟩)
          have h₂ := hle (.voteReply v' c' ⟨t, true⟩)
          show (s.net.erase _).count _ + (s.net.erase _).count _ + s.past.counted.count _ ≤ _
          rw [tokens]
          omega

/-- **Without duplicates no vote is counted twice.** -/
theorem Once.run (hids : ids.Nodup) (hpos : ∀ i ∈ ids, 0 ≤ i) (h : s.Inv ids) (ho : s.Once)
    {acts : List Action} (hfit : TermsFit ids s acts)
    (hdup : ∀ p, .duplicate p ∉ acts) : (s.run ids acts).Once := by
  induction acts generalizing s with
  | nil => exact ho
  | cons a as ih =>
      refine ih (h.step hids hpos hfit.1) (ho.step hids hpos h hfit.1 fun p hp => ?_) hfit.2
        fun p hp => hdup p (List.mem_cons_of_mem _ hp)
      exact hdup p (hp ▸ List.mem_cons_self ..)

/-! ## One leader per term -/

theorem inv_run_initial (hids : ids.Nodup) (hpos : ∀ i ∈ ids, 0 ≤ i) {timeouts : Int → Nat}
    {acts : List Action} (hfit : TermsFit ids (initial ids timeouts) acts) :
    ((initial ids timeouts).run ids acts).Inv ids :=
  (inv_initial ids timeouts).run hids hpos hfit

theorem once_run_initial (hids : ids.Nodup) (hpos : ∀ i ∈ ids, 0 ≤ i) {timeouts : Int → Nat}
    {acts : List Action} (hfit : TermsFit ids (initial ids timeouts) acts)
    (hdup : ∀ p, .duplicate p ∉ acts) : ((initial ids timeouts).run ids acts).Once :=
  (once_initial ids timeouts).run hids hpos (inv_initial ids timeouts) hfit hdup

/-- A leader at one moment of a run is on record at its end. -/
theorem led_of_leads (hids : ids.Nodup) (hpos : ∀ i ∈ ids, 0 ≤ i) {timeouts : Int → Nat}
    {acts : List Action} (hfit : TermsFit ids (initial ids timeouts) acts) {m : Nat} {i : Int}
    {t : Nat} (hi : ((initial ids timeouts).run ids (acts.take m)).Leads i t) :
    (i, t) ∈ ((initial ids timeouts).run ids acts).past.led := by
  rw [← List.take_append_drop m acts] at hfit ⊢
  obtain ⟨hfit₁, hfit₂⟩ := termsFit_append.1 hfit
  have h := inv_run_initial hids hpos hfit₁
  have hled := h.sound.leading i (by
    show RaftRole.office _ = .leader
    rw [hi.1]
    rfl)
  have hterm : (((initial ids timeouts).run ids (acts.take m)).view.seat i).term = t := hi.2
  rw [hterm] at hled
  rw [run_append]
  exact (h.grows_run hids hpos hfit₂).led hled

/-- **Election safety.** If no message is delivered twice, two nodes that
are leader for one term, at whatever moments of a run, are the same node. -/
theorem one_leader_per_term {ids : List Int} (hids : ids.Nodup) (hpos : ∀ i ∈ ids, 0 ≤ i)
    {timeouts : Int → Nat} {acts : List Action}
    (hfit : TermsFit ids (initial ids timeouts) acts) (hdup : ∀ p, .duplicate p ∉ acts)
    {m k : Nat} {i j : Int} {t : Nat}
    (hi : ((initial ids timeouts).run ids (acts.take m)).Leads i t)
    (hj : ((initial ids timeouts).run ids (acts.take k)).Leads j t) : i = j := by
  have hfair := (inv_initial ids timeouts).fair_run hids hpos (fair_initial ids timeouts) hfit
    (once_run_initial hids hpos hfit hdup).nodup
  exact hfair.led_unique (quorumOf_majority hids) (led_of_leads hids hpos hfit hj)
    (led_of_leads hids hpos hfit hi)

/-- Node `0` is elected by itself and node `1`. -/
def electionRun : List Action :=
  [.startElection 0 10 200,
   .deliver (.requestVote 0 1 ⟨1, 0, 0, 0⟩) 11,
   .deliver (.voteReply 1 0 ⟨1, true⟩) 12]

theorem electionRun_one_leader :
    ((initial [0, 1, 2] fun _ => 200).run [0, 1, 2] (electionRun.take 3)).Leads 0 1 ∧
      ∀ j, ((initial [0, 1, 2] fun _ => 200).run [0, 1, 2] (electionRun.take 3)).Leads j 1 →
        j = 0 := by
  have hfit : TermsFit [0, 1, 2] (initial [0, 1, 2] fun _ => 200) electionRun := by
    decide +kernel
  have hlead : ((initial [0, 1, 2] fun _ => 200).run [0, 1, 2]
      (electionRun.take 3)).Leads 0 1 := by decide +kernel
  exact ⟨hlead, fun j hj => one_leader_per_term (by decide) (by decide) hfit
    (by simp [electionRun]) hj hlead⟩

/-! ## How many voters a leader has -/

/-- **A leader has a majority of distinct voters** if no candidate counted
two replies of one voter in one term; in a cluster of at most three nodes it
has one whatever is delivered how often. -/
theorem leader_has_majority_voters {ids : List Int} (hids : ids.Nodup)
    (hpos : ∀ i ∈ ids, 0 ≤ i) {timeouts : Int → Nat} {acts : List Action}
    (hfit : TermsFit ids (initial ids timeouts) acts)
    (honce : ((initial ids timeouts).run ids acts).past.counted.Nodup ∨ ids.length ≤ 3)
    {i : Int} {t : Nat} (hi : ((initial ids timeouts).run ids acts).Leads i t) :
    (((initial ids timeouts).run ids acts).nodes i).majorityCount
      ≤ (((initial ids timeouts).run ids acts).view.voters i t).card := by
  have h := inv_run_initial hids hpos hfit
  have hoff : (((initial ids timeouts).run ids acts).view.seat i).office = .leader := by
    show RaftRole.office _ = .leader
    rw [hi.1]
    rfl
  have hin : (((initial ids timeouts).run ids acts).view.seat i).office ≠ .follower := by
    rw [hoff]; decide
  have hmem : i ∈ ids := List.mem_toFinset.1 (h.sound.member _ (h.sound.own i hin))
  have hq := h.sound.quorum i hoff
  rw [(h.wired.member i hmem).majorityCount hmem, ← hi.2]
  rcases honce with hn | hsmall
  · exact hq.trans (h.sound.tally_le_voters hn hin)
  · refine le_trans (Nat.le_min.2 ⟨?_, hq⟩) (h.sound.two_le_voters hin)
    rw [quorumOf]
    omega

/-- Node `0` is elected by itself and two more. -/
def fiveElectionRun : List Action :=
  [.startElection 0 10 200,
   .deliver (.requestVote 0 1 ⟨1, 0, 0, 0⟩) 11,
   .deliver (.requestVote 0 2 ⟨1, 0, 0, 0⟩) 12,
   .duplicate (.voteReply 1 0 ⟨1, true⟩),
   .deliver (.voteReply 1 0 ⟨1, true⟩) 13,
   .deliver (.voteReply 2 0 ⟨1, true⟩) 14]

theorem fiveElectionRun_voters :
    (((initial [0, 1, 2, 3, 4] fun _ => 200).run [0, 1, 2, 3, 4]
      fiveElectionRun).nodes 0).majorityCount ≤ (((initial [0, 1, 2, 3, 4] fun _ => 200).run
        [0, 1, 2, 3, 4] fiveElectionRun).view.voters 0 1).card := by
  have hfit : TermsFit [0, 1, 2, 3, 4] (initial [0, 1, 2, 3, 4] fun _ => 200)
      fiveElectionRun := by decide +kernel
  exact leader_has_majority_voters (by decide) (by decide) hfit
    (Or.inl (by decide +kernel)) (by decide +kernel)

/-- The one vote node `0` is granted is delivered to it twice. -/
def doubledReplyRun : List Action :=
  [.startElection 0 10 200,
   .deliver (.requestVote 0 1 ⟨1, 0, 0, 0⟩) 11,
   .duplicate (.voteReply 1 0 ⟨1, true⟩),
   .deliver (.voteReply 1 0 ⟨1, true⟩) 12,
   .deliver (.voteReply 1 0 ⟨1, true⟩) 13]

/-- Two voters make a leader of a cluster whose majority is three. -/
theorem doubledReplyRun_two_voters :
    ((initial [0, 1, 2, 3, 4] fun _ => 200).run [0, 1, 2, 3, 4] doubledReplyRun).Leads 0 1 ∧
      (((initial [0, 1, 2, 3, 4] fun _ => 200).run [0, 1, 2, 3, 4]
        doubledReplyRun).nodes 0).majorityCount = 3 ∧
      (((initial [0, 1, 2, 3, 4] fun _ => 200).run [0, 1, 2, 3, 4]
        doubledReplyRun).view.voters 0 1).card = 2 := by
  decide +kernel

/-! ## One vote per term -/

/-- No node has granted its vote, its own candidacy included, to two
candidates in one term. -/
def OneVote (s : Cluster) : Prop :=
  ∀ b ∈ s.past.votes, ∀ b' ∈ s.past.votes, b.voter = b'.voter → b.term = b'.term →
    b.candidate = b'.candidate

instance (s : Cluster) : Decidable s.OneVote :=
  inferInstanceAs (Decidable (∀ b ∈ s.past.votes, ∀ b' ∈ s.past.votes, _ → _ → _))

theorem oneVote_iff : s.OneVote ↔ s.view.Single := by
  constructor
  · intro h v c c' t hc hc'
    exact h _ hc _ hc' rfl rfl
  · rintro h ⟨v, c, t⟩ hb ⟨v', c', t'⟩ hb' hv ht
    obtain rfl : v = v' := hv
    obtain rfl : t = t' := ht
    exact h v c c' t hb hb'

/-- No vote request comes late along the run. -/
def NoLateRequest (ids : List Int) (s : Cluster) : List Action → Prop
  | [] => True
  | a :: as => ¬ s.LateRequest a ∧ NoLateRequest ids (s.step ids a) as

instance (ids : List Int) : (acts : List Action) → (s : Cluster) →
    Decidable (NoLateRequest ids s acts)
  | [], _ => isTrue trivial
  | a :: as, s =>
      @instDecidableAnd _ _ (inferInstanceAs (Decidable (¬ s.LateRequest a)))
        (instDecidableNoLateRequest ids as (s.step ids a))

theorem OneVote.step (hids : ids.Nodup) (hpos : ∀ i ∈ ids, 0 ≤ i) (h : s.Inv ids)
    (hs : s.OneVote) (hfit : s.Fits a) (hlate : ¬ s.LateRequest a) :
    (s.step ids a).OneVote := by
  rw [oneVote_iff] at hs ⊢
  obtain ⟨-, hv | ⟨call, hlegal, hv, himp⟩⟩ := h.wired.step hids hpos h.sound hfit
  · rw [hv]
    exact hs
  · rw [hv]
    exact Election.Single.act h.sound hs hlegal fun hl => hlate (himp hl)

/-- A late request is granted: the heartbeat has put the candidate in the
place of the vote. -/
theorem LateRequest.not_oneVote (hpos : ∀ i ∈ ids, 0 ≤ i) (h : s.Inv ids) (hf : s.Fair ids)
    (hlate : s.LateRequest a) : ¬ (s.step ids a).OneVote := by
  cases a with
  | deliver p nowMs =>
    cases p with
    | requestVote c v req =>
        obtain ⟨hp, hterm, hheard, b, hb, hbv, hbt, hne⟩ := hlate
        have hok := h.wired.net _ hp
        have hchoice := (hf.follows _ hheard).2 hterm
        have hvoted : (s.nodes v).votedFor = c := by
          have hchoice : (if (s.nodes v).votedFor = -1 then none
              else some (s.nodes v).votedFor) = some c := hchoice
          split at hchoice
          · cases hchoice
          · exact Option.some.inj hchoice
        have hstep : s.step ids (.deliver (.requestVote c v req) nowMs)
            = receive { s with net := s.net.erase (.requestVote c v req) } nowMs
                (.requestVote c v req) := if_pos hp
        intro hone
        rw [oneVote_iff, hstep] at hone
        obtain ⟨-, ⟨-, hview⟩ | ⟨-, hother⟩⟩ :=
          (h.wired.lose (.requestVote c v req)).requestVote hpos hok nowMs
        · rw [hview] at hone
          refine hne (hone v b.candidate c req.term ?_ (List.mem_cons_self ..))
          rw [← hbv, ← hbt]
          exact List.mem_cons_of_mem _ hb
        · exact hother (Nat.le_of_eq hterm) hvoted
    | voteReply v c reply => exact hlate.elim
    | appendEntries l v req => exact hlate.elim
  | tick i nowMs timeoutMs => exact hlate.elim
  | startElection i nowMs timeoutMs => exact hlate.elim
  | duplicate p => exact hlate.elim

theorem OneVote.of_grows {past : Record Int} {nodes : Int → RaftNode} {net : List Packet}
    (hg : RecordGrows s.past past) (h : OneVote ⟨nodes, net, past⟩) : s.OneVote :=
  fun b hb b' hb' => h b (hg.votes hb) b' (hg.votes hb')

theorem oneVote_run_iff (hids : ids.Nodup) (hpos : ∀ i ∈ ids, 0 ≤ i) (h : s.Inv ids)
    (hf : s.Fair ids) (ho : s.Once) (hs : s.OneVote) {acts : List Action}
    (hfit : TermsFit ids s acts) (hdup : ∀ p, .duplicate p ∉ acts) :
    (s.run ids acts).OneVote ↔ NoLateRequest ids s acts := by
  induction acts generalizing s with
  | nil => exact ⟨fun _ => trivial, fun _ => hs⟩
  | cons a as ih =>
      have h' := h.step hids hpos hfit.1
      have ho' := ho.step hids hpos h hfit.1 fun p hp => hdup p (hp ▸ List.mem_cons_self ..)
      by_cases hlate : s.LateRequest a
      · refine iff_of_false (fun hone => ?_) fun hno => hno.1 hlate
        exact hlate.not_oneVote hpos h hf
          (OneVote.of_grows (h'.grows_run hids hpos hfit.2) hone)
      · have hf' := h.fair_step hids hpos hf hfit.1 ho'.nodup
        have hrest := ih h' hf' ho' (hs.step hids hpos h hfit.1 hlate) hfit.2
          fun p hp => hdup p (List.mem_cons_of_mem _ hp)
        exact hrest.trans ⟨fun hno => ⟨hlate, hno⟩, And.right⟩

/-- **One vote per term** holds over a run in which no message is delivered
twice exactly when no vote request comes late: none reaches a node that is
still in the request's term, voted for another candidate in it, and then
accepted a heartbeat of the requesting one. -/
theorem one_vote_per_term_iff {ids : List Int} (hids : ids.Nodup) (hpos : ∀ i ∈ ids, 0 ≤ i)
    {timeouts : Int → Nat} {acts : List Action}
    (hfit : TermsFit ids (initial ids timeouts) acts) (hdup : ∀ p, .duplicate p ∉ acts) :
    ((initial ids timeouts).run ids acts).OneVote ↔
      NoLateRequest ids (initial ids timeouts) acts :=
  oneVote_run_iff hids hpos (inv_initial ids timeouts) (fair_initial ids timeouts)
    (once_initial ids timeouts) (fun _ hb => absurd hb List.not_mem_nil) hfit hdup

/-- Nodes `0` and `1` stand for term 1 and node `2` elects node `0`, whose
heartbeat reaches node `1` before its vote request does. -/
def rivalRun : List Action :=
  [.startElection 0 10 200,
   .startElection 1 10 200,
   .deliver (.requestVote 0 2 ⟨1, 0, 0, 0⟩) 11,
   .deliver (.voteReply 2 0 ⟨1, true⟩) 12,
   .tick 0 70 200,
   .deliver (.appendEntries 0 1 ⟨1, 0⟩) 71]

theorem rivalRun_one_vote : ((initial [0, 1, 2] fun _ => 200).run [0, 1, 2] rivalRun).OneVote := by
  have hfit : TermsFit [0, 1, 2] (initial [0, 1, 2] fun _ => 200) rivalRun := by
    decide +kernel
  exact (one_vote_per_term_iff (by decide) (by decide) hfit (by simp [rivalRun])).2
    (by decide +kernel)

/-- The delayed request makes node `1` vote for node `0` in the term it
stood in itself. -/
theorem rivalRun_two_votes :
    (∀ p, .duplicate p ∉ rivalRun ++ [.deliver (.requestVote 0 1 ⟨1, 0, 0, 0⟩) 72]) ∧
      TermsFit [0, 1, 2] (initial [0, 1, 2] fun _ => 200)
        (rivalRun ++ [.deliver (.requestVote 0 1 ⟨1, 0, 0, 0⟩) 72]) ∧
      ⟨1, 1, 1⟩ ∈ ((initial [0, 1, 2] fun _ => 200).run [0, 1, 2]
        (rivalRun ++ [.deliver (.requestVote 0 1 ⟨1, 0, 0, 0⟩) 72])).past.votes ∧
      ⟨1, 0, 1⟩ ∈ ((initial [0, 1, 2] fun _ => 200).run [0, 1, 2]
        (rivalRun ++ [.deliver (.requestVote 0 1 ⟨1, 0, 0, 0⟩) 72])).past.votes :=
  ⟨by simp [rivalRun], by decide +kernel, by decide +kernel, by decide +kernel⟩

end Cluster

end VaultKV
