import Mathlib

/-!
# Election — leaders elected by counted votes, over any peers

Every peer has a term and the choice it made in it. A peer stands for the
next term, grants a vote, counts a vote it was granted, gives way to a
higher term, or follows a leader. There are no messages here: a call says
what a peer does, and `Legal` says when it may.

Following a leader OVERWRITES the choice of a peer, also in the term the
peer has already voted in, so a peer may vote twice in one term. What keeps
leaders unique is that this can only happen once the term HAS a leader, and
that the voters this leader was elected by voted for nobody else
(`Won`). All of it rests on no vote being counted twice.
-/

namespace VaultKV.Lib

variable {ι : Type} [DecidableEq ι]

/-- `voter` chose `candidate` in `term`. -/
structure Ballot (ι : Type) where
  voter : ι
  candidate : ι
  term : Nat
  deriving DecidableEq, Repr

inductive Office where
  | follower
  | candidate
  | leader
  deriving DecidableEq, Repr

/-- What a peer knows. -/
structure Seat (ι : Type) where
  office : Office := .follower
  term : Nat := 0
  choice : Option ι := none
  tally : Nat := 0
  deriving DecidableEq, Repr

/-- What has happened so far: the votes granted, the votes counted by their
candidates, the leaders followed (as `voter` follows `candidate`), and the
peers that became leader. -/
structure Record (ι : Type) where
  votes : List (Ballot ι) := []
  counted : List (Ballot ι) := []
  heard : List (Ballot ι) := []
  led : List (ι × Nat) := []
  deriving DecidableEq, Repr

structure Election (ι : Type) where
  seat : ι → Seat ι
  past : Record ι

/-- What a peer does next. -/
inductive Call (ι : Type) where
  | stand (i : ι)
  | grant (v c : ι) (t : Nat)
  | count (i v : ι)
  | yield (i : ι) (t : Nat)
  | follow (v l : ι) (t : Nat)
  deriving DecidableEq, Repr

/-- The peer that does it. -/
def Call.actor : Call ι → ι
  | .stand i => i
  | .grant v _ _ => v
  | .count i _ => i
  | .yield i _ => i
  | .follow v _ _ => v

namespace Election

variable (members : Finset ι) (q : Nat) (s : Election ι)

/-- When a call may be made. -/
def Legal : Call ι → Prop
  | .stand i => i ∈ members
  | .grant v c t => v ∈ members ∧ (s.seat v).term ≤ t ∧
      ((s.seat v).term = t → (s.seat v).choice = none ∨ (s.seat v).choice = some c)
  | .count i v => (s.seat i).office = .candidate ∧ v ≠ i ∧
      ⟨v, i, (s.seat i).term⟩ ∈ s.past.votes
  | .yield i t => (s.seat i).term < t
  | .follow v l t => (l, t) ∈ s.past.led ∧ (s.seat v).term ≤ t

/-- The seat of the peer that makes the call; a quorum is `q` votes. -/
def next : Call ι → Seat ι
  | .stand i => ⟨.candidate, (s.seat i).term + 1, some i, 1⟩
  | .grant v c t =>
      { s.seat v with
        office := if (s.seat v).term < t then .follower else (s.seat v).office
        term := t
        choice := some c }
  | .count i _ =>
      { s.seat i with
        office := if q ≤ (s.seat i).tally + 1 then .leader else (s.seat i).office
        tally := (s.seat i).tally + 1 }
  | .yield _ t => ⟨.follower, t, none, 0⟩
  | .follow v l t => { s.seat v with office := .follower, term := t, choice := some l }

/-- The record after the call. -/
def write : Call ι → Record ι
  | .stand i =>
      { s.past with votes := ⟨i, i, (s.seat i).term + 1⟩ :: s.past.votes }
  | .grant v c t => { s.past with votes := ⟨v, c, t⟩ :: s.past.votes }
  | .count i v =>
      { s.past with
        counted := ⟨v, i, (s.seat i).term⟩ :: s.past.counted
        led := if q ≤ (s.seat i).tally + 1 then (i, (s.seat i).term) :: s.past.led
          else s.past.led }
  | .yield _ _ => s.past
  | .follow v l t => { s.past with heard := ⟨v, l, t⟩ :: s.past.heard }

def act (a : Call ι) : Election ι :=
  ⟨Function.update s.seat a.actor (s.next q a), s.write q a⟩

/-- The votes a candidate has counted in a term. -/
def countedFor (i : ι) (t : Nat) : List (Ballot ι) :=
  s.past.counted.filter fun b => b.candidate = i ∧ b.term = t

/-- The peers that voted for `i` in a term. -/
def voters (i : ι) (t : Nat) : Finset ι :=
  ((s.past.votes.filter fun b => b.candidate = i ∧ b.term = t).map Ballot.voter).toFinset

/-- `i` has a quorum in `t` whose members voted for nobody else. -/
def Won (i : ι) (t : Nat) : Prop :=
  ∃ Q ⊆ members, q ≤ Q.card ∧
    ∀ v ∈ Q, ⟨v, i, t⟩ ∈ s.past.votes ∧ ∀ c, ⟨v, c, t⟩ ∈ s.past.votes → c = i

/-- A grant to a candidate the voter already follows, in the term it voted
for another one in. -/
def Late : Call ι → Prop
  | .grant v c t => (s.seat v).term = t ∧ ⟨v, c, t⟩ ∈ s.past.heard ∧
      ∃ c', c' ≠ c ∧ ⟨v, c', t⟩ ∈ s.past.votes
  | _ => False

/-- No peer has voted for two candidates in one term. -/
def Single : Prop :=
  ∀ v c c' t, ⟨v, c, t⟩ ∈ s.past.votes → ⟨v, c', t⟩ ∈ s.past.votes → c = c'

/-! ## What one call changes -/

/-- The vote a call grants. -/
def cast : Call ι → Option (Ballot ι)
  | .stand i => some ⟨i, i, (s.seat i).term + 1⟩
  | .grant v c t => some ⟨v, c, t⟩
  | _ => none

variable {members q s}

theorem seat_act_self (a : Call ι) : (s.act q a).seat a.actor = s.next q a :=
  Function.update_self ..

theorem seat_act_ne {a : Call ι} {j : ι} (h : j ≠ a.actor) :
    (s.act q a).seat j = s.seat j :=
  Function.update_of_ne h ..

theorem mem_votes_act {a : Call ι} {b : Ballot ι} :
    b ∈ (s.act q a).past.votes ↔ s.cast a = some b ∨ b ∈ s.past.votes := by
  cases a <;> simp [act, write, cast, eq_comm]

theorem votes_act {a : Call ι} {b : Ballot ι} (h : b ∈ s.past.votes) :
    b ∈ (s.act q a).past.votes := mem_votes_act.2 (Or.inr h)

theorem heard_act {a : Call ι} {b : Ballot ι} (h : b ∈ s.past.heard) :
    b ∈ (s.act q a).past.heard := by
  cases a <;> simp [act, write, h]

theorem led_act {a : Call ι} {w : ι × Nat} (h : w ∈ s.past.led) :
    w ∈ (s.act q a).past.led := by
  cases a with
  | count i v =>
      show w ∈ if _ then _ else _
      split
      · exact List.mem_cons_of_mem _ h
      · exact h
  | _ => exact h

theorem counted_act (a : Call ι) : s.past.counted <:+ (s.act q a).past.counted := by
  cases a with
  | count i v => exact List.suffix_cons ..
  | _ => exact List.suffix_refl _

/-- Terms only grow. -/
theorem term_act {a : Call ι} (ha : s.Legal members a) (j : ι) :
    (s.seat j).term ≤ ((s.act q a).seat j).term := by
  by_cases hj : j = a.actor
  · subst hj
    rw [seat_act_self]
    cases a with
    | stand i => exact Nat.le_succ _
    | grant v c t => exact ha.2.1
    | count i v => exact Nat.le_refl _
    | yield i t => exact Nat.le_of_lt ha
    | follow v l t => exact ha.2
  · rw [seat_act_ne hj]

omit [DecidableEq ι] in
/-- The vote a call grants is the choice its actor ends up with. -/
theorem cast_next {a : Call ι} {b : Ballot ι} (h : s.cast a = some b) :
    b.voter = a.actor ∧ (s.next q a).term = b.term ∧
      (s.next q a).choice = some b.candidate := by
  cases a with
  | stand i => cases h; exact ⟨rfl, rfl, rfl⟩
  | grant v c t => cases h; exact ⟨rfl, rfl, rfl⟩
  | _ => cases h

omit [DecidableEq ι] in
/-- A vote granted in the term the voter is in already is a `grant`, and
does not change a choice that was made. -/
theorem cast_same_term {a : Call ι} {b : Ballot ι} (ha : s.Legal members a)
    (h : s.cast a = some b) (ht : (s.seat b.voter).term = b.term) :
    a = .grant b.voter b.candidate b.term ∧
      ((s.seat b.voter).choice = none ∨ (s.seat b.voter).choice = some b.candidate) := by
  cases a with
  | stand i =>
      cases h
      exact absurd ht (Nat.ne_of_lt (Nat.lt_succ_self _))
  | grant v c t => cases h; exact ⟨rfl, ha.2.2 ht⟩
  | _ => cases h

theorem countedFor_act_ne {a : Call ι} {i : ι} (h : i ≠ a.actor) (t : Nat) :
    (s.act q a).countedFor i t = s.countedFor i t := by
  cases a with
  | count j v =>
      have hne : ¬ (j = i ∧ (s.seat j).term = t) := fun hc => h hc.1.symm
      show List.filter _ (_ :: _) = _
      rw [List.filter_cons_of_neg (by simpa using hne)]
      rfl
  | _ => rfl

theorem mem_countedFor {i : ι} {t : Nat} {b : Ballot ι} :
    b ∈ s.countedFor i t ↔ b ∈ s.past.counted ∧ b.candidate = i ∧ b.term = t := by
  simp [countedFor]

theorem mem_voters {i v : ι} {t : Nat} : v ∈ s.voters i t ↔ ⟨v, i, t⟩ ∈ s.past.votes := by
  simp only [voters, List.mem_toFinset, List.mem_map, List.mem_filter, decide_eq_true_eq]
  constructor
  · rintro ⟨⟨w, c, u⟩, ⟨hb, rfl, rfl⟩, rfl⟩
    exact hb
  · intro h
    exact ⟨_, ⟨h, rfl, rfl⟩, rfl⟩

/-! ## What holds however votes are counted -/

/-- The record and the seats agree. -/
structure Sound (members : Finset ι) (q : Nat) (s : Election ι) : Prop where
  member : ∀ b ∈ s.past.votes, b.voter ∈ members
  reached : ∀ b ∈ s.past.votes, b.term ≤ (s.seat b.voter).term
  /-- In the term it voted in, a peer's choice is its vote, or a leader it
  follows. -/
  backed : ∀ b ∈ s.past.votes, (s.seat b.voter).term = b.term →
    ∃ c, (s.seat b.voter).choice = some c ∧
      (c = b.candidate ∨ ⟨b.voter, c, b.term⟩ ∈ s.past.heard)
  heard_led : ∀ b ∈ s.past.heard, (b.candidate, b.term) ∈ s.past.led
  counted : ∀ b ∈ s.past.counted, b ∈ s.past.votes ∧ b.voter ≠ b.candidate ∧
    b.term ≤ (s.seat b.candidate).term
  own : ∀ i, (s.seat i).office ≠ .follower → ⟨i, i, (s.seat i).term⟩ ∈ s.past.votes
  tally : ∀ i, (s.seat i).office ≠ .follower →
    (s.seat i).tally = (s.countedFor i (s.seat i).term).length + 1
  quorum : ∀ i, (s.seat i).office = .leader → q ≤ (s.seat i).tally
  leading : ∀ i, (s.seat i).office = .leader → (i, (s.seat i).term) ∈ s.past.led

omit [DecidableEq ι] in
/-- A call that leaves its actor in office, or puts it there: it stands, it
counts, or it grants a vote in its own term. -/
theorem office_next {a : Call ι} (ha : s.Legal members a)
    (h : (s.next q a).office ≠ .follower) :
    (∃ i, a = .stand i) ∨ (∃ i v, a = .count i v) ∨
      ∃ v c t, a = .grant v c t ∧ (s.seat v).term = t ∧
        (s.next q a).office = (s.seat v).office := by
  cases a with
  | stand i => exact Or.inl ⟨i, rfl⟩
  | count i v => exact Or.inr (Or.inl ⟨i, v, rfl⟩)
  | grant v c t =>
      by_cases hlt : (s.seat v).term < t
      · exact absurd (if_pos hlt) h
      · exact Or.inr (Or.inr ⟨v, c, t, rfl, by have := ha.2.1; omega, if_neg hlt⟩)
  | yield i t => exact absurd rfl h
  | follow v l t => exact absurd rfl h

/-- A vote of the actor that is not older than its new term was granted in
the term it is in, and stays its choice unless it follows a leader. -/
theorem Sound.backed_next (h : s.Sound members q) {a : Call ι} (ha : s.Legal members a)
    {b : Ballot ι} (hb : b ∈ s.past.votes) (hv : b.voter = a.actor)
    (ht : (s.next q a).term = b.term) :
    ∃ c, (s.next q a).choice = some c ∧
      (c = b.candidate ∨ ⟨b.voter, c, b.term⟩ ∈ (s.act q a).past.heard) := by
  have hreach := h.reached b hb
  have hback := h.backed b hb
  cases a with
  | stand i =>
      rw [show b.voter = i from hv] at hreach
      have : (s.seat i).term + 1 = b.term := ht
      omega
  | grant v c t =>
      rw [show b.voter = v from hv] at hreach hback ⊢
      have htb : t = b.term := ht
      have hsame : (s.seat v).term = b.term := by have := ha.2.1; omega
      obtain ⟨c₀, hc₀, hwhy⟩ := hback hsame
      rcases ha.2.2 (hsame.trans htb.symm) with hnone | hsome
      · rw [hnone] at hc₀; cases hc₀
      · rw [hsome] at hc₀
        cases hc₀
        exact ⟨c, rfl, hwhy⟩
  | count i v =>
      rw [show b.voter = i from hv] at hback ⊢
      exact hback ht
  | yield i t =>
      rw [show b.voter = i from hv] at hreach
      have : t = b.term := ht
      have hlt : (s.seat i).term < t := ha
      omega
  | follow v l t =>
      have htb : t = b.term := ht
      rw [show b.voter = v from hv, ← htb]
      exact ⟨l, rfl, Or.inr (List.mem_cons_self ..)⟩

theorem Sound.tally_next (h : s.Sound members q) {a : Call ι} (ha : s.Legal members a)
    (hoff : (s.next q a).office ≠ .follower) :
    (s.next q a).tally
      = ((s.act q a).countedFor a.actor (s.next q a).term).length + 1 := by
  rcases office_next ha hoff with ⟨i, rfl⟩ | ⟨i, v, rfl⟩ | ⟨v, c, t, rfl, ht, hsame⟩
  · -- no vote of a term that is still to come has been counted
    have hnil : s.countedFor i ((s.seat i).term + 1) = [] := by
      rw [List.eq_nil_iff_forall_not_mem]
      intro b hb
      obtain ⟨hb, hc, ht⟩ := mem_countedFor.1 hb
      have := (h.counted b hb).2.2
      rw [hc] at this
      omega
    show 1 = (s.countedFor i ((s.seat i).term + 1)).length + 1
    rw [hnil]; rfl
  · have hin : (s.seat i).office ≠ .follower := by rw [ha.1]; decide
    show (s.seat i).tally + 1 = (List.filter _ (_ :: _)).length + 1
    rw [List.filter_cons_of_pos (by exact decide_eq_true ⟨rfl, rfl⟩), h.tally i hin]
    rfl
  · rw [hsame] at hoff
    have := h.tally v hoff
    rw [ht] at this
    exact this

theorem Sound.leader_next (h : s.Sound members q) {a : Call ι} (ha : s.Legal members a)
    (hoff : (s.next q a).office = .leader) :
    q ≤ (s.next q a).tally ∧ (a.actor, (s.next q a).term) ∈ (s.act q a).past.led := by
  rcases office_next ha (by rw [hoff]; decide)
    with ⟨i, rfl⟩ | ⟨i, v, rfl⟩ | ⟨v, c, t, rfl, ht, hsame⟩
  · cases hoff
  · by_cases hq : q ≤ (s.seat i).tally + 1
    · refine ⟨hq, ?_⟩
      show (i, (s.seat i).term) ∈ if q ≤ (s.seat i).tally + 1 then _ else _
      rw [if_pos hq]
      exact List.mem_cons_self ..
    · have : (s.next q (.count i v)).office = (s.seat i).office := if_neg hq
      rw [this, ha.1] at hoff
      cases hoff
  · rw [hsame] at hoff
    refine ⟨h.quorum v hoff, ?_⟩
    have := h.leading v hoff
    rw [ht] at this
    exact this

/-- **Every legal call keeps the record and the seats in agreement.** -/
theorem Sound.act (h : s.Sound members q) {a : Call ι} (ha : s.Legal members a) :
    (s.act q a).Sound members q where
  member b hb := by
    rcases mem_votes_act.1 hb with hnew | hold
    · rw [(cast_next (q := q) hnew).1]
      cases a with
      | stand i => exact ha
      | grant v c t => exact ha.1
      | _ => cases hnew
    · exact h.member b hold
  reached b hb := by
    rcases mem_votes_act.1 hb with hnew | hold
    · obtain ⟨hv, ht, -⟩ := cast_next (q := q) hnew
      rw [hv, seat_act_self, ht]
    · exact (h.reached b hold).trans (term_act ha _)
  backed b hb ht := by
    rcases mem_votes_act.1 hb with hnew | hold
    · obtain ⟨hv, -, hc⟩ := cast_next (q := q) hnew
      exact ⟨_, by rw [hv, seat_act_self, hc], Or.inl rfl⟩
    · by_cases hv : b.voter = a.actor
      · rw [hv, seat_act_self] at ht ⊢
        rw [← hv]
        exact h.backed_next ha hold hv ht
      · rw [seat_act_ne hv] at ht ⊢
        obtain ⟨c, hc, hwhy⟩ := h.backed b hold ht
        exact ⟨c, hc, hwhy.imp_right heard_act⟩
  heard_led b hb := by
    cases a with
    | follow v l t =>
        rcases List.mem_cons.1 hb with rfl | hold
        · exact ha.1
        · exact h.heard_led b hold
    | _ => exact led_act (h.heard_led b hb)
  counted b hb := by
    have hkeep : b ∈ s.past.counted → b ∈ (s.act q a).past.votes ∧
        b.voter ≠ b.candidate ∧ b.term ≤ ((s.act q a).seat b.candidate).term := fun hold =>
      have hc := h.counted b hold
      ⟨votes_act hc.1, hc.2.1, hc.2.2.trans (term_act ha _)⟩
    cases a with
    | count i v =>
        rcases List.mem_cons.1 hb with rfl | hold
        · exact ⟨ha.2.2, ha.2.1, term_act ha i⟩
        · exact hkeep hold
    | _ => exact hkeep hb
  own i hi := by
    by_cases hia : i = a.actor
    · subst hia
      rw [seat_act_self] at hi ⊢
      rcases office_next ha hi with ⟨i, rfl⟩ | ⟨i, v, rfl⟩ | ⟨v, c, t, rfl, ht, hsame⟩
      · exact List.mem_cons_self ..
      · exact h.own i (by rw [ha.1]; decide)
      · rw [hsame] at hi
        have := h.own v hi
        rw [ht] at this
        exact votes_act this
    · rw [seat_act_ne hia] at hi ⊢
      exact votes_act (h.own i hi)
  tally i hi := by
    by_cases hia : i = a.actor
    · subst hia
      rw [seat_act_self] at hi ⊢
      exact h.tally_next ha hi
    · rw [seat_act_ne hia] at hi ⊢
      rw [countedFor_act_ne hia]
      exact h.tally i hi
  quorum i hi := by
    by_cases hia : i = a.actor
    · subst hia
      rw [seat_act_self] at hi ⊢
      exact (h.leader_next ha hi).1
    · rw [seat_act_ne hia] at hi ⊢
      exact h.quorum i hi
  leading i hi := by
    by_cases hia : i = a.actor
    · subst hia
      rw [seat_act_self] at hi ⊢
      exact (h.leader_next ha hi).2
    · rw [seat_act_ne hia] at hi ⊢
      exact led_act (h.leading i hi)

/-! ## Voters of a candidate -/

/-- A peer in office has its own vote and those it counted. -/
theorem Sound.voters_of_office (h : s.Sound members q) {i : ι}
    (hi : (s.seat i).office ≠ .follower) :
    insert i ((s.countedFor i (s.seat i).term).map Ballot.voter).toFinset
      ⊆ s.voters i (s.seat i).term := by
  intro v hv
  rw [mem_voters]
  rcases Finset.mem_insert.1 hv with rfl | hv
  · exact h.own v hi
  · obtain ⟨b, hb, rfl⟩ := List.mem_map.1 (List.mem_toFinset.1 hv)
    obtain ⟨hb, hc, ht⟩ := mem_countedFor.1 hb
    rw [← ht, ← hc]
    exact (h.counted b hb).1

/-- Itself is none of the voters a candidate counts. -/
theorem Sound.card_insert_counted (h : s.Sound members q) (i : ι) (t : Nat) :
    (insert i ((s.countedFor i t).map Ballot.voter).toFinset).card
      = ((s.countedFor i t).map Ballot.voter).toFinset.card + 1 := by
  apply Finset.card_insert_of_notMem
  intro hmem
  obtain ⟨b, hb, hbi⟩ := List.mem_map.1 (List.mem_toFinset.1 hmem)
  obtain ⟨hb, hc, -⟩ := mem_countedFor.1 hb
  exact (h.counted b hb).2.1 (hbi.trans hc.symm)

/-- Votes counted once have different voters. -/
theorem voters_nodup (hn : s.past.counted.Nodup) (i : ι) (t : Nat) :
    ((s.countedFor i t).map Ballot.voter).Nodup := by
  apply List.Nodup.map_on _ (hn.filter _)
  intro b hb b' hb' hv
  obtain ⟨-, hc, ht⟩ := mem_countedFor.1 hb
  obtain ⟨-, hc', ht'⟩ := mem_countedFor.1 hb'
  obtain ⟨v, c, u⟩ := b
  obtain ⟨v', c', u'⟩ := b'
  obtain rfl : v = v' := hv
  obtain rfl : c = c' := hc.trans hc'.symm
  obtain rfl : u = u' := ht.trans ht'.symm
  rfl

/-- With no vote counted twice, the tally is a number of voters. -/
theorem Sound.tally_le_voters (h : s.Sound members q) (hn : s.past.counted.Nodup) {i : ι}
    (hi : (s.seat i).office ≠ .follower) :
    (s.seat i).tally ≤ (s.voters i (s.seat i).term).card := by
  refine le_trans (le_of_eq ?_) (Finset.card_le_card (h.voters_of_office hi))
  rw [h.card_insert_counted, List.toFinset_card_of_nodup (voters_nodup hn ..),
    List.length_map, h.tally i hi]

/-- However often votes are counted, a tally of two takes two voters. -/
theorem Sound.two_le_voters (h : s.Sound members q) {i : ι}
    (hi : (s.seat i).office ≠ .follower) :
    min 2 (s.seat i).tally ≤ (s.voters i (s.seat i).term).card := by
  refine le_trans ?_ (Finset.card_le_card (h.voters_of_office hi))
  rw [h.card_insert_counted, h.tally i hi]
  cases hl : s.countedFor i (s.seat i).term with
  | nil => exact Nat.min_le_right ..
  | cons b bs =>
      have hpos : 0 < ((b :: bs).map Ballot.voter).toFinset.card :=
        Finset.card_pos.2 ⟨b.voter, by simp⟩
      omega

/-! ## Leaders are unique while no vote is counted twice -/

/-- Two quorums of one term share a voter. -/
theorem Won.unique (hq : members.card < 2 * q) {i j : ι} {t : Nat}
    (hi : s.Won members q i t) {R : Finset ι} (hR : R ⊆ members) (hcard : q ≤ R.card)
    (hj : ∀ v ∈ R, ⟨v, j, t⟩ ∈ s.past.votes) : j = i := by
  obtain ⟨Q, hQ, hqQ, hexcl⟩ := hi
  obtain ⟨v, hv⟩ := Finset.inter_nonempty_of_card_lt_card_add_card hQ hR (by omega)
  obtain ⟨hvQ, hvR⟩ := Finset.mem_inter.1 hv
  exact (hexcl v hvQ).2 j (hj v hvR)

/-- What holds on top of `Sound` as long as no vote is counted twice. -/
structure Fair (members : Finset ι) (q : Nat) (s : Election ι) : Prop where
  single : ∀ v c c' t, ⟨v, c, t⟩ ∈ s.past.votes → ⟨v, c', t⟩ ∈ s.past.votes →
    c = c' ∨ ∃ l, (l, t) ∈ s.past.led
  won : ∀ w ∈ s.past.led, s.Won members q w.1 w.2
  /-- A peer that followed a leader keeps it as its choice in that term. -/
  follows : ∀ b ∈ s.past.heard, b.term ≤ (s.seat b.voter).term ∧
    ((s.seat b.voter).term = b.term → (s.seat b.voter).choice = some b.candidate)

theorem Fair.led_unique (h : s.Fair members q) (hq : members.card < 2 * q) {i j : ι}
    {t : Nat} (hi : (i, t) ∈ s.past.led) (hj : (j, t) ∈ s.past.led) : j = i := by
  obtain ⟨R, hR, hcard, hvotes⟩ := h.won _ hj
  exact (h.won _ hi).unique hq hR hcard fun v hv => (hvotes v hv).1

/-- A second vote of a term is a grant to the candidate of the first, or to
a leader the voter follows. -/
theorem Sound.vote_again (h : s.Sound members q) {a : Call ι} (ha : s.Legal members a)
    {v c c' : ι} {t : Nat} (hnew : s.cast a = some ⟨v, c, t⟩)
    (hold : ⟨v, c', t⟩ ∈ s.past.votes) :
    a = .grant v c t ∧ (s.seat v).term = t ∧ (c = c' ∨ ⟨v, c, t⟩ ∈ s.past.heard) := by
  obtain ⟨hact, hterm, -⟩ := cast_next (q := q) hnew
  have hmono : (s.seat v).term ≤ t := by
    have := term_act (q := q) ha a.actor
    rwa [seat_act_self, hterm, ← hact] at this
  have hsame : (s.seat v).term = t := le_antisymm hmono (h.reached _ hold)
  obtain ⟨hgrant, hchoice⟩ := cast_same_term ha hnew hsame
  obtain ⟨c₀, hc₀, hwhy⟩ := h.backed _ hold hsame
  have hc₀ : (s.seat v).choice = some c₀ := hc₀
  rcases hchoice with hnone | hsome
  · rw [show (s.seat v).choice = none from hnone] at hc₀; cases hc₀
  · rw [show (s.seat v).choice = some c from hsome] at hc₀
    cases hc₀
    exact ⟨hgrant, hsame, hwhy⟩

/-- A voter of a leader's quorum does not vote for anybody else later: its
choice is that leader, whether it voted or followed last. -/
theorem Won.act (hq : members.card < 2 * q) (h : s.Sound members q) (hf : s.Fair members q)
    {a : Call ι} (ha : s.Legal members a) {i : ι} {t : Nat} (hled : (i, t) ∈ s.past.led) :
    (s.act q a).Won members q i t := by
  obtain ⟨Q, hQ, hcard, hexcl⟩ := hf.won _ hled
  refine ⟨Q, hQ, hcard, fun v hv => ⟨votes_act (hexcl v hv).1, fun c hc => ?_⟩⟩
  rcases mem_votes_act.1 hc with hnew | hold
  · rcases (h.vote_again ha hnew (hexcl v hv).1).2.2 with rfl | hheard
    · rfl
    · exact hf.led_unique hq hled (h.heard_led _ hheard)
  · exact (hexcl v hv).2 c hold

/-- A candidate that reaches the quorum wins: no other peer leads the term
already, so its voters have not followed anybody and voted once. -/
theorem Won.of_count (hq : members.card < 2 * q) (h : s.Sound members q)
    (hf : s.Fair members q) {i v : ι} (ha : s.Legal members (.count i v))
    (hn : (s.act q (.count i v)).past.counted.Nodup) (htally : q ≤ (s.seat i).tally + 1) :
    (s.act q (.count i v)).Won members q i (s.seat i).term := by
  have h' := h.act ha
  have hseat : (s.act q (.count i v)).seat i = s.next q (.count i v) :=
    seat_act_self (.count i v)
  have hoff : ((s.act q (.count i v)).seat i).office = .leader := by
    rw [hseat]; exact if_pos htally
  have hcard := (h'.quorum i hoff).trans (h'.tally_le_voters hn (by rw [hoff]; decide))
  rw [hseat] at hcard
  have hsub : (s.act q (.count i v)).voters i (s.seat i).term ⊆ members := fun w hw =>
    h'.member _ (mem_voters.1 hw)
  by_cases hl : ∃ l, (l, (s.seat i).term) ∈ s.past.led
  · obtain ⟨l, hl⟩ := hl
    have hwon := Won.act hq h hf ha hl
    have hil := hwon.unique hq hsub hcard fun w hw => mem_voters.1 hw
    rwa [← hil] at hwon
  · refine ⟨_, hsub, hcard, fun w hw => ⟨mem_voters.1 hw, fun c hc => ?_⟩⟩
    exact (hf.single w c i _ hc (mem_voters.1 hw)).resolve_right hl

/-- Following a leader, or voting, leaves a peer that follows in this term
with the same choice. -/
theorem Fair.follows_next (hq : members.card < 2 * q) (h : s.Sound members q)
    (hf : s.Fair members q) {a : Call ι} (ha : s.Legal members a) {b : Ballot ι}
    (hb : b ∈ s.past.heard) (hv : b.voter = a.actor) (ht : (s.next q a).term = b.term) :
    (s.next q a).choice = some b.candidate := by
  obtain ⟨hreach, hchoice⟩ := hf.follows b hb
  rw [hv] at hreach hchoice
  have hsame : (s.seat a.actor).term = b.term := by
    have := term_act (q := q) ha a.actor
    rw [seat_act_self] at this
    omega
  cases a with
  | stand i =>
      have hlt : (s.seat i).term + 1 = b.term := ht
      have : (s.seat i).term = b.term := hsame
      omega
  | grant v c t =>
      have hc : (s.seat v).choice = some b.candidate := hchoice hsame
      rcases ha.2.2 (hsame.trans ht.symm) with hnone | hsome
      · rw [hnone] at hc; cases hc
      · exact hsome.symm.trans hc
  | count i v => exact hchoice hsame
  | yield i t =>
      have hlt : (s.seat i).term < t := ha
      have hsame : (s.seat i).term = b.term := hsame
      have ht : t = b.term := ht
      omega
  | follow v l t =>
      have ht : t = b.term := ht
      have hl := ha.1
      rw [ht] at hl
      exact congrArg some (hf.led_unique hq (h.heard_led b hb) hl)

/-- **Every legal call that counts no vote twice keeps the election fair.** -/
theorem Fair.act (hq : members.card < 2 * q) (h : s.Sound members q) (hf : s.Fair members q)
    {a : Call ι} (ha : s.Legal members a) (hn : (s.act q a).past.counted.Nodup) :
    (s.act q a).Fair members q where
  single v c c' t hc hc' := by
    have hagain : ∀ {x y}, s.cast a = some ⟨v, x, t⟩ → ⟨v, y, t⟩ ∈ s.past.votes →
        x = y ∨ ∃ l, (l, t) ∈ (s.act q a).past.led := fun hnew hold =>
      (h.vote_again ha hnew hold).2.2.imp_right fun hh => ⟨_, led_act (h.heard_led _ hh)⟩
    rcases mem_votes_act.1 hc with hnew | hold <;> rcases mem_votes_act.1 hc' with hnew' | hold'
    · rw [hnew] at hnew'
      cases hnew'
      exact Or.inl rfl
    · exact hagain hnew hold'
    · exact (hagain hnew' hold).imp_left Eq.symm
    · exact (hf.single v c c' t hold hold').imp_right fun ⟨l, hl⟩ => ⟨l, led_act hl⟩
  won w hw := by
    by_cases hold : w ∈ s.past.led
    · exact Won.act hq h hf ha hold
    · cases a with
      | count i v =>
          have hw : w ∈ if q ≤ (s.seat i).tally + 1 then (i, (s.seat i).term) :: s.past.led
              else s.past.led := hw
          by_cases htally : q ≤ (s.seat i).tally + 1
          · rw [if_pos htally] at hw
            obtain rfl := (List.mem_cons.1 hw).resolve_right hold
            exact Won.of_count hq h hf ha hn htally
          · rw [if_neg htally] at hw
            exact absurd hw hold
      | _ => exact absurd hw hold
  follows b hb := by
    by_cases hold : b ∈ s.past.heard
    · refine ⟨(hf.follows b hold).1.trans (term_act ha _), fun ht => ?_⟩
      by_cases hv : b.voter = a.actor
      · rw [hv, seat_act_self] at ht ⊢
        exact hf.follows_next hq h ha hold hv ht
      · rw [seat_act_ne hv] at ht ⊢
        exact (hf.follows b hold).2 ht
    · cases a with
      | follow v l t =>
          obtain rfl := (List.mem_cons.1 hb).resolve_right hold
          rw [show (s.act q (.follow v l t)).seat v = s.next q (.follow v l t) from
            seat_act_self (.follow v l t)]
          exact ⟨Nat.le_refl _, fun _ => rfl⟩
      | _ => exact absurd hb hold

/-! ## Votes are single while no grant is late -/

theorem Single.act (h : s.Sound members q) (hs : s.Single) {a : Call ι}
    (ha : s.Legal members a) (hl : ¬ s.Late a) : (s.act q a).Single := by
  have hagain : ∀ {v x y t}, s.cast a = some ⟨v, x, t⟩ → ⟨v, y, t⟩ ∈ s.past.votes →
      x = y := by
    intro v x y t hnew hold
    obtain ⟨rfl, ht, hwhy⟩ := h.vote_again ha hnew hold
    by_contra hne
    exact hl ⟨ht, hwhy.resolve_left hne, y, fun hyx => hne hyx.symm, hold⟩
  intro v c c' t hc hc'
  rcases mem_votes_act.1 hc with hnew | hold <;> rcases mem_votes_act.1 hc' with hnew' | hold'
  · rw [hnew] at hnew'
    cases hnew'
    rfl
  · exact hagain hnew hold'
  · exact (hagain hnew' hold).symm
  · exact hs v c c' t hold hold'

end Election

end VaultKV.Lib
