import VaultKV.Wal.Model
import VaultKV.Protocol

/-!
# Replication — waiting for a quorum (`replication.h`, `replication.cpp`)

`ReplicateToQuorum` starts one call per peer at the same time and then
waits for them IN ORDER against one common deadline. What a call does is
outside this function: it ends at some time with some answer
(`PeerCall`), and between two waits the thread may be held up (`lag`).
Times are nanoseconds since the deadline was set.
-/

namespace VaultKV

open Lib

/-- One `transport_->Replicate(rec, peer, timeout)`: when it returns, what
it returns, and how long the waiting thread is held up before it turns to
it. -/
structure PeerCall where
  doneAt : Nat
  result : Bool
  lag : Nat := 0
  deriving DecidableEq, Repr

/-- The loop over the futures. The remaining time is cut to whole
milliseconds. -/
def awaitAcks (quorumSize deadline : Nat) : List PeerCall → Nat → Nat → Option Nat
  | [], _, _ => none
  | f :: fs, time, ackCount =>
      let now := time + f.lag
      if deadline ≤ now then none
      else
        let remaining := (deadline - now) / 1000000 * 1000000
        if f.doneAt ≤ now + remaining then
          if f.result then
            if quorumSize ≤ ackCount + 1 then some (ackCount + 1)
            else awaitAcks quorumSize deadline fs (max now f.doneAt) (ackCount + 1)
          else awaitAcks quorumSize deadline fs (max now f.doneAt) ackCount
        else awaitAcks quorumSize deadline fs (now + remaining) ackCount

/-- `ReplicationManager::ReplicateToQuorum`; one call for each peer. -/
def replicateToQuorum (transport : Bool) (calls : List PeerCall) (quorumSize timeoutMs : Nat) :
    Res Nat :=
  let quorumSize := if quorumSize = 0 then 1 else quorumSize
  if quorumSize ≤ 1 then .ok 1
  else if transport = false then
    .error (Status.noQuorum "replication transport not configured")
  else if calls = [] then .error (Status.noQuorum "no replication peers configured")
  else
    match awaitAcks quorumSize (timeoutMs * 1000000) calls 0 1 with
    | some ackCount => .ok ackCount
    | none => .error (Status.noQuorum "quorum not reached")

/-- The frame `TcpReplicationTransport::Replicate` sends for a record. -/
def replicationFrame (rec : WalRecord) : Option Frame :=
  match rec.op with
  | .kSet =>
      if rec.key.length > 2 ^ 16 - 1 ∨ rec.value.length > 2 ^ 32 - 1 then none
      else some { type := .set, flags := 0, payload := setPayload rec.key rec.value }
  | .kDelete =>
      if rec.key.length > 2 ^ 16 - 1 then none
      else some { type := .del, flags := 0, payload := keyPayload rec.key }
  | _ => none

/-! ## What a quorum says -/

/-- The calls that answered `true` by the deadline. -/
def acked (deadline : Nat) (calls : List PeerCall) : List PeerCall :=
  calls.filter fun f => f.result && decide (f.doneAt ≤ deadline)

/-- Each counted call answered `true` by the deadline. -/
theorem awaitAcks_le {quorumSize deadline n : Nat} (calls : List PeerCall) :
    ∀ {time ackCount}, awaitAcks quorumSize deadline calls time ackCount = some n →
      quorumSize ≤ n ∧ n ≤ ackCount + (acked deadline calls).length := by
  induction calls with
  | nil => intro time ackCount h; cases h
  | cons f fs ih =>
      intro time ackCount h
      rw [awaitAcks] at h
      have hgrow : (acked deadline fs).length ≤ (acked deadline (f :: fs)).length :=
        (List.Sublist.filter _ (List.sublist_cons_self f fs)).length_le
      by_cases hdead : deadline ≤ time + f.lag
      · simp only [if_pos hdead] at h; cases h
      simp only [if_neg hdead] at h
      by_cases hdone : f.doneAt ≤
          time + f.lag + (deadline - (time + f.lag)) / 1000000 * 1000000
      · simp only [if_pos hdone] at h
        have hrem := Nat.div_mul_le_self (deadline - (time + f.lag)) 1000000
        by_cases hres : f.result = true
        · simp only [if_pos hres] at h
          have hcount : (acked deadline (f :: fs)).length
              = (acked deadline fs).length + 1 := by
            have hkeep : (f.result && decide (f.doneAt ≤ deadline)) = true := by
              simp only [hres, Bool.true_and, decide_eq_true_eq]; omega
            simp [acked, hkeep]
          by_cases hq : quorumSize ≤ ackCount + 1
          · simp only [if_pos hq, Option.some.injEq] at h
            omega
          · simp only [if_neg hq] at h
            have := ih h
            omega
        · simp only [if_neg hres] at h
          have := ih h
          omega
      · simp only [if_neg hdone] at h
        have := ih h
        omega

/-- **A quorum was reached only with enough answers**: at least
`quorumSize - 1` calls returned `true` by the deadline. -/
theorem replicateToQuorum_acked {transport : Bool} {calls : List PeerCall}
    {quorumSize timeoutMs n : Nat}
    (h : replicateToQuorum transport calls quorumSize timeoutMs = .ok n) :
    quorumSize ≤ 1 + (acked (timeoutMs * 1000000) calls).length := by
  unfold replicateToQuorum at h
  by_cases hz : quorumSize = 0
  · omega
  simp only [if_neg hz] at h
  by_cases hone : quorumSize ≤ 1
  · omega
  simp only [if_neg hone] at h
  by_cases ht : transport = false
  · simp only [if_pos ht] at h; cases h
  simp only [if_neg ht] at h
  by_cases hc : calls = []
  · simp only [if_pos hc] at h; cases h
  simp only [if_neg hc] at h
  cases ha : awaitAcks quorumSize (timeoutMs * 1000000) calls 0 1 with
  | none => simp only [ha] at h; cases h
  | some m =>
      have := awaitAcks_le calls ha
      omega

/-! ## Which answers are counted -/

/-- The calls that answered `true` strictly before the deadline. -/
def timely (deadline : Nat) (calls : List PeerCall) : List PeerCall :=
  calls.filter fun f => f.result && decide (f.doneAt < deadline)

/-- The whole milliseconds left, in nanoseconds. -/
def wholeLeft (deadline now : Nat) : Nat :=
  (deadline - now) / 1000000 * 1000000

/-- When the thread turns to each call. It turns to the next one when the
call has returned, or when the whole milliseconds left are over. -/
def turns (deadline : Nat) : List PeerCall → Nat → List (PeerCall × Nat)
  | [], _ => []
  | f :: fs, time =>
      let now := time + f.lag
      (f, now) :: turns deadline fs (max now (min f.doneAt (now + wholeLeft deadline now)))

/-- The thread turns to the call before the deadline, and the call returns
`true` within the whole milliseconds left then. -/
def heard (deadline : Nat) (x : PeerCall × Nat) : Bool :=
  x.1.result && decide (x.2 < deadline) && decide (x.1.doneAt ≤ x.2 + wholeLeft deadline x.2)

/-- The call returns `true` before the deadline, but the thread turns to it
after the deadline or does not wait long enough. -/
def missed (deadline : Nat) (x : PeerCall × Nat) : Bool :=
  x.1.result && decide (x.1.doneAt < deadline) &&
    (decide (deadline ≤ x.2) || decide (x.2 + wholeLeft deadline x.2 < x.1.doneAt))

/-- The call returns `true` at the deadline, and the thread waits until
then. -/
def onTheDot (deadline : Nat) (x : PeerCall × Nat) : Bool :=
  x.1.result && decide (x.1.doneAt = deadline) && decide (x.2 < deadline) &&
    decide (deadline ≤ x.2 + wholeLeft deadline x.2)

theorem wholeLeft_le {deadline now : Nat} (h : now ≤ deadline) :
    now + wholeLeft deadline now ≤ deadline := by
  have := Nat.div_mul_le_self (deadline - now) 1000000
  unfold wholeLeft
  omega

/-- Less than a millisecond is cut off. -/
theorem lt_wholeLeft (deadline now : Nat) :
    deadline < now + wholeLeft deadline now + 1000000 := by
  have := Nat.div_add_mod (deadline - now) 1000000
  have := Nat.mod_lt (deadline - now) (show 0 < 1000000 by decide)
  unfold wholeLeft
  omega

theorem map_fst_turns (deadline : Nat) (calls : List PeerCall) :
    ∀ time, (turns deadline calls time).map Prod.fst = calls := by
  induction calls with
  | nil => intro time; rfl
  | cons f fs ih => intro time; exact congrArg (f :: ·) (ih _)

/-- After the deadline no call is heard. -/
theorem countP_heard_of_late {deadline : Nat} (calls : List PeerCall) :
    ∀ {time}, deadline ≤ time → (turns deadline calls time).countP (heard deadline) = 0 := by
  induction calls with
  | nil => intro time _; rfl
  | cons f fs ih =>
      intro time hlate
      have hdeaf : heard deadline (f, time + f.lag) = false := by
        have : ¬ time + f.lag < deadline := by omega
        simp [heard, this]
      rw [turns, List.countP_cons_of_neg (by simp [hdeaf])]
      exact ih (by omega)

/-- One round of the loop, before the deadline. -/
theorem awaitAcks_cons {quorumSize deadline time ackCount : Nat} {f : PeerCall}
    {fs : List PeerCall} (hnow : time + f.lag < deadline) :
    awaitAcks quorumSize deadline (f :: fs) time ackCount =
      if f.doneAt ≤ time + f.lag + wholeLeft deadline (time + f.lag) then
        if f.result then
          if quorumSize ≤ ackCount + 1 then some (ackCount + 1)
          else awaitAcks quorumSize deadline fs (max (time + f.lag) f.doneAt) (ackCount + 1)
        else awaitAcks quorumSize deadline fs (max (time + f.lag) f.doneAt) ackCount
      else awaitAcks quorumSize deadline fs
        (time + f.lag + wholeLeft deadline (time + f.lag)) ackCount := by
  simp only [awaitAcks, if_neg (Nat.not_le.mpr hnow)]
  rfl

/-- **The loop** succeeds when it hears enough. -/
theorem awaitAcks_isSome_iff {quorumSize deadline : Nat} (calls : List PeerCall) :
    ∀ {time ackCount}, ackCount < quorumSize →
      ((awaitAcks quorumSize deadline calls time ackCount).isSome = true ↔
        quorumSize ≤ ackCount + (turns deadline calls time).countP (heard deadline)) := by
  induction calls with
  | nil =>
      intro time ackCount hlt
      exact iff_of_false (by simp [awaitAcks]) (by simp only [turns, List.countP_nil]; omega)
  | cons f fs ih =>
      intro time ackCount hlt
      by_cases hdead : deadline ≤ time + f.lag
      · have hnone : awaitAcks quorumSize deadline (f :: fs) time ackCount = none := by
          simp only [awaitAcks, if_pos hdead]
        have hzero : (turns deadline (f :: fs) time).countP (heard deadline) = 0 := by
          have hdeaf : heard deadline (f, time + f.lag) = false := by
            simp [heard, Nat.not_lt.mpr hdead]
          rw [turns, List.countP_cons_of_neg (by simp [hdeaf])]
          exact countP_heard_of_late fs (by omega)
        rw [hnone, hzero]
        exact iff_of_false (by simp) (by omega)
      have hnow : time + f.lag < deadline := by omega
      rw [awaitAcks_cons hnow, turns, List.countP_cons]
      by_cases hdone : f.doneAt ≤ time + f.lag + wholeLeft deadline (time + f.lag)
      · rw [if_pos hdone, min_eq_left hdone]
        cases hres : f.result with
        | true =>
            have hheard : heard deadline (f, time + f.lag) = true := by
              simp [heard, hres, hnow, hdone]
            rw [if_pos rfl, if_pos hheard]
            by_cases hq : quorumSize ≤ ackCount + 1
            · rw [if_pos hq]
              exact iff_of_true rfl (by omega)
            · rw [if_neg hq, ih (by omega)]
              omega
        | false =>
            have hheard : heard deadline (f, time + f.lag) = false := by simp [heard, hres]
            rw [if_neg (by simp), if_neg (by simp [hheard])]
            exact ih hlt
      · have hheard : heard deadline (f, time + f.lag) = false := by simp [heard, hdone]
        rw [if_neg hdone, if_neg (by simp [hheard]), min_eq_right (by omega),
          max_eq_right (by omega)]
        exact ih hlt

/-- A call that is heard answers before the deadline or on the dot; one that
answers before the deadline is heard or missed. -/
theorem heard_or_missed (deadline : Nat) (x : PeerCall × Nat) :
    (heard deadline x).toNat + (missed deadline x).toNat =
      (x.1.result && decide (x.1.doneAt < deadline)).toNat + (onTheDot deadline x).toNat := by
  have hcut : x.2 ≤ deadline → x.2 + wholeLeft deadline x.2 ≤ deadline := wholeLeft_le
  cases hres : x.1.result with
  | false => simp [heard, missed, onTheDot, hres]
  | true =>
      rcases Nat.lt_trichotomy x.1.doneAt deadline with hlt | heq | hgt
      · by_cases hturn : x.2 < deadline
        · by_cases hlong : x.1.doneAt ≤ x.2 + wholeLeft deadline x.2
          · have hturn' := Nat.not_le.mpr hturn
            have hlong' := Nat.not_lt.mpr hlong
            simp [heard, missed, onTheDot, hres, hlt, hturn, hlong, hturn', hlong',
              Nat.ne_of_lt hlt]
          · have hlong' := Nat.not_le.mp hlong
            simp [heard, missed, onTheDot, hres, hlt, hlong, hlong', Nat.ne_of_lt hlt]
        · have hlate := Nat.not_lt.mp hturn
          simp [heard, missed, onTheDot, hres, hlt, hlate, Nat.ne_of_lt hlt]
      · by_cases hturn : x.2 < deadline
        · simp [heard, missed, onTheDot, hres, heq, hturn]
        · simp [heard, missed, onTheDot, hres, heq, hturn]
      · have hnot : ¬ x.1.doneAt < deadline := by omega
        have hne : x.1.doneAt ≠ deadline := by omega
        by_cases hturn : x.2 < deadline
        · have hlong : ¬ x.1.doneAt ≤ x.2 + wholeLeft deadline x.2 := by omega
          simp [heard, missed, onTheDot, hres, hnot, hne, hlong]
        · simp [heard, missed, onTheDot, hres, hnot, hne, hturn]

/-- What is heard and what is missed are the answers before the deadline and
those on the dot. -/
theorem heard_add_missed (deadline : Nat) (xs : List (PeerCall × Nat)) :
    xs.countP (heard deadline) + xs.countP (missed deadline) =
      (timely deadline (xs.map Prod.fst)).length + xs.countP (onTheDot deadline) := by
  induction xs with
  | nil => rfl
  | cons x xs ih =>
      have hone := heard_or_missed deadline x
      have htimely : (timely deadline ((x :: xs).map Prod.fst)).length =
          (timely deadline (xs.map Prod.fst)).length +
            (x.1.result && decide (x.1.doneAt < deadline)).toNat := by
        rw [List.map_cons, timely, List.filter_cons]
        cases x.1.result && decide (x.1.doneAt < deadline) <;> rfl
      have hcount : ∀ p : PeerCall × Nat → Bool,
          (x :: xs).countP p = xs.countP p + (p x).toNat := by
        intro p
        rw [List.countP_cons]
        cases p x <;> rfl
      rw [hcount, hcount, hcount, htimely]
      omega

/-- **The decision**, for every list of calls. -/
theorem replicateToQuorum_isOk_iff (calls : List PeerCall) (quorumSize timeoutMs : Nat) :
    (replicateToQuorum true calls quorumSize timeoutMs).isOk = true ↔
      max quorumSize 1 ≤ 1 + (turns (timeoutMs * 1000000) calls 0).countP
        (heard (timeoutMs * 1000000)) := by
  unfold replicateToQuorum
  by_cases hz : quorumSize = 0
  · simp only [if_pos hz, if_pos (Nat.le_refl 1)]
    exact iff_of_true rfl (by omega)
  simp only [if_neg hz]
  by_cases hone : quorumSize ≤ 1
  · simp only [if_pos hone]
    exact iff_of_true rfl (by omega)
  simp only [if_neg hone, Bool.true_eq_false, if_false]
  by_cases hnil : calls = []
  · simp only [hnil, turns, List.countP_nil]
    exact iff_of_false (by simp) (by omega)
  simp only [if_neg hnil]
  have hloop : (awaitAcks quorumSize (timeoutMs * 1000000) calls 0 1).isSome = true ↔
      quorumSize ≤ 1 + (turns (timeoutMs * 1000000) calls 0).countP
        (heard (timeoutMs * 1000000)) :=
    awaitAcks_isSome_iff calls (by omega)
  rw [max_eq_left (by omega), ← hloop]
  cases awaitAcks quorumSize (timeoutMs * 1000000) calls 0 1 <;> simp

/-- The time the thread is held up, all calls together. -/
def totalLag (calls : List PeerCall) : Nat :=
  (calls.map PeerCall.lag).sum

/-- Every call returns a millisecond before the deadline, with the thread's
delays to spare. -/
def Prompt (deadline : Nat) (calls : List PeerCall) : Prop :=
  ∀ f ∈ calls, f.doneAt + totalLag calls + 1000000 ≤ deadline

instance (deadline : Nat) (calls : List PeerCall) : Decidable (Prompt deadline calls) :=
  inferInstanceAs (Decidable (∀ f ∈ calls, _))

/-- Prompt calls are heard or said no. -/
theorem turns_of_prompt {deadline : Nat} (calls : List PeerCall) :
    ∀ {time}, Prompt deadline calls → time + totalLag calls + 1000000 ≤ deadline →
      ∀ x ∈ turns deadline calls time, missed deadline x = false ∧ onTheDot deadline x = false := by
  induction calls with
  | nil => intro time _ _ x hx; cases hx
  | cons f fs ih =>
      intro time hprompt htime x hx
      have hsum : totalLag (f :: fs) = f.lag + totalLag fs := List.sum_cons
      have hdone := hprompt f List.mem_cons_self
      have hleft := lt_wholeLeft deadline (time + f.lag)
      rw [turns] at hx
      rcases List.mem_cons.mp hx with rfl | hx
      · have hturn : ¬ deadline ≤ time + f.lag := by omega
        have hlong : ¬ time + f.lag + wholeLeft deadline (time + f.lag) < f.doneAt := by omega
        have hne : f.doneAt ≠ deadline := by omega
        exact ⟨by simp [missed, hturn, hlong], by simp [onTheDot, hne]⟩
      · refine ih (fun g hg => ?_) ?_ x hx
        · have := hprompt g (List.mem_cons_of_mem _ hg)
          omega
        · omega

/-- Nothing is missed of prompt calls, in whatever order. -/
theorem missed_of_prompt {deadline : Nat} {calls : List PeerCall}
    (h : Prompt deadline calls) :
    (turns deadline calls 0).countP (missed deadline) = 0 ∧
      (turns deadline calls 0).countP (onTheDot deadline) = 0 := by
  cases hcalls : calls with
  | nil => exact ⟨rfl, rfl⟩
  | cons f fs =>
      have hf := h f (by rw [hcalls]; exact List.mem_cons_self)
      rw [← hcalls]
      have hall := @turns_of_prompt deadline calls 0 h (by omega)
      exact ⟨List.countP_eq_zero.mpr fun x hx => by simp [(hall x hx).1],
        List.countP_eq_zero.mpr fun x hx => by simp [(hall x hx).2]⟩

/-- **When the decision is the count of the answers.** For every list of
calls, every quorum size and every timeout: `ReplicateToQuorum` decides by
the number of answers before the deadline if and only if no other answer is
needed than the leader's own, or the answers it MISSES and those it gets on
the dot do not tip the balance. It decides so in every order of the peers
when every call returns a millisecond before the deadline with the thread's
delays to spare. -/
theorem quorum_decision_iff (calls : List PeerCall) (quorumSize timeoutMs : Nat) :
    let deadline := timeoutMs * 1000000
    let answers := 1 + (timely deadline calls).length
    let lost := (turns deadline calls 0).countP (missed deadline)
    let extra := (turns deadline calls 0).countP (onTheDot deadline)
    (((replicateToQuorum true calls quorumSize timeoutMs).isOk = true ↔
        max quorumSize 1 ≤ answers) ↔
      quorumSize ≤ 1 ∨
      (quorumSize ≤ answers ∧ quorumSize + lost ≤ answers + extra) ∨
      (answers < quorumSize ∧ answers + extra < quorumSize + lost)) ∧
    (Prompt deadline calls → ∀ calls', calls'.Perm calls →
      ((replicateToQuorum true calls' quorumSize timeoutMs).isOk = true ↔
        max quorumSize 1 ≤ answers)) := by
  intro deadline answers lost extra
  constructor
  · have hsum := heard_add_missed deadline (turns deadline calls 0)
    rw [map_fst_turns] at hsum
    rw [replicateToQuorum_isOk_iff]
    change (max quorumSize 1 ≤ 1 + (turns deadline calls 0).countP (heard deadline) ↔ _) ↔ _
    omega
  · intro hprompt calls' hperm
    have hlag : totalLag calls' = totalLag calls := (hperm.map _).sum_eq
    have hprompt' : Prompt deadline calls' := fun f hf =>
      hlag ▸ hprompt f (hperm.mem_iff.mp hf)
    have hlen : (timely deadline calls').length = (timely deadline calls).length :=
      (hperm.filter _).length_eq
    have hsum := heard_add_missed deadline (turns deadline calls' 0)
    rw [map_fst_turns, (missed_of_prompt hprompt').1, (missed_of_prompt hprompt').2] at hsum
    rw [replicateToQuorum_isOk_iff]
    change max quorumSize 1 ≤ 1 + (turns deadline calls' 0).countP (heard deadline) ↔ _
    omega

/-- A peer that says no and one that says yes, both soon. -/
theorem quorum_of_prompt_peers :
    (replicateToQuorum true [⟨5, false, 1000⟩, ⟨7, true, 2000⟩] 2 300).isOk = true ∧
    (replicateToQuorum true [⟨7, true, 2000⟩, ⟨5, false, 1000⟩] 2 300).isOk = true :=
  have h := (quorum_decision_iff [⟨5, false, 1000⟩, ⟨7, true, 2000⟩] 2 300).2 (by decide)
  ⟨(h _ (List.Perm.refl _)).mpr (by decide), (h _ (by decide)).mpr (by decide)⟩

/-- **The order of the peers decides.** The thread turns to the first peer
after a microsecond; the peer does not answer, and the thread wakes up a
millisecond late from the wait: the second peer, which said yes after five
nanoseconds, is not looked at. In the other order the call succeeds. And
where the first peer says no at once, the rest of the time is cut to whole
milliseconds, so a yes in the last fraction is not waited for. -/
theorem slow_first_peer :
    ((replicateToQuorum true [⟨400000000, false, 1000⟩, ⟨5, true, 1000000⟩] 2 300).isOk = false ∧
      (replicateToQuorum true [⟨5, true, 1000⟩, ⟨400000000, false, 1000000⟩] 2 300).isOk
        = true ∧
      (timely (300 * 1000000) [⟨400000000, false, 1000⟩, ⟨5, true, 1000000⟩]).length = 1) ∧
    ((replicateToQuorum true [⟨500000, false, 1000⟩, ⟨299900000, true, 1000⟩] 2 300).isOk
        = false ∧
      (timely (300 * 1000000) [⟨500000, false, 1000⟩, ⟨299900000, true, 1000⟩]).length
        = 1) := by
  decide

end VaultKV
