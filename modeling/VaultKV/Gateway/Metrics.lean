import VaultKV.Lib.Trace
import VaultKV.Lib.Window

/-!
# Gateway — the figures of the dashboard (`metrics.py`)

`MetricsCollector` keeps the latencies of the last minute in two queues. Each
call trims its queue from the front, and every `snapshot` counts and sorts
what is left. On a clock that does not go back the trimming does not show:
the figures of every snapshot are those of ALL requests ever recorded, and the
percentiles are percentiles.

Times are those of any clock; of its arithmetic only what the rounding of
`float` keeps is used.
-/

namespace VaultKV.Gateway

open Lib

/-- `time.time() - self.window` and `now - 1.0` as functions of the time: the
window moves on with the time, and is a second long at least. -/
structure Clock (T : Type) [LinearOrder T] where
  windowAgo : T → T
  secondAgo : T → T
  windowAgo_mono : Monotone windowAgo
  windowAgo_le (t : T) : windowAgo t ≤ secondAgo t

/-- `MetricsCollector`. -/
structure MetricsCollector (T L : Type) where
  sets : List (T × L) := []
  gets : List (T × L) := []

/-- What `snapshot` returns. -/
structure Snapshot (T L : Type) where
  ts : T
  setOpsPerSec : Nat
  getOpsPerSec : Nat
  setP50Ms : L
  setP99Ms : L
  getP50Ms : L
  getP99Ms : L
  deriving DecidableEq

namespace MetricsCollector

section

variable {T L : Type} [LinearOrder T] [LinearOrder L] [Zero L] (clock : Clock T)

/-- `_trim` at this time. -/
def trim (now : T) (q : List (T × L)) : List (T × L) := trimTo (clock.windowAgo now) q

/-- `record_set`; the clock is read for the stamp and again by `_trim`. -/
def recordSet (stamp now : T) (latencyMs : L) (m : MetricsCollector T L) : MetricsCollector T L :=
  { m with sets := trim clock now (m.sets ++ [(stamp, latencyMs)]) }

/-- `record_get`. -/
def recordGet (stamp now : T) (latencyMs : L) (m : MetricsCollector T L) : MetricsCollector T L :=
  { m with gets := trim clock now (m.gets ++ [(stamp, latencyMs)]) }

/-- `_percentile`. -/
def percentile (q : List (T × L)) (p : Nat) : L :=
  let vals := (q.map Prod.snd).insertionSort (· ≤ ·)
  let idx := vals.length * p / 100
  if vals = [] then 0 else vals.getD (if vals.length ≤ idx then vals.length - 1 else idx) 0

/-- The entries of the last second. -/
def opsPerSec (now : T) (q : List (T × L)) : Nat :=
  q.countP fun x => decide (clock.secondAgo now ≤ x.1)

/-- The queues that `snapshot` looks at. -/
def trimBoth (setsAt getsAt : T) (m : MetricsCollector T L) : MetricsCollector T L :=
  { sets := trim clock setsAt m.sets, gets := trim clock getsAt m.gets }

/-- `snapshot`; the clock is read by each `_trim` and once more. -/
def snapshot (setsAt getsAt now : T) (m : MetricsCollector T L) :
    Snapshot T L × MetricsCollector T L :=
  let m := m.trimBoth clock setsAt getsAt
  ({ ts := now
     setOpsPerSec := opsPerSec clock now m.sets
     getOpsPerSec := opsPerSec clock now m.gets
     setP50Ms := percentile m.sets 50
     setP99Ms := percentile m.sets 99
     getP50Ms := percentile m.gets 50
     getP99Ms := percentile m.gets 99 }, m)

end

end MetricsCollector

/-- A call, with the times it reads off the clock. -/
inductive MetricsCall (T L : Type) where
  | recordSet (stamp now : T) (latencyMs : L)
  | recordGet (stamp now : T) (latencyMs : L)
  | snapshot (setsAt getsAt now : T)

namespace MetricsCall

variable {T L : Type}

/-- The times a call reads, in order. -/
def readings : MetricsCall T L → List T
  | .recordSet stamp now _ => [stamp, now]
  | .recordGet stamp now _ => [stamp, now]
  | .snapshot setsAt getsAt now => [setsAt, getsAt, now]

/-- What a call records of a `SET`. -/
def recordedSet : MetricsCall T L → List (T × L)
  | .recordSet stamp _ latencyMs => [(stamp, latencyMs)]
  | .recordGet .. => []
  | .snapshot .. => []

/-- What a call records of a `GET`. -/
def recordedGet : MetricsCall T L → List (T × L)
  | .recordSet .. => []
  | .recordGet stamp _ latencyMs => [(stamp, latencyMs)]
  | .snapshot .. => []

/-- The collector after a call. -/
def step [LinearOrder T] [LinearOrder L] [Zero L] (clock : Clock T) (c : MetricsCall T L)
    (m : MetricsCollector T L) : MetricsCollector T L :=
  match c with
  | .recordSet stamp now latencyMs => m.recordSet clock stamp now latencyMs
  | .recordGet stamp now latencyMs => m.recordGet clock stamp now latencyMs
  | .snapshot setsAt getsAt now => (m.snapshot clock setsAt getsAt now).2

end MetricsCall

/-! ## One queue -/

section

variable {T L : Type} [LinearOrder T] (clock : Clock T)

/-- At this time, the queue is a window onto a log that ends no later. -/
structure Kept (t : T) (log q : List (T × L)) : Prop where
  window : Window (clock.windowAgo t) log q
  order : Chronological log
  past : ∀ x ∈ log, x.1 ≤ t

namespace Kept

variable {clock} {t t' : T} {log q : List (T × L)}

theorem nil (t : T) : Kept clock t ([] : List (T × L)) [] :=
  ⟨Window.nil _, List.Pairwise.nil, by simp⟩

theorem mono (h : Kept clock t log q) (ht : t ≤ t') : Kept clock t' log q :=
  ⟨h.window.mono (clock.windowAgo_mono ht), h.order, fun x hx => (h.past x hx).trans ht⟩

theorem trim (h : Kept clock t log q) : Kept clock t log (MetricsCollector.trim clock t q) :=
  ⟨h.window.trim, h.order, h.past⟩

theorem record (h : Kept clock t log q) (latencyMs : L) (ht : t ≤ t') :
    Kept clock t' (log ++ [(t, latencyMs)])
      (MetricsCollector.trim clock t' (q ++ [(t, latencyMs)])) := by
  have hpushed : Kept clock t (log ++ [(t, latencyMs)]) (q ++ [(t, latencyMs)]) := by
    refine ⟨h.window.push _, List.pairwise_append.mpr ⟨h.order, by simp, ?_⟩, fun x hx => ?_⟩
    · intro x hx y hy
      rw [List.mem_singleton.mp hy]
      exact h.past x hx
    · rcases List.mem_append.mp hx with hx | hx
      · exact h.past x hx
      · rw [List.mem_singleton.mp hx]
  exact (hpushed.mono ht).trim

theorem trim_eq (h : Kept clock t log q) :
    MetricsCollector.trim clock t q = since (clock.windowAgo t) log :=
  h.window.trim_eq h.order

end Kept

end

/-! ## Percentiles -/

section

variable {T L : Type} [LinearOrder L] [Zero L]

/-- A `p`-th percentile of the latencies, and 0 if there are none. -/
def Figure (p : Nat) (v : L) (log : List (T × L)) : Prop :=
  if log = [] then v = 0 else IsPercentile p v (log.map Prod.snd)

theorem figure_percentile (q : List (T × L)) {p : Nat} (hp : p ≤ 100) :
    Figure p (MetricsCollector.percentile q p) q := by
  rw [Figure, MetricsCollector.percentile]
  have hlen := List.length_insertionSort (· ≤ ·) (q.map Prod.snd)
  have hsorted := List.pairwise_insertionSort (· ≤ ·) (q.map Prod.snd)
  have hperm := List.perm_insertionSort (· ≤ ·) (q.map Prod.snd)
  generalize (q.map Prod.snd).insertionSort (· ≤ ·) = vals at hlen hsorted hperm
  rw [List.length_map] at hlen
  split
  · next hq =>
    subst hq
    exact if_pos (List.eq_nil_of_length_eq_zero hlen)
  · next hq =>
    have hpos : 0 < vals.length := by rw [hlen]; exact List.length_pos_of_ne_nil hq
    rw [if_neg (List.ne_nil_of_length_pos hpos), ← isPercentile_perm hperm]
    generalize hidx : (if vals.length ≤ vals.length * p / 100 then vals.length - 1
      else vals.length * p / 100) = idx
    have hlt : idx < vals.length := by rw [← hidx]; split <;> omega
    have hmin : idx = min (vals.length * p / 100) (vals.length - 1) := by
      rw [← hidx]; split <;> omega
    rw [List.getD_eq_getElem _ _ hlt]
    exact isPercentile_sorted hsorted hp hlt hmin

end

/-! ## Whole runs -/

section

variable {T L : Type} [LinearOrder T] [LinearOrder L] [Zero L] {clock : Clock T}

/-- From now on both queues are windows onto what was recorded. -/
def Exact (clock : Clock T) (past : List T) (sets gets : List (T × L)) (m : MetricsCollector T L) :
    Prop :=
  ∀ t, (∀ r ∈ past, r ≤ t) → Kept clock t sets m.sets ∧ Kept clock t gets m.gets

/-- **One call.** -/
theorem Exact.step {past : List T} {sets gets : List (T × L)} {m : MetricsCollector T L}
    (h : Exact clock past sets gets m) (c : MetricsCall T L)
    (hclock : (past ++ c.readings).Pairwise (· ≤ ·)) :
    Exact clock (past ++ c.readings) (sets ++ c.recordedSet) (gets ++ c.recordedGet)
      (c.step clock m) := by
  intro t ht
  obtain ⟨-, hreadings, hpast⟩ := List.pairwise_append.mp hclock
  have hlast := fun r hr => ht r (List.mem_append_right past hr)
  have hafter := h t fun r hr => ht r (List.mem_append_left _ hr)
  cases c with
  | recordSet stamp now latencyMs =>
      have hnow : stamp ≤ now := (List.pairwise_cons.mp hreadings).1 now List.mem_cons_self
      have hat := h stamp fun r hr => hpast r hr stamp List.mem_cons_self
      refine ⟨(hat.1.record latencyMs hnow).mono (hlast now (by simp [MetricsCall.readings])), ?_⟩
      rw [MetricsCall.recordedGet, List.append_nil]
      exact hafter.2
  | recordGet stamp now latencyMs =>
      have hnow : stamp ≤ now := (List.pairwise_cons.mp hreadings).1 now List.mem_cons_self
      have hat := h stamp fun r hr => hpast r hr stamp List.mem_cons_self
      refine ⟨?_, (hat.2.record latencyMs hnow).mono (hlast now (by simp [MetricsCall.readings]))⟩
      rw [MetricsCall.recordedSet, List.append_nil]
      exact hafter.1
  | snapshot setsAt getsAt now =>
      have hsets := h setsAt fun r hr => hpast r hr setsAt List.mem_cons_self
      have hgets := h getsAt fun r hr => hpast r hr getsAt (by simp [MetricsCall.readings])
      rw [MetricsCall.recordedSet, MetricsCall.recordedGet, List.append_nil, List.append_nil]
      exact ⟨hsets.1.trim.mono (hlast setsAt List.mem_cons_self),
        hgets.2.trim.mono (hlast getsAt (by simp [MetricsCall.readings]))⟩

/-- **Any calls** on a clock that does not go back. -/
theorem Exact.run (calls : List (MetricsCall T L)) :
    ∀ {past : List T} {sets gets : List (T × L)} {m : MetricsCollector T L},
      Exact clock past sets gets m →
      (past ++ calls.flatMap MetricsCall.readings).Pairwise (· ≤ ·) →
      Exact clock (past ++ calls.flatMap MetricsCall.readings)
        (sets ++ calls.flatMap MetricsCall.recordedSet)
        (gets ++ calls.flatMap MetricsCall.recordedGet)
        (runAlong (MetricsCall.step clock) calls m) := by
  induction calls with
  | nil =>
      intro past sets gets m h _
      simpa [runAlong] using h
  | cons c calls ih =>
      intro past sets gets m h hclock
      rw [List.flatMap_cons, ← List.append_assoc] at hclock
      have hone := h.step c (List.pairwise_append.mp hclock).1
      have hall := ih hone hclock
      simpa only [List.flatMap_cons, List.append_assoc, runAlong] using hall

/-- **The figures are those of all requests.** After any calls on a clock that
does not go back, a snapshot counts the requests ever recorded whose stamps
are in the last second, and shows percentiles of the latencies of those in the
window, 0 if there are none. -/
theorem snapshot_exact (clock : Clock T) (calls : List (MetricsCall T L)) (setsAt getsAt now : T)
    (hclock : (calls.flatMap MetricsCall.readings ++ [setsAt, getsAt, now]).Pairwise (· ≤ ·)) :
    let s := ((runAlong (MetricsCall.step clock) calls {}).snapshot clock setsAt getsAt now).1
    let sets := calls.flatMap MetricsCall.recordedSet
    let gets := calls.flatMap MetricsCall.recordedGet
    s.setOpsPerSec = MetricsCollector.opsPerSec clock now sets ∧
    s.getOpsPerSec = MetricsCollector.opsPerSec clock now gets ∧
    (Figure 50 s.setP50Ms (since (clock.windowAgo setsAt) sets) ∧
      Figure 99 s.setP99Ms (since (clock.windowAgo setsAt) sets)) ∧
    (Figure 50 s.getP50Ms (since (clock.windowAgo getsAt) gets) ∧
      Figure 99 s.getP99Ms (since (clock.windowAgo getsAt) gets)) := by
  intro s sets gets
  obtain ⟨hcalls, hlast, hpast⟩ := List.pairwise_append.mp hclock
  obtain ⟨hsetsAt, hrest⟩ := List.pairwise_cons.mp hlast
  have hgetsAt := (List.pairwise_cons.mp hrest).1
  have hstart : Exact clock [] ([] : List (T × L)) [] {} := fun t _ => ⟨Kept.nil t, Kept.nil t⟩
  have hrun := Exact.run calls hstart (by simpa using hcalls)
  have hsets : MetricsCollector.trim clock setsAt (runAlong (MetricsCall.step clock) calls {}).sets
      = since (clock.windowAgo setsAt) sets :=
    (hrun setsAt fun r hr => hpast r hr setsAt (by simp)).1.trim_eq
  have hgets : MetricsCollector.trim clock getsAt (runAlong (MetricsCall.step clock) calls {}).gets
      = since (clock.windowAgo getsAt) gets :=
    (hrun getsAt fun r hr => hpast r hr getsAt (by simp)).2.trim_eq
  have hsecond : ∀ t, t ≤ now → clock.windowAgo t ≤ clock.secondAgo now := fun t ht =>
    (clock.windowAgo_mono ht).trans (clock.windowAgo_le now)
  dsimp only [s, MetricsCollector.snapshot, MetricsCollector.trimBoth]
  rw [hsets, hgets]
  exact ⟨countP_since (hsecond setsAt (hsetsAt now (by simp))) sets,
    countP_since (hsecond getsAt (hgetsAt now (by simp))) gets,
    ⟨figure_percentile _ (by decide), figure_percentile _ (by decide)⟩,
    figure_percentile _ (by decide), figure_percentile _ (by decide)⟩

end

/-- A clock of whole seconds with a window of a minute. -/
def minuteClock : Clock Nat where
  windowAgo t := t - 60
  secondAgo t := t - 1
  windowAgo_mono _ _ h := Nat.sub_le_sub_right h 60
  windowAgo_le t := Nat.sub_le_sub_left (by decide) t

/-- Four writes, of which the first two are a minute old at the end. -/
def busyMinute : List (MetricsCall Nat Nat) :=
  [.recordSet 10 10 7, .recordSet 20 20 9, .recordGet 60 60 1, .recordSet 100 100 5,
   .snapshot 101 101 101, .recordSet 110 110 3]

theorem busyMinute_exact :
    let s := ((runAlong (MetricsCall.step minuteClock) busyMinute {}).snapshot minuteClock
      110 110 111).1
    s = ⟨111, 1, 0, 5, 5, 1, 1⟩ ∧
    Figure 50 s.setP50Ms (since 50 (busyMinute.flatMap MetricsCall.recordedSet)) :=
  ⟨by decide +kernel,
    (snapshot_exact minuteClock busyMinute 110 110 111 (by decide +kernel)).2.2.1.1⟩

/-- On a clock that goes back, an entry from the future keeps older ones from
being trimmed. -/
example :
    let calls : List (MetricsCall Nat Nat) := [.recordSet 200 200 7, .recordSet 10 10 9]
    ((runAlong (MetricsCall.step minuteClock) calls {}).snapshot minuteClock 100 100 100).1.setP50Ms
      = 9 ∧ since 40 (calls.flatMap MetricsCall.recordedSet) = [(200, 7)] := by
  decide +kernel

end VaultKV.Gateway
