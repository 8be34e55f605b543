import Mathlib

/-!
# Window — the recent part of a log, and the ranks in it

A log has stamped entries. A window onto it is kept as a queue: an entry comes
in at the back, and what lies before a cutoff is taken off the front, as long
as it is the front. While cutoffs and stamps do not go back, taking off the
front loses nothing else: at every cutoff the queue then is the log without
the entries before it (`Window.trim_eq`).

`IsPercentile p v xs` says in counts that `v` is a `p`-th percentile of a
sample; the entry at position `len * p / 100` of the sorted sample is one
(`isPercentile_sorted`).
-/

namespace VaultKV.Lib

section

variable {T L : Type} [LinearOrder T]

/-- What lies before the cutoff is taken off the front. -/
def trimTo (cut : T) (q : List (T × L)) : List (T × L) := q.dropWhile fun x => decide (x.1 < cut)

/-- The entries from the cutoff on. -/
def since (cut : T) (log : List (T × L)) : List (T × L) := log.filter fun x => decide (cut ≤ x.1)

def Chronological (log : List (T × L)) : Prop := log.Pairwise fun x y => x.1 ≤ y.1

/-- The queue is the log without some entries at its front that lie before
the cutoff. -/
def Window (cut : T) (log q : List (T × L)) : Prop :=
  ∃ dropped, log = dropped ++ q ∧ ∀ x ∈ dropped, x.1 < cut

theorem trimTo_eq_since {cut : T} {q : List (T × L)} (h : Chronological q) :
    trimTo cut q = since cut q := by
  induction q with
  | nil => rfl
  | cons x q ih =>
      obtain ⟨hx, hq⟩ := List.pairwise_cons.mp h
      by_cases hcut : x.1 < cut
      · have hskip : trimTo cut (x :: q) = trimTo cut q := List.dropWhile_cons_of_pos (by simpa)
        have hnot : since cut (x :: q) = since cut q := List.filter_cons_of_neg (by simpa)
        rw [hskip, hnot, ih hq]
      · have hstay : trimTo cut (x :: q) = x :: q := List.dropWhile_cons_of_neg (by simpa using hcut)
        have hall : since cut (x :: q) = x :: q := by
          refine List.filter_eq_self.mpr fun y hy => decide_eq_true ?_
          rcases List.mem_cons.mp hy with rfl | hy
          · exact not_lt.mp hcut
          · exact (not_lt.mp hcut).trans (hx y hy)
        rw [hstay, hall]

namespace Window

variable {cut cut' : T} {log q : List (T × L)}

theorem nil (cut : T) : Window cut ([] : List (T × L)) [] := ⟨[], rfl, by simp⟩

theorem mono (h : Window cut log q) (hle : cut ≤ cut') : Window cut' log q := by
  obtain ⟨dropped, hlog, hold⟩ := h
  exact ⟨dropped, hlog, fun x hx => (hold x hx).trans_le hle⟩

theorem push (h : Window cut log q) (x : T × L) : Window cut (log ++ [x]) (q ++ [x]) := by
  obtain ⟨dropped, rfl, hold⟩ := h
  exact ⟨dropped, List.append_assoc .., hold⟩

theorem trim (h : Window cut log q) : Window cut log (trimTo cut q) := by
  obtain ⟨dropped, rfl, hold⟩ := h
  refine ⟨dropped ++ q.takeWhile fun x => decide (x.1 < cut), ?_, fun x hx => ?_⟩
  · rw [List.append_assoc, trimTo, List.takeWhile_append_dropWhile]
  · rcases List.mem_append.mp hx with hx | hx
    · exact hold x hx
    · have hbefore := List.mem_takeWhile_imp hx
      exact of_decide_eq_true hbefore

/-- **Nothing is lost at the front**: the trimmed queue is the log from the
cutoff on. -/
theorem trim_eq (h : Window cut log q) (hlog : Chronological log) : trimTo cut q = since cut log := by
  obtain ⟨dropped, rfl, hold⟩ := h
  have hnone : since cut dropped = [] :=
    List.filter_eq_nil_iff.mpr fun x hx => by simpa using hold x hx
  have hq : Chronological q := (List.pairwise_append.mp hlog).2.1
  rw [trimTo_eq_since hq]
  change _ = (dropped ++ q).filter _
  rw [List.filter_append]
  exact (congrArg (· ++ since cut q) hnone).symm

end Window

/-- What counts from a later cutoff on is in the window. -/
theorem countP_since {cut later : T} (h : cut ≤ later) (log : List (T × L)) :
    (since cut log).countP (fun x => decide (later ≤ x.1))
      = log.countP fun x => decide (later ≤ x.1) := by
  rw [since, List.countP_filter]
  refine List.countP_congr fun x _ => ?_
  simpa using h.trans

end

/-! ## Ranks -/

section

variable {L : Type} [LinearOrder L]

/-- At most `p` of a hundred are below `v`, and at least `p` of a hundred are
not above it. -/
def IsPercentile (p : Nat) (v : L) (xs : List L) : Prop :=
  v ∈ xs ∧ 100 * xs.countP (fun x => decide (x < v)) ≤ p * xs.length ∧
    p * xs.length ≤ 100 * xs.countP fun x => decide (x ≤ v)

theorem isPercentile_perm {p : Nat} {v : L} {xs ys : List L} (h : xs.Perm ys) :
    IsPercentile p v xs ↔ IsPercentile p v ys := by
  rw [IsPercentile, IsPercentile, h.mem_iff, h.countP_eq, h.countP_eq, h.length_eq]

theorem countP_lt_le {xs : List L} {v : L} {i : Nat} (h : ∀ x ∈ xs.drop i, v ≤ x) :
    xs.countP (fun x => decide (x < v)) ≤ i := by
  have hnone : (xs.drop i).countP (fun x => decide (x < v)) = 0 :=
    List.countP_eq_zero.mpr fun x hx => by simpa using h x hx
  calc xs.countP (fun x => decide (x < v))
      = (xs.take i).countP (fun x => decide (x < v)) +
          (xs.drop i).countP (fun x => decide (x < v)) := by
        rw [← List.countP_append, List.take_append_drop]
    _ = (xs.take i).countP (fun x => decide (x < v)) := by rw [hnone, Nat.add_zero]
    _ ≤ (xs.take i).length := List.countP_le_length
    _ ≤ i := List.length_take_le i xs

theorem le_countP_le {xs : List L} {v : L} {i : Nat} (hi : i ≤ xs.length)
    (h : ∀ x ∈ xs.take i, x ≤ v) : i ≤ xs.countP fun x => decide (x ≤ v) := by
  have hall : (xs.take i).countP (fun x => decide (x ≤ v)) = (xs.take i).length :=
    List.countP_eq_length.mpr fun x hx => by simpa using h x hx
  calc i = (xs.take i).length := (List.length_take_of_le hi).symm
    _ = (xs.take i).countP (fun x => decide (x ≤ v)) := hall.symm
    _ ≤ xs.countP fun x => decide (x ≤ v) := (List.take_sublist i xs).countP_le

/-- The position of an entry of a sorted list bounds what is below it and what
is not above it. -/
theorem rank_sorted {xs : List L} (h : xs.Pairwise (· ≤ ·)) {i : Nat} (hi : i < xs.length) :
    xs.countP (fun x => decide (x < xs[i])) ≤ i ∧
      i + 1 ≤ xs.countP fun x => decide (x ≤ xs[i]) := by
  have hmono : ∀ a b (ha : a < xs.length) (hb : b < xs.length), a ≤ b → xs[a] ≤ xs[b] := by
    intro a b ha hb hab
    rcases Nat.lt_or_eq_of_le hab with hlt | rfl
    · exact List.pairwise_iff_getElem.mp h a b ha hb hlt
    · exact le_rfl
  constructor
  · refine countP_lt_le fun x hx => ?_
    obtain ⟨j, hj, rfl⟩ := List.getElem_of_mem hx
    rw [List.length_drop] at hj
    rw [List.getElem_drop]
    exact hmono i (i + j) hi (by omega) (Nat.le_add_right i j)
  · refine le_countP_le hi fun x hx => ?_
    obtain ⟨j, hj, rfl⟩ := List.getElem_of_mem hx
    rw [List.length_take] at hj
    rw [List.getElem_take]
    exact hmono j i (by omega) hi (by omega)

/-- **The entry at `len * p / 100` of a sorted sample** (the last one, if that
is behind it) is a `p`-th percentile. -/
theorem isPercentile_sorted {xs : List L} (h : xs.Pairwise (· ≤ ·)) {p i : Nat} (hp : p ≤ 100)
    (hi : i < xs.length) (hidx : i = min (xs.length * p / 100) (xs.length - 1)) :
    IsPercentile p xs[i] xs := by
  obtain ⟨hbelow, habove⟩ := rank_sorted h hi
  have hdiv := Nat.div_add_mod (xs.length * p) 100
  have hmod := Nat.mod_lt (xs.length * p) (show 0 < 100 by decide)
  have hcomm : p * xs.length = xs.length * p := Nat.mul_comm ..
  have hall : xs.length * p ≤ xs.length * 100 := Nat.mul_le_mul_left _ hp
  refine ⟨List.getElem_mem hi, ?_, ?_⟩ <;> omega

end

end VaultKV.Lib
