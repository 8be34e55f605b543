import Mathlib

/-!
# LowerBound — binary search for the first element a predicate rejects

The halving loop of `std::lower_bound`: `first` and the length of the part
still to search. On a list whose front satisfies the predicate and whose
back does not, it finds the border, the length of `takeWhile`.
-/

namespace VaultKV.Lib

variable {α : Type}

/-- The loop, at most `fuel` rounds. -/
def lowerBoundLoop (p : α → Bool) (l : List α) : Nat → Nat → Nat → Nat
  | 0, first, _ => first
  | fuel + 1, first, len =>
      if len = 0 then first
      else
        let half := len / 2
        match l[first + half]? with
        | none => first
        | some x =>
            if p x then lowerBoundLoop p l fuel (first + half + 1) (len - half - 1)
            else lowerBoundLoop p l fuel first half

/-- The index of the first element of a partitioned list that fails `p`. -/
def lowerBound (p : α → Bool) (l : List α) : Nat := lowerBoundLoop p l l.length 0 l.length

/-- `p` holds exactly for the first `b` elements. -/
structure Border (p : α → Bool) (l : List α) (b : Nat) : Prop where
  le : b ≤ l.length
  front : ∀ i x, l[i]? = some x → i < b → p x = true
  back : ∀ i x, l[i]? = some x → b ≤ i → p x = false

/-- The border stays between `first` and `first + len`. -/
theorem lowerBoundLoop_eq {p : α → Bool} {l : List α} {b : Nat} (h : Border p l b) :
    ∀ fuel first len, first ≤ b → b ≤ first + len → first + len ≤ l.length →
      len ≤ fuel → lowerBoundLoop p l fuel first len = b := by
  intro fuel
  induction fuel with
  | zero =>
      intro first len h1 h2 h3 h4
      rw [lowerBoundLoop]
      omega
  | succ fuel ih =>
      intro first len h1 h2 h3 h4
      rw [lowerBoundLoop]
      by_cases hlen : len = 0
      · rw [if_pos hlen]; omega
      · rw [if_neg hlen]
        have hmid : first + len / 2 < l.length := by omega
        simp only [List.getElem?_eq_getElem hmid]
        have hx := List.getElem?_eq_getElem hmid
        by_cases hb : first + len / 2 < b
        · rw [if_pos (h.front _ _ hx hb)]
          exact ih _ _ (by omega) (by omega) (by omega) (by omega)
        · rw [if_neg (by simp [h.back _ _ hx (by omega)])]
          exact ih _ _ (by omega) (by omega) (by omega) (by omega)

theorem lowerBound_eq {p : α → Bool} {l : List α} {b : Nat} (h : Border p l b) :
    lowerBound p l = b :=
  lowerBoundLoop_eq h _ _ _ (Nat.zero_le _) (by simpa using h.le) (by omega) (Nat.le_refl _)

/-- **On a partitioned list the search drops the front.** -/
theorem drop_lowerBound {p : α → Bool} {l front back : List α} (hl : l = front ++ back)
    (hfront : ∀ x ∈ front, p x = true) (hback : ∀ x ∈ back, p x = false) :
    l.drop (lowerBound p l) = back := by
  subst hl
  have hborder : Border p (front ++ back) front.length := by
    refine ⟨by simp, ?_, ?_⟩
    · intro i x hx hi
      rw [List.getElem?_append_left hi] at hx
      exact hfront x (List.mem_of_getElem? hx)
    · intro i x hx hi
      rw [List.getElem?_append_right hi] at hx
      exact hback x (List.mem_of_getElem? hx)
  rw [lowerBound_eq hborder, List.drop_left]

/-- A list in whose order `p` can only turn from true to false. -/
theorem dropWhile_eq_false {p : α → Bool} {l : List α}
    (h : l.Pairwise fun a b => p b = true → p a = true) :
    ∀ x ∈ l.dropWhile p, p x = false := by
  induction l with
  | nil => intro x hx; cases hx
  | cons a l ih =>
      obtain ⟨ha, hl⟩ := List.pairwise_cons.mp h
      intro x hx
      rw [List.dropWhile_cons] at hx
      by_cases hp : p a = true
      · rw [if_pos hp] at hx
        exact ih hl x hx
      · rw [if_neg hp] at hx
        rcases List.mem_cons.mp hx with rfl | hx
        · simpa using hp
        · by_contra hpx
          exact hp (ha x hx (by simpa using hpx))

theorem drop_lowerBound_eq_dropWhile {p : α → Bool} {l : List α}
    (h : l.Pairwise fun a b => p b = true → p a = true) :
    l.drop (lowerBound p l) = l.dropWhile p :=
  drop_lowerBound (List.takeWhile_append_dropWhile).symm
    (fun _ hx => List.mem_takeWhile_imp hx) (dropWhile_eq_false h)

/-! ## Strings with a common start -/

section PrefixRange

variable [LinearOrder α]

theorem not_lt_of_isPrefixOf {start s : List α} (h : start.isPrefixOf s = true) :
    ¬ s < start := by
  rw [List.isPrefixOf_iff_prefix] at h
  obtain ⟨t, rfl⟩ := h
  intro hlt
  induction start with
  | nil => exact absurd hlt (List.not_lt_nil _)
  | cons a start ih =>
      rw [List.cons_append, List.cons_lt_cons_iff] at hlt
      rcases hlt with hlt | ⟨-, hlt⟩
      · exact lt_irrefl a hlt
      · exact ih hlt

/-- A string not below `start` that does not begin with it lies above all
that do. -/
theorem lt_of_isPrefixOf {start : List α} : ∀ {s s' : List α}, ¬ s < start →
    start.isPrefixOf s = false → start.isPrefixOf s' = true → s' < s := by
  induction start with
  | nil => intro s s' _ hs; simp at hs
  | cons a start ih =>
      intro s s' hge hs hs'
      cases s with
      | nil => exact absurd (List.nil_lt_cons a start) hge
      | cons b s =>
          cases s' with
          | nil => simp at hs'
          | cons b' s' =>
              rw [List.isPrefixOf_cons_cons, Bool.and_eq_true] at hs'
              obtain ⟨hb', hs'⟩ := hs'
              obtain rfl : a = b' := by simpa using hb'
              rw [List.cons_lt_cons_iff] at hge ⊢
              by_cases hab : a = b
              · subst hab
                rw [List.isPrefixOf_cons_cons] at hs
                refine Or.inr ⟨rfl, ih (fun hlt => hge (Or.inr ⟨rfl, hlt⟩)) ?_ hs'⟩
                simpa using hs
              · exact Or.inl (lt_of_le_of_ne
                  (not_lt.mp fun hlt => hge (Or.inl hlt)) hab)

/-- **The strings with a given start are a block** of a sorted list: it
begins at the lower bound and ends with the first string without it. -/
theorem takeWhile_dropWhile_eq_filter {β : Type} {key : β → List α} {l : List β}
    (h : l.Pairwise fun a b => key a < key b) {start : List α} {p : β → Bool}
    (hp : ∀ x, p x = true ↔ key x < start) :
    (l.dropWhile p).takeWhile (fun x => start.isPrefixOf (key x))
      = l.filter fun x => start.isPrefixOf (key x) := by
  induction l with
  | nil => rfl
  | cons x l ih =>
      obtain ⟨hx, hl⟩ := List.pairwise_cons.mp h
      rw [List.filter_cons]
      by_cases hlt : key x < start
      · have hnot : start.isPrefixOf (key x) = false := by
          by_contra hpre
          exact not_lt_of_isPrefixOf (by simpa using hpre) hlt
        rw [List.dropWhile_cons_of_pos ((hp x).mpr hlt), hnot]
        exact ih hl
      · rw [List.dropWhile_cons_of_neg (fun hpx => hlt ((hp x).mp hpx)), List.takeWhile_cons]
        -- everything behind `x` is not below `start` either
        have hrest : l.dropWhile p = l := by
          cases l with
          | nil => rfl
          | cons y l =>
              refine List.dropWhile_cons_of_neg fun hpy => ?_
              exact absurd (lt_trans (hx y List.mem_cons_self) ((hp y).mp hpy)) hlt
        by_cases hpre : start.isPrefixOf (key x) = true
        · rw [if_pos hpre, if_pos hpre, ← ih hl, hrest]
        · rw [if_neg hpre, if_neg hpre, eq_comm, List.filter_eq_nil_iff]
          intro y hy hyp
          exact absurd (lt_of_isPrefixOf hlt (Bool.eq_false_iff.mpr hpre) hyp)
            (not_lt.mpr (le_of_lt (hx y hy)))

end PrefixRange

end VaultKV.Lib
