import Mathlib

/-!
# FirstPairs — the first `n` pairs of a relation, in key order

`IsFirst A n out` says what a scan with a limit should return. The answer
is unique, and a sorted list of pairs of ANOTHER relation gives it after
cutting to `n` exactly when the two relations agree on every key with fewer
than `n` pairs before it (`isFirst_take_iff`).
-/

namespace VaultKV.Lib

variable {K V : Type} [LinearOrder K]

/-- `out` lists the first `n` pairs of `A`, all of them when there are
fewer. -/
structure IsFirst (A : K → V → Prop) (n : Nat) (out : List (K × V)) : Prop where
  sorted : out.Pairwise fun a b => a.1 < b.1
  sound : ∀ x ∈ out, A x.1 x.2
  bound : out.length ≤ n
  complete : ∀ k v, A k v → (k, v) ∈ out ∨ (out.length = n ∧ ∀ x ∈ out, x.1 < k)

/-- `l` lists the pairs of `A` in key order. -/
structure Lists (A : K → V → Prop) (l : List (K × V)) : Prop where
  sorted : l.Pairwise fun a b => a.1 < b.1
  mem : ∀ k v, (k, v) ∈ l ↔ A k v

/-- How many of the pairs stand in front of a key. -/
def rank (l : List (K × V)) (k : K) : Nat := (l.filter fun e => decide (e.1 < k)).length

theorem rank_cons (x : K × V) (l : List (K × V)) (k : K) :
    rank (x :: l) k = rank l k + if x.1 < k then 1 else 0 := by
  rw [rank, rank, List.filter_cons]
  by_cases h : x.1 < k
  · simp [h]
  · simp [h]

/-- Nothing stands in front of the first key. -/
theorem rank_head {x : K × V} {l : List (K × V)}
    (h : (x :: l).Pairwise fun a b => a.1 < b.1) {k : K} (hk : k ≤ x.1) :
    rank (x :: l) k = 0 := by
  rw [rank, List.length_eq_zero_iff, List.filter_eq_nil_iff]
  intro e he
  rcases List.mem_cons.mp he with rfl | he
  · simpa using hk
  · have := (List.pairwise_cons.mp h).1 e he
    simpa using le_trans hk (le_of_lt this)

theorem nodup_of_sorted {l : List (K × V)} (h : l.Pairwise fun a b => a.1 < b.1) :
    l.Nodup :=
  h.imp fun hlt heq => absurd hlt (by simp [heq])

/-- A pair is among the first `m` exactly when fewer than `m` stand in front
of its key. -/
theorem mem_take_iff {l : List (K × V)} (h : l.Pairwise fun a b => a.1 < b.1)
    {x : K × V} (hx : x ∈ l) : ∀ m, x ∈ l.take m ↔ rank l x.1 < m := by
  induction l with
  | nil => cases hx
  | cons y l ih =>
      intro m
      obtain ⟨hy, hl⟩ := List.pairwise_cons.mp h
      cases m with
      | zero => simp
      | succ m =>
          rw [List.take_succ_cons]
          rcases List.mem_cons.mp hx with rfl | hx
          · rw [rank_head h (le_refl _)]
            exact iff_of_true List.mem_cons_self (Nat.succ_pos m)
          · rw [rank_cons, if_pos (hy x hx), List.mem_cons, ih hl hx m]
            have hne : x ≠ y := fun heq => lt_irrefl y.1 (heq ▸ hy x hx)
            constructor
            · rintro (heq | hlt)
              · exact absurd heq hne
              · omega
            · intro hlt
              exact Or.inr (by omega)

/-! ## Existence and uniqueness -/

theorem Lists.isFirst {A : K → V → Prop} {l : List (K × V)} (h : Lists A l) (n : Nat) :
    IsFirst A n (l.take n) := by
  refine ⟨h.sorted.sublist (List.take_sublist n l), ?_, List.length_take_le n l, ?_⟩
  · intro x hx
    exact (h.mem x.1 x.2).mp (List.mem_of_mem_take hx)
  · intro k v ha
    have hmem := (h.mem k v).mpr ha
    by_cases htake : (k, v) ∈ l.take n
    · exact Or.inl htake
    · right
      rw [← List.take_append_drop n l] at hmem
      have hdrop := (List.mem_append.mp hmem).resolve_left htake
      have hsorted := h.sorted
      rw [← List.take_append_drop n l] at hsorted
      constructor
      · have := List.length_pos_of_mem hdrop
        rw [List.length_drop] at this
        rw [List.length_take]
        omega
      · intro x hx
        exact (List.pairwise_append.mp hsorted).2.2 x hx (k, v) hdrop

/-- One answer contains every pair of another. -/
theorem IsFirst.subset {A : K → V → Prop} {n : Nat} {out out' : List (K × V)}
    (h : IsFirst A n out) (h' : IsFirst A n out') : ∀ x ∈ out, x ∈ out' := by
  intro x hx
  rcases h'.complete x.1 x.2 (h.sound x hx) with hin | ⟨hlen, hlt⟩
  · exact hin
  · -- `out'` is full and lies in front of `x`, so `out` has one pair too many
    exfalso
    have hsub : ∀ y ∈ x :: out', y ∈ out := by
      intro y hy
      rcases List.mem_cons.mp hy with rfl | hy
      · exact hx
      · rcases h.complete y.1 y.2 (h'.sound y hy) with hin | ⟨-, hbelow⟩
        · exact hin
        · exact absurd (hbelow x hx) (lt_asymm (hlt y hy))
    have hnodup : (x :: out').Nodup := by
      refine List.nodup_cons.mpr ⟨fun hin => lt_irrefl _ (hlt x hin), ?_⟩
      exact nodup_of_sorted h'.sorted
    have hle := (List.subperm_of_subset hnodup hsub).length_le
    have hbound := h.bound
    rw [List.length_cons] at hle
    omega

/-- **The answer is unique.** -/
theorem IsFirst.unique {A : K → V → Prop} {n : Nat} {out out' : List (K × V)}
    (h : IsFirst A n out) (h' : IsFirst A n out') : out = out' := by
  have hperm : out.Perm out' :=
    (List.perm_ext_iff_of_nodup (nodup_of_sorted h.sorted) (nodup_of_sorted h'.sorted)).mpr
      fun x => ⟨h.subset h' x, h'.subset h x⟩
  refine hperm.eq_of_pairwise (fun a b _ _ hab hba => ?_) h.sorted h'.sorted
  exact absurd hba (lt_asymm hab)

/-! ## Two relations -/

/-- Two sorted lists agree on their first `n` pairs exactly when they agree
on every key with fewer than `n` pairs of the first one before it. -/
theorem take_eq_take_iff {l l' : List (K × V)} (h : l.Pairwise fun a b => a.1 < b.1)
    (h' : l'.Pairwise fun a b => a.1 < b.1) (n : Nat) :
    l.take n = l'.take n ↔ ∀ k, rank l k < n → ∀ v, (k, v) ∈ l ↔ (k, v) ∈ l' := by
  induction n generalizing l l' with
  | zero => simp
  | succ n ih =>
      cases l with
      | nil =>
          cases l' with
          | nil => simp
          | cons y l' =>
              refine iff_of_false (by simp) fun hall => ?_
              exact absurd ((hall y.1 (by simp [rank]) y.2).mpr List.mem_cons_self)
                List.not_mem_nil
      | cons x l =>
          obtain ⟨hx, hl⟩ := List.pairwise_cons.mp h
          have hrank : rank (x :: l) x.1 < n + 1 := by
            rw [rank_head h (le_refl _)]
            omega
          cases l' with
          | nil =>
              refine iff_of_false (by simp) fun hall => ?_
              exact absurd ((hall x.1 hrank x.2).mp List.mem_cons_self) List.not_mem_nil
          | cons y l' =>
              obtain ⟨hy, hl'⟩ := List.pairwise_cons.mp h'
              rw [List.take_succ_cons, List.take_succ_cons, List.cons.injEq, ih hl hl']
              constructor
              · rintro ⟨rfl, hall⟩ k hk v
                rw [rank_cons] at hk
                by_cases hlt : x.1 < k
                · rw [if_pos hlt] at hk
                  rw [List.mem_cons, List.mem_cons, hall k (by omega) v]
                · -- a key up to the first one is in neither rest
                  have hnot : ∀ m : List (K × V), (∀ e ∈ m, x.1 < e.1) → (k, v) ∉ m :=
                    fun m hm hin => hlt (hm (k, v) hin)
                  rw [List.mem_cons, List.mem_cons, iff_false_intro (hnot l hx),
                    iff_false_intro (hnot l' hy)]
              · intro hall
                have hxy : x = y := by
                  rcases List.mem_cons.mp ((hall x.1 hrank x.2).mp List.mem_cons_self)
                    with heq | hin
                  · exact heq
                  · -- `y` lies in front of `x`, so it would have to be in the first list
                    have hyx : y.1 < x.1 := hy x hin
                    have hrank' : rank (x :: l) y.1 < n + 1 := by
                      rw [rank_head h (le_of_lt hyx)]
                      omega
                    rcases List.mem_cons.mp
                      ((hall y.1 hrank' y.2).mpr List.mem_cons_self) with heq | hin'
                    · exact heq.symm
                    · exact absurd (hx y hin') (lt_asymm hyx)
                subst hxy
                refine ⟨rfl, fun k hk v => ?_⟩
                have hcons := hall k (by rw [rank_cons]; split_ifs <;> omega) v
                rw [List.mem_cons, List.mem_cons] at hcons
                constructor
                · intro hin
                  rcases hcons.mp (Or.inr hin) with heq | hin'
                  · exact absurd (hx _ hin) (by simp [← heq])
                  · exact hin'
                · intro hin
                  rcases hcons.mpr (Or.inr hin) with heq | hin'
                  · exact absurd (hy _ hin) (by simp [← heq])
                  · exact hin'

/-- **When the first pairs of one relation are those of another.** -/
theorem isFirst_take_iff {A B : K → V → Prop} {l l' : List (K × V)} (hA : Lists A l)
    (hB : Lists B l') (n : Nat) :
    IsFirst A n (l'.take n) ↔ ∀ k, rank l k < n → ∀ v, A k v ↔ B k v := by
  have htake : IsFirst A n (l'.take n) ↔ l.take n = l'.take n :=
    ⟨fun h => (hA.isFirst n).unique h, fun h => h ▸ hA.isFirst n⟩
  rw [htake, take_eq_take_iff hA.sorted hB.sorted]
  simp only [hA.mem, hB.mem]

end VaultKV.Lib
