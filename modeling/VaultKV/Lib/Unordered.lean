import VaultKV.Lib.SortedMap

/-!
# Unordered — maps that a loop meets in any order

A hash map is an association list (`AList`) whose order nobody promises:
`reorder` puts it into any other. What does not depend on the order is said
here once: lookups, the entries themselves, and the listing that is sorted by
key, which is the listing of the `SortedMap` with the same lookups.
-/

namespace VaultKV.Lib

variable {K V : Type}

/-- Entries with different keys, in the order a loop meets them. -/
abbrev Unordered (K V : Type) := AList fun _ : K => V

namespace Unordered

/-- What a loop over the map meets. -/
def pairs (s : Unordered K V) : List (K × V) := s.entries.map fun e => (e.1, e.2)

theorem pairs_keys_ne (s : Unordered K V) : s.pairs.Pairwise fun a b => a.1 ≠ b.1 :=
  List.pairwise_map.mpr s.nodupKeys.pairwise_ne

section

variable [DecidableEq K]

/-- The same map in another order, if `order` is one. -/
def reorder [DecidableEq V] (order : List (Σ _ : K, V)) (s : Unordered K V) : Unordered K V :=
  if h : order.Perm s.entries then ⟨order, (List.perm_nodupKeys h).mpr s.nodupKeys⟩ else s

theorem entries_reorder [DecidableEq V] (order : List (Σ _ : K, V)) (s : Unordered K V) :
    (s.reorder order).entries.Perm s.entries := by
  unfold reorder
  split
  · assumption
  · exact List.Perm.refl _

@[simp] theorem lookup_reorder [DecidableEq V] (order : List (Σ _ : K, V)) (s : Unordered K V)
    (k : K) : (s.reorder order).lookup k = s.lookup k :=
  AList.perm_lookup (entries_reorder order s)

theorem mem_pairs {s : Unordered K V} {k : K} {v : V} :
    (k, v) ∈ s.pairs ↔ s.lookup k = some v := by
  rw [← Option.mem_def, AList.mem_lookup_iff, pairs, List.mem_map]
  constructor
  · rintro ⟨⟨k', v'⟩, hmem, heq⟩
    cases heq
    exact hmem
  · intro hmem
    exact ⟨⟨k, v⟩, hmem, rfl⟩

end

/-! ## The listing sorted by key -/

variable [LinearOrder K]

/-- A list sorted with the comparison `a.first < b.first`. -/
def sortByKey (l : List (K × V)) : List (K × V) := l.insertionSort fun a b => ¬ b.1 < a.1

theorem sortByKey_perm (l : List (K × V)) : (sortByKey l).Perm l := List.perm_insertionSort _ l

/-- **Different keys** come out strictly ascending. -/
theorem sortByKey_sorted {l : List (K × V)} (h : l.Pairwise fun a b => a.1 ≠ b.1) :
    (sortByKey l).Pairwise fun a b => a.1 < b.1 := by
  have htotal : Std.Total fun a b : K × V => ¬ b.1 < a.1 := ⟨fun a b => by
    simp only [not_lt]
    exact le_total a.1 b.1⟩
  have htrans : IsTrans (K × V) fun a b => ¬ b.1 < a.1 := ⟨fun a b c hab hbc => by
    simp only [not_lt] at hab hbc ⊢
    exact hab.trans hbc⟩
  have hsorted : (sortByKey l).Pairwise fun a b => ¬ b.1 < a.1 := List.pairwise_insertionSort _ l
  have hne : (sortByKey l).Pairwise fun a b => a.1 ≠ b.1 :=
    ((sortByKey_perm l).pairwise_iff fun hab => Ne.symm hab).mpr h
  exact (hsorted.and hne).imp fun ⟨hle, hne⟩ => lt_of_le_of_ne (not_lt.mp hle) hne

/-- **Any sorting algorithm** that is given the comparison returns this
list. -/
theorem eq_sortByKey {l l' : List (K × V)} (h : l.Pairwise fun a b => a.1 ≠ b.1)
    (hperm : l'.Perm l) (hsorted : l'.Pairwise fun a b => a.1 < b.1) : l' = sortByKey l :=
  (hperm.trans (sortByKey_perm l).symm).eq_of_pairwise
    (fun _ _ _ _ hab hba => absurd hab (not_lt.mpr hba.le)) hsorted (sortByKey_sorted h)

/-- The sorted map with the same lookups has the same entries. -/
theorem entries_perm_pairs [DecidableEq K] {s : Unordered K V} {m : SortedMap K V}
    (h : ∀ k, m.find k = s.lookup k) : m.entries.Perm s.pairs := by
  have hmem : ∀ e, e ∈ m.entries ↔ e ∈ s.pairs := by
    rintro ⟨k, v⟩
    rw [mem_pairs, ← h, SortedMap.find_eq_some_iff]
  have hentries : m.entries.Nodup := m.sorted.imp fun hlt heq => absurd hlt (by simp [heq])
  have hpairs : s.pairs.Nodup := s.pairs_keys_ne.imp fun hne heq => hne (congrArg Prod.fst heq)
  exact (List.perm_ext_iff_of_nodup hentries hpairs).mpr hmem

/-- The sorted listing is that of the sorted map with the same lookups. -/
theorem sortByKey_filter [DecidableEq K] {s : Unordered K V} {m : SortedMap K V}
    (h : ∀ k, m.find k = s.lookup k) (p : K × V → Bool) :
    sortByKey (s.pairs.filter p) = m.entries.filter p := by
  symm
  apply eq_sortByKey
  · exact s.pairs_keys_ne.filter _
  · exact (entries_perm_pairs h).filter p
  · exact m.sorted.filter _

end Unordered

end VaultKV.Lib
