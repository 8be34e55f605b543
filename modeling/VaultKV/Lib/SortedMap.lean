import Mathlib

/-!
# SortedMap — finite maps as strictly sorted lists

A map is the list of its entries in ascending key order, at most one per
key; the order is part of the type, so two maps with the same lookups are
EQUAL (`ext_find`). Both an ordered map and a hash map that is only ever
listed after sorting are this type.
-/

namespace VaultKV.Lib

variable {K V : Type} [LinearOrder K]

/-- The entries in strictly ascending key order. -/
structure SortedMap (K V : Type) [LinearOrder K] where
  entries : List (K × V)
  sorted : entries.Pairwise fun a b => a.1 < b.1
  deriving DecidableEq

namespace SortedMap

def findEntry (k : K) : List (K × V) → Option V
  | [] => none
  | e :: l => if k = e.1 then some e.2 else findEntry k l

/-- The value stored under a key. -/
def find (m : SortedMap K V) (k : K) : Option V := findEntry k m.entries

def keys (m : SortedMap K V) : List K := m.entries.map Prod.fst

def empty : SortedMap K V := ⟨[], List.Pairwise.nil⟩

/-- Insertion into a sorted list, replacing the entry of the same key. -/
def insertEntry (k : K) (v : V) : List (K × V) → List (K × V)
  | [] => [(k, v)]
  | e :: l =>
      if k < e.1 then (k, v) :: e :: l
      else if k = e.1 then (k, v) :: l
      else e :: insertEntry k v l

theorem mem_insertEntry {k : K} {v : V} {l : List (K × V)} {x : K × V}
    (h : x ∈ insertEntry k v l) : x = (k, v) ∨ x ∈ l := by
  induction l with
  | nil => exact Or.inl (List.mem_singleton.mp h)
  | cons e l ih =>
      rw [insertEntry] at h
      split_ifs at h
      · exact List.mem_cons.mp h
      · rcases List.mem_cons.mp h with h | h
        · exact Or.inl h
        · exact Or.inr (List.mem_cons_of_mem _ h)
      · rcases List.mem_cons.mp h with h | h
        · exact Or.inr (h ▸ List.mem_cons_self)
        · rcases ih h with h | h
          · exact Or.inl h
          · exact Or.inr (List.mem_cons_of_mem _ h)

theorem insertEntry_sorted (k : K) (v : V) {l : List (K × V)}
    (h : l.Pairwise fun a b => a.1 < b.1) :
    (insertEntry k v l).Pairwise fun a b => a.1 < b.1 := by
  induction l with
  | nil => exact List.pairwise_singleton _ _
  | cons e l ih =>
      obtain ⟨he, hl⟩ := List.pairwise_cons.mp h
      rw [insertEntry]
      split_ifs with h1 h2
      · refine List.pairwise_cons.mpr ⟨?_, h⟩
        intro x hx
        rcases List.mem_cons.mp hx with rfl | hx
        · exact h1
        · exact lt_trans h1 (he x hx)
      · exact List.pairwise_cons.mpr ⟨fun x hx => h2 ▸ he x hx, hl⟩
      · refine List.pairwise_cons.mpr ⟨?_, ih hl⟩
        intro x hx
        rcases mem_insertEntry hx with rfl | hx
        · exact lt_of_le_of_ne (not_lt.mp h1) (Ne.symm h2)
        · exact he x hx

def insert (m : SortedMap K V) (k : K) (v : V) : SortedMap K V :=
  ⟨insertEntry k v m.entries, insertEntry_sorted k v m.sorted⟩

/-- The entries that satisfy `p`. -/
def filter (p : K → V → Bool) (m : SortedMap K V) : SortedMap K V :=
  ⟨m.entries.filter fun e => p e.1 e.2, m.sorted.filter _⟩

def erase (m : SortedMap K V) (k : K) : SortedMap K V := m.filter fun k' _ => k' ≠ k

/-! ## Lookups -/

@[simp] theorem find_empty (k : K) : (empty : SortedMap K V).find k = none := rfl

@[simp] theorem entries_empty : (empty : SortedMap K V).entries = [] := rfl

theorem findEntry_insertEntry (k k' : K) (v : V) (l : List (K × V)) :
    findEntry k' (insertEntry k v l) = if k' = k then some v else findEntry k' l := by
  induction l with
  | nil => rfl
  | cons e l ih =>
      rw [insertEntry]
      by_cases hlt : k < e.1
      · rw [if_pos hlt, findEntry]
      · rw [if_neg hlt]
        by_cases heq : k = e.1
        · rw [if_pos heq, findEntry, findEntry, ← heq]
          by_cases hk : k' = k
          · rw [if_pos hk, if_pos hk]
          · rw [if_neg hk, if_neg hk, if_neg hk]
        · rw [if_neg heq, findEntry, findEntry, ih]
          by_cases hk : k' = k
          · rw [if_pos hk, if_neg (hk ▸ heq), if_pos hk]
          · rw [if_neg hk, if_neg hk]

@[simp] theorem find_insert (m : SortedMap K V) (k k' : K) (v : V) :
    (m.insert k v).find k' = if k' = k then some v else m.find k' :=
  findEntry_insertEntry k k' v m.entries

/-- In a sorted list the lookup finds every entry. -/
theorem findEntry_eq_some_iff {l : List (K × V)}
    (h : l.Pairwise fun a b => a.1 < b.1) {k : K} {v : V} :
    findEntry k l = some v ↔ (k, v) ∈ l := by
  induction l with
  | nil => simp [findEntry]
  | cons e l ih =>
      obtain ⟨he, hl⟩ := List.pairwise_cons.mp h
      rw [findEntry, List.mem_cons]
      by_cases hk : k = e.1
      · have hnot : (k, v) ∉ l := fun hmem => absurd (he _ hmem) (by simp [hk])
        rw [if_pos hk, Option.some.injEq]
        constructor
        · intro hv; exact Or.inl (by rw [hk, ← hv])
        · intro hv; exact (hv.resolve_right hnot) ▸ rfl
      · have hne : (k, v) ≠ e := fun heq => hk (congrArg Prod.fst heq)
        rw [if_neg hk, ih hl]
        exact (or_iff_right hne).symm

theorem find_eq_some_iff {m : SortedMap K V} {k : K} {v : V} :
    m.find k = some v ↔ (k, v) ∈ m.entries :=
  findEntry_eq_some_iff m.sorted

theorem find_isSome_iff {m : SortedMap K V} {k : K} :
    (m.find k).isSome ↔ k ∈ m.keys := by
  simp only [Option.isSome_iff_exists, find_eq_some_iff, keys, List.mem_map, Prod.exists,
    exists_and_right, exists_eq_right]

theorem nodup_keys (m : SortedMap K V) : m.keys.Nodup :=
  List.pairwise_map.mpr (m.sorted.imp ne_of_lt)

theorem find_eq_none_iff {m : SortedMap K V} {k : K} :
    m.find k = none ↔ k ∉ m.keys := by
  rw [← find_isSome_iff, Option.not_isSome_iff_eq_none]

/-- A map is determined by its lookups. -/
theorem ext_find {m m' : SortedMap K V} (h : ∀ k, m.find k = m'.find k) : m = m' := by
  have hmem : ∀ x, x ∈ m.entries ↔ x ∈ m'.entries := by
    rintro ⟨k, v⟩
    rw [← find_eq_some_iff, ← find_eq_some_iff, h]
  have hnodup : ∀ m : SortedMap K V, m.entries.Nodup := fun m =>
    m.sorted.imp fun hlt heq => absurd hlt (by simp [heq])
  have hperm := (List.perm_ext_iff_of_nodup (hnodup m) (hnodup m')).mpr hmem
  have heq : m.entries = m'.entries := hperm.eq_of_pairwise
    (fun a b _ _ hab hba => absurd hab (not_lt.mpr hba.le)) m.sorted m'.sorted
  cases m
  cases m'
  simp only [mk.injEq]
  exact heq

@[simp] theorem find_filter (p : K → V → Bool) (m : SortedMap K V) (k : K) :
    (m.filter p).find k = (m.find k).filter (p k) := by
  cases h : m.find k with
  | none =>
      rw [find_eq_none_iff] at h
      rw [Option.filter_none, find_eq_none_iff]
      intro hmem
      obtain ⟨e, he, hk⟩ := List.mem_map.mp hmem
      exact h (List.mem_map.mpr ⟨e, (List.mem_filter.mp he).1, hk⟩)
  | some v =>
      rw [Option.filter_some]
      have hv := find_eq_some_iff.mp h
      by_cases hp : p k v = true
      · rw [if_pos hp, find_eq_some_iff]
        exact List.mem_filter.mpr ⟨hv, hp⟩
      · rw [if_neg hp, find_eq_none_iff]
        intro hmem
        obtain ⟨⟨k', v'⟩, he, hk⟩ := List.mem_map.mp hmem
        obtain ⟨hin, hp'⟩ := List.mem_filter.mp he
        obtain rfl : k' = k := hk
        rw [← find_eq_some_iff, h, Option.some.injEq] at hin
        exact hp (hin ▸ hp')

@[simp] theorem find_erase (m : SortedMap K V) (k k' : K) :
    (m.erase k).find k' = if k' = k then none else m.find k' := by
  rw [erase, find_filter]
  by_cases h : k' = k
  · cases m.find k' <;> simp [h]
  · cases m.find k' <;> simp [h]

theorem insertEntry_last {k : K} {v : V} {l : List (K × V)} (h : ∀ e ∈ l, e.1 < k) :
    insertEntry k v l = l ++ [(k, v)] := by
  induction l with
  | nil => rfl
  | cons e l ih =>
      have hlt := h e List.mem_cons_self
      rw [insertEntry, if_neg (not_lt.mpr hlt.le), if_neg hlt.ne', List.cons_append,
        ih fun e' he' => h e' (List.mem_cons_of_mem _ he')]

/-- A key above all others goes to the end. -/
theorem keys_insert_last {m : SortedMap K V} {k : K} (h : ∀ k' ∈ m.keys, k' < k) (v : V) :
    (m.insert k v).keys = m.keys ++ [k] := by
  show (insertEntry k v m.entries).map Prod.fst = _
  rw [insertEntry_last fun e he => h e.1 (List.mem_map.mpr ⟨e, he, rfl⟩), List.map_append]
  rfl

theorem mem_keys_insert {m : SortedMap K V} {k k' : K} {v : V} :
    k' ∈ (m.insert k v).keys ↔ k' = k ∨ k' ∈ m.keys := by
  rw [← find_isSome_iff, ← find_isSome_iff, find_insert]
  by_cases h : k' = k <;> simp [h]

/-! ## Mapping the values -/

/-- The same keys with other values. -/
def map {W : Type} (f : V → W) (m : SortedMap K V) : SortedMap K W where
  entries := m.entries.map fun e => (e.1, f e.2)
  sorted := List.pairwise_map.mpr m.sorted

@[simp] theorem keys_map {W : Type} (f : V → W) (m : SortedMap K V) :
    (m.map f).keys = m.keys := by
  simp [keys, map]

@[simp] theorem find_map {W : Type} (f : V → W) (m : SortedMap K V) (k : K) :
    (m.map f).find k = (m.find k).map f := by
  cases h : m.find k with
  | none =>
      rw [find_eq_none_iff] at h
      rw [Option.map_none, find_eq_none_iff, keys_map]
      exact h
  | some v =>
      rw [Option.map_some, find_eq_some_iff]
      exact List.mem_map.mpr ⟨(k, v), find_eq_some_iff.mp h, rfl⟩

theorem map_insert {W : Type} (f : V → W) (m : SortedMap K V) (k : K) (v : V) :
    (m.insert k v).map f = (m.map f).insert k (f v) := by
  refine ext_find fun k' => ?_
  rw [find_map, find_insert, find_insert, find_map]
  by_cases hk : k' = k
  · rw [if_pos hk, if_pos hk, Option.map_some]
  · rw [if_neg hk, if_neg hk]

/-! ## Sums over the entries -/

theorem sum_insertEntry (w : K × V → Nat) (k : K) (v : V) (l : List (K × V))
    (h : l.Pairwise fun a b => a.1 < b.1) :
    ((insertEntry k v l).map w).sum + ((findEntry k l).elim 0 fun old => w (k, old))
      = (l.map w).sum + w (k, v) := by
  induction l with
  | nil => simp [insertEntry, findEntry]
  | cons e l ih =>
      obtain ⟨he, hl⟩ := List.pairwise_cons.mp h
      rw [insertEntry, findEntry]
      by_cases hlt : k < e.1
      · have hnone : findEntry k l = none := by
          cases hf : findEntry k l with
          | none => rfl
          | some x =>
              have := he _ ((findEntry_eq_some_iff hl).mp hf)
              exact absurd (lt_trans hlt this) (lt_irrefl k)
        rw [if_pos hlt, if_neg hlt.ne, hnone]
        simp only [List.map_cons, List.sum_cons, Option.elim_none]
        omega
      · rw [if_neg hlt]
        by_cases heq : k = e.1
        · rw [if_pos heq, if_pos heq]
          have hold : w (k, e.2) = w e := by rw [heq]
          simp only [List.map_cons, List.sum_cons, Option.elim_some, hold]
          omega
        · have hrest := ih hl
          rw [if_neg heq, if_neg heq]
          simp only [List.map_cons, List.sum_cons]
          omega

/-- An insertion adds the new entry's weight and takes the old one's. -/
theorem sum_insert (w : K × V → Nat) (m : SortedMap K V) (k : K) (v : V) :
    ((m.insert k v).entries.map w).sum + ((m.find k).elim 0 fun old => w (k, old))
      = (m.entries.map w).sum + w (k, v) :=
  sum_insertEntry w k v m.entries m.sorted

/-! ## Lower bounds -/

/-- **A lookup by lower bound**: the first entry not below the key is the
key's, or the key has none. -/
theorem find_dropWhile (m : SortedMap K V) {k : K} {p : K × V → Bool}
    (hp : ∀ e, p e = true ↔ e.1 < k) :
    (m.entries.dropWhile p = [] ∧ m.find k = none) ∨
      ∃ e es, m.entries.dropWhile p = e :: es ∧
        ((e.1 = k ∧ m.find k = some e.2) ∨ (e.1 ≠ k ∧ m.find k = none)) := by
  rw [find]
  have hs := m.sorted
  revert hs
  induction m.entries with
  | nil => intro _; exact Or.inl ⟨rfl, rfl⟩
  | cons e l ih =>
      intro hs
      obtain ⟨he, hl⟩ := List.pairwise_cons.mp hs
      rw [findEntry]
      by_cases hlt : e.1 < k
      · rw [if_neg hlt.ne', List.dropWhile_cons_of_pos ((hp e).mpr hlt)]
        exact ih hl
      · rw [List.dropWhile_cons_of_neg (fun h => hlt ((hp e).mp h))]
        refine Or.inr ⟨e, l, rfl, ?_⟩
        by_cases hk : k = e.1
        · rw [if_pos hk]; exact Or.inl ⟨hk.symm, rfl⟩
        · rw [if_neg hk]
          refine Or.inr ⟨Ne.symm hk, ?_⟩
          -- the key lies below `e`, so below everything behind it
          cases hf : findEntry k l with
          | none => rfl
          | some v =>
              have hmem := (findEntry_eq_some_iff hl).mp hf
              exact absurd (he _ hmem) (not_lt.mpr (not_lt.mp hlt))

end SortedMap

end VaultKV.Lib
