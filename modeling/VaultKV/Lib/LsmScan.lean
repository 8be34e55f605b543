import VaultKV.Lib.FirstPairs
import VaultKV.Lib.Lsm

/-!
# LsmScan — scanning a merge tree with a limit

A scan for the keys that satisfy `q` takes all matching entries of the
mutable table, but only the FIRST `m` matching ones of every immutable
table, merges what it got and lists the first live pairs. Where the version
a read would take stands behind `m` matching entries of its table, the scan
does not see it (`Hidden`): it then shows an older version, or nothing.
`scan_isFirst_iff` says exactly when that is visible in the result.
-/

namespace VaultKV.Lib

variable {K V : Type} [LinearOrder K]

/-- The first `m` matching entries of a table. -/
def shown (q : K → Bool) (m : Nat) (t : Table K V) : Table K V where
  entries := (t.entries.filter fun e => q e.1).take m
  sorted := t.sorted.sublist ((List.take_sublist _ _).trans List.filter_sublist)

/-- How many matching entries of a table stand in front of a key. -/
def behind (q : K → Bool) (t : Table K V) (k : K) : Nat :=
  rank (t.entries.filter fun e => q e.1) k

theorem find_shown (q : K → Bool) (m : Nat) (t : Table K V) (k : K) :
    (shown q m t).find k = if q k = true ∧ behind q t k < m then t.find k else none := by
  have hsorted := t.sorted.sublist (List.filter_sublist (p := fun e => q e.1))
  have hmem : ∀ v, (shown q m t).find k = some v ↔
      (t.find k = some v ∧ q k = true ∧ behind q t k < m) := by
    intro v
    rw [SortedMap.find_eq_some_iff, SortedMap.find_eq_some_iff]
    show (k, v) ∈ List.take m _ ↔ _
    constructor
    · intro hin
      have hfilter := List.mem_of_mem_take hin
      obtain ⟨hentry, hq⟩ := List.mem_filter.mp hfilter
      exact ⟨hentry, hq, (mem_take_iff hsorted hfilter m).mp hin⟩
    · rintro ⟨hentry, hq, hlt⟩
      exact (mem_take_iff hsorted (List.mem_filter.mpr ⟨hentry, hq⟩) m).mpr hlt
  by_cases h : q k = true ∧ behind q t k < m
  · rw [if_pos h]
    refine Option.ext fun v => ?_
    rw [hmem]
    exact ⟨fun hv => hv.1, fun hv => ⟨hv, h⟩⟩
  · rw [if_neg h, Option.eq_none_iff_forall_ne_some]
    intro v hv
    exact h ((hmem v).mp hv).2

/-! ## Parts of a path -/

/-- Each table of the first path is part of its table on the second. -/
def Parts (path' path : List (Table K V)) : Prop :=
  List.Forall₂ (fun t' t => ∀ k v, t'.find k = some v → t.find k = some v) path' path

theorem Parts.hits_sublist {path' path : List (Table K V)} (h : Parts path' path) (k : K) :
    (hits path' k).Sublist (hits path k) := by
  induction h with
  | nil => exact List.Sublist.refl _
  | @cons t' t path' path hhead _ ih =>
      rw [hits_cons, hits_cons]
      refine List.Sublist.append ?_ ih
      cases hv : t'.find k with
      | none => exact List.nil_sublist _
      | some v => rw [hhead k v hv]

theorem Parts.ordered {path' path : List (Table K V)} (h : Parts path' path)
    (ho : Ordered path) : Ordered path' := fun k => (ho k).sublist (h.hits_sublist k)

/-- Merging an ordered path, newest table first, finds what a search does. -/
theorem find_merge_path {path : List (Table K V)} (h : Ordered path) (k : K) :
    (merge (path.flatMap SortedMap.entries)).find k = search path k := by
  rw [find_merge, versionsOf_flatMap, search_eq_head]
  exact newest_eq_head (h k)

theorem parts_map {f : Table K V → Table K V}
    (hf : ∀ t k v, (f t).find k = some v → t.find k = some v) (path : List (Table K V)) :
    Parts (path.map f) path := by
  induction path with
  | nil => exact List.Forall₂.nil
  | cons t path ih => exact List.Forall₂.cons (hf t) ih

/-! ## Live pairs -/

/-- The live pairs of a table are its answers. -/
theorem livePairs_lists (t : Table K V) :
    Lists (fun k v => (t.find k).bind Version.answer = some v) (livePairs t) := by
  constructor
  · refine List.Pairwise.filterMap _ ?_ t.sorted
    intro a a' hlt b hb b' hb'
    obtain ⟨v, -, rfl⟩ := Option.map_eq_some_iff.mp hb
    obtain ⟨v', -, rfl⟩ := Option.map_eq_some_iff.mp hb'
    exact hlt
  · intro k v
    rw [livePairs, List.mem_filterMap]
    constructor
    · rintro ⟨e, he, hv⟩
      obtain ⟨w, hw, heq⟩ := Option.map_eq_some_iff.mp hv
      obtain ⟨rfl, rfl⟩ := Prod.mk.inj heq
      rw [SortedMap.find_eq_some_iff.mpr he]
      exact hw
    · intro hv
      obtain ⟨w, hw, hans⟩ := Option.bind_eq_some_iff.mp hv
      refine ⟨(k, w), SortedMap.find_eq_some_iff.mp hw, ?_⟩
      rw [hans]
      rfl

/-- Two tables show the same first live pairs exactly when they answer alike
on every key with fewer than `n` live ones of the first before it. -/
theorem take_livePairs_eq_iff (t t' : Table K V) (n : Nat) :
    (livePairs t).take n = (livePairs t').take n ↔ ∀ k, rank (livePairs t) k < n →
      (t.find k).bind Version.answer = (t'.find k).bind Version.answer := by
  have hl := livePairs_lists t
  have hl' := livePairs_lists t'
  rw [take_eq_take_iff hl.sorted hl'.sorted]
  simp only [hl.mem, hl'.mem]
  exact forall_congr' fun k => imp_congr_right fun _ => Option.ext_iff.symm

/-! ## The tree -/

namespace Lsm

/-- The immutable tables in the order a read looks at them. -/
def tables (s : Lsm K V) : List (Table K V) := s.l0.reverse ++ s.l1.reverse

/-- What a scan gets from each table. -/
def scanPath (q : K → Bool) (m : Nat) (s : Lsm K V) : List (Table K V) :=
  s.mem.filter (fun k _ => q k) :: s.tables.map (shown q m)

/-- The first `n` live pairs of what a scan gets; it asks every immutable
table for `2 * n` entries. -/
def scan (q : K → Bool) (n : Nat) (s : Lsm K V) : List (K × V) :=
  (livePairs (merge ((s.scanPath q (2 * n)).flatMap SortedMap.entries))).take n

/-- All matching pairs of the tree. -/
def matching (q : K → Bool) (s : Lsm K V) : List (K × V) :=
  livePairs (merge ((s.path.map (SortedMap.filter fun k _ => q k)).flatMap
    SortedMap.entries))

/-- The version a read takes for the key stands behind `m` matching entries
of its table. -/
def Hidden (q : K → Bool) (m : Nat) (s : Lsm K V) (k : K) : Prop :=
  s.mem.find k = none ∧
    ∃ t ∈ s.tables.find? fun t => (t.find k).isSome, m ≤ behind q t k

instance (q : K → Bool) (m : Nat) (s : Lsm K V) (k : K) : Decidable (s.Hidden q m k) :=
  inferInstanceAs (Decidable (_ ∧ _))

/-- **Nothing hidden is missed**: for every hidden matching key with fewer
than `n` live matching keys before it, the versions that are not hidden
give the same answer. -/
def ScanExact (q : K → Bool) (n : Nat) (s : Lsm K V) : Prop :=
  ∀ k ∈ s.tables.flatMap SortedMap.keys, q k = true → s.Hidden q (2 * n) k →
    rank (s.matching q) k < n →
      (search (s.scanPath q (2 * n)) k).bind Version.answer = s.get k

instance (q : K → Bool) (n : Nat) (s : Lsm K V) [DecidableEq V] :
    Decidable (s.ScanExact q n) :=
  inferInstanceAs (Decidable (∀ k ∈ _, _))

variable {q : K → Bool} {s : Lsm K V}

theorem scanPath_parts (q : K → Bool) (m : Nat) (s : Lsm K V) :
    Parts (s.scanPath q m) s.path := by
  refine List.Forall₂.cons ?_ (parts_map ?_ _)
  · intro k v hv
    rw [SortedMap.find_filter] at hv
    exact (Option.filter_eq_some_iff.mp hv).1
  · intro t k v hv
    rw [find_shown] at hv
    by_cases h : q k = true ∧ behind q t k < m
    · rwa [if_pos h] at hv
    · rw [if_neg h] at hv
      cases hv

theorem filter_parts (q : K → Bool) (path : List (Table K V)) :
    Parts (path.map (SortedMap.filter fun k _ => q k)) path := by
  refine parts_map ?_ path
  intro t k v hv
  rw [SortedMap.find_filter] at hv
  exact (Option.filter_eq_some_iff.mp hv).1

theorem search_filter (q : K → Bool) (path : List (Table K V)) (k : K) :
    search (path.map (SortedMap.filter fun k _ => q k)) k
      = if q k = true then search path k else none := by
  induction path with
  | nil => simp
  | cons t path ih =>
      rw [List.map_cons, search_cons, ih, search_cons, SortedMap.find_filter]
      by_cases hq : q k = true
      · cases t.find k <;> simp [hq, Option.filter_some]
      · cases t.find k <;> simp [hq, Option.filter_some]

/-- The matching pairs are the tree's answers. -/
theorem matching_lists (h : s.Sound) (q : K → Bool) :
    Lists (fun k v => q k = true ∧ s.get k = some v) (s.matching q) := by
  have hl := livePairs_lists (merge ((s.path.map (SortedMap.filter fun k _ => q k)).flatMap
    SortedMap.entries))
  refine ⟨hl.sorted, fun k v => ?_⟩
  rw [matching, hl.mem, find_merge_path ((filter_parts q s.path).ordered h), search_filter]
  by_cases hq : q k = true
  · rw [if_pos hq]
    exact ⟨fun hv => ⟨hq, hv⟩, fun hv => hv.2⟩
  · rw [if_neg hq]
    exact ⟨fun hv => (by cases hv), fun hv => absurd hv.1 hq⟩

theorem search_shown {m : Nat} {k : K} (hq : q k = true) (ts : List (Table K V))
    (h : ∀ t ∈ ts.find? fun t => (t.find k).isSome, behind q t k < m) :
    search (ts.map (shown q m)) k = search ts k := by
  induction ts with
  | nil => rfl
  | cons t ts ih =>
      rw [List.map_cons, search_cons, search_cons, find_shown]
      cases hv : t.find k with
      | none =>
          rw [List.find?_cons_of_neg (by simp [hv])] at h
          rw [ih h, ite_self, Option.none_or]
      | some v =>
          rw [List.find?_cons_of_pos (by simp [hv])] at h
          rw [if_pos ⟨hq, h t rfl⟩]
          rfl

/-- What is not hidden is seen. -/
theorem search_scanPath {m : Nat} {k : K} (hq : q k = true) (h : ¬ s.Hidden q m k) :
    search (s.scanPath q m) k = search s.path k := by
  have hmem : (s.mem.filter fun k _ => q k).find k = s.mem.find k := by
    rw [SortedMap.find_filter]
    cases s.mem.find k <;> simp [Option.filter_some, hq]
  rw [scanPath, path, search_cons, search_cons, hmem]
  cases hv : s.mem.find k with
  | some v => rfl
  | none =>
      refine congrArg _ (search_shown hq _ fun t ht => ?_)
      by_contra hge
      exact h ⟨hv, t, ht, not_lt.mp hge⟩

/-- A table that is not cut hides nothing. -/
theorem not_hidden_of_le {m : Nat} {k : K} (hq : q k = true)
    (h : ∀ t ∈ s.tables, (t.entries.filter fun e => q e.1).length ≤ m) :
    ¬ s.Hidden q m k := by
  rintro ⟨-, t, ht, hbehind⟩
  have hsome := List.find?_some ht
  obtain ⟨v, hv⟩ := Option.isSome_iff_exists.mp hsome
  have hmem : (k, v) ∈ t.entries.filter fun e => q e.1 :=
    List.mem_filter.mpr ⟨SortedMap.find_eq_some_iff.mp hv, hq⟩
  have hlt : behind q t k < (t.entries.filter fun e => q e.1).length :=
    List.length_filter_lt_length_iff_exists.mpr ⟨(k, v), hmem, by simp⟩
  have hle := h t (List.mem_of_find?_eq_some ht)
  omega

theorem search_scanPath_of_not_match {m : Nat} {k : K} (hq : ¬ q k = true) :
    search (s.scanPath q m) k = none := by
  rw [search, List.findSome?_eq_none_iff]
  intro t ht
  rcases List.mem_cons.mp ht with rfl | ht
  · rw [SortedMap.find_filter]
    cases s.mem.find k <;> simp [Option.filter_some, hq]
  · obtain ⟨t', -, rfl⟩ := List.mem_map.mp ht
    rw [find_shown, if_neg fun h => hq h.1]

/-- A hidden key is in some immutable table. -/
theorem Hidden.mem_keys {m : Nat} {k : K} (h : s.Hidden q m k) :
    k ∈ s.tables.flatMap SortedMap.keys := by
  obtain ⟨-, t, ht, -⟩ := h
  refine List.mem_flatMap.mpr ⟨t, List.mem_of_find?_eq_some ht, ?_⟩
  have := List.find?_some ht
  exact SortedMap.find_isSome_iff.mp this

/-- **A scan lists the first matching pairs of the tree exactly when nothing
hidden is missed.** -/
theorem scan_isFirst_iff (h : s.Sound) (n : Nat) :
    IsFirst (fun k v => q k = true ∧ s.get k = some v) n (s.scan q n) ↔
      s.ScanExact q n := by
  have hview := livePairs_lists (merge ((s.scanPath q (2 * n)).flatMap SortedMap.entries))
  rw [scan, isFirst_take_iff (matching_lists h q) hview]
  simp only [find_merge_path ((scanPath_parts q (2 * n) s).ordered h)]
  constructor
  · intro hall k _ hq _ hrank
    refine Option.ext fun v => ?_
    rw [← hall k hrank v]
    exact ⟨fun hv => hv.2, fun hv => ⟨hq, hv⟩⟩
  · intro hexact k hrank v
    by_cases hq : q k = true
    · have hsame : (search (s.scanPath q (2 * n)) k).bind Version.answer = s.get k := by
        by_cases hhid : s.Hidden q (2 * n) k
        · exact hexact k hhid.mem_keys hq hhid hrank
        · rw [search_scanPath hq hhid, Lsm.get]
      rw [hsame]
      exact ⟨fun hv => hv.2, fun hv => ⟨hq, hv⟩⟩
    · rw [search_scanPath_of_not_match hq]
      exact ⟨fun hv => absurd hv.1 hq, fun hv => (by cases hv)⟩

end Lsm

end VaultKV.Lib
