import VaultKV.Lib.Lsm

/-!
# Renumber — a merge tree up to its numbers

What a merge tree answers depends on the ORDER of the version numbers and
on nothing else about them: a strictly monotone renumbering commutes with
every operation and changes no answer.
-/

namespace VaultKV.Lib

variable {K V : Type} [LinearOrder K]

/-- The numbers above `n` move up by one, so that `n + 1` is free. -/
def skip (n i : Nat) : Nat := if i ≤ n then i else i + 1

theorem skip_of_le {n i : Nat} (h : i ≤ n) : skip n i = i := if_pos h

theorem skip_of_lt {n i : Nat} (h : n < i) : skip n i = i + 1 := if_neg (Nat.not_le.mpr h)

theorem skip_strictMono (n : Nat) : StrictMono (skip n) := by
  intro i j hij
  unfold skip
  split <;> split <;> omega

/-- The version under another number. -/
def Version.renumber (g : Nat → Nat) (v : Version V) : Version V := { v with seq := g v.seq }

@[simp] theorem Version.tombstone_renumber (g : Nat → Nat) (v : Version V) :
    (v.renumber g).tombstone = v.tombstone := rfl

/-- A table with all its versions renumbered. -/
def Table.renumber (g : Nat → Nat) (t : Table K V) : Table K V :=
  SortedMap.map (Version.renumber g) t

@[simp] theorem Table.find_renumber (g : Nat → Nat) (t : Table K V) (k : K) :
    (Table.renumber g t).find k = (t.find k).map (Version.renumber g) :=
  SortedMap.find_map _ t k

variable {g : Nat → Nat}

theorem Table.renumber_eq_self {t : Table K V}
    (h : ∀ k v, t.find k = some v → g v.seq = v.seq) : Table.renumber g t = t := by
  refine SortedMap.ext_find fun k => ?_
  rw [Table.find_renumber]
  cases hv : t.find k with
  | none => rfl
  | some v => rw [Option.map_some, Version.renumber, h k v hv]

theorem newer_renumber (hg : StrictMono g) (best : Option (Version V)) (v : Version V) :
    newer (best.map (Version.renumber g)) (v.renumber g)
      = (newer best v).map (Version.renumber g) := by
  cases best with
  | none => rfl
  | some b =>
      have hseq : (b.renumber g).seq < (v.renumber g).seq ↔ b.seq < v.seq := hg.lt_iff_lt
      rw [Option.map_some, newer, newer]
      by_cases hlt : b.seq < v.seq
      · rw [if_pos hlt, if_pos (hseq.mpr hlt), Option.map_some]
      · rw [if_neg hlt, if_neg (fun h => hlt (hseq.mp h)), Option.map_some]

theorem newest_renumber (hg : StrictMono g) (l : List (Version V)) :
    newest (l.map (Version.renumber g)) = (newest l).map (Version.renumber g) := by
  have hfold : ∀ best : Option (Version V),
      (l.map (Version.renumber g)).foldl newer (best.map (Version.renumber g))
        = (l.foldl newer best).map (Version.renumber g) := by
    induction l with
    | nil => intro best; rfl
    | cons v l ih =>
        intro best
        rw [List.map_cons, List.foldl_cons, List.foldl_cons, newer_renumber hg]
        exact ih _
  exact hfold none

/-- **A merge of renumbered tables** is the renumbered merge. -/
theorem merge_renumber (hg : StrictMono g) (ts : List (Table K V)) :
    merge ((ts.map (Table.renumber g)).flatMap SortedMap.entries)
      = Table.renumber g (merge (ts.flatMap SortedMap.entries)) := by
  refine SortedMap.ext_find fun k => ?_
  have hversions : ((ts.map (Table.renumber g)).filterMap fun t => t.find k)
      = (ts.filterMap fun t => t.find k).map (Version.renumber g) := by
    rw [List.filterMap_map, List.map_filterMap]
    congr 1
    funext t
    exact Table.find_renumber g t k
  rw [Table.find_renumber, find_merge, find_merge, versionsOf_flatMap, versionsOf_flatMap,
    hversions, newest_renumber hg]

theorem search_renumber (path : List (Table K V)) (k : K) :
    search (path.map (Table.renumber g)) k = (search path k).map (Version.renumber g) := by
  induction path with
  | nil => rfl
  | cons t path ih =>
      rw [List.map_cons, search_cons, search_cons, ih, Table.find_renumber]
      cases t.find k <;> rfl

namespace Lsm

/-- The tree with all its versions renumbered. -/
def renumber (g : Nat → Nat) (s : Lsm K V) : Lsm K V :=
  { mem := Table.renumber g s.mem
    l0 := s.l0.map (Table.renumber g)
    l1 := s.l1.map (Table.renumber g) }

theorem path_renumber (g : Nat → Nat) (s : Lsm K V) :
    (s.renumber g).path = s.path.map (Table.renumber g) := by
  simp [path, renumber]

/-- The version found is the same up to its number. -/
theorem search_path_renumber (g : Nat → Nat) (s : Lsm K V) (k : K) :
    search (s.renumber g).path k = (search s.path k).map (Version.renumber g) := by
  rw [path_renumber, search_renumber]

theorem merged_renumber (hg : StrictMono g) (s : Lsm K V) :
    (s.renumber g).merged = Table.renumber g s.merged :=
  merge_renumber hg s.l0

theorem live_renumber (t : Table K V) :
    live (Table.renumber g t) = Table.renumber g (live t) := by
  refine SortedMap.ext_find fun k => ?_
  rw [find_live, Table.find_renumber, Table.find_renumber, find_live]
  cases t.find k with
  | none => rfl
  | some v => cases hv : v.tombstone <;> simp [Option.filter_some, hv]

theorem renumber_write (s : Lsm K V) (k : K) (v : Version V) :
    (s.write k v).renumber g = (s.renumber g).write k (v.renumber g) := by
  simp only [renumber, write, Table.renumber, SortedMap.map_insert]

theorem renumber_flush (s : Lsm K V) : s.flush.renumber g = (s.renumber g).flush := by
  simp only [renumber, flush, List.map_append, List.map_cons, List.map_nil]
  rfl

theorem renumber_compact (hg : StrictMono g) (s : Lsm K V) :
    s.compact.renumber g = (s.renumber g).compact := by
  rw [compact, compact, merged_renumber hg, live_renumber]
  simp only [renumber, List.map_append, List.map_cons, List.map_nil]

/-- Numbers that stay as they are. -/
theorem renumber_eq_self {s : Lsm K V} (h : s.Each fun _ v => g v.seq = v.seq) :
    s.renumber g = s := by
  have htable : ∀ t ∈ s.path, Table.renumber g t = t := fun t ht =>
    Table.renumber_eq_self fun k v hv => h k v (mem_hits.mpr ⟨t, ht, hv⟩)
  have hlevel : ∀ ts : List (Table K V), (∀ t ∈ ts, t ∈ s.path) →
      ts.map (Table.renumber g) = ts := fun ts hts =>
    (List.map_congr_left fun t ht => htable t (hts t ht)).trans (List.map_id ts)
  obtain ⟨mem, l0, l1⟩ := s
  rw [renumber, htable mem List.mem_cons_self, hlevel l0, hlevel l1]
  · intro t ht
    exact List.mem_cons_of_mem _ (List.mem_append_right _ (List.mem_reverse.mpr ht))
  · intro t ht
    exact List.mem_cons_of_mem _ (List.mem_append_left _ (List.mem_reverse.mpr ht))

end Lsm

end VaultKV.Lib
