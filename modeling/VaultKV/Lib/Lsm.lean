import VaultKV.Lib.SortedMap

/-!
# Lsm — a log-structured merge tree over any keys and values

Versions of a key live in a mutable table in front of two lists of
immutable ones. A read takes the FIRST version it meets on the search path
(the mutable table, then level 0 from the last table to the first, then
level 1 likewise); a merge keeps, for each key, the version with the
LARGEST number. The two agree as long as the versions of a key only get
older along the path (`Ordered`), which every operation preserves.

A merge of level 0 into level 1 drops tombstones. `get_compact` says what
that costs: a key whose newest version was such a tombstone is answered by
level 1 from then on.
-/

namespace VaultKV.Lib

variable {K V : Type} [LinearOrder K]

/-- One version of a key; a tombstone marks a deletion. -/
structure Version (V : Type) where
  value : V
  seq : Nat
  tombstone : Bool
  deriving DecidableEq, Repr

/-- What a reader is told when this is the version of the key. -/
def Version.answer (v : Version V) : Option V :=
  if v.tombstone then none else some v.value

/-- A table: at most one version per key, in key order. -/
abbrev Table (K V : Type) [LinearOrder K] := SortedMap K (Version V)

/-- The pairs of a table that are not deleted, in key order. -/
def livePairs (t : Table K V) : List (K × V) :=
  t.entries.filterMap fun e => e.2.answer.map fun v => (e.1, v)

/-! ## The newest version -/

/-- `v` is newer than `w`, or the same version. -/
def Supersedes (v w : Version V) : Prop := w.seq < v.seq ∨ v = w

theorem Supersedes.refl (v : Version V) : Supersedes v v := Or.inr rfl

/-- A version met later only replaces the best so far with a larger
number. -/
def newer (best : Option (Version V)) (v : Version V) : Option (Version V) :=
  match best with
  | none => some v
  | some b => if b.seq < v.seq then some v else some b

def newest (l : List (Version V)) : Option (Version V) := l.foldl newer none

theorem foldl_newer_some (l : List (Version V)) :
    ∀ b, ∃ x, l.foldl newer (some b) = some x ∧ (x = b ∨ x ∈ l) ∧ b.seq ≤ x.seq ∧
      ∀ w ∈ l, w.seq ≤ x.seq := by
  induction l with
  | nil => intro b; exact ⟨b, rfl, Or.inl rfl, Nat.le_refl _, by simp⟩
  | cons v l ih =>
      intro b
      rw [List.foldl_cons, newer]
      by_cases hlt : b.seq < v.seq
      · rw [if_pos hlt]
        obtain ⟨x, hx, hin, hle, hall⟩ := ih v
        refine ⟨x, hx, Or.inr ?_, by omega, ?_⟩
        · rcases hin with rfl | hin
          · exact List.mem_cons_self
          · exact List.mem_cons_of_mem _ hin
        · intro w hw
          rcases List.mem_cons.mp hw with rfl | hw
          · exact hle
          · exact hall w hw
      · rw [if_neg hlt]
        obtain ⟨x, hx, hin, hle, hall⟩ := ih b
        refine ⟨x, hx, hin.imp id (List.mem_cons_of_mem _), hle, ?_⟩
        intro w hw
        rcases List.mem_cons.mp hw with rfl | hw
        · omega
        · exact hall w hw

theorem newest_cons (v : Version V) (l : List (Version V)) :
    ∃ x, newest (v :: l) = some x ∧ x ∈ v :: l ∧ ∀ w ∈ v :: l, w.seq ≤ x.seq := by
  obtain ⟨x, hx, hin, hle, hall⟩ := foldl_newer_some l v
  refine ⟨x, hx, ?_, ?_⟩
  · rcases hin with rfl | hin
    · exact List.mem_cons_self
    · exact List.mem_cons_of_mem _ hin
  · intro w hw
    rcases List.mem_cons.mp hw with rfl | hw
    · exact hle
    · exact hall w hw

/-- The newest version is one of the list and none has a larger number. -/
theorem newest_spec {l : List (Version V)} {x : Version V} (h : newest l = some x) :
    x ∈ l ∧ ∀ w ∈ l, w.seq ≤ x.seq := by
  cases l with
  | nil => cases h
  | cons v l =>
      obtain ⟨y, hy, hin, hall⟩ := newest_cons v l
      obtain rfl : y = x := Option.some.inj (hy.symm.trans h)
      exact ⟨hin, hall⟩

theorem newest_eq_none_iff {l : List (Version V)} : newest l = none ↔ l = [] := by
  cases l with
  | nil => exact ⟨fun _ => rfl, fun _ => rfl⟩
  | cons v l =>
      obtain ⟨x, hx, -, -⟩ := newest_cons v l
      simp [hx]

/-- A version that supersedes all is the newest, wherever it stands. -/
theorem newest_eq_of_supersedes {l : List (Version V)} {v : Version V} (hv : v ∈ l)
    (hall : ∀ w ∈ l, Supersedes v w) : newest l = some v := by
  cases h : newest l with
  | none => rw [newest_eq_none_iff.mp h] at hv; cases hv
  | some x =>
      obtain ⟨hx, hmax⟩ := newest_spec h
      rcases hall x hx with hlt | rfl
      · exact absurd (hmax v hv) (by omega)
      · rfl

theorem foldl_newer_of_le {b : Version V} (l : List (Version V))
    (h : ∀ w ∈ l, w.seq ≤ b.seq) : l.foldl newer (some b) = some b := by
  induction l with
  | nil => rfl
  | cons v l ih =>
      rw [List.foldl_cons, newer, if_neg (Nat.not_lt.mpr (h v List.mem_cons_self))]
      exact ih fun w hw => h w (List.mem_cons_of_mem _ hw)

/-- The FIRST version with the largest number is the newest. -/
theorem newest_split {l l' : List (Version V)} {v : Version V}
    (hl : ∀ w ∈ l, w.seq < v.seq) (hl' : ∀ w ∈ l', w.seq ≤ v.seq) :
    newest (l ++ v :: l') = some v := by
  have hfirst : newer (newest l) v = some v := by
    cases h : newest l with
    | none => rfl
    | some b => rw [newer, if_pos (hl b (newest_spec h).1)]
  rw [newest, List.foldl_append, List.foldl_cons, show l.foldl newer none = newest l from rfl,
    hfirst]
  exact foldl_newer_of_le l' hl'

/-! ## Merging -/

/-- The versions a list of entries holds for a key, in order. -/
def versionsOf (k : K) (l : List (K × Version V)) : List (Version V) :=
  l.filterMap fun e => if e.1 = k then some e.2 else none

theorem versionsOf_cons (k : K) (e : K × Version V) (l : List (K × Version V)) :
    versionsOf k (e :: l) =
      if e.1 = k then e.2 :: versionsOf k l else versionsOf k l := by
  rw [versionsOf, List.filterMap_cons]
  by_cases hk : e.1 = k
  · rw [if_pos hk, if_pos hk]; rfl
  · rw [if_neg hk, if_neg hk]; rfl

/-- Put a version into a table unless the table has one as new. -/
def upsert (m : Table K V) (k : K) (v : Version V) : Table K V :=
  match m.find k with
  | none => m.insert k v
  | some b => if b.seq < v.seq then m.insert k v else m

/-- The newest version of each key of a list of entries. -/
def merge (l : List (K × Version V)) : Table K V :=
  l.foldl (fun m e => upsert m e.1 e.2) SortedMap.empty

theorem find_upsert (m : Table K V) (k k' : K) (v : Version V) :
    (upsert m k v).find k' = if k' = k then newer (m.find k) v else m.find k' := by
  unfold upsert newer
  cases h : m.find k with
  | none => simp only [SortedMap.find_insert]
  | some b =>
      by_cases hlt : b.seq < v.seq
      · simp only [if_pos hlt, SortedMap.find_insert]
      · simp only [if_neg hlt]
        by_cases hk : k' = k
        · rw [if_pos hk, hk, h]
        · rw [if_neg hk]

theorem find_foldl_upsert (l : List (K × Version V)) (k : K) :
    ∀ m : Table K V, (l.foldl (fun m e => upsert m e.1 e.2) m).find k
      = (versionsOf k l).foldl newer (m.find k) := by
  induction l with
  | nil => intro m; rfl
  | cons e l ih =>
      intro m
      rw [List.foldl_cons, ih, find_upsert, versionsOf_cons]
      by_cases hk : e.1 = k
      · rw [if_pos hk.symm, if_pos hk, hk, List.foldl_cons]
      · rw [if_neg (Ne.symm hk), if_neg hk]

/-- **A merge finds the newest version** of every key. -/
theorem find_merge (l : List (K × Version V)) (k : K) :
    (merge l).find k = newest (versionsOf k l) :=
  find_foldl_upsert l k SortedMap.empty

theorem versionsOf_append (k : K) (l l' : List (K × Version V)) :
    versionsOf k (l ++ l') = versionsOf k l ++ versionsOf k l' :=
  List.filterMap_append

theorem mem_versionsOf {k : K} {v : Version V} {l : List (K × Version V)} :
    v ∈ versionsOf k l ↔ (k, v) ∈ l := by
  simp only [versionsOf, List.mem_filterMap, Prod.exists]
  constructor
  · rintro ⟨k', v', hin, hk⟩
    split_ifs at hk with heq
    obtain rfl := Option.some.inj hk
    exact heq ▸ hin
  · intro hin
    exact ⟨k, v, hin, by simp⟩

/-- A table holds at most one version of a key. -/
theorem versionsOf_entries (t : Table K V) (k : K) :
    versionsOf k t.entries = (t.find k).toList := by
  rw [SortedMap.find]
  have hs := t.sorted
  revert hs
  induction t.entries with
  | nil => intro _; rfl
  | cons e l ih =>
      intro hs
      obtain ⟨he, hl⟩ := List.pairwise_cons.mp hs
      rw [versionsOf_cons, SortedMap.findEntry]
      by_cases hk : e.1 = k
      · have hnil : versionsOf k l = [] := by
          rw [List.eq_nil_iff_forall_not_mem]
          intro v hv
          exact absurd (he _ (mem_versionsOf.mp hv)) (by simp [hk])
        rw [if_pos hk, if_pos hk.symm, hnil]
        rfl
      · rw [if_neg hk, if_neg (Ne.symm hk)]
        exact ih hl

/-- Merging the entries of one table gives the table. -/
theorem merge_entries (t : Table K V) : merge t.entries = t := by
  refine SortedMap.ext_find fun k => ?_
  rw [find_merge, versionsOf_entries]
  cases t.find k <;> rfl

theorem versionsOf_flatMap (k : K) (ts : List (Table K V)) :
    versionsOf k (ts.flatMap SortedMap.entries) = ts.filterMap fun t => t.find k := by
  induction ts with
  | nil => rfl
  | cons t ts ih =>
      rw [List.flatMap_cons, versionsOf_append, ih, versionsOf_entries, List.filterMap_cons]
      cases t.find k <;> rfl

/-! ## The search path -/

/-- The versions of a key met along a path of tables. -/
def hits (path : List (Table K V)) (k : K) : List (Version V) :=
  path.filterMap fun t => t.find k

/-- The first of them. -/
def search (path : List (Table K V)) (k : K) : Option (Version V) :=
  path.findSome? fun t => t.find k

/-- Along the path a key's versions only get older. -/
def Ordered (path : List (Table K V)) : Prop := ∀ k, (hits path k).Pairwise Supersedes

theorem search_eq_head (path : List (Table K V)) (k : K) :
    search path k = (hits path k).head? := List.head?_filterMap.symm

@[simp] theorem hits_nil (k : K) : hits ([] : List (Table K V)) k = [] := rfl

@[simp] theorem search_nil (k : K) : search ([] : List (Table K V)) k = none := rfl

theorem hits_append (path path' : List (Table K V)) (k : K) :
    hits (path ++ path') k = hits path k ++ hits path' k := List.filterMap_append

theorem hits_cons (t : Table K V) (path : List (Table K V)) (k : K) :
    hits (t :: path) k = (t.find k).toList ++ hits path k := by
  rw [hits, List.filterMap_cons]
  cases t.find k <;> rfl

theorem search_cons (t : Table K V) (path : List (Table K V)) (k : K) :
    search (t :: path) k = (t.find k).or (search path k) := by
  rw [search, List.findSome?_cons]
  cases t.find k <;> rfl

theorem search_append (path path' : List (Table K V)) (k : K) :
    search (path ++ path') k = (search path k).or (search path' k) :=
  List.findSome?_append

theorem mem_hits {path : List (Table K V)} {k : K} {v : Version V} :
    v ∈ hits path k ↔ ∃ t ∈ path, t.find k = some v := List.mem_filterMap

/-- The head of an ordered list supersedes all of it. -/
theorem newest_eq_head {l : List (Version V)} (h : l.Pairwise Supersedes) :
    newest l = l.head? := by
  cases l with
  | nil => rfl
  | cons v l =>
      refine newest_eq_of_supersedes List.mem_cons_self ?_
      intro w hw
      rcases List.mem_cons.mp hw with rfl | hw
      · exact Supersedes.refl _
      · exact (List.pairwise_cons.mp h).1 w hw

theorem newest_reverse {l : List (Version V)} (h : l.reverse.Pairwise Supersedes) :
    newest l = l.reverse.head? := by
  cases hl : l.reverse with
  | nil => rw [List.reverse_eq_nil_iff.mp hl]; rfl
  | cons v l' =>
      have hmem : ∀ w, w ∈ l ↔ w ∈ v :: l' := by
        intro w; rw [← hl, List.mem_reverse]
      refine newest_eq_of_supersedes ((hmem v).mpr List.mem_cons_self) ?_
      intro w hw
      rw [hl] at h
      rcases List.mem_cons.mp ((hmem w).mp hw) with rfl | hw
      · exact Supersedes.refl _
      · exact (List.pairwise_cons.mp h).1 w hw

/-- Merging tables that are listed OLDEST first finds what a search from
the last one finds. -/
theorem find_merge_of_ordered {ts : List (Table K V)} (h : Ordered ts.reverse) (k : K) :
    (merge (ts.flatMap SortedMap.entries)).find k = search ts.reverse k := by
  have hrev : hits ts.reverse k = (ts.filterMap fun t => t.find k).reverse := by
    rw [hits, List.filterMap_reverse]
  rw [find_merge, versionsOf_flatMap, search_eq_head, hrev]
  exact newest_reverse (hrev ▸ h k)

/-! ## The tree -/

/-- The mutable table, level 0 and level 1, both OLDEST table first. -/
structure Lsm (K V : Type) [LinearOrder K] where
  mem : Table K V
  l0 : List (Table K V)
  l1 : List (Table K V)

namespace Lsm

/-- The tables in the order a read looks at them. -/
def path (s : Lsm K V) : List (Table K V) := s.mem :: (s.l0.reverse ++ s.l1.reverse)

def get (s : Lsm K V) (k : K) : Option V := (search s.path k).bind Version.answer

def write (s : Lsm K V) (k : K) (v : Version V) : Lsm K V :=
  { s with mem := s.mem.insert k v }

/-- The mutable table becomes the last table of level 0. -/
def flush (s : Lsm K V) : Lsm K V :=
  { s with mem := SortedMap.empty, l0 := s.l0 ++ [s.mem] }

/-- The newest version of each key of level 0. -/
def merged (s : Lsm K V) : Table K V := merge (s.l0.flatMap SortedMap.entries)

def live (t : Table K V) : Table K V := t.filter fun _ v => !v.tombstone

/-- Level 0 becomes the last table of level 1, without its tombstones. -/
def compact (s : Lsm K V) : Lsm K V :=
  { s with l0 := [], l1 := s.l1 ++ [live s.merged] }

/-- The path of a tree only gets older. -/
def Sound (s : Lsm K V) : Prop := Ordered s.path

/-- Every version of the tree satisfies `P`. -/
def Each (P : K → Version V → Prop) (s : Lsm K V) : Prop :=
  ∀ k, ∀ v ∈ hits s.path k, P k v

/-- Every tombstone that a merge would drop, and that answers for its key,
belongs to a key level 1 does not answer. -/
def CompactSafe (s : Lsm K V) : Prop :=
  ∀ e ∈ s.merged.entries, e.2.tombstone = true → s.mem.find e.1 = none →
    (search s.l1.reverse e.1).bind Version.answer = none

instance [DecidableEq V] (s : Lsm K V) : Decidable s.CompactSafe :=
  inferInstanceAs (Decidable (∀ e ∈ s.merged.entries, e.2.tombstone = true →
    s.mem.find e.1 = none → (search s.l1.reverse e.1).bind Version.answer = none))

/-! ### Reads -/

theorem get_eq (s : Lsm K V) (k : K) : s.get k =
    (((s.mem.find k).or (search s.l0.reverse k)).or (search s.l1.reverse k)).bind
      Version.answer := by
  rw [get, path, search_cons, search_append, Option.or_assoc]

theorem get_write (s : Lsm K V) (k k' : K) (v : Version V) :
    (s.write k v).get k' = if k' = k then v.answer else s.get k' := by
  rw [get_eq, get_eq, write, SortedMap.find_insert]
  by_cases hk : k' = k
  · rw [if_pos hk, if_pos hk]; rfl
  · rw [if_neg hk, if_neg hk]

/-- **A flush changes no answer.** -/
theorem get_flush (s : Lsm K V) (k : K) : s.flush.get k = s.get k := by
  rw [get_eq, get_eq, flush, List.reverse_append, search_append, SortedMap.find_empty]
  simp [search_cons]

theorem hits_path (s : Lsm K V) (k : K) : hits s.path k =
    (s.mem.find k).toList ++ (hits s.l0.reverse k ++ hits s.l1.reverse k) := by
  rw [path, hits_cons, hits_append]

theorem Sound.l0 {s : Lsm K V} (h : s.Sound) : Ordered s.l0.reverse := by
  intro k
  have hk := h k
  rw [hits_path] at hk
  exact ((List.pairwise_append.mp hk).2.1.sublist (List.sublist_append_left _ _))

theorem find_merged {s : Lsm K V} (h : s.Sound) (k : K) :
    s.merged.find k = search s.l0.reverse k :=
  find_merge_of_ordered h.l0 k

theorem find_live (t : Table K V) (k : K) :
    (live t).find k = (t.find k).filter fun v => !v.tombstone :=
  SortedMap.find_filter _ t k

/-- **What a compaction answers**: level 1 answers for the keys whose
tombstone was dropped, nothing else changes. -/
theorem get_compact {s : Lsm K V} (h : s.Sound) (k : K) :
    s.compact.get k =
      match s.mem.find k, s.merged.find k with
      | none, some v =>
          if v.tombstone then (search s.l1.reverse k).bind Version.answer else s.get k
      | _, _ => s.get k := by
  rw [get_eq, get_eq, compact, find_merged h, List.reverse_append, search_append]
  cases s.mem.find k with
  | some m => rfl
  | none =>
      simp only [List.reverse_nil, List.reverse_singleton, search_cons, find_live,
        find_merged h, Option.none_or]
      cases search s.l0.reverse k with
      | none => simp
      | some v => cases hv : v.tombstone <;> simp [Option.filter_some, hv]

/-- **A safe compaction changes no answer.** -/
theorem get_compact_of_safe {s : Lsm K V} (h : s.Sound) (hsafe : s.CompactSafe) (k : K) :
    s.compact.get k = s.get k := by
  rw [get_compact h]
  cases hm : s.mem.find k with
  | some m => rfl
  | none =>
      cases hv : s.merged.find k with
      | none => rfl
      | some v =>
          dsimp only
          by_cases ht : v.tombstone = true
          · rw [if_pos ht, hsafe (k, v) (SortedMap.find_eq_some_iff.mp hv) ht hm,
              get_eq, hm, ← find_merged h, hv]
            simp [Version.answer, ht]
          · rw [if_neg ht]

/-- A compaction that changes no answer is safe. -/
theorem compactSafe_of_get {s : Lsm K V} (h : s.Sound)
    (hget : ∀ e ∈ s.merged.entries, s.compact.get e.1 = s.get e.1) : s.CompactSafe := by
  intro e he ht hm
  have hv : s.merged.find e.1 = some e.2 := SortedMap.find_eq_some_iff.mpr he
  have hdeleted : s.get e.1 = none := by
    rw [get_eq, hm, ← find_merged h, hv]
    simp [Version.answer, ht]
  have hkey := hget e he
  rw [hdeleted, get_compact h, hm, hv] at hkey
  simpa [ht] using hkey

/-! ### The order of the path -/

/-- A new version may be written under any number above all others. -/
theorem Sound.write {s : Lsm K V} {n : Nat} (h : s.Sound)
    (hn : s.Each fun _ v => v.seq ≤ n) (k : K) {v : Version V} (hv : n < v.seq) :
    (s.write k v).Sound := by
  intro k'
  have hk' := h k'
  rw [hits_path] at hk' ⊢
  rw [Lsm.write, SortedMap.find_insert]
  by_cases hk : k' = k
  · rw [if_pos hk, Option.toList_some, List.singleton_append, List.pairwise_cons]
    refine ⟨?_, (List.pairwise_append.mp hk').2.1⟩
    intro w hw
    -- all other versions lie in the old tree, at most `n`
    have hold : w ∈ hits s.path k' := by
      rw [hits_path]
      exact List.mem_append_right _ hw
    exact Or.inl (lt_of_le_of_lt (hn k' w hold) hv)
  · rw [if_neg hk]
    exact hk'

/-- Another mutable table, if its versions supersede those behind it. -/
theorem Sound.withMem {s : Lsm K V} (h : s.Sound) {m : Table K V}
    (hm : ∀ k v, m.find k = some v → ∀ w ∈ hits s.path k, Supersedes v w) :
    Sound { s with mem := m } := by
  intro k
  have hk := h k
  rw [hits_path] at hk ⊢
  refine List.pairwise_append.mpr ⟨?_, (List.pairwise_append.mp hk).2.1, ?_⟩
  · cases m.find k with
    | none => exact List.Pairwise.nil
    | some v => exact List.pairwise_singleton _ _
  · intro v hv w hw
    refine hm k v (Option.mem_toList.mp hv) w ?_
    rw [hits_path]
    exact List.mem_append_right _ hw

theorem hits_flush (s : Lsm K V) (k : K) : hits s.flush.path k = hits s.path k := by
  rw [hits_path, hits_path, flush, List.reverse_append, hits_append]
  simp [hits_cons]

theorem Sound.flush {s : Lsm K V} (h : s.Sound) : s.flush.Sound := by
  intro k
  rw [hits_flush]
  exact h k

/-- A compaction replaces the level 0 versions of a key by at most one of
them. -/
theorem hits_compact_sublist {s : Lsm K V} (h : s.Sound) (k : K) :
    (hits s.compact.path k).Sublist (hits s.path k) := by
  rw [hits_path, hits_path, compact, List.reverse_append, hits_append]
  refine List.Sublist.append_left ?_ _
  rw [← List.append_assoc]
  refine List.Sublist.append_right ?_ _
  simp only [List.reverse_nil, List.reverse_singleton, hits_cons, find_live,
    find_merged h, search_eq_head]
  cases hits s.l0.reverse k with
  | nil => simp
  | cons v l => cases hv : v.tombstone <;> simp [Option.filter_some, hv]

theorem Sound.compact {s : Lsm K V} (h : s.Sound) : s.compact.Sound := fun k =>
  (h k).sublist (hits_compact_sublist h k)

/-! ### Properties of all versions -/

theorem Each.imp {P Q : K → Version V → Prop} {s : Lsm K V} (h : s.Each P)
    (hPQ : ∀ k v, P k v → Q k v) : s.Each Q := fun k v hv => hPQ k v (h k v hv)

theorem Each.mem {P : K → Version V → Prop} {s : Lsm K V} (h : s.Each P) {k : K}
    {v : Version V} (hv : s.mem.find k = some v) : P k v :=
  h k v (by rw [hits_path, hv]; exact List.mem_append_left _ List.mem_cons_self)

theorem Each.write {P : K → Version V → Prop} {s : Lsm K V} (h : s.Each P) {k : K}
    {v : Version V} (hv : P k v) : (s.write k v).Each P := by
  intro k' w hw
  rw [hits_path, Lsm.write, SortedMap.find_insert] at hw
  have hold := h k'
  rw [hits_path] at hold
  rcases List.mem_append.mp hw with hw | hw
  · by_cases hk : k' = k
    · rw [if_pos hk, Option.toList_some, List.mem_singleton] at hw
      rw [hk, hw]
      exact hv
    · rw [if_neg hk] at hw
      exact hold w (List.mem_append_left _ hw)
  · exact hold w (List.mem_append_right _ hw)

theorem Each.flush {P : K → Version V → Prop} {s : Lsm K V} (h : s.Each P) :
    s.flush.Each P := by
  intro k v hv
  rw [hits_flush] at hv
  exact h k v hv

theorem Each.compact {P : K → Version V → Prop} {s : Lsm K V} (hs : s.Sound)
    (h : s.Each P) : s.compact.Each P := by
  intro k v hv
  exact h k v ((hits_compact_sublist hs k).subset hv)

/-- What a merge of level 0 finds is a version of the tree. -/
theorem Each.merged {P : K → Version V → Prop} {s : Lsm K V} (h : s.Each P) {k : K}
    {v : Version V} (hv : s.merged.find k = some v) : P k v := by
  rw [Lsm.merged, find_merge, versionsOf_flatMap] at hv
  obtain ⟨t, ht, hfind⟩ := List.mem_filterMap.mp (newest_spec hv).1
  refine h k v (mem_hits.mpr ⟨t, ?_, hfind⟩)
  exact List.mem_cons_of_mem _ (List.mem_append_left _ (List.mem_reverse.mpr ht))

/-! ### Tables on their way to level 0 -/

/-- The tree with more tables behind the last one of level 0. -/
def plus (s : Lsm K V) (more : List (Table K V)) : Lsm K V := { s with l0 := s.l0 ++ more }

@[simp] theorem plus_nil (s : Lsm K V) : s.plus [] = s := by
  rw [plus, List.append_nil]

theorem hits_plus (s : Lsm K V) (more : List (Table K V)) (k : K) :
    hits (s.plus more).path k = (s.mem.find k).toList ++ (hits more.reverse k ++
      (hits s.l0.reverse k ++ hits s.l1.reverse k)) := by
  rw [hits_path, plus, List.reverse_append, hits_append, List.append_assoc]

theorem Sound.of_plus {s : Lsm K V} {more : List (Table K V)} (h : (s.plus more).Sound) :
    s.Sound := by
  intro k
  refine (h k).sublist ?_
  rw [hits_plus, hits_path]
  exact List.Sublist.append_left (List.sublist_append_right _ _) _

theorem Each.of_plus {P : K → Version V → Prop} {s : Lsm K V} {more : List (Table K V)}
    (h : (s.plus more).Each P) : s.Each P := by
  intro k v hv
  refine h k v ?_
  rw [hits_path] at hv
  rw [hits_plus]
  rcases List.mem_append.mp hv with hv | hv
  · exact List.mem_append_left _ hv
  · exact List.mem_append_right _ (List.mem_append_right _ hv)

/-- A compaction leaves the tables on their way alone. -/
theorem hits_compact_plus_sublist {s : Lsm K V} (h : s.Sound) (more : List (Table K V))
    (k : K) : (hits (s.compact.plus more).path k).Sublist (hits (s.plus more).path k) := by
  have hc := hits_compact_sublist h k
  rw [hits_path, hits_path] at hc
  rw [hits_plus, hits_plus]
  exact List.Sublist.append_left (List.Sublist.append_left
    ((List.append_sublist_append_left _).mp hc) _) _

/-- **A compaction keeps every live answer.** -/
theorem search_compact_plus {s : Lsm K V} (h : s.Sound) (more : List (Table K V)) {k : K}
    {v : Version V} (hv : search (s.plus more).path k = some v)
    (hlive : v.tombstone = false) : search (s.compact.plus more).path k = some v := by
  rw [search_eq_head, hits_plus] at hv ⊢
  simp only [List.head?_append, compact, List.reverse_append, List.reverse_singleton,
    List.reverse_nil, hits_nil, hits_append, hits_cons, find_live, find_merged h,
    search_eq_head, List.append_nil, List.nil_append] at hv ⊢
  revert hv
  cases (s.mem.find k).toList.head? with
  | some m => exact id
  | none =>
      cases (hits more.reverse k).head? with
      | some p => exact id
      | none =>
          cases (hits s.l0.reverse k).head? with
          | none => intro hv; simpa using hv
          | some w =>
              intro hv
              obtain rfl : w = v := by simpa using hv
              simp [Option.filter_some, hlive]

/-- A version above all others of its key may be written. -/
theorem Sound.write_of_lt {s : Lsm K V} (h : s.Sound) {k : K} {v : Version V}
    (hv : ∀ w ∈ hits s.path k, w.seq < v.seq) : (s.write k v).Sound := by
  refine h.withMem fun k' u hu w hw => ?_
  rw [SortedMap.find_insert] at hu
  by_cases hk : k' = k
  · rw [if_pos hk] at hu
    obtain rfl := Option.some.inj hu
    exact Or.inl (hv w (hk ▸ hw))
  · rw [if_neg hk] at hu
    -- an old version of another key: it stood at the front before
    have hk' := h k'
    rw [hits_path, hu] at hk' hw
    rcases List.mem_cons.mp hw with rfl | hw
    · exact Supersedes.refl _
    · exact (List.pairwise_cons.mp hk').1 w hw

theorem hits_write_of_ne {s : Lsm K V} {k k' : K} (hk : k' ≠ k) (v : Version V) :
    hits (s.write k v).path k' = hits s.path k' := by
  rw [hits_path, hits_path, Lsm.write, SortedMap.find_insert, if_neg hk]

theorem search_write (s : Lsm K V) (k : K) (v : Version V) (k' : K) :
    search (s.write k v).path k' = if k' = k then some v else search s.path k' := by
  by_cases hk : k' = k
  · rw [if_pos hk, search_eq_head, hits_path, Lsm.write, SortedMap.find_insert, if_pos hk]
    rfl
  · rw [if_neg hk, search_eq_head, search_eq_head, hits_write_of_ne hk]

end Lsm

end VaultKV.Lib
