import VaultKV.Sstable.Model

/-!
# Sstable — what `Build` leaves on disk

`tableFile xs bloom` is the whole file for the sealed records `xs`. Every
run of `Build`, however it ends, leaves a stream of one of two shapes
(`build_calls`): the chunks of the file from the front, up to some point,
under a header whose offsets are still ZERO (`Unfinished`); or the whole
file with the header rewritten (`Finished`), and only then can the result
be `Ok`.
-/

namespace VaultKV

open Lib

/-- A record and the blob its value was encrypted to. -/
abbrev SealedRecord := SstableRecord × CipherBlob

def bodyChunks (xs : List SealedRecord) : List Bytes :=
  xs.flatMap fun x => recordChunks x.1 x.2

/-- The index entries of records laid out from `off` on. -/
def layout : Nat → List SealedRecord → List (Bytes × Nat)
  | _, [] => []
  | off, x :: xs =>
      (x.1.key, off) :: layout (off + (recordChunks x.1 x.2).flatten.length) xs

/-- Every record fits its length fields and the blob encrypts its value. -/
def SealedBy (c : Cipher) (xs : List SealedRecord) : Prop :=
  ∀ x ∈ xs, x.1.key.length < 2 ^ 16 ∧ x.1.value.length < 2 ^ 32 ∧
    ∃ rand, c.encrypt rand x.1.value = some x.2

/-! ## Offsets and the file -/

def indexOffset (xs : List SealedRecord) : Nat := 48 + (bodyChunks xs).flatten.length

def bloomOffset (xs : List SealedRecord) : Nat :=
  indexOffset xs + (indexChunks (layout 48 xs)).flatten.length

def footerOffset (xs : List SealedRecord) (bloom : BloomFilter) : Nat :=
  bloomOffset xs + (bloomChunks bloom).flatten.length

def finalHeader (xs : List SealedRecord) (bloom : BloomFilter) : Header :=
  { placeholderHeader xs.length with
    indexOffset := indexOffset xs, bloomOffset := bloomOffset xs,
    footerOffset := footerOffset xs bloom }

/-- The chunks behind the header. -/
def tailChunks (xs : List SealedRecord) (bloom : BloomFilter) : List Bytes :=
  bodyChunks xs ++ (indexChunks (layout 48 xs) ++
    (bloomChunks bloom ++ [footerBytes (indexOffset xs) (bloomOffset xs)]))

/-- The file of the sealed records. -/
def tableFile (xs : List SealedRecord) (bloom : BloomFilter) : Bytes :=
  (finalHeader xs bloom).bytes ++ (tailChunks xs bloom).flatten

/-- The filter `Build` makes for the records. -/
def BloomFor (xs : List SealedRecord) (bloom : BloomFilter) : Prop :=
  (BloomFilter.make (max 64 (xs.length * 10)) 7).addAll (xs.map fun x => x.1.key)
    = .ok bloom

theorem length_header (h : Header) : h.bytes.length = 48 := by
  simp [Header.bytes, kSstMagic]

theorem map_fst_layout (xs : List SealedRecord) :
    ∀ off, (layout off xs).map Prod.fst = xs.map fun x => x.1.key := by
  induction xs with
  | nil => intro off; rfl
  | cons x xs ih => intro off; rw [layout, List.map_cons, List.map_cons, ih]

theorem length_layout (xs : List SealedRecord) : ∀ off, (layout off xs).length = xs.length := by
  induction xs with
  | nil => intro off; rfl
  | cons x xs ih => intro off; rw [layout, List.length_cons, List.length_cons, ih]

theorem length_tableFile_eq (xs : List SealedRecord) (bloom : BloomFilter) :
    (tableFile xs bloom).length = 48 + (tailChunks xs bloom).flatten.length := by
  rw [tableFile, List.length_append, length_header]

theorem BloomFor.spec {xs : List SealedRecord} {bloom : BloomFilter}
    (h : BloomFor xs bloom) (hlen : xs.length < 2 ^ 59) :
    bloom.Fit ∧ bloom.bitCount < 2 ^ 63 ∧ bloom.hashCount = 7 ∧
      ∀ x ∈ xs, bloom.Holds x.1.key := by
  have hfit := BloomFilter.make_fit (max 64 (xs.length * 10)) 7
    (by omega) (by omega)
  obtain ⟨f, hf, hbits, hhash, hlength, hkeys, -⟩ := hfit.addAll (xs.map fun x => x.1.key)
  obtain rfl : f = bloom := Except.ok.inj (hf.symm.trans h)
  have hcount : f.bitCount = max 64 (xs.length * 10) := hbits
  refine ⟨⟨by omega, ?_⟩, by omega, hhash, ?_⟩
  · rw [hlength, hfit.length, hbits]
  · intro x hx
    exact hkeys _ (List.mem_map.mpr ⟨x, hx, rfl⟩)

theorem BloomFor.bitCount {xs : List SealedRecord} {bloom : BloomFilter}
    (h : BloomFor xs bloom) (hlen : xs.length < 2 ^ 59) :
    bloom.bitCount = max 64 (xs.length * 10) := by
  have hfit := BloomFilter.make_fit (max 64 (xs.length * 10)) 7
    (by omega) (by omega)
  obtain ⟨f, hf, hbits, -⟩ := hfit.addAll (xs.map fun x => x.1.key)
  obtain rfl : f = bloom := Except.ok.inj (hf.symm.trans h)
  exact hbits

/-! ## Sizes -/

theorem length_recordChunks (r : SstableRecord) (blob : CipherBlob) :
    (recordChunks r blob).flatten.length = 47 + r.key.length + blob.ciphertext.length := by
  simp only [recordChunks, List.flatten_cons, List.flatten_nil, List.length_append,
    length_appendLe, List.length_cons, List.length_nil, blob.nonce.length_eq,
    blob.tag.length_eq]
  omega

theorem length_body {c : Cipher} (hc : c.Lawful) {xs : List SealedRecord}
    (h : SealedBy c xs) :
    (bodyChunks xs).flatten.length + 12 * xs.length
      = (xs.map fun x => 59 + (x.1.key.length + x.1.value.length)).sum := by
  induction xs with
  | nil => rfl
  | cons x xs ih =>
      obtain ⟨-, -, rand, henc⟩ := h x List.mem_cons_self
      have hflat : (bodyChunks (x :: xs)).flatten.length
          = (recordChunks x.1 x.2).flatten.length + (bodyChunks xs).flatten.length := by
        simp [bodyChunks]
      have hlen := hc.length_encrypt _ _ _ henc
      have hrest := ih fun y hy => h y (List.mem_cons_of_mem _ hy)
      rw [hflat, length_recordChunks, List.map_cons, List.sum_cons, List.length_cons, hlen]
      omega

theorem length_index (xs : List SealedRecord) :
    ∀ off, ((layout off xs).flatMap indexEntryChunks).flatten.length
      ≤ (xs.map fun x => 59 + (x.1.key.length + x.1.value.length)).sum := by
  induction xs with
  | nil => intro off; exact Nat.le_refl _
  | cons x xs ih =>
      intro off
      have hrest := ih (off + (recordChunks x.1 x.2).flatten.length)
      simp only [layout, List.flatMap_cons, indexEntryChunks, List.flatten_append,
        List.flatten_cons, List.flatten_nil, List.length_append, length_appendLe,
        List.length_nil, List.map_cons, List.sum_cons]
      omega

theorem length_le_sum (xs : List SealedRecord) :
    59 * xs.length ≤ (xs.map fun x => 59 + (x.1.key.length + x.1.value.length)).sum := by
  induction xs with
  | nil => exact Nat.le_refl _
  | cons x xs ih => rw [List.length_cons, List.map_cons, List.sum_cons]; omega

/-- The file of a table is at most about twice what its records take in
the log. -/
theorem length_tableFile {c : Cipher} (hc : c.Lawful) {xs : List SealedRecord}
    {bloom : BloomFilter} (hsealed : SealedBy c xs) (hbloom : BloomFor xs bloom)
    (hlen : xs.length < 2 ^ 59) :
    (tableFile xs bloom).length
      ≤ 200 + 2 * (xs.map fun x => 59 + (x.1.key.length + x.1.value.length)).sum := by
  obtain ⟨hfit, hbits, -, -⟩ := hbloom.spec hlen
  have hbody := length_body hc hsealed
  have hindex := length_index xs 48
  have hcount : bloom.bits.length ≤ 10 + 2 * xs.length := by
    rw [hfit.length, hbloom.bitCount hlen]
    omega
  simp only [tableFile, tailChunks, List.flatten_append, List.length_append, length_header,
    indexChunks, bloomChunks, List.flatten_cons, List.flatten_nil, List.length_nil,
    length_appendLe, footerBytes, kFooterMagic, List.length_cons]
  omega

/-! ## The stream of a build -/

/-- The chunks written so far start with a header without offsets. -/
def Unfinished (calls : List WriteCall) : Prop :=
  calls = [] ∨ ∃ n more, calls = callsFrom 0 ((placeholderHeader n).bytes :: more)

/-- The whole file was written and its header rewritten. -/
def Finished (xs : List SealedRecord) (bloom : BloomFilter) (calls : List WriteCall) : Prop :=
  calls = callsFrom 0 ((placeholderHeader xs.length).bytes :: tailChunks xs bloom)
    ++ [⟨0, (finalHeader xs bloom).bytes⟩]

theorem effect_unfinished {calls : List WriteCall} (h : Unfinished calls) :
    effect calls = [] ∨ ∃ n rest, effect calls = (placeholderHeader n).bytes ++ rest := by
  rcases h with rfl | ⟨n, more, rfl⟩
  · exact Or.inl rfl
  · exact Or.inr ⟨n, more.flatten, by rw [effect_callsFrom, List.flatten_cons]⟩

theorem effect_finished {xs : List SealedRecord} {bloom : BloomFilter}
    {calls : List WriteCall} (h : Finished xs bloom calls) :
    effect calls = tableFile xs bloom := by
  rw [h, effect_append, effect_callsFrom, List.foldl_cons, List.foldl_nil, tableFile,
    List.flatten_cons, overwrite, List.take_zero, List.nil_append, Nat.zero_add,
    length_header, List.drop_append_of_le_length (by rw [length_header])]
  rw [List.drop_of_length_le (by rw [length_header]), List.nil_append]

/-- **Cutting a build short.** The calls of an unfinished build stay
unfinished; of a finished one they are, unless all of them were issued. -/
theorem Unfinished.take {calls : List WriteCall} (h : Unfinished calls) (n : Nat) :
    Unfinished (calls.take n) := by
  rcases h with rfl | ⟨m, more, rfl⟩
  · exact Or.inl List.take_nil
  · rw [callsFrom_take]
    cases n with
    | zero => exact Or.inl rfl
    | succ n => exact Or.inr ⟨m, more.take n, by rw [List.take_succ_cons]⟩

theorem Finished.take {xs : List SealedRecord} {bloom : BloomFilter}
    {calls : List WriteCall} (h : Finished xs bloom calls) {n : Nat}
    (hn : n < calls.length) : Unfinished (calls.take n) := by
  rw [h] at hn ⊢
  rw [List.length_append, List.length_singleton] at hn
  rw [List.take_append_of_le_length (by omega)]
  exact Unfinished.take (Or.inr ⟨_, _, rfl⟩) n

/-- The loop over the records: what is on disk, and what a success says. -/
theorem writeRecords_spec (c : Cipher) (io : BuildIo c) (rs : List SstableRecord) :
    ∀ i out cs, out.Wrote cs → ∃ more,
      (writeRecords c io rs i out).2.Wrote (cs ++ more) ∧
      ∀ index, (writeRecords c io rs i out).1 = .ok index → out.bad = false →
        (writeRecords c io rs i out).2.bad = false ∧
        ∃ xs, xs.map Prod.fst = rs ∧ more = bodyChunks xs ∧ SealedBy c xs ∧
          index = layout cs.flatten.length xs := by
  induction rs with
  | nil =>
      intro i out cs h
      refine ⟨[], by simpa [writeRecords] using h, ?_⟩
      intro index hok hbad
      obtain rfl := Except.ok.inj hok
      exact ⟨hbad, [], rfl, rfl, fun x hx => absurd hx List.not_mem_nil, rfl⟩
  | cons r rs ih =>
      intro i out cs h
      rw [writeRecords]
      by_cases hkey : r.key.length > 2 ^ 16 - 1
      · rw [if_pos hkey]
        exact ⟨[], by simpa using h, by intro index hok; cases hok⟩
      rw [if_neg hkey]
      by_cases hval : r.value.length > 2 ^ 32 - 1
      · rw [if_pos hval]
        exact ⟨[], by simpa using h, by intro index hok; cases hok⟩
      rw [if_neg hval]
      cases henc : c.encrypt (io.rand i) r.value with
      | none => exact ⟨[], by simpa using h, by intro index hok; cases hok⟩
      | some blob =>
          dsimp only
          by_cases hbad : (out.writeAll io.failAt (recordChunks r blob)).bad = true
          · rw [if_pos hbad]
            obtain ⟨n, -, hw, -⟩ := h.writeAll io.failAt (recordChunks r blob)
            exact ⟨_, hw, by intro index hok; cases hok⟩
          rw [if_neg hbad]
          obtain ⟨hgood, hw⟩ := h.writeAll_good (by simpa using hbad)
          obtain ⟨more, hmore, hspec⟩ := ih (i + 1) _ _ hw
          rw [List.append_assoc] at hmore
          rcases hrec : writeRecords c io rs (i + 1)
            (out.writeAll io.failAt (recordChunks r blob)) with ⟨res, out'⟩
          rw [hrec] at hmore hspec
          cases res with
          | error e => exact ⟨_, hmore, by intro index hok; cases hok⟩
          | ok index =>
              refine ⟨_, hmore, ?_⟩
              intro index' hok _
              obtain rfl := Except.ok.inj hok
              obtain ⟨hgood', xs, hxs, hbody, hsealed, hindex⟩ :=
                hspec index rfl (by simpa using hbad)
              refine ⟨hgood', (r, blob) :: xs, by rw [List.map_cons, hxs], ?_, ?_, ?_⟩
              · rw [hbody]; rfl
              · intro x hx
                rcases List.mem_cons.mp hx with rfl | hx
                · exact ⟨Nat.lt_of_le_pred (by decide) (not_lt.mp hkey),
                    Nat.lt_of_le_pred (by decide) (not_lt.mp hval), io.rand i, henc⟩
                · exact hsealed x hx
              · rw [layout, hindex, OStream.tellp, hgood, h.pos hgood,
                  List.flatten_append, List.length_append]
                rfl

theorem tellp_of_wrote {out : OStream} {cs : List Bytes} (h : out.Wrote cs)
    (hgood : out.bad = false) : out.tellp = cs.flatten.length := by
  rw [OStream.tellp, hgood, h.pos hgood]
  rfl

/-- The last two calls, the footer and the header once more: the second
was not issued, or both were. -/
theorem finalize_calls {out : OStream} {cs : List Bytes} (h : out.Wrote cs)
    (failAt : Option Nat) (footer header : Bytes) :
    ((((out.write failAt footer).seekp 0).write failAt header).bad = true ∧
      ∃ more, (((out.write failAt footer).seekp 0).write failAt header).calls
        = callsFrom 0 (cs ++ more)) ∨
    ((((out.write failAt footer).seekp 0).write failAt header).bad = false ∧
      (((out.write failAt footer).seekp 0).write failAt header).calls
        = callsFrom 0 (cs ++ [footer]) ++ [⟨0, header⟩] ∧
      (cs ++ [footer]).flatten.length < 2 ^ 63) := by
  rcases h.write failAt footer with ⟨hbad, hw⟩ | ⟨-, hgood, hw⟩
  · generalize out.write failAt footer = out' at *
    have hstay : ((out'.seekp 0).write failAt header) = out' := by
      simp [OStream.seekp, OStream.write, hbad]
    rw [hstay]
    exact Or.inl ⟨hbad, [], by rw [List.append_nil]; exact hw.calls⟩
  · generalize out.write failAt footer = out' at *
    by_cases hf : failAt = some out'.calls.length ∨ 2 ^ 63 ≤ 0 + header.length
    · refine Or.inl ?_
      simp only [OStream.seekp, OStream.write, hgood, hf, if_true, if_false,
        Bool.false_eq_true]
      exact ⟨trivial, [footer], hw.calls⟩
    · refine Or.inr ?_
      simp only [OStream.seekp, OStream.write, hgood, hf, if_false, Bool.false_eq_true]
      exact ⟨trivial, by rw [hw.calls], by rw [← hw.pos hgood]; exact hw.fits hgood⟩

/-- The part behind the records, entered with the records of `xs` written. -/
theorem finishBuild_calls {c : Cipher} (io : BuildIo c) (path : Bytes)
    (sorted : List SstableRecord) (xs : List SealedRecord) (out : OStream)
    (hsorted : xs.map Prod.fst = sorted) (hgood : out.bad = false)
    (hw : out.Wrote ((placeholderHeader xs.length).bytes :: bodyChunks xs)) :
    (Unfinished (finishBuild io path sorted (layout 48 xs) out).2.calls ∧
      ∃ e, (finishBuild io path sorted (layout 48 xs) out).1 = .error e) ∨
    (∃ bloom, BloomFor xs bloom ∧
      Finished xs bloom (finishBuild io path sorted (layout 48 xs) out).2.calls ∧
      (tableFile xs bloom).length < 2 ^ 63 ∧
      ∀ m, (finishBuild io path sorted (layout 48 xs) out).1 = .ok m →
        m = metaOf path sorted) := by
  have hlen : sorted.length = xs.length := by rw [← hsorted, List.length_map]
  have hindexOffset : out.tellp = indexOffset xs := by
    rw [tellp_of_wrote hw hgood, List.flatten_cons, List.length_append, length_header]
    rfl
  unfold finishBuild
  dsimp only
  by_cases hbad : (out.writeAll io.failAt (indexChunks (layout 48 xs))).bad = true
  · rw [if_pos hbad]
    obtain ⟨n, -, hw', -⟩ := hw.writeAll io.failAt (indexChunks (layout 48 xs))
    exact Or.inl ⟨Or.inr ⟨_, _, hw'.calls⟩, _, rfl⟩
  rw [if_neg hbad]
  obtain ⟨-, hw'⟩ := hw.writeAll_good (by simpa using hbad)
  have hbloomOffset : (out.writeAll io.failAt (indexChunks (layout 48 xs))).tellp
      = bloomOffset xs := by
    rw [tellp_of_wrote hw' (by simpa using hbad), List.flatten_append, List.length_append,
      List.flatten_cons, List.length_append, length_header]
    rfl
  generalize out.writeAll io.failAt (indexChunks (layout 48 xs)) = out₁ at *
  rw [map_fst_layout, hlen]
  cases hbloom : (BloomFilter.make (max 64 (xs.length * 10)) 7).addAll
      (xs.map fun x => x.1.key) with
  | error e => exact Or.inl ⟨Or.inr ⟨_, _, hw'.calls⟩, e, rfl⟩
  | ok bloom =>
      dsimp only
      by_cases hbad' : (out₁.writeAll io.failAt (bloomChunks bloom)).bad = true
      · rw [if_pos hbad']
        obtain ⟨n, -, hw'', -⟩ := hw'.writeAll io.failAt (bloomChunks bloom)
        exact Or.inl ⟨Or.inr ⟨_, _, hw''.calls⟩, _, rfl⟩
      rw [if_neg hbad']
      obtain ⟨-, hw''⟩ := hw'.writeAll_good (by simpa using hbad')
      have hfooterOffset : (out₁.writeAll io.failAt (bloomChunks bloom)).tellp
          = footerOffset xs bloom := by
        rw [tellp_of_wrote hw'' (by simpa using hbad')]
        simp only [List.flatten_append, List.length_append, List.flatten_cons,
          length_header, List.cons_append]
        simp only [footerOffset, bloomOffset, indexOffset, Nat.add_assoc]
      generalize out₁.writeAll io.failAt (bloomChunks bloom) = out₂ at *
      rw [hfooterOffset, hbloomOffset, hindexOffset]
      rcases finalize_calls hw'' io.failAt (footerBytes (indexOffset xs) (bloomOffset xs))
        (finalHeader xs bloom).bytes with ⟨hb, more, hcalls⟩ | ⟨hb, hcalls, hsize⟩
      · rw [finalHeader] at hb hcalls
        rw [hb, Bool.true_or, if_pos rfl]
        exact Or.inl ⟨Or.inr ⟨_, _, hcalls⟩, _, rfl⟩
      · rw [finalHeader] at hb hcalls
        rw [hb, Bool.false_or]
        have hfin : Finished xs bloom _ := hcalls.trans (by
          rw [tailChunks]
          simp only [List.cons_append, List.append_assoc]
          rfl)
        have hfile : (tableFile xs bloom).length < 2 ^ 63 := by
          rw [length_tableFile_eq]
          refine Eq.trans_lt ?_ hsize
          simp only [tailChunks, List.cons_append, List.append_assoc, List.flatten_cons,
            List.length_append, length_header]
        refine Or.inr ⟨bloom, hbloom, ?_⟩
        -- a failed `close` reports an error over a file that is complete
        cases io.closeFails
        · rw [if_neg (by simp)]
          exact ⟨hfin, hfile, fun m hm => (Except.ok.inj hm).symm⟩
        · rw [if_pos rfl]
          exact ⟨hfin, hfile, fun m hm => by cases hm⟩

/-- On a stream that is bad already nothing is written. -/
theorem writeRecords_bad (c : Cipher) (io : BuildIo c) (rs : List SstableRecord) (i : Nat)
    {out : OStream} (hbad : out.bad = true) :
    (writeRecords c io rs i out).2 = out ∧
      (rs ≠ [] → ∃ e, (writeRecords c io rs i out).1 = .error e) := by
  cases rs with
  | nil => exact ⟨rfl, fun h => absurd rfl h⟩
  | cons r rs =>
      rw [writeRecords]
      by_cases hkey : r.key.length > 2 ^ 16 - 1
      · rw [if_pos hkey]; exact ⟨rfl, fun _ => ⟨_, rfl⟩⟩
      rw [if_neg hkey]
      by_cases hval : r.value.length > 2 ^ 32 - 1
      · rw [if_pos hval]; exact ⟨rfl, fun _ => ⟨_, rfl⟩⟩
      rw [if_neg hval]
      cases c.encrypt (io.rand i) r.value with
      | none => exact ⟨rfl, fun _ => ⟨_, rfl⟩⟩
      | some blob =>
          dsimp only
          rw [OStream.writeAll_bad _ _ _ hbad, if_pos hbad]
          exact ⟨rfl, fun _ => ⟨_, rfl⟩⟩

theorem latestRecords_ne_nil {records : List SstableRecord} (h : records ≠ []) :
    latestRecords records ≠ [] := by
  obtain ⟨r, rs, rfl⟩ := List.exists_cons_of_ne_nil h
  intro hnil
  have hentries : (merge ((r :: rs).map SstableRecord.entry)).entries = [] :=
    List.map_eq_nil_iff.mp hnil
  have hfind : (merge ((r :: rs).map SstableRecord.entry)).find r.key = none := by
    rw [SortedMap.find, hentries]; rfl
  rw [find_merge, newest_eq_none_iff, List.map_cons, versionsOf_cons] at hfind
  simp [SstableRecord.entry] at hfind

/-- **Every end of a build.** The stream of a build is unfinished and the
result an error, or the whole file of the latest records is there. -/
theorem build_calls {c : Cipher} {io : BuildIo c} {path : Bytes}
    {records : List SstableRecord} {res : Res SstableMeta} {out : OStream}
    (h : SstableBuilder.build c io path records = (res, some out)) :
    (Unfinished out.calls ∧ ∃ e, res = .error e) ∨
    (∃ xs bloom, xs.map Prod.fst = latestRecords records ∧ SealedBy c xs ∧
      BloomFor xs bloom ∧ Finished xs bloom out.calls ∧
      (tableFile xs bloom).length < 2 ^ 63 ∧
      ∀ m, res = .ok m → m = metaOf path (latestRecords records)) := by
  unfold SstableBuilder.build at h
  by_cases hnil : records = []
  · rw [if_pos hnil] at h; cases h
  rw [if_neg hnil] at h
  cases hdir : io.createDirectories with
  | some e => rw [hdir] at h; cases h
  | none =>
      rw [hdir] at h
      dsimp only at h
      by_cases hopen : io.openFails = true
      · rw [if_pos hopen] at h; cases h
      rw [if_neg hopen] at h
      have hsorted := latestRecords_ne_nil hnil
      generalize latestRecords records = sorted at h hsorted ⊢
      rcases OStream.Wrote.empty.write io.failAt (placeholderHeader sorted.length).bytes with
        ⟨hbad, hw⟩ | ⟨-, hgood, hw⟩
      · -- not even the header was written
        obtain ⟨hstay, herr⟩ := writeRecords_bad c io sorted 0 hbad
        obtain ⟨e, he⟩ := herr hsorted
        rcases hrec : writeRecords c io sorted 0
          (OStream.write io.failAt {} (placeholderHeader sorted.length).bytes) with ⟨r, out'⟩
        rw [hrec] at hstay he
        obtain rfl : r = .error e := he
        rw [hrec] at h
        obtain ⟨rfl, hout⟩ := Prod.mk.inj h
        obtain rfl : out' = out := Option.some.inj hout
        refine Or.inl ⟨Or.inl ?_, e, rfl⟩
        rw [show out' = _ from hstay, hw.calls]
        rfl
      · obtain ⟨more, hmore, hspec⟩ := writeRecords_spec c io sorted 0 _ _ hw
        rcases hrec : writeRecords c io sorted 0
          (OStream.write io.failAt {} (placeholderHeader sorted.length).bytes) with ⟨r, out'⟩
        rw [hrec] at h hmore hspec
        cases r with
        | error e =>
            obtain ⟨rfl, hout⟩ := Prod.mk.inj h
            obtain rfl : out' = out := Option.some.inj hout
            exact Or.inl ⟨Or.inr ⟨_, _, hmore.calls⟩, e, rfl⟩
        | ok index =>
            obtain ⟨hgood', xs, hxs, rfl, hsealed, hindex⟩ := hspec index rfl hgood
            have hlen : sorted.length = xs.length := by rw [← hxs, List.length_map]
            simp only [List.nil_append, List.flatten_cons, List.flatten_nil,
              List.append_nil, length_header] at hindex
            rw [hlen] at hmore
            dsimp only at h
            obtain ⟨hres, hout⟩ := Prod.mk.inj h
            rw [hindex] at hres hout
            rw [← hres, ← Option.some.inj hout]
            rcases finishBuild_calls io path sorted xs out' hxs hgood' hmore with
              hun | ⟨bloom, hbloom, hfin, hsize, hmeta⟩
            · exact Or.inl hun
            · exact Or.inr ⟨xs, bloom, hxs, hsealed, hbloom, hfin, hsize, hmeta⟩

/-! ## Builds that do not fail -/

/-- Nothing outside the program fails. -/
structure BuildIo.Clean {c : Cipher} (io : BuildIo c) : Prop where
  createDirectories : io.createDirectories = none
  openFails : io.openFails = false
  failAt : io.failAt = none
  closeFails : io.closeFails = false

theorem writeRecords_ok {c : Cipher} (hc : c.Lawful) {io : BuildIo c}
    (hio : io.failAt = none)
    (hcrypto : ∀ rand p, (c.encrypt rand p).isSome) (rs : List SstableRecord) :
    ∀ i out, out.bad = false →
      (∀ r ∈ rs, r.key.length < 2 ^ 16 ∧ r.value.length < 2 ^ 32) →
      out.pos + (rs.map fun r => 59 + (r.key.length + r.value.length)).sum < 2 ^ 63 →
      ∃ index, (writeRecords c io rs i out).1 = .ok index := by
  induction rs with
  | nil => intro i out _ _ _; exact ⟨[], rfl⟩
  | cons r rs ih =>
      intro i out hgood hfit hroom
      obtain ⟨hkey, hval⟩ := hfit r List.mem_cons_self
      obtain ⟨blob, hblob⟩ := Option.isSome_iff_exists.mp (hcrypto (io.rand i) r.value)
      rw [List.map_cons, List.sum_cons] at hroom
      have hlen := length_recordChunks r blob
      rw [hc.length_encrypt _ _ _ hblob] at hlen
      obtain ⟨hgood', hpos⟩ := OStream.writeAll_none (recordChunks r blob) hgood (by omega)
      rw [writeRecords, if_neg (by omega), if_neg (by omega), hblob]
      dsimp only
      rw [hio, if_neg (by simp [hgood'])]
      obtain ⟨index, hindex⟩ := ih (i + 1) _ hgood'
        (fun r hr => hfit r (List.mem_cons_of_mem _ hr)) (by omega)
      rcases hrec : writeRecords c io rs (i + 1)
        (out.writeAll none (recordChunks r blob)) with ⟨res, out'⟩
      rw [hrec] at hindex
      obtain rfl : res = .ok index := hindex
      exact ⟨_, rfl⟩

theorem finishBuild_ok {c : Cipher} {io : BuildIo c} (hio : io.Clean) (path : Bytes)
    {sorted : List SstableRecord} {xs : List SealedRecord} {out : OStream}
    (hsorted : xs.map Prod.fst = sorted) (hgood : out.bad = false)
    (hw : out.Wrote ((placeholderHeader xs.length).bytes :: bodyChunks xs))
    {bloom : BloomFilter} (hbloom : BloomFor xs bloom)
    (hsize : (tableFile xs bloom).length < 2 ^ 63) :
    ∃ m, (finishBuild io path sorted (layout 48 xs) out).1 = .ok m := by
  have hlen : sorted.length = xs.length := by rw [← hsorted, List.length_map]
  have hpos := hw.pos hgood
  rw [length_tableFile_eq, tailChunks] at hsize
  simp only [List.flatten_append, List.flatten_cons, List.flatten_nil, List.length_append,
    length_header, List.append_nil] at hsize hpos
  obtain ⟨hindex, hindexPos⟩ := OStream.writeAll_none (indexChunks (layout 48 xs)) hgood
    (by omega)
  obtain ⟨hfilter, hfilterPos⟩ := OStream.writeAll_none (bloomChunks bloom) hindex (by omega)
  have hfooterLen : ∀ i b, (footerBytes i b).length
      = (footerBytes (indexOffset xs) (bloomOffset xs)).length := by
    intro i b
    simp [footerBytes, length_appendLe]
  unfold finishBuild
  simp only [hio.failAt, hio.closeFails, map_fst_layout, hlen, show
    (BloomFilter.make (max 64 (xs.length * 10)) 7).addAll (xs.map fun x => x.1.key)
      = .ok bloom from hbloom, hindex, hfilter, Bool.false_eq_true, if_false, Bool.or_false]
  rw [if_neg]
  · exact ⟨_, rfl⟩
  · rw [Bool.not_eq_true]
    refine (OStream.write_none (OStream.seekp_good (OStream.write_none hfilter ?_).1 0).1 ?_).1
    · rw [hfooterLen]
      omega
    · rw [(OStream.seekp_good (OStream.write_none hfilter (by rw [hfooterLen]; omega)).1 0).2,
        length_header]
      decide

/-- **A build that meets no failure** returns `Ok` and leaves the whole
file. -/
theorem build_ok {c : Cipher} (hc : c.Lawful) {io : BuildIo c} (hio : io.Clean)
    (hcrypto : ∀ rand p, (c.encrypt rand p).isSome) (path : Bytes)
    (records : List SstableRecord) (hne : records ≠ [])
    (hfit : ∀ r ∈ latestRecords records, r.key.length < 2 ^ 16 ∧ r.value.length < 2 ^ 32)
    (hroom : 200 + 2 * ((latestRecords records).map fun r =>
      59 + (r.key.length + r.value.length)).sum < 2 ^ 63) :
    ∃ out xs bloom, SstableBuilder.build c io path records
        = (.ok (metaOf path (latestRecords records)), some out) ∧
      xs.map Prod.fst = latestRecords records ∧ SealedBy c xs ∧ BloomFor xs bloom ∧
      Finished xs bloom out.calls := by
  have hbuild : ∃ m out, SstableBuilder.build c io path records = (.ok m, some out) := by
    unfold SstableBuilder.build
    rw [if_neg hne, hio.createDirectories]
    dsimp only
    rw [hio.openFails, if_neg (by simp), hio.failAt]
    obtain ⟨hgood, hpos⟩ := @OStream.write_none {} rfl
      (placeholderHeader (latestRecords records).length).bytes (by rw [length_header]; decide)
    rw [length_header, Nat.zero_add] at hpos
    obtain ⟨index, hindex⟩ := writeRecords_ok hc hio.failAt hcrypto (latestRecords records) 0 _
      hgood hfit (by rw [hpos]; omega)
    have hw := ((OStream.Wrote.empty.write none
      (placeholderHeader (latestRecords records).length).bytes).resolve_left
        (by simp [hgood])).2.2
    obtain ⟨more, hmore, hspec⟩ := writeRecords_spec c io (latestRecords records) 0 _ _ hw
    rcases hrec : writeRecords c io (latestRecords records) 0 (OStream.write none {}
      (placeholderHeader (latestRecords records).length).bytes) with ⟨res, out'⟩
    rw [hrec] at hindex hspec hmore
    obtain rfl : res = .ok index := hindex
    obtain ⟨hgood', xs, hxs, rfl, hsealed, hindex⟩ := hspec index rfl hgood
    simp only [List.nil_append, List.flatten_cons, List.flatten_nil, List.append_nil,
      length_header] at hindex
    rw [← hxs, List.map_map] at hroom
    have hroom : 200 + 2 * (xs.map fun x => 59 + (x.1.key.length + x.1.value.length)).sum
        < 2 ^ 63 := hroom
    have hlength := length_le_sum xs
    obtain ⟨bloom, hbloom, -⟩ := (BloomFilter.make_fit (max 64 (xs.length * 10)) 7
      (by omega) (by omega)).addAll (xs.map fun x => x.1.key)
    have hfile := length_tableFile hc hsealed hbloom (by omega)
    obtain ⟨m, hm⟩ := finishBuild_ok hio path hxs hgood' (by
      rw [← hxs, List.length_map] at hmore; exact hmore) hbloom (by omega)
    exact ⟨m, _, by dsimp only; rw [hindex, hm]⟩
  obtain ⟨m, out, hbuild⟩ := hbuild
  rcases build_calls hbuild with
    ⟨-, e, he⟩ | ⟨xs, bloom, hxs, hsealed, hbloom, hfin, -, hmeta⟩
  · cases he
  · obtain rfl := hmeta m rfl
    exact ⟨out, xs, bloom, hbuild, hxs, hsealed, hbloom, hfin⟩

end VaultKV
