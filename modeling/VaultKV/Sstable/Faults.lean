import VaultKV.Sstable.RoundTrip

/-!
# Sstable — damaged and unfinished files, failing devices

A device that fails while a table is read can only make the read fail:
what a reader did get, it gets from a sound device too (`open_reliable`,
`readRecordAt_reliable`). A file whose build was cut short never opens,
whatever the device does (`open_unfinished`). A build of records that fit
fails for no reason of its own (`build_error`).
-/

namespace VaultKV

open Lib

/-! ## Devices that fail while reading -/

theorem readRaw_reliable {s s' : IStream} {n v : Nat} (h : readRaw n s = some (v, s')) :
    readRaw n s.reliable = some (v, s'.reliable) := by
  unfold readRaw at h ⊢
  cases hr : s.read n with
  | none => rw [hr] at h; cases h
  | some x =>
      obtain ⟨b, s₁⟩ := x
      rw [hr] at h
      rw [IStream.read_reliable hr]
      simp only [Option.some.injEq, Prod.mk.injEq] at h ⊢
      exact ⟨h.1, by rw [h.2]⟩

theorem readIndex_reliable {n : Nat} : ∀ {s s' : IStream} {index : List IndexEntry},
    readIndex n s = .ok (index, s') → readIndex n s.reliable = .ok (index, s'.reliable) := by
  induction n with
  | zero =>
      intro s s' index h
      obtain ⟨rfl, rfl⟩ := Prod.mk.inj (Except.ok.inj h)
      rfl
  | succ n ih =>
      intro s s' index h
      rw [readIndex] at h ⊢
      cases h1 : readRaw 2 s with
      | none => rw [h1] at h; cases h
      | some x =>
          obtain ⟨keyLen, s₁⟩ := x
          rw [h1] at h
          rw [readRaw_reliable h1]
          dsimp only at h ⊢
          cases h2 : s₁.read keyLen with
          | none => rw [h2] at h; cases h
          | some x =>
              obtain ⟨key, s₂⟩ := x
              rw [h2] at h
              rw [IStream.read_reliable h2]
              dsimp only at h ⊢
              cases h3 : readRaw 8 s₂ with
              | none => rw [h3] at h; cases h
              | some x =>
                  obtain ⟨off, s₃⟩ := x
                  rw [h3] at h
                  rw [readRaw_reliable h3]
                  dsimp only at h ⊢
                  cases h4 : readIndex n s₃ with
                  | error e => rw [h4] at h; cases h
                  | ok x =>
                      obtain ⟨index', s₄⟩ := x
                      rw [h4] at h
                      rw [ih h4]
                      obtain ⟨rfl, rfl⟩ := Prod.mk.inj (Except.ok.inj h)
                      rfl

theorem readBloom_reliable {s : IStream} {f : BloomFilter} (h : readBloom s = .ok f) :
    readBloom s.reliable = .ok f := by
  unfold readBloom at h ⊢
  cases h1 : readRaw 8 s with
  | none => simp only [h1] at h; cases h
  | some x =>
      obtain ⟨bitCount, s₁⟩ := x
      simp only [h1] at h
      simp only [readRaw_reliable h1]
      cases h2 : readRaw 4 s₁ with
      | none => simp only [h2] at h; cases h
      | some x =>
          obtain ⟨hashCount, s₂⟩ := x
          simp only [h2] at h
          simp only [readRaw_reliable h2]
          cases h3 : readRaw 8 s₂ with
          | none => simp only [h3] at h; cases h
          | some x =>
              obtain ⟨byteLen, s₃⟩ := x
              simp only [h3] at h
              simp only [readRaw_reliable h3]
              by_cases hlen : 2 ^ 63 - 1 < byteLen
              · simp only [if_pos hlen] at h; cases h
              simp only [if_neg hlen] at h ⊢
              cases h4 : s₃.read byteLen with
              | none => simp only [h4] at h; cases h
              | some x =>
                  simp only [h4] at h
                  simp only [IStream.read_reliable h4]
                  exact h

/-- **A reader that opened** opens the same on a sound device. -/
theorem open_reliable {io : ReadIo} {path : Bytes} {file : Option Bytes}
    {rd : SstableReader} (h : SstableReader.open io path file = .ok rd) :
    SstableReader.open {} path file = .ok rd := by
  cases file with
  | none => cases h
  | some bytes =>
      unfold SstableReader.open at h ⊢
      by_cases hopen : io.openFails = true
      · simp only [if_pos hopen] at h; cases h
      simp only [if_neg hopen] at h
      have hofile : IStream.ofFile bytes none = (IStream.ofFile bytes io.budget).reliable := rfl
      simp only [Bool.false_eq_true, if_false, hofile]
      cases h1 : (IStream.ofFile bytes io.budget).read 48 with
      | none => simp only [h1] at h; cases h
      | some x =>
          obtain ⟨b, s₁⟩ := x
          simp only [h1] at h
          simp only [IStream.read_reliable h1]
          by_cases hmagic : b.take 8 ≠ kSstMagic
          · simp only [if_pos hmagic] at h; cases h
          simp only [if_neg hmagic] at h ⊢
          by_cases hversion : (Header.ofBytes b).version ≠ kSstVersion
          · simp only [if_pos hversion] at h; cases h
          simp only [if_neg hversion] at h ⊢
          cases h2 : readRaw 8 (s₁.seekg (Header.ofBytes b).indexOffset) with
          | none => simp only [h2] at h; cases h
          | some x =>
              obtain ⟨count, s₂⟩ := x
              simp only [h2] at h
              simp only [← IStream.reliable_seekg, readRaw_reliable h2]
              by_cases hcount : maxIndexEntries < count
              · simp only [if_pos hcount] at h; cases h
              simp only [if_neg hcount] at h ⊢
              cases h3 : readIndex count s₂ with
              | error e => simp only [h3] at h; cases h
              | ok x =>
                  obtain ⟨index, s₃⟩ := x
                  simp only [h3] at h
                  simp only [readIndex_reliable h3, ← IStream.reliable_seekg]
                  cases h4 : readBloom (s₃.seekg (Header.ofBytes b).bloomOffset) with
                  | error e => simp only [h4] at h; cases h
                  | ok bloom =>
                      simp only [h4] at h
                      simp only [readBloom_reliable h4]
                      exact h

theorem readRecordHeader_reliable {s s' : IStream} {x : Nat × Nat × Nat × Nat × Nat}
    (h : readRecordHeader s = some (x, s')) :
    readRecordHeader s.reliable = some (x, s'.reliable) := by
  unfold readRecordHeader at h ⊢
  cases h1 : readRaw 2 s with
  | none => simp only [h1] at h; cases h
  | some x1 =>
      simp only [h1] at h
      simp only [readRaw_reliable h1]
      cases h2 : readRaw 4 x1.2 with
      | none => simp only [h2] at h; cases h
      | some x2 =>
          simp only [h2] at h
          simp only [readRaw_reliable h2]
          cases h3 : readRaw 8 x2.2 with
          | none => simp only [h3] at h; cases h
          | some x3 =>
              simp only [h3] at h
              simp only [readRaw_reliable h3]
              cases h4 : readRaw 1 x3.2 with
              | none => simp only [h4] at h; cases h
              | some x4 =>
                  simp only [h4] at h
                  simp only [readRaw_reliable h4]
                  cases h5 : readRaw 4 x4.2 with
                  | none => simp only [h5] at h; cases h
                  | some x5 =>
                      simp only [h5, Option.some.injEq, Prod.mk.injEq] at h
                      simp only [readRaw_reliable h5, Option.some.injEq, Prod.mk.injEq]
                      exact ⟨h.1, by rw [h.2]⟩

/-- **A record that was read** is read on a sound device. -/
theorem readRecordAt_reliable {c : Cipher} {io : ReadIo} {file : Option Bytes} {off : Nat}
    {r : SstableRecord} (h : readRecordAt c io file off = .ok r) :
    readRecordAt c {} file off = .ok r := by
  cases file with
  | none => cases h
  | some bytes =>
      unfold readRecordAt at h ⊢
      by_cases hopen : io.openFails = true
      · simp only [if_pos hopen] at h; cases h
      simp only [if_neg hopen] at h
      have hofile : IStream.ofFile bytes none = (IStream.ofFile bytes io.budget).reliable := rfl
      simp only [Bool.false_eq_true, if_false, hofile, ← IStream.reliable_seekg]
      cases h1 : readRecordHeader ((IStream.ofFile bytes io.budget).seekg off) with
      | none => simp only [h1] at h; cases h
      | some x =>
          simp only [h1] at h
          simp only [readRecordHeader_reliable h1]
          cases h2 : x.2.read 12 with
          | none => simp only [h2] at h; cases h
          | some x2 =>
              simp only [h2] at h
              simp only [IStream.read_reliable h2]
              cases h3 : x2.2.read 16 with
              | none => simp only [h3] at h; cases h
              | some x3 =>
                  simp only [h3] at h
                  simp only [IStream.read_reliable h3]
                  cases h4 : x3.2.read x.1.1 with
                  | none => simp only [h4] at h; cases h
                  | some x4 =>
                      simp only [h4] at h
                      simp only [IStream.read_reliable h4]
                      cases h5 : x4.2.read x.1.2.2.2.2 with
                      | none => simp only [h5] at h; cases h
                      | some x5 =>
                          simp only [h5] at h
                          simp only [IStream.read_reliable h5]
                          exact h

/-! ## Damaged records -/

/-- Records of `file` are damaged in `file'`: whatever the index entries
still lead to is what they led to before. -/
def OnlyHarmed (c : Cipher) (file file' : Option Bytes) (index : List IndexEntry) : Prop :=
  ∀ e ∈ index, ∀ r, readRecordAt c {} file' e.offset = .ok r →
    readRecordAt c {} file e.offset = .ok r

theorem OnlyHarmed.refl (c : Cipher) (file : Option Bytes) (index : List IndexEntry) :
    OnlyHarmed c file file index := fun _ _ _ h => h

theorem OnlyHarmed.of_unreadable {c : Cipher} {file file' : Option Bytes}
    {index : List IndexEntry}
    (h : ∀ e ∈ index, readRecordAt c {} file' e.offset = readRecordAt c {} file e.offset ∨
      (readRecordAt c {} file' e.offset).isOk = false) : OnlyHarmed c file file' index := by
  intro e he r hr
  rcases h e he with hsame | hbad
  · rw [← hsame, hr]
  · rw [hr] at hbad
    cases hbad

/-- `ReadRecordAt` fails with a status. -/
theorem readRecordAt_error {c : Cipher} {io : ReadIo} {file : Option Bytes} {off : Nat}
    {err : Err} (h : readRecordAt c io file off = .error err) : ∃ s, err = .status s := by
  unfold readRecordAt at h
  repeat' split at h
  all_goals first
    | exact ⟨_, (Except.error.inj h).symm⟩
    | cases h

/-- Over damaged records and a failing device `AllRecords` lists some of the
table's records. -/
theorem allFrom_sublist {c : Cipher} {file : Bytes} {file' : Option Bytes}
    {index : List IndexEntry} {rs : List SstableRecord}
    (h : List.Forall₂ (LeadsTo c file) index rs)
    (hharmed : OnlyHarmed c (some file) file' index) (ios : Nat → ReadIo) :
    ∀ i, (SstableReader.allFrom c ios file' i index).Sublist rs := by
  induction h with
  | nil => intro i; exact List.Sublist.slnil
  | @cons e r index rs hhead _ ih =>
      intro i
      have hrest := ih fun e' he' => hharmed e' (List.mem_cons_of_mem _ he')
      rw [SstableReader.allFrom]
      cases hr : readRecordAt c (ios i) file' e.offset with
      | error err => exact (hrest (i + 1)).cons r
      | ok r' =>
          have hsame := hharmed e List.mem_cons_self r' (readRecordAt_reliable hr)
          obtain rfl : r = r' := Except.ok.inj (hhead.read.symm.trans hsame)
          exact (hrest (i + 1)).cons_cons r

/-! ## Unfinished files -/

/-- The header has been written a second time: the offset of the index is
there, for which the first one has zero. -/
def HeaderWritten (file : Bytes) : Prop :=
  48 ≤ file.length ∧ readLe 8 (file.drop 24) ≠ 0

instance (file : Bytes) : Decidable (HeaderWritten file) := inferInstanceAs (Decidable (_ ∧ _))

/-- **A file that opens has its header written.** With the offset zero the
magic is read as the number of index entries, which is more than a vector
can hold. -/
theorem headerWritten_of_open {io : ReadIo} {path file : Bytes} {rd : SstableReader}
    (h : SstableReader.open io path (some file) = .ok rd) : HeaderWritten file := by
  have h := open_reliable h
  have hread : (IStream.ofFile file none).read 48
      = if file.length < 0 + 48 then none
        else some (slice file 0 48, ⟨file, file.drop (0 + 48), none, false⟩) :=
    IStream.read_at (i := 0) (.inr (by decide))
  simp only [SstableReader.open, Bool.false_eq_true, if_false, hread] at h
  by_cases hshort : file.length < 0 + 48
  · rw [if_pos hshort] at h
    cases h
  rw [if_neg hshort] at h
  refine ⟨by omega, fun hzero => ?_⟩
  dsimp only at h
  have hoffset : (Header.ofBytes (slice file 0 48)).indexOffset = 0 := by
    show readLe 8 ((file.take 48).drop 24) = 0
    rw [List.drop_take, readLe, List.take_take]
    exact hzero
  by_cases hmagic : (slice file 0 48).take 8 ≠ kSstMagic
  · rw [if_pos hmagic] at h
    cases h
  rw [if_neg hmagic] at h
  split at h
  · cases h
  have hcount : readRaw 8 (IStream.seekg 0 ⟨file, file.drop (0 + 48), none, false⟩)
      = if file.length < 0 + 8 then none
        else some (readLe 8 (file.drop 0), ⟨file, file.drop (0 + 8), none, false⟩) :=
    readRaw_at (i := 0) (by decide)
  have hmany : readLe 8 (file.drop 0) = leNat kSstMagic := by
    rw [← not_ne_iff.mp hmagic]
    show leNat (file.take 8) = leNat ((file.take 48).take 8)
    rw [List.take_take]
    rfl
  rw [hoffset, hcount, if_neg (by omega), hmany] at h
  dsimp only at h
  rw [if_pos (by decide)] at h
  cases h

theorem Unfinished.not_headerWritten {calls : List WriteCall} (h : Unfinished calls) :
    ¬ HeaderWritten (effect calls) := by
  rintro ⟨hlen, hoffset⟩
  rcases effect_unfinished h with hempty | ⟨n, rest, hfile⟩
  · rw [hempty] at hlen
    cases hlen
  · refine hoffset ?_
    rw [hfile]
    -- the bytes behind the magic, the version, the flags and the key count
    have h24 : ((placeholderHeader n).bytes ++ rest).drop 24
        = appendLe 8 0 ++ (appendLe 8 0 ++ (appendLe 8 0 ++ rest)) := by
      simp [Header.bytes, placeholderHeader, kSstMagic, appendLe, leBytes]
    exact readLe_step h24 (by decide)

/-- **A file whose build was cut short never opens.** -/
theorem open_unfinished {calls : List WriteCall} (h : Unfinished calls) (io : ReadIo)
    (path : Bytes) : ∃ e, SstableReader.open io path (some (effect calls)) = .error e := by
  cases hres : SstableReader.open io path (some (effect calls)) with
  | error e => exact ⟨e, rfl⟩
  | ok rd => exact absurd (headerWritten_of_open hres) h.not_headerWritten

/-- **A file that opens as soon as its header is written.** -/
def SoundFile (file : Bytes) : Prop :=
  HeaderWritten file → ∀ path, (SstableReader.open {} path (some file)).isOk = true

/-- Whatever fails in a build, and however many of its write calls are on
disk, the file is sound. -/
theorem sound_of_build {c : Cipher} {io : BuildIo c} {path : Bytes}
    {records : List SstableRecord} {res : Res SstableMeta} {out : OStream}
    (hbuild : SstableBuilder.build c io path records = (res, some out)) (n : Nat) :
    SoundFile (effect (out.calls.take n)) := by
  intro hheader path'
  rcases build_calls hbuild with ⟨hun, -⟩ | ⟨xs, bloom, -, hsealed, hbloom, hfin, hsize, -⟩
  · exact absurd hheader (hun.take n).not_headerWritten
  · by_cases hn : n < out.calls.length
    · exact absurd hheader (hfin.take hn).not_headerWritten
    · rw [List.take_of_length_le (by omega), effect_finished hfin]
      have hlaid : Laid c (tableFile xs bloom) xs bloom := ⟨rfl, hsealed, hbloom, hsize⟩
      rw [hlaid.opens path']
      rfl

/-! ## Builds that fail -/

theorem writeRecords_error {c : Cipher} (hcrypto : ∀ rand p, (c.encrypt rand p).isSome)
    (io : BuildIo c) (rs : List SstableRecord) :
    ∀ i out e, (∀ r ∈ rs, r.key.length < 2 ^ 16 ∧ r.value.length < 2 ^ 32) →
      (writeRecords c io rs i out).1 = .error e →
      e = Status.ioError "failed writing sstable record" := by
  induction rs with
  | nil => intro i out e _ h; cases h
  | cons r rs ih =>
      intro i out e hfit h
      obtain ⟨hkey, hval⟩ := hfit r List.mem_cons_self
      obtain ⟨blob, hblob⟩ := Option.isSome_iff_exists.mp (hcrypto (io.rand i) r.value)
      rw [writeRecords, if_neg (by omega), if_neg (by omega), hblob] at h
      dsimp only at h
      by_cases hbad : (out.writeAll io.failAt (recordChunks r blob)).bad = true
      · rw [if_pos hbad] at h
        exact (Except.error.inj h).symm
      rw [if_neg hbad] at h
      rcases hrec : writeRecords c io rs (i + 1)
        (out.writeAll io.failAt (recordChunks r blob)) with ⟨res, out'⟩
      rw [hrec] at h
      cases res with
      | ok index => cases h
      | error e' =>
          obtain rfl : e' = e := Except.error.inj h
          exact ih (i + 1) _ e' (fun r' hr' => hfit r' (List.mem_cons_of_mem _ hr'))
            (by rw [hrec])

theorem finishBuild_error {c : Cipher} (io : BuildIo c) (path : Bytes)
    (sorted : List SstableRecord) (xs : List SealedRecord) (out : OStream)
    (hsorted : xs.map Prod.fst = sorted) (hgood : out.bad = false)
    (hw : out.Wrote ((placeholderHeader xs.length).bytes :: bodyChunks xs)) {e : Err}
    (h : (finishBuild io path sorted (layout 48 xs) out).1 = .error e) :
    ∃ msg, e = Status.ioError msg := by
  have hlen : sorted.length = xs.length := by rw [← hsorted, List.length_map]
  unfold finishBuild at h
  dsimp only at h
  split at h
  · exact ⟨_, (Except.error.inj h).symm⟩
  rw [map_fst_layout, hlen] at h
  -- what was written is below the largest file size, so the filter can be filled
  have hsmall : 47 * xs.length < 2 ^ 63 := by
    have hfits := hw.fits hgood
    have hpos := hw.pos hgood
    have hbody := length_body_ge xs
    rw [List.flatten_cons, List.length_append] at hpos
    omega
  obtain ⟨bloom, hbloom, -⟩ := (BloomFilter.make_fit (max 64 (xs.length * 10)) 7
    (by omega) (by omega)).addAll (xs.map fun x => x.1.key)
  rw [hbloom] at h
  dsimp only at h
  split at h
  · exact ⟨_, (Except.error.inj h).symm⟩
  · split at h
    · exact ⟨_, (Except.error.inj h).symm⟩
    · cases h

/-- **A build of records that fit** fails with an I/O error if it fails. -/
theorem build_error {c : Cipher} (hcrypto : ∀ rand p, (c.encrypt rand p).isSome)
    {io : BuildIo c} {path : Bytes} {records : List SstableRecord} (hne : records ≠ [])
    (hfit : ∀ r ∈ latestRecords records, r.key.length < 2 ^ 16 ∧ r.value.length < 2 ^ 32)
    {e : Err} (h : (SstableBuilder.build c io path records).1 = .error e) :
    ∃ msg, e = Status.ioError msg := by
  have hsorted := latestRecords_ne_nil hne
  unfold SstableBuilder.build at h
  rw [if_neg hne] at h
  cases hdir : io.createDirectories with
  | some err =>
      rw [hdir] at h
      exact ⟨_, (Except.error.inj h).symm⟩
  | none =>
  rw [hdir] at h
  dsimp only at h
  by_cases hopen : io.openFails = true
  · rw [if_pos hopen] at h
    exact ⟨_, (Except.error.inj h).symm⟩
  rw [if_neg hopen] at h
  generalize latestRecords records = sorted at h hsorted hfit
  rcases hrec : writeRecords c io sorted 0
    (OStream.write io.failAt {} (placeholderHeader sorted.length).bytes) with ⟨res, out⟩
  rw [hrec] at h
  cases res with
  | error err =>
      obtain rfl : err = e := Except.error.inj h
      exact ⟨_, writeRecords_error hcrypto io sorted 0 _ err hfit (by rw [hrec])⟩
  | ok index =>
  rcases OStream.Wrote.empty.write io.failAt (placeholderHeader sorted.length).bytes with
    ⟨hbad, -⟩ | ⟨-, hgood, hw⟩
  · obtain ⟨e', he'⟩ := (writeRecords_bad c io sorted 0 hbad).2 hsorted
    rw [hrec] at he'
    cases he'
  · obtain ⟨more, hmore, hspec⟩ := writeRecords_spec c io sorted 0 _ _ hw
    rw [hrec] at hmore hspec
    obtain ⟨hgood', xs, hxs, rfl, -, hindex⟩ := hspec index rfl hgood
    simp only [List.nil_append, List.flatten_cons, List.flatten_nil, List.append_nil,
      length_header] at hindex
    have hlen : sorted.length = xs.length := by rw [← hxs, List.length_map]
    rw [hlen] at hmore
    rw [hindex] at h
    exact finishBuild_error io path sorted xs out hxs hgood' hmore h

end VaultKV
