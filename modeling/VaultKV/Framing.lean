import VaultKV.Protocol
import VaultKV.Lib.Framing

/-!
# Framing — frames on a byte stream

`TryParseFrames` decides by the first bytes of what is left of its buffer,
and bytes that arrive later do not change a decision (`frames`). So its
loop cuts a buffer as the format says (`tryParseFrames_parses`), and what
has been said about cutting any buffer in chunks holds for it.
-/

namespace VaultKV

open Lib

/-- One round of `TryParseFrames` on the bytes `p` that are left. -/
def frameHead (p : Bytes) : Head Frame String :=
  if p.length < kFrameHeaderBytes then .more
  else
    let length := readLe 4 (p.drop 2)
    if kMaxPayloadBytes < length then .bad "payload too large"
    else if p.length < kFrameHeaderBytes + length then .more
    else
      .frame { type := OpType.ofByte (p.getD 0 0), flags := p.getD 1 0,
               payload := slice p kFrameHeaderBytes length } (kFrameHeaderBytes + length)

/-- What a header that is complete says. -/
theorem frameHead_eq {p : Bytes} (h : 6 ≤ p.length) :
    frameHead p =
      if kMaxPayloadBytes < readLe 4 (p.drop 2) then .bad "payload too large"
      else if p.length < 6 + readLe 4 (p.drop 2) then .more
      else .frame { type := OpType.ofByte (p.getD 0 0), flags := p.getD 1 0,
                    payload := slice p 6 (readLe 4 (p.drop 2)) }
            (6 + readLe 4 (p.drop 2)) := by
  unfold frameHead
  rw [if_neg (show ¬ p.length < kFrameHeaderBytes from Nat.not_lt.2 h)]
  rfl

theorem frameHead_short {p : Bytes} (h : p.length < 6) : frameHead p = .more := if_pos h

theorem frameHead_nil : frameHead [] = .more := rfl

theorem le_length_of_frameHead {p : Bytes} (h : frameHead p ≠ .more) : 6 ≤ p.length := by
  by_contra hlt
  exact h (frameHead_short (Nat.not_le.1 hlt))

/-- The length field does not depend on what follows the header. -/
theorem readLength_append {p : Bytes} (h : 6 ≤ p.length) (x : Bytes) :
    readLe 4 ((p ++ x).drop 2) = readLe 4 (p.drop 2) := by
  rw [readLe, readLe, List.drop_append_of_le_length (by omega),
    List.take_append_of_le_length (by rw [List.length_drop]; omega)]

theorem frameHead_frame {p : Bytes} {f : Frame} {n : Nat} (h : frameHead p = .frame f n) :
    n = 6 + readLe 4 (p.drop 2) ∧ n ≤ p.length ∧ readLe 4 (p.drop 2) ≤ kMaxPayloadBytes ∧
      f = { type := OpType.ofByte (p.getD 0 0), flags := p.getD 1 0,
            payload := slice p 6 (readLe 4 (p.drop 2)) } := by
  have hlen := le_length_of_frameHead (p := p) (by rw [h]; simp)
  rw [frameHead_eq hlen] at h
  by_cases hbig : kMaxPayloadBytes < readLe 4 (p.drop 2)
  · rw [if_pos hbig] at h; cases h
  rw [if_neg hbig] at h
  by_cases hshort : p.length < 6 + readLe 4 (p.drop 2)
  · rw [if_pos hshort] at h; cases h
  rw [if_neg hshort] at h
  cases h
  exact ⟨rfl, Nat.not_lt.1 hshort, Nat.not_lt.1 hbig, rfl⟩

theorem frameHead_bad {p : Bytes} {e : String} (h : frameHead p = .bad e) :
    6 ≤ p.length ∧ kMaxPayloadBytes < readLe 4 (p.drop 2) ∧ e = "payload too large" := by
  have hlen := le_length_of_frameHead (p := p) (by rw [h]; simp)
  rw [frameHead_eq hlen] at h
  by_cases hbig : kMaxPayloadBytes < readLe 4 (p.drop 2)
  · rw [if_pos hbig] at h
    cases h
    exact ⟨hlen, hbig, rfl⟩
  · rw [if_neg hbig] at h
    split at h <;> cases h

/-- **The frame format**: its verdicts are final. -/
def frames : Framing UInt8 Frame String where
  head := frameHead
  size_pos h := by rw [(frameHead_frame h).1]; omega
  size_le h := (frameHead_frame h).2.1
  frame_append {p f n} h x := by
    obtain ⟨rfl, hle, hmax, rfl⟩ := frameHead_frame h
    have hlen : 6 ≤ p.length := by omega
    rw [frameHead_eq (by rw [List.length_append]; omega), readLength_append hlen,
      if_neg (Nat.not_lt.2 hmax), if_neg (by rw [List.length_append]; omega),
      slice_append_left hle, List.getD_append _ _ _ _ (by omega),
      List.getD_append _ _ _ _ (by omega)]
  bad_append {p e} h x := by
    obtain ⟨hlen, hbig, rfl⟩ := frameHead_bad h
    rw [frameHead_eq (by rw [List.length_append]; omega), readLength_append hlen, if_pos hbig]

theorem readLength_take {p : Bytes} {n : Nat} (hn : 6 ≤ n) (hle : n ≤ p.length) :
    readLe 4 ((p.take n).drop 2) = readLe 4 (p.drop 2) := by
  have hlen : 6 ≤ (p.take n).length := by rw [List.length_take]; omega
  rw [← readLength_append hlen (p.drop n), List.take_append_drop]

/-- An oversized length shows in the header alone. -/
theorem frameHead_bad_take {p : Bytes} {e : String} (h : frameHead p = .bad e) :
    frameHead (p.take 6) = .bad e := by
  obtain ⟨hlen, hbig, rfl⟩ := frameHead_bad h
  rw [frameHead_eq (by rw [List.length_take]; omega), readLength_take (Nat.le_refl 6) hlen,
    if_pos hbig]

/-- A frame depends on its own bytes only. -/
theorem frameHead_take {p : Bytes} {f : Frame} {n : Nat} (h : frameHead p = .frame f n) :
    frameHead (p.take n) = .frame f n := by
  obtain ⟨hn, hle, hmax, -⟩ := frameHead_frame h
  have hlen : (p.take n).length = n := by rw [List.length_take]; omega
  have hread := readLength_take (show 6 ≤ n by omega) hle
  have hcut : ∃ g, frameHead (p.take n) = .frame g n := by
    rw [frameHead_eq (by omega), hread, if_neg (Nat.not_lt.2 hmax), if_neg (by omega), ← hn]
    exact ⟨_, rfl⟩
  obtain ⟨g, hg⟩ := hcut
  have hfull : frameHead (p.take n ++ p.drop n) = .frame g n := frames.frame_append hg (p.drop n)
  rw [List.take_append_drop, h] at hfull
  rw [hg, hfull]

/-! ## The loop cuts as the format says -/

/-- One round of the loop. -/
theorem parseFrom_succ {buf : Bytes} {offset : Nat} (hle : offset ≤ buf.length) (fuel : Nat) :
    parseFrom buf (fuel + 1) offset =
      match frameHead (buf.drop offset) with
      | .more => (none, [], offset)
      | .bad e => (some e, [], offset)
      | .frame f n =>
          ((parseFrom buf fuel (offset + n)).1, f :: (parseFrom buf fuel (offset + n)).2.1,
            (parseFrom buf fuel (offset + n)).2.2) := by
  have hdrop : (buf.drop offset).length = buf.length - offset := List.length_drop
  rw [parseFrom, show kFrameHeaderBytes = 6 from rfl]
  by_cases hhead : buf.length < offset + 6
  · rw [if_pos hhead, frameHead_short (by omega)]
  rw [if_neg hhead, frameHead_eq (by omega)]
  dsimp only
  by_cases hbig : kMaxPayloadBytes < readLe 4 ((buf.drop offset).drop 2)
  · rw [if_pos hbig, if_pos hbig]
  rw [if_neg hbig, if_neg hbig]
  by_cases hshort : buf.length < offset + (6 + readLe 4 ((buf.drop offset).drop 2))
  · rw [if_pos hshort, if_pos (by omega)]
  · rw [if_neg hshort, if_neg (by omega)]
    have hslice : ∀ n, slice buf (offset + 6) n = slice (buf.drop offset) 6 n := fun n => by
      rw [slice, slice, List.drop_drop]
    rw [hslice]

/-- From every offset the loop cuts what is left of the buffer. -/
theorem parseFrom_splits {p rest : Bytes} {fs : List Frame} {stop : Option String}
    (h : frames.Splits p fs rest stop) :
    ∀ {buf : Bytes} {offset fuel : Nat}, buf.drop offset = p → offset ≤ buf.length →
      p.length ≤ fuel → ∃ o, parseFrom buf fuel offset = (stop, fs, o) ∧ buf.drop o = rest := by
  induction h with
  | @more p hm =>
      intro buf offset fuel hp hle _
      refine ⟨offset, ?_, hp⟩
      cases fuel with
      | zero => rfl
      | succ fuel =>
          have hm : frameHead (buf.drop offset) = .more := by rw [hp]; exact hm
          rw [parseFrom_succ hle, hm]
  | @bad p e hb =>
      intro buf offset fuel hp hle hfuel
      refine ⟨offset, ?_, hp⟩
      have hb : frameHead p = .bad e := hb
      obtain ⟨fuel, rfl⟩ : ∃ n, fuel = n + 1 :=
        ⟨fuel - 1, by have := (frameHead_bad hb).1; omega⟩
      rw [← hp] at hb
      rw [parseFrom_succ hle, hb]
  | @frame p rest f n fs stop hf _ ih =>
      intro buf offset fuel hp hle hfuel
      have hf : frameHead p = .frame f n := hf
      have hpos := frames.size_pos hf
      have hn := frames.size_le hf
      have hlen : p.length = buf.length - offset := by rw [← hp, List.length_drop]
      obtain ⟨fuel, rfl⟩ : ∃ n, fuel = n + 1 := ⟨fuel - 1, by omega⟩
      obtain ⟨o, ho, hrest⟩ := @ih buf (offset + n) fuel (by rw [← hp, List.drop_drop])
        (by omega) (by rw [List.length_drop]; omega)
      refine ⟨o, ?_, hrest⟩
      rw [← hp] at hf
      rw [parseFrom_succ hle, hf]
      show (_, _, _) = _
      rw [ho]

/-- **`TryParseFrames` cuts its buffer as the format says**; on an oversized
length it leaves the buffer alone. -/
theorem tryParseFrames_parses : Framing.Parses frames tryParseFrames := by
  intro buf fs rest stop h
  have hstart : buf.drop 0 = buf := rfl
  obtain ⟨o, ho, hrest⟩ := parseFrom_splits h hstart (Nat.zero_le _) (Nat.le_refl _)
  rw [tryParseFrames, ho]
  cases stop with
  | none =>
      show (none, fs, buf.drop o) = _
      rw [hrest]
      rfl
  | some e => rfl

/-! ## Encoded frames -/

theorem length_bytes (f : Frame) : f.bytes.length = 6 + f.payload.length := by
  simp only [Frame.bytes, encodeFrame, List.length_cons, List.length_append, length_appendLe]
  omega

/-- The length field of an encoded frame. -/
theorem readLength_bytes_of_lt {f : Frame} (hf : f.payload.length < 2 ^ 32) (x : Bytes) :
    readLe 4 ((f.bytes ++ x).drop 2) = f.payload.length := by
  show readLe 4 (appendLe 4 f.payload.length ++ f.payload ++ x) = _
  rw [List.append_assoc, readLe_appendLe hf]

theorem readLength_bytes {f : Frame} (hf : f.payload.length ≤ kMaxPayloadBytes) (x : Bytes) :
    readLe 4 ((f.bytes ++ x).drop 2) = f.payload.length :=
  readLength_bytes_of_lt (lt_of_le_of_lt hf (by decide)) x

/-- A frame that is too large is refused with its header. -/
theorem frameHead_large {f : Frame} (hlarge : kMaxPayloadBytes < f.payload.length)
    (hf : f.payload.length < 2 ^ 32) (x : Bytes) :
    frameHead (f.bytes ++ x) = .bad "payload too large" := by
  have hlen := length_bytes f
  rw [frameHead_eq (by rw [List.length_append]; omega), readLength_bytes_of_lt hf, if_pos hlarge]

/-- An encoded frame at the front of a buffer is found there. -/
theorem frameHead_bytes {f : Frame} (hf : f.payload.length ≤ kMaxPayloadBytes) (x : Bytes) :
    frameHead (f.bytes ++ x) = .frame f f.bytes.length := by
  have hlen := length_bytes f
  rw [frameHead_eq (by rw [List.length_append]; omega), readLength_bytes hf,
    if_neg (Nat.not_lt.2 hf), if_neg (by rw [List.length_append]; omega), hlen]
  have hpayload : slice (f.bytes ++ x) 6 f.payload.length = f.payload := by
    show ((appendLe 4 f.payload.length ++ f.payload ++ x).drop 4).take _ = _
    rw [List.append_assoc, List.drop_left' (length_appendLe ..), List.take_left]
  have htype : (f.bytes ++ x).getD 0 0 = f.type.toByte := rfl
  have hflags : (f.bytes ++ x).getD 1 0 = f.flags := rfl
  rw [hpayload, htype, hflags, OpType.ofByte_toByte]

/-- A frame that has not arrived in full is waited for. -/
theorem frameHead_incomplete {f : Frame} (hf : f.payload.length ≤ kMaxPayloadBytes) {t : Bytes}
    (ht : t <+: f.bytes) (hne : t ≠ f.bytes) : frameHead t = .more := by
  obtain ⟨u, hu⟩ := ht
  have hupos : 0 < u.length := by
    apply List.length_pos_of_ne_nil
    rintro rfl
    rw [List.append_nil] at hu
    exact hne hu
  have hlen : t.length + u.length = 6 + f.payload.length := by
    rw [← length_bytes, ← hu, List.length_append]
  by_cases hshort : t.length < 6
  · exact frameHead_short hshort
  have hread : readLe 4 (t.drop 2) = f.payload.length := by
    have := readLength_bytes hf []
    rwa [List.append_nil, ← hu, readLength_append (by omega)] at this
  rw [frameHead_eq (by omega), hread, if_neg (Nat.not_lt.2 hf), if_pos (by omega)]

/-- Encoded frames, and a part of one more, are cut into the frames. -/
theorem splits_bytes {fs : List Frame} (hfs : ∀ f ∈ fs, f.payload.length ≤ kMaxPayloadBytes)
    {t : Bytes} (ht : frameHead t = .more) :
    frames.Splits (fs.flatMap Frame.bytes ++ t) fs t none := by
  induction fs with
  | nil => exact .more ht
  | cons f fs ih =>
      have hhead := frameHead_bytes (hfs f (List.mem_cons_self ..))
        (fs.flatMap Frame.bytes ++ t)
      rw [List.flatMap_cons, List.append_assoc]
      refine .frame hhead ?_
      rw [List.drop_left]
      exact ih fun g hg => hfs g (List.mem_cons_of_mem _ hg)

/-- **What `TryParseFrames` makes of one encoded frame**: the frame, or an
error if it is too large, and then it stays in the buffer. -/
theorem tryParseFrames_bytes {f : Frame} (hf : f.payload.length < 2 ^ 32) :
    tryParseFrames f.bytes =
      if kMaxPayloadBytes < f.payload.length then (some "payload too large", [], f.bytes)
      else (none, [f], []) := by
  split
  · next hlarge =>
    have hbad := frameHead_large hlarge hf []
    rw [List.append_nil] at hbad
    exact tryParseFrames_parses (.bad hbad)
  · next hfits =>
    have hsplit : frames.Splits ([f].flatMap Frame.bytes ++ []) [f] [] none :=
      splits_bytes (by simpa using hfits) frameHead_nil
    rw [List.append_nil, List.flatMap_singleton] at hsplit
    exact tryParseFrames_parses hsplit

/-! ## Any chunking -/

/-- The calls of `TryParseFrames` on a buffer that grows by one chunk before
each: the buffer in the end, the errors of the calls that returned `false`,
and the frames of the others. -/
def parseChunks (chunks : List Bytes) : Bytes × List String × List Frame :=
  Framing.feed tryParseFrames (fun out f => (out.1, out.2 ++ [f]))
    (fun out err => (out.1 ++ [err], out.2)) [] ([], []) chunks

theorem foldl_push (errs : List String) (fs : List Frame) :
    ∀ done, fs.foldl (fun (out : List String × List Frame) f => (out.1, out.2 ++ [f]))
      (errs, done) = (errs, done ++ fs) := by
  induction fs with
  | nil => intro done; rw [List.append_nil]; rfl
  | cons f fs ih => intro done; rw [List.foldl_cons, ih, List.append_assoc]; rfl

/-- **Framing round trip under any chunking**: however encoded frames, and a
part of one more, are cut into chunks, no call returns `false`, the calls
produce exactly the frames, and the part is left in the buffer. -/
theorem parseChunks_encoded {fs : List Frame}
    (hfs : ∀ f ∈ fs, f.payload.length ≤ kMaxPayloadBytes) {g : Frame}
    (hg : g.payload.length ≤ kMaxPayloadBytes) {t : Bytes} (ht : t <+: g.bytes)
    (hne : t ≠ g.bytes) {chunks : List Bytes}
    (hcut : chunks.flatten = fs.flatMap Frame.bytes ++ t) :
    parseChunks chunks = (t, [], fs) := by
  have hsplit : frames.Splits ([] ++ chunks.flatten) fs t none := by
    rw [List.nil_append, hcut]
    exact splits_bytes hfs (frameHead_incomplete hg ht hne)
  have hstart : frames.head [] = .more := frameHead_nil
  rw [parseChunks, Framing.feed_eq tryParseFrames_parses chunks _ hstart hsplit, foldl_push]
  rfl

/-- A PING and half a header, in chunks of three, two and four bytes. -/
theorem parseChunks_ping :
    parseChunks [[0x01, 0, 0], [0, 0], [0, 0x03, 0, 0x09]]
      = ([0x03, 0, 0x09], [], [⟨.ping, 0, []⟩]) := by
  have hcut : [[0x01, 0, 0], [0, 0], [0, 0x03, 0, 0x09]].flatten
      = [⟨.ping, 0, []⟩].flatMap Frame.bytes ++ [0x03, 0, 0x09] := by decide
  exact parseChunks_encoded (g := ⟨.get, 0, [7, 0, 1, 2, 3, 4, 5, 6, 7]⟩) (by decide) (by decide)
    (by decide) (by decide) hcut

end VaultKV
