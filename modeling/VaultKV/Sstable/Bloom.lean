import VaultKV.Util

/-!
# Sstable — the bloom filter (`SstableReader::BloomFilter`)

A vector of bytes indexed by `hash % bit_count`. The vector's length and
`bit_count` are read from the file INDEPENDENTLY, so an index can lie
outside the vector: such an access is `Err.outOfBounds` here.
-/

namespace VaultKV

open Lib

def hashGamma : UInt64 := 0x9E3779B97F4A7C15

/-- One round of `hash64`. -/
def hashStep (h : UInt64) (c : UInt8) : UInt64 :=
  h ^^^ (c.toUInt64 + hashGamma + (h <<< 6) + (h >>> 2))

/-- `hash64`. -/
def hash64 (s : Bytes) (seed : UInt64) : UInt64 :=
  s.foldl hashStep (seed ^^^ (hashGamma + UInt64.ofNat s.length))

/-- `class BloomFilter`. -/
structure BloomFilter where
  bitCount : Nat
  hashCount : Nat
  bits : Bytes
  deriving DecidableEq

namespace BloomFilter

/-- The constructor: all bits clear. The rounding up is done in
`uint64_t`. -/
def make (bitCount hashCount : Nat) : BloomFilter :=
  ⟨bitCount, hashCount, List.replicate (addU64 bitCount 7 / 8) 0⟩

/-- The bit of the `i`-th hash of a key. -/
def bitOf (f : BloomFilter) (key : Bytes) (i : Nat) : Nat :=
  (hash64 key (0x9e3779b97f4a7c15 + UInt64.ofNat i * 0x100000001b3)).toNat % f.bitCount

def bitsOf (f : BloomFilter) (key : Bytes) : List Nat :=
  (List.range f.hashCount).map (f.bitOf key)

def mask (bit : Nat) : UInt8 := 1 <<< UInt8.ofNat (bit % 8)

/-- `bits_[bit / 8] |= 1u << (bit % 8)`. -/
def setBit (bits : Bytes) (bit : Nat) : Res Bytes :=
  match bits[bit / 8]? with
  | none => .error .outOfBounds
  | some b => .ok (bits.set (bit / 8) (b ||| mask bit))

def setBits (bits : Bytes) : List Nat → Res Bytes
  | [] => .ok bits
  | bit :: rest =>
      match setBit bits bit with
      | .error e => .error e
      | .ok bits' => setBits bits' rest

/-- `BloomFilter::Add`. -/
def add (f : BloomFilter) (key : Bytes) : Res BloomFilter :=
  if f.bitCount = 0 ∨ f.hashCount = 0 then .ok f
  else
    match setBits f.bits (f.bitsOf key) with
    | .error e => .error e
    | .ok bits => .ok { f with bits := bits }

def addAll (f : BloomFilter) : List Bytes → Res BloomFilter
  | [] => .ok f
  | key :: keys =>
      match f.add key with
      | .error e => .error e
      | .ok f' => addAll f' keys

def testBits (bits : Bytes) : List Nat → Res Bool
  | [] => .ok true
  | bit :: rest =>
      match bits[bit / 8]? with
      | none => .error .outOfBounds
      | some b => if b &&& mask bit = 0 then .ok false else testBits bits rest

/-- `BloomFilter::MightContain`. -/
def mightContain (f : BloomFilter) (key : Bytes) : Res Bool :=
  if f.bitCount = 0 ∨ f.hashCount = 0 then .ok true
  else testBits f.bits (f.bitsOf key)

/-! ## No false negatives -/

/-- The bit is inside the vector and set. -/
def IsSet (bits : Bytes) (bit : Nat) : Prop :=
  ∃ b, bits[bit / 8]? = some b ∧ b &&& mask bit ≠ 0

theorem mask_ne_zero (bit : Nat) : mask bit ≠ 0 := by
  have h : ∀ i < 8, (1 : UInt8) <<< UInt8.ofNat i ≠ 0 := by decide
  exact h _ (Nat.mod_lt _ (by decide))

theorem or_and_ne_zero {b m : UInt8} (h : b &&& m ≠ 0) (x : UInt8) :
    (b ||| x) &&& m ≠ 0 := by
  intro hz
  apply h
  apply UInt8.eq_of_toBitVec_eq
  ext i hi
  have hbit := congrArg (fun u : UInt8 => u.toBitVec[i]) hz
  simp only [UInt8.toBitVec_and, UInt8.toBitVec_or, BitVec.getElem_and,
    BitVec.getElem_or] at hbit ⊢
  change _ = (0#8)[i] at hbit
  change _ = (0#8)[i]
  rw [BitVec.getElem_zero] at hbit ⊢
  cases hb : b.toBitVec[i]
  · rfl
  · rw [hb] at hbit; simpa using hbit

theorem setBit_length {bits bits' : Bytes} {bit : Nat} (h : setBit bits bit = .ok bits') :
    bits'.length = bits.length := by
  unfold setBit at h
  cases hb : bits[bit / 8]? with
  | none => rw [hb] at h; cases h
  | some b =>
      rw [hb] at h
      obtain rfl := Except.ok.inj h
      exact List.length_set

theorem setBit_isSet {bits bits' : Bytes} {bit : Nat} (h : setBit bits bit = .ok bits') :
    IsSet bits' bit := by
  unfold setBit at h
  cases hb : bits[bit / 8]? with
  | none => rw [hb] at h; cases h
  | some b =>
      rw [hb] at h
      obtain rfl := Except.ok.inj h
      obtain ⟨hlt, -⟩ := List.getElem?_eq_some_iff.mp hb
      refine ⟨b ||| mask bit, List.getElem?_set_self hlt, ?_⟩
      rw [UInt8.or_comm]
      exact or_and_ne_zero (by rw [UInt8.and_self]; exact mask_ne_zero bit) b

/-- Setting a bit clears none. -/
theorem IsSet.setBit {bits bits' : Bytes} {bit bit' : Nat} (hset : IsSet bits bit)
    (h : setBit bits bit' = .ok bits') : IsSet bits' bit := by
  unfold BloomFilter.setBit at h
  obtain ⟨b, hb, hne⟩ := hset
  cases hb' : bits[bit' / 8]? with
  | none => rw [hb'] at h; cases h
  | some b' =>
      rw [hb'] at h
      obtain rfl := Except.ok.inj h
      by_cases hidx : bit' / 8 = bit / 8
      · rw [hidx] at hb' ⊢
        obtain rfl : b = b' := Option.some.inj (hb.symm.trans hb')
        obtain ⟨hlt, -⟩ := List.getElem?_eq_some_iff.mp hb
        exact ⟨_, List.getElem?_set_self hlt, or_and_ne_zero hne _⟩
      · exact ⟨b, by rw [List.getElem?_set_ne hidx, hb], hne⟩

theorem setBits_spec {l : List Nat} : ∀ {bits bits' : Bytes}, setBits bits l = .ok bits' →
    bits'.length = bits.length ∧ (∀ bit ∈ l, IsSet bits' bit) ∧
      ∀ bit, IsSet bits bit → IsSet bits' bit := by
  induction l with
  | nil =>
      intro bits bits' h
      obtain rfl := Except.ok.inj h
      exact ⟨rfl, by simp, fun _ h => h⟩
  | cons x l ih =>
      intro bits bits' h
      rw [setBits] at h
      cases hx : setBit bits x with
      | error e => rw [hx] at h; cases h
      | ok mid =>
          rw [hx] at h
          obtain ⟨hlen, hall, hkeep⟩ := ih h
          refine ⟨hlen.trans (setBit_length hx), ?_, fun bit hset => hkeep bit (hset.setBit hx)⟩
          intro bit hbit
          rcases List.mem_cons.mp hbit with rfl | hbit
          · exact hkeep _ (setBit_isSet hx)
          · exact hall bit hbit

theorem setBits_ok {l : List Nat} : ∀ {bits : Bytes}, (∀ bit ∈ l, bit / 8 < bits.length) →
    ∃ bits', setBits bits l = .ok bits' := by
  induction l with
  | nil => intro bits _; exact ⟨bits, rfl⟩
  | cons x l ih =>
      intro bits h
      have hx := h x List.mem_cons_self
      have hset : setBit bits x = .ok (bits.set (x / 8) (bits[x / 8] ||| mask x)) := by
        rw [setBit, List.getElem?_eq_getElem hx]
      rw [setBits, hset]
      refine ih ?_
      intro bit hbit
      rw [List.length_set]
      exact h bit (List.mem_cons_of_mem _ hbit)

theorem testBits_of_isSet {bits : Bytes} {l : List Nat} (h : ∀ bit ∈ l, IsSet bits bit) :
    testBits bits l = .ok true := by
  induction l with
  | nil => rfl
  | cons x l ih =>
      obtain ⟨b, hb, hne⟩ := h x List.mem_cons_self
      rw [testBits, hb]
      dsimp only
      rw [if_neg hne]
      exact ih fun bit hbit => h bit (List.mem_cons_of_mem _ hbit)

theorem testBits_ok {bits : Bytes} {l : List Nat} (h : ∀ bit ∈ l, bit / 8 < bits.length) :
    ∃ r, testBits bits l = .ok r := by
  induction l with
  | nil => exact ⟨true, rfl⟩
  | cons x l ih =>
      have hx := h x List.mem_cons_self
      rw [testBits, List.getElem?_eq_getElem hx]
      dsimp only
      by_cases hz : bits[x / 8] &&& mask x = 0
      · rw [if_pos hz]; exact ⟨false, rfl⟩
      · rw [if_neg hz]; exact ih fun bit hbit => h bit (List.mem_cons_of_mem _ hbit)

/-- The vector is as long as the bit count asks for. -/
structure Fit (f : BloomFilter) : Prop where
  pos : 0 < f.bitCount
  length : f.bits.length = (f.bitCount + 7) / 8

theorem Fit.bitsOf {f : BloomFilter} (h : f.Fit) (key : Bytes) :
    ∀ bit ∈ f.bitsOf key, bit / 8 < f.bits.length := by
  intro bit hbit
  obtain ⟨i, -, rfl⟩ := List.mem_map.mp hbit
  have := Nat.mod_lt
    (hash64 key (0x9e3779b97f4a7c15 + UInt64.ofNat i * 0x100000001b3)).toNat h.pos
  rw [h.length, bitOf]
  omega

theorem make_fit (bitCount hashCount : Nat) (hpos : 0 < bitCount)
    (hlt : bitCount + 7 < 2 ^ 64) : (make bitCount hashCount).Fit := by
  refine ⟨hpos, ?_⟩
  rw [make, List.length_replicate, addU64, Nat.mod_eq_of_lt (by omega)]

/-- A query on a filter that fits is answered. -/
theorem Fit.mightContain {f : BloomFilter} (h : f.Fit) (key : Bytes) :
    ∃ r, f.mightContain key = .ok r := by
  unfold BloomFilter.mightContain
  by_cases hz : f.bitCount = 0 ∨ f.hashCount = 0
  · rw [if_pos hz]; exact ⟨true, rfl⟩
  · rw [if_neg hz]; exact testBits_ok (h.bitsOf key)

/-- All bits of the key are set. -/
def Holds (f : BloomFilter) (key : Bytes) : Prop := ∀ bit ∈ f.bitsOf key, IsSet f.bits bit

/-- **No false negatives**: a key whose bits are set is reported. -/
theorem Holds.mightContain {f : BloomFilter} {key : Bytes} (h : f.Holds key) :
    f.mightContain key = .ok true := by
  unfold BloomFilter.mightContain
  by_cases hz : f.bitCount = 0 ∨ f.hashCount = 0
  · rw [if_pos hz]
  · rw [if_neg hz, testBits_of_isSet h]

/-- Adding a key to a filter that fits: it holds the key and what it held. -/
theorem Fit.add {f : BloomFilter} (h : f.Fit) (key : Bytes) :
    ∃ f', f.add key = .ok f' ∧ f'.bitCount = f.bitCount ∧ f'.hashCount = f.hashCount ∧
      f'.bits.length = f.bits.length ∧ f'.Holds key ∧ ∀ k, f.Holds k → f'.Holds k := by
  unfold BloomFilter.add
  by_cases hz : f.bitCount = 0 ∨ f.hashCount = 0
  · rw [if_pos hz]
    have hcount : f.hashCount = 0 := hz.resolve_left h.pos.ne'
    refine ⟨f, rfl, rfl, rfl, rfl, ?_, fun _ hk => hk⟩
    intro bit hbit
    simp [BloomFilter.bitsOf, hcount] at hbit
  · rw [if_neg hz]
    obtain ⟨bits', hbits⟩ := setBits_ok (h.bitsOf key)
    obtain ⟨hlen, hset, hkeep⟩ := setBits_spec hbits
    rw [hbits]
    exact ⟨_, rfl, rfl, rfl, hlen, hset, fun k hk bit hbit => hkeep bit (hk bit hbit)⟩

/-- The filter of a list of keys. -/
theorem Fit.addAll (keys : List Bytes) : ∀ {f : BloomFilter}, f.Fit →
    ∃ f', f.addAll keys = .ok f' ∧ f'.bitCount = f.bitCount ∧ f'.hashCount = f.hashCount ∧
      f'.bits.length = f.bits.length ∧ (∀ k ∈ keys, f'.Holds k) ∧
      ∀ k, f.Holds k → f'.Holds k := by
  induction keys with
  | nil => intro f _; exact ⟨f, rfl, rfl, rfl, rfl, by simp, fun _ hk => hk⟩
  | cons key keys ih =>
      intro f h
      obtain ⟨f', hadd, hbits, hhash, hlen, hkey, hkeep⟩ := h.add key
      have hfit : f'.Fit := ⟨hbits ▸ h.pos, by rw [hlen, hbits, h.length]⟩
      obtain ⟨f'', hall, hbits', hhash', hlen', hkeys, hkeep'⟩ := ih hfit
      rw [BloomFilter.addAll, hadd]
      refine ⟨f'', hall, hbits'.trans hbits, hhash'.trans hhash, hlen'.trans hlen, ?_,
        fun k hk => hkeep' k (hkeep k hk)⟩
      intro k hk
      rcases List.mem_cons.mp hk with rfl | hk
      · exact hkeep' _ hkey
      · exact hkeys k hk

/-! ## Filters of the constructor -/

/-- `set_bytes`. -/
def setBytes (f : BloomFilter) (bytes : Bytes) : BloomFilter := { f with bits := bytes }

/-- A filter without bits or without hashes takes no notice of keys. -/
theorem addAll_idle {f : BloomFilter} (h : f.bitCount = 0 ∨ f.hashCount = 0)
    (keys : List Bytes) : f.addAll keys = .ok f := by
  induction keys with
  | nil => rfl
  | cons key keys ih =>
      have hadd : f.add key = .ok f := if_pos h
      rw [BloomFilter.addAll, hadd]
      exact ih

/-- What a filter is for. After any calls of `Add` it reports the keys added,
rebuilt from its bytes it reports them as well, and no query leaves the
vector. -/
def Reports (bitCount hashCount : Nat) (keys : List Bytes) : Prop :=
  ∃ f, (make bitCount hashCount).addAll keys = .ok f ∧
    (∀ key ∈ keys, f.mightContain key = .ok true ∧
      ((make bitCount hashCount).setBytes f.bits).mightContain key = .ok true) ∧
    ∀ key, f.mightContain key ≠ .error .outOfBounds

theorem reports_idle {bitCount hashCount : Nat} (h : bitCount = 0 ∨ hashCount = 0)
    (keys : List Bytes) : Reports bitCount hashCount keys := by
  have htrue : ∀ bits key, mightContain ⟨bitCount, hashCount, bits⟩ key = .ok true :=
    fun bits key => if_pos h
  refine ⟨make bitCount hashCount, addAll_idle h keys, ?_, ?_⟩
  · intro key _
    exact ⟨htrue _ key, htrue _ key⟩
  · intro key herr
    cases (htrue _ key).symm.trans herr

theorem reports_fit {bitCount hashCount : Nat} (h : (make bitCount hashCount).Fit)
    (keys : List Bytes) : Reports bitCount hashCount keys := by
  obtain ⟨f, hadd, hbits, hhash, hlen, hkeys, -⟩ := h.addAll keys
  have hsame : (make bitCount hashCount).setBytes f.bits = f := by
    obtain ⟨_, _, bits⟩ := f
    cases hbits
    cases hhash
    rfl
  have hfit : f.Fit := ⟨hbits ▸ h.pos, by rw [hlen, hbits, h.length]⟩
  refine ⟨f, hadd, ?_, ?_⟩
  · intro key hkey
    rw [hsame]
    exact ⟨(hkeys key hkey).mightContain, (hkeys key hkey).mightContain⟩
  · intro key herr
    obtain ⟨r, hr⟩ := hfit.mightContain key
    cases hr.symm.trans herr

/-- Rounding up wraps for the seven largest bit counts: the vector is EMPTY. -/
theorem bits_make_wrapped {bitCount : Nat} (hbits : bitCount < 2 ^ 64)
    (hwrap : 2 ^ 64 ≤ bitCount + 7) (hashCount : Nat) : (make bitCount hashCount).bits = [] := by
  have hnone : addU64 bitCount 7 / 8 = 0 := by
    rw [addU64]
    omega
  rw [make, hnone]
  rfl

/-- Then every query is out of the vector. -/
theorem mightContain_wrapped {bitCount hashCount : Nat} (hbits : bitCount < 2 ^ 64)
    (hwrap : 2 ^ 64 ≤ bitCount + 7) (hhash : hashCount ≠ 0) (key : Bytes) :
    (make bitCount hashCount).mightContain key = .error .outOfBounds := by
  have hpos : ¬ ((make bitCount hashCount).bitCount = 0 ∨
      (make bitCount hashCount).hashCount = 0) := by
    show ¬ (bitCount = 0 ∨ hashCount = 0)
    omega
  rw [mightContain, if_neg hpos, bits_make_wrapped hbits hwrap, bitsOf]
  obtain ⟨n, rfl⟩ := Nat.exists_eq_succ_of_ne_zero hhash
  show testBits [] ((List.range (n + 1)).map _) = _
  rw [List.range_succ_eq_map, List.map_cons, testBits]
  rfl

/-- **No false negatives**, and no access outside the vector, for every
sequence of additions: exactly when the bit count can be rounded up to bytes
in 64 bits, or there are no hashes. -/
theorem no_false_negatives_iff (bitCount hashCount : Nat) (hbits : bitCount < 2 ^ 64) :
    (∀ keys, Reports bitCount hashCount keys) ↔ hashCount = 0 ∨ bitCount + 7 < 2 ^ 64 := by
  constructor
  · intro hall
    by_contra hcond
    obtain ⟨hhash, hwrap⟩ := not_or.mp hcond
    -- no key is added, so the filter is the constructor's
    obtain ⟨f, hadd, -, hsafe⟩ := hall []
    cases hadd
    exact hsafe [] (mightContain_wrapped hbits (Nat.not_lt.mp hwrap) hhash [])
  · intro hcond keys
    by_cases hz : bitCount = 0 ∨ hashCount = 0
    · exact reports_idle hz keys
    · have hpos := not_or.mp hz
      exact reports_fit (make_fit bitCount hashCount (Nat.pos_of_ne_zero hpos.1)
        (hcond.resolve_left hpos.2)) keys

/-- Three hashes into ten bits, which are not whole bytes. -/
theorem tenBits_reports :
    (10 : Nat) < 2 ^ 64 ∧ ∀ keys, Reports 10 3 keys :=
  ⟨by decide, (no_false_negatives_iff 10 3 (by decide)).mpr (Or.inr (by decide))⟩

/-- **The largest bit count**: the vector of the filter is empty, `Add` writes
outside it and `MightContain` reads outside it. -/
theorem largestBitCount_out_of_bounds :
    (make (2 ^ 64 - 1) 1).bits = [] ∧
    (make (2 ^ 64 - 1) 1).add [97] = .error .outOfBounds ∧
    (make (2 ^ 64 - 1) 1).mightContain [97] = .error .outOfBounds ∧
    ¬ Reports (2 ^ 64 - 1) 1 [[97]] := by
  have hadd : (make (2 ^ 64 - 1) 1).add [97] = .error .outOfBounds := by decide +kernel
  refine ⟨by decide +kernel, hadd, by decide +kernel, ?_⟩
  rintro ⟨f, hall, -⟩
  rw [addAll, hadd] at hall
  cases hall

end BloomFilter

end VaultKV
