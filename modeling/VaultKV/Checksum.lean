import VaultKV.Util
import VaultKV.Lib.Crc

/-!
# Checksum — what `crc32` computes

A round of the loop is eight shifts of the register with the byte mixed in
(`crcByte_eq`): the table only looks them up. So the checksum is the one that
takes the data bit by bit (`crc32Bitwise`). A shift loses nothing, so two
registers that differ stay different through any further bytes, and two
different bytes make them differ.
-/

namespace VaultKV

open Lib

/-! ## One byte -/

/-- The source tests the lowest bit with a mask. -/
theorem crcShift_eq : crcShift = Crc.shift 0xEDB88320#32 := by
  funext c
  have hlow : c &&& 1#32 = BitVec.setWidth 32 (BitVec.ofBool (c.getLsbD 0)) :=
    BitVec.and_one_eq_setWidth_ofBool_getLsbD
  unfold crcShift Crc.shift
  rw [hlow]
  cases c.getLsbD 0 <;> simp

theorem crcTable_eq : crcTable = (Crc.shift 0xEDB88320#32)^[8] := by
  funext i
  rw [crcTable, crcShift_eq]

theorem crcTable_injective : Function.Injective crcTable := by
  rw [crcTable_eq]
  exact (Crc.shift_injective (by decide)).iterate 8

theorem getLsbD_mask (i : Nat) : (0xFF#32).getLsbD i = decide (i < 8) := by
  rw [BitVec.getLsbD_ofNat, show (255 : Nat) = 2 ^ 8 - 1 from rfl, Nat.testBit_two_pow_sub_one]
  by_cases hi : i < 8
  · simp [hi]; omega
  · simp [hi]

/-- A byte does not reach the bits above the lowest eight. -/
theorem ofNat_byte_shift (b : UInt8) : (BitVec.ofNat 32 b.toNat) >>> 8 = 0#32 := by
  apply BitVec.eq_of_toNat_eq
  have hb := b.toNat_lt
  rw [BitVec.toNat_ushiftRight, BitVec.toNat_ofNat, Nat.mod_eq_of_lt (by omega),
    Nat.shiftRight_eq_div_pow, BitVec.toNat_ofNat]
  omega

/-- **The table looks up eight shifts** of the register with the byte mixed
in. -/
theorem crcByte_eq (c : BitVec 32) (b : UInt8) :
    crcByte c b = crcTable (c ^^^ BitVec.ofNat 32 b.toNat) := by
  have hrest : (c ^^^ BitVec.ofNat 32 b.toNat) >>> 8 = c >>> 8 := by
    rw [BitVec.ushiftRight_xor_distrib, ofNat_byte_shift, BitVec.xor_zero]
  rw [crcByte, ← hrest, crcTable_eq]
  exact (Crc.shift_iterate_lookup (fun i _ => getLsbD_mask i) _).symm

theorem crcByte_left_injective (b : UInt8) : Function.Injective fun c => crcByte c b := by
  intro x y h
  simp only [crcByte_eq] at h
  exact (BitVec.xor_left_inj _).mp (crcTable_injective h)

theorem crcByte_right_injective (c : BitVec 32) : Function.Injective (crcByte c) := by
  intro a b h
  rw [crcByte_eq, crcByte_eq] at h
  have hbytes := congrArg BitVec.toNat ((BitVec.xor_right_inj _).mp (crcTable_injective h))
  have ha := a.toNat_lt
  have hb := b.toNat_lt
  rw [BitVec.toNat_ofNat, BitVec.toNat_ofNat, Nat.mod_eq_of_lt (by omega),
    Nat.mod_eq_of_lt (by omega)] at hbytes
  exact UInt8.toNat_inj.mp hbytes

/-! ## The checksum -/

/-- Registers that differ stay different. -/
theorem foldl_crcByte_injective (data : Bytes) :
    Function.Injective fun c => data.foldl crcByte c := by
  induction data with
  | nil => intro x y h; exact h
  | cons b data ih =>
      intro x y h
      exact crcByte_left_injective b (ih h)

/-- **One changed byte** changes the checksum. -/
theorem crc32_ne_of_byte {front back : Bytes} {a b : UInt8} (h : a ≠ b) :
    crc32 (front ++ a :: back) ≠ crc32 (front ++ b :: back) := by
  intro heq
  have hfold := (BitVec.xor_left_inj _).mp heq
  rw [List.foldl_append, List.foldl_append, List.foldl_cons, List.foldl_cons] at hfold
  exact h (crcByte_right_injective _ (foldl_crcByte_injective back hfold))

/-- A changed byte changes the checksum. -/
theorem crc32_set_ne {p : Bytes} {j : Nat} {b : UInt8} (hj : j < p.length)
    (h : p[j]? ≠ some b) : crc32 (p.set j b) ≠ crc32 p := by
  have hsplit : p.take j ++ p[j] :: p.drop (j + 1) = p := by
    rw [List.getElem_cons_drop, List.take_append_drop]
  have hset : p.set j b = p.take j ++ b :: p.drop (j + 1) := by
    rw [List.set_eq_take_append_cons_drop, if_pos hj]
  intro heq
  have hne : crc32 (p.take j ++ p[j] :: p.drop (j + 1))
      ≠ crc32 (p.take j ++ b :: p.drop (j + 1)) :=
    crc32_ne_of_byte fun hb => h (by rw [← hb, List.getElem?_eq_getElem hj])
  rw [hsplit, ← hset] at hne
  exact hne heq.symm

/-! ## Bit by bit -/

/-- The table as the first call fills it. -/
def crcTableEntries : List (BitVec 32) :=
  (List.range 256).map fun i => crcTable (BitVec.ofNat 32 i)

/-- `crc32` with the lookups of the source. -/
def crc32Indexed (data : Bytes) : BitVec 32 :=
  data.foldl (fun c b =>
    crcTableEntries.getD ((c ^^^ BitVec.ofNat 32 b.toNat) &&& 0xFF#32).toNat 0#32 ^^^ (c >>> 8))
    0xFFFFFFFF#32 ^^^ 0xFFFFFFFF#32

/-- CRC-32, which takes the data one bit at a time. -/
def crc32Bitwise (data : Bytes) : BitVec 32 :=
  Crc.ofBits 0xEDB88320#32 0xFFFFFFFF#32 0xFFFFFFFF#32 (data.flatMap Crc.bitsOf)

-- the check value of CRC-32: the digits 1 to 9
example : crc32Bitwise [49, 50, 51, 52, 53, 54, 55, 56, 57] = 0xCBF43926#32 := by
  decide +kernel

/-- Every index the mask lets through has its entry. -/
theorem crcTableEntries_getD (x : BitVec 32) :
    crcTableEntries.getD (x &&& 0xFF#32).toNat 0#32 = crcTable (x &&& 0xFF#32) := by
  have hlt : (x &&& 0xFF#32).toNat < 256 := by
    rw [BitVec.toNat_and]
    exact Nat.lt_of_le_of_lt Nat.and_le_right (by decide)
  rw [crcTableEntries, List.getD_eq_getElem?_getD, List.getElem?_map,
    List.getElem?_range hlt, Option.map_some, Option.getD_some, BitVec.ofNat_toNat,
    BitVec.setWidth_eq]

theorem crc32Indexed_eq (data : Bytes) : crc32Indexed data = crc32 data := by
  unfold crc32Indexed crc32
  simp only [crcTableEntries_getD]
  rfl

/-- A round takes the eight bits of its byte. -/
theorem foldl_crcByte_eq (data : Bytes) (c : BitVec 32) :
    data.foldl crcByte c = (data.flatMap Crc.bitsOf).foldl (Crc.feed 0xEDB88320#32) c := by
  induction data generalizing c with
  | nil => rfl
  | cons b data ih =>
      rw [List.foldl_cons, List.flatMap_cons, List.foldl_append, ih, crcByte_eq, crcTable_eq,
        Crc.feed_byte (by decide)]

/-- **The table-driven checksum is CRC-32**, with the table looked up by index
or computed, for every byte string. -/
theorem crc32_eq_bitwise (data : Bytes) :
    crc32Indexed data = crc32Bitwise data ∧ crc32 data = crc32Bitwise data := by
  have hbits : crc32 data = crc32Bitwise data := by
    rw [crc32, foldl_crcByte_eq, crc32Bitwise, Crc.ofBits]
  exact ⟨(crc32Indexed_eq data).trans hbits, hbits⟩

end VaultKV
