import VaultKV.Types

/-!
# Util — integers on the wire, the checksum, size arithmetic (`util.h`, `util.cpp`)
-/

namespace VaultKV

open Lib

/-- `append_le<T>`: the `size` bytes pushed for `value`. -/
def appendLe (size value : Nat) : Bytes := leBytes size value

/-- `read_le<T>`: the value of the first `size` bytes at `inp`. -/
def readLe (size : Nat) (inp : Bytes) : Nat := leNat (inp.take size)

@[simp] theorem length_appendLe (size value : Nat) :
    (appendLe size value).length = size := length_leBytes size value

/-- Reading an integer back from where it was appended. -/
theorem readLe_appendLe {size value : Nat} (h : value < 256 ^ size)
    (rest : Bytes) : readLe size (appendLe size value ++ rest) = value := by
  rw [readLe, appendLe, List.take_append_of_le_length (by simp),
    List.take_of_length_le (by simp), leNat_leBytes h]

/-- An integer under a cursor. -/
theorem readLe_step {p b : Bytes} {i size value : Nat}
    (h : p.drop i = appendLe size value ++ b) (hv : value < 256 ^ size) :
    readLe size (p.drop i) = value := by
  rw [h, readLe_appendLe hv]

/-- An integer that was cut to its width. -/
theorem readLe_step_mod {p b : Bytes} {i size value : Nat}
    (h : p.drop i = appendLe size value ++ b) :
    readLe size (p.drop i) = value % 256 ^ size := by
  rw [h, readLe, List.take_left' (length_appendLe size value), appendLe, leNat_leBytes_mod]

theorem readLe_lt (size : Nat) (inp : Bytes) : readLe size inp < 256 ^ size := by
  refine Nat.lt_of_lt_of_le (leNat_lt _) (Nat.pow_le_pow_right (by decide) ?_)
  rw [List.length_take]
  omega

/-- An integer a changed byte is not in. -/
theorem readLe_set_of_outside {p : Bytes} {j k n : Nat} (b : UInt8)
    (h : j < k ∨ k + n ≤ j) : readLe n ((p.set j b).drop k) = readLe n (p.drop k) := by
  rw [readLe, readLe, field_set_of_outside b h]

/-- An integer the change is in. -/
theorem readLe_set_ne {p : Bytes} {j k n : Nat} {b : UInt8} (hj : j < p.length)
    (hk : k ≤ j) (hn : j < k + n) (h : p[j]? ≠ some b) :
    readLe n ((p.set j b).drop k) ≠ readLe n (p.drop k) := by
  intro heq
  refine slice_set_ne hj hk hn h (leNat_injective ?_ heq)
  rw [slice, slice, field_set_of_inside b hk, List.length_set]

/-! ## `crc32` -/

/-- One of the eight shifts that fill a table entry. -/
def crcShift (c : BitVec 32) : BitVec 32 :=
  if c &&& 1#32 ≠ 0#32 then 0xEDB88320#32 ^^^ (c >>> 1) else c >>> 1

/-- `table[i]`: eight shifts of `i`. -/
def crcTable (i : BitVec 32) : BitVec 32 := crcShift^[8] i

/-- One round of the loop over the data. -/
def crcByte (c : BitVec 32) (b : UInt8) : BitVec 32 :=
  crcTable ((c ^^^ BitVec.ofNat 32 b.toNat) &&& 0xFF#32) ^^^ (c >>> 8)

/-- `crc32(data, len)`. -/
def crc32 (data : Bytes) : BitVec 32 :=
  data.foldl crcByte 0xFFFFFFFF#32 ^^^ 0xFFFFFFFF#32

theorem crc32_toNat_lt (data : Bytes) : (crc32 data).toNat < 256 ^ 4 :=
  (crc32 data).isLt

/-! ## `size_t` arithmetic -/

/-- `a + b` in `uint64_t`. -/
def addU64 (a b : Nat) : Nat := (a + b) % 2 ^ 64

/-- `a - b` in `uint64_t`. -/
def subU64 (a b : Nat) : Nat := (a + (2 ^ 64 - b % 2 ^ 64)) % 2 ^ 64

/-- `format_errno`: the call's name and what `strerror` says. -/
def formatErrno (what err : String) : String := what ++ ": " ++ err

end VaultKV
