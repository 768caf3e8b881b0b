import Mathlib.Data.Nat.Bitwise
import Mathlib.Tactic.Ring

/-!
# The binary serialization format (`libkern/libkern/OSSerializeBinary.h`)

A serialized object is a four-byte signature followed by records. Each record starts with a
32-bit key: the type in bits 24–30, a 24-bit length or count below, and bit 31
(`kOSSerializeEndCollecton`) set on the last element of a collection. Keys are plain `Nat`s
here, with the source's `|` and `&`; the lemmas take a key built as `2^31 * e + 2^24 * t + len`
apart again.
-/

namespace Libkern.Binary

def kOSSerializeDictionary : Nat := 0x01000000
def kOSSerializeArray : Nat := 0x02000000
def kOSSerializeSet : Nat := 0x03000000
def kOSSerializeNumber : Nat := 0x04000000
def kOSSerializeSymbol : Nat := 0x08000000
def kOSSerializeString : Nat := 0x09000000
def kOSSerializeData : Nat := 0x0a000000
def kOSSerializeBoolean : Nat := 0x0b000000
def kOSSerializeObject : Nat := 0x0c000000
def kOSSerializeTypeMask : Nat := 0x7F000000
def kOSSerializeDataMask : Nat := 0x00FFFFFF
def kOSSerializeEndCollecton : Nat := 0x80000000

/-- `kOSSerializeBinarySignature` is `"\323\0\0"`; `sizeof` counts its terminating NUL. -/
def kOSSerializeBinarySignature : List UInt8 := [0xD3, 0, 0, 0]

def kOSSerializeIndexedBinarySignature : Nat := 0xD4

/-! ## Taking a key apart -/

section Keys
open Nat

variable {e t len : Nat}

theorem or_eq_add_of_lt {a b : Nat} (i : Nat) (hb : b < 2 ^ i) : 2 ^ i * a ||| b = 2 ^ i * a + b :=
  (two_pow_add_eq_or_of_lt hb a).symm

/-- The key of a record whose type number is `t` and whose length is `len`. -/
theorem tag_or_len (hl : len < 2 ^ 24) : 2 ^ 24 * t ||| len = 2 ^ 24 * t + len :=
  or_eq_add_of_lt 24 hl

/-- Setting the end bit on a key. -/
theorem key_or_end {key : Nat} (hk : key < 2 ^ 31) : key ||| kOSSerializeEndCollecton = 2 ^ 31 * 1 + key := by
  rw [Nat.lor_comm, show kOSSerializeEndCollecton = 2 ^ 31 * 1 by rfl, or_eq_add_of_lt 31 hk]

theorem key_dataMask (hl : len < 2 ^ 24) : (2 ^ 31 * e + 2 ^ 24 * t + len) &&& kOSSerializeDataMask = len := by
  rw [show kOSSerializeDataMask = 2 ^ 24 - 1 by rfl, and_two_pow_sub_one_eq_mod]
  omega

theorem key_typeMask (ht : t < 2 ^ 7) (hl : len < 2 ^ 24) :
    kOSSerializeTypeMask &&& (2 ^ 31 * e + 2 ^ 24 * t + len) = 2 ^ 24 * t := by
  have hm : kOSSerializeTypeMask = 2 ^ 24 * (2 ^ 7 - 1) := by rfl
  have hsplit : 2 ^ 31 * e + 2 ^ 24 * t + len = 2 ^ 24 * (2 ^ 7 * e + t) + len := by ring
  rw [hm, hsplit]
  apply eq_of_testBit_eq
  intro i
  rw [testBit_and, testBit_two_pow_mul, testBit_two_pow_mul_add _ hl, testBit_two_pow_mul]
  by_cases h1 : i < 24
  · simp [h1, show ¬ 24 ≤ i by omega]
  · rw [testBit_two_pow_mul_add e ht, testBit_two_pow_sub_one]
    by_cases h2 : i - 24 < 7
    · simp [h1, h2]
    · have ht' : t < 2 ^ (i - 24) := lt_of_lt_of_le ht (Nat.pow_le_pow_right (by omega) (by omega))
      simp [h1, h2, testBit_lt_two_pow ht']

theorem key_endBit (ht : t < 2 ^ 7) (hl : len < 2 ^ 24) (he : e < 2) :
    ((2 ^ 31 * e + 2 ^ 24 * t + len) &&& kOSSerializeEndCollecton ≠ 0) ↔ e = 1 := by
  have hlow : 2 ^ 24 * t + len < 2 ^ 31 := by omega
  have hsplit : 2 ^ 31 * e + 2 ^ 24 * t + len = 2 ^ 31 * e + (2 ^ 24 * t + len) := by ring
  have hand : (2 ^ 31 * e + 2 ^ 24 * t + len) &&& kOSSerializeEndCollecton = 2 ^ 31 * e := by
    rw [hsplit, show kOSSerializeEndCollecton = 2 ^ 31 by rfl]
    apply eq_of_testBit_eq
    intro i
    rw [testBit_and, testBit_two_pow_mul_add _ hlow, testBit_two_pow, testBit_two_pow_mul]
    by_cases h1 : i < 31
    · simp [h1, show 31 ≠ i by omega, show ¬ i ≥ 31 by omega]
    · by_cases h2 : i = 31
      · subst h2
        simp
      · have he' : e < 2 ^ (i - 31) := lt_of_lt_of_le he
          (by simpa using Nat.pow_le_pow_right (show 0 < 2 by omega) (show 1 ≤ i - 31 by omega))
        simp [h1, show 31 ≠ i by omega, testBit_lt_two_pow he']
  rw [hand]
  omega

end Keys

end Libkern.Binary
