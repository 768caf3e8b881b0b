import Darwin.Lib.Blocks

/-!
# corecrypto DER encoding (`corecrypto/src/ccder.c:9-211`)

| here | there |
| --- | --- |
| `ccder_tag`, `CCDER_*` | `ccder.h:22-95`, `ccasn1.h:25-69`, with multi-byte tags (`unsigned long`) |
| `ccder_sizeof_len`, `ccder_sizeof_tag`, `ccder_sizeof`, `ccder_sizeof_raw_octet_string` | `:9`, `:38`, `:73`, `:69` |
| `ccoid_size`, `ccder_sizeof_oid` | `ccasn1.h:87`, `:65` |
| `ccder_encode_tag`, `ccder_encode_len`, `ccder_encode_tl`, `ccder_encode_oid` | `:133`, `:157`, `:185`, `:206` |

The encoders write backwards: each is given the end of the space left (`der_end`) and returns
where its bytes start, so nested calls lay out a structure front to back. They work on a
memory of bytes (`Blocks.Prog UInt8`). Lengths are `size_t`s, kept as `Nat`: the sizes here
are those of buffers, far from wrapping.
-/

namespace Corecrypto.Der

open Blocks

/-- The programs over the byte memory. -/
abbrev DerM := Prog UInt8

/-- `ccder_tag`: `unsigned long` with `CCDER_MULTIBYTE_TAGS`. -/
abbrev ccder_tag := UInt64

def CCDER_OCTET_STRING : ccder_tag := 0x04
def CCDER_NULL : ccder_tag := 0x05
def CCDER_SEQUENCE : ccder_tag := 0x10
/-- `1 << (sizeof (ccder_tag) * 8 - 3)`. -/
def CCDER_CONSTRUCTED : ccder_tag := (1 : UInt64) <<< 61
/-- `~(7 << (sizeof (ccder_tag) * 8 - 3))`. -/
def CCDER_TAGNUM_MASK : ccder_tag := ~~~((7 : UInt64) <<< 61)
def CCDER_CONSTRUCTED_SEQUENCE : ccder_tag := CCDER_SEQUENCE ||| CCDER_CONSTRUCTED

/-- The `do { len >>= bits; ++total; } while (len > 0)` loops of the size functions: the number
of `bits`-bit groups of `len`. A `size_t` has at most 64 of them, the fuel. -/
def groups (bits : Nat) (len : Nat) : Nat → Nat → Nat
  | 0, total => total
  | fuel + 1, total =>
    let len := len >>> bits
    if len > 0 then groups bits len fuel (total + 1) else total + 1

/-- `ccder_sizeof_len` (`:38`). -/
def ccder_sizeof_len (len : Nat) : Nat :=
  if len > 127 then groups 8 len 64 0 + 1 else 1

/-- `ccder_sizeof_tag` (`:73`). -/
def ccder_sizeof_tag (tag : ccder_tag) : Nat :=
  let tag := tag &&& CCDER_TAGNUM_MASK
  if tag > 30 then groups 7 tag.toNat 64 0 else 1

/-- `ccder_sizeof` (`:9`). -/
def ccder_sizeof (tag : ccder_tag) (len : Nat) : Nat :=
  ccder_sizeof_tag tag + ccder_sizeof_len len + len

/-- `ccder_sizeof_raw_octet_string` (`:69`). -/
def ccder_sizeof_raw_octet_string (s_size : Nat) : Nat :=
  ccder_sizeof_tag CCDER_OCTET_STRING + ccder_sizeof_len s_size + s_size

/-- `ccoid_size` (`ccasn1.h:87`): `2 + oid[1]`. -/
def ccoid_size (oid : Ptr) : DerM Nat := do
  let l ← load oid 1
  pure (2 + l.toNat)

/-- `ccder_sizeof_oid` (`:65`). -/
def ccder_sizeof_oid (oid : Ptr) : DerM Nat := ccoid_size oid

/-- `ccder_encode_tag` (`:133`): the class and method bits, then the tag number, short or long
form, ending at `der_end`. -/
def ccder_encode_tag (tag : ccder_tag) (der_end : Ptr) : DerM Ptr := do
  let tag_len := ccder_sizeof_tag tag
  let tag_start := der_end.add (-(tag_len : Int))
  let first : UInt8 := (tag >>> 61).toUInt8 <<< 5
  if tag_len > 1 then
    store tag_start 0 (first ||| 0x1f)
    let rest := tag &&& (CCDER_TAGNUM_MASK >>> 5)
    for i in List.range (tag_len - 1) do
      store tag_start (i + 1)
        ((if i = tag_len - 1 then 0 else 0x80) |||
          ((rest &&& ((0x7f : UInt64) <<< (i * 7).toUInt64)) >>> (i * 7).toUInt64).toUInt8)
  else
    store tag_start 0 (first ||| (tag &&& 0x1f).toUInt8)
  pure tag_start

/-- `ccder_encode_len` (`:157`): the short form below 128, else `0x80` with the count of the
big-endian length bytes that follow. -/
def ccder_encode_len (len : Nat) (der_end : Ptr) : DerM Ptr := do
  let len_len := ccder_sizeof_len len
  let len_start := der_end.add (-(len_len : Int))
  let first : UInt8 := (if len_len > 1 then (1 : UInt8) else 0) <<< 7
  if len_len > 1 then
    let len_len := len_len - 1
    store len_start 0 (first ||| (len_len.toUInt8 &&& 0x7f))
    for k in List.range len_len do
      -- `i = len_len - k`, from `len_len` down to `1`
      store (len_start.add 1) k ((len >>> ((len_len - k - 1) * 8)) &&& 0xff).toUInt8
  else
    store len_start 0 (first ||| (len &&& 0x7f).toUInt8)
  pure len_start

/-- `ccder_encode_tl` (`:185`). -/
def ccder_encode_tl (tag : ccder_tag) (len : Nat) (der_end : Ptr) : DerM Ptr := do
  let p ← ccder_encode_len len der_end
  ccder_encode_tag tag p

/-- `ccder_encode_oid` (`:206`): the whole encoded oid, copied to end at `der_end`. -/
def ccder_encode_oid (oid : Ptr) (der_end : Ptr) : DerM Ptr := do
  let oid_total_len ← ccder_sizeof_oid oid
  let oid_entire_start := der_end.add (-(oid_total_len : Int))
  for i in List.range oid_total_len do
    let b ← load oid i
    store oid_entire_start i b
  pure oid_entire_start

/-- `memset (dst, c, n)` on bytes. -/
def memset (dst : Ptr) (c : UInt8) (n : Nat) : DerM Unit := do
  for i in List.range n do
    store dst i c

/-- `memcmp (a, b, n)`: the difference of the first bytes that differ, or `0`. -/
def memcmp (a b : Ptr) : Nat → Nat → DerM Int
  | 0, _ => pure 0
  | k + 1, i => do
    let x ← load a i
    let y ← load b i
    if x = y then memcmp a b k (i + 1) else pure ((x.toNat : Int) - y.toNat)

end Corecrypto.Der
