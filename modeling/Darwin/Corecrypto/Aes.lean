import Darwin.Lib.Aes
import Darwin.Corecrypto.Der
import Mathlib

/-!
# corecrypto AES in ECB mode (`corecrypto/src/ccaes.c`)

| here | there |
| --- | --- |
| `ccaes_word_t`, `ccaes_state_t` | `:6-12`: four bytes; sixteen, row then column |
| `the_real_ccecb_ctx` | `:40` |
| `ccaes_s_box` … `ccaes_round_constant` | `:69-233` |
| `ccaes_round_count`, `ccaes_rot_word`, `ccaes_xor_word` | `:236`, `:247`, `:254` |
| `ccaes_sub_bytes`, `ccaes_sub_bytes_inverse` | `:261`, `:267` |
| `ccaes_shift_rows`, `ccaes_shift_rows_inverse` | `:273`, `:288` |
| `ccaes_mix_columns`, `ccaes_mix_columns_inverse` | `:303`, `:328` |
| `ccaes_add_round_key`, `ccaes_round_keys_at` | `:358`, `&ctx->round_keys[…]` |
| `ccaes_expand_key`, `ccaes_ecb_init` | `:365`, `:390` |
| `ccaes_encrypt_block`, `ccaes_decrypt_block` | the bodies of the block loops, `:420-432`, `:459-470` |
| `ccaes_ecb_block`, `ccaes_ecb_loop` | the block loops, `:410-439`, `:449-478` |
| `ccaes_ecb_encrypt`, `ccaes_ecb_decrypt` | `:405`, `:444` |
| `ccmode_ecb`, `ccaes_ecb_encrypt_mode`, `ccaes_ecb_decrypt_mode` | `:47-67` |

The context is a value of its own: the caller's `ccecb_ctx` lies apart from the blocks. Its
round keys are a fixed array of 60 words, read four at a time through `&ctx->round_keys[4 r]`,
which has no result past the array. The blocks lie in the byte memory; a block is read whole
before its output is written, so the output may be the input itself.

The tables are the source's. That they are the S-boxes and the products of FIPS-197 is checked
over the 256 bytes (`ccaes_s_box_get`, `gmul_2_get`, …), and from there each step is the
standard one: encryption of every block is `Aes.Cipher` with the schedule of
`Aes.keyExpansion`, decryption `Aes.InvCipher`.
-/

namespace Corecrypto.Aes

open Blocks Corecrypto.Der Gf256

/-- `ccaes_word_t`: `uint8_t bytes[4]`. -/
abbrev ccaes_word_t := Fin 4 → UInt8

/-- `ccaes_state_t`: `uint8_t bytes[4][4]`, the byte at row `r`, column `c`. -/
abbrev ccaes_state_t := Fin 4 → Fin 4 → UInt8

/-- The literals of the rows and columns (`0` to `3`) are built from this one proof, rather than
from a copy of `Nat.instNeZeroSucc 3` made for each definition. -/
instance ccaes_index_neZero : NeZero 4 := ⟨by decide⟩

/-- `struct the_real_ccecb_ctx`. -/
structure the_real_ccecb_ctx where
  round_count : UInt8
  round_keys : Vector ccaes_word_t 60

def CCERR_OK : Int := 0
def CCERR_PARAMETER : Int := -7

/-! ## Tables -/

set_option maxRecDepth 2048 in
/-- `ccaes_s_box` (`:69`). -/
def ccaes_s_box : Vector UInt8 256 := #v[
  0x63, 0x7c, 0x77, 0x7b, 0xf2, 0x6b, 0x6f, 0xc5, 0x30, 0x01, 0x67, 0x2b, 0xfe, 0xd7, 0xab, 0x76,
  0xca, 0x82, 0xc9, 0x7d, 0xfa, 0x59, 0x47, 0xf0, 0xad, 0xd4, 0xa2, 0xaf, 0x9c, 0xa4, 0x72, 0xc0,
  0xb7, 0xfd, 0x93, 0x26, 0x36, 0x3f, 0xf7, 0xcc, 0x34, 0xa5, 0xe5, 0xf1, 0x71, 0xd8, 0x31, 0x15,
  0x04, 0xc7, 0x23, 0xc3, 0x18, 0x96, 0x05, 0x9a, 0x07, 0x12, 0x80, 0xe2, 0xeb, 0x27, 0xb2, 0x75,
  0x09, 0x83, 0x2c, 0x1a, 0x1b, 0x6e, 0x5a, 0xa0, 0x52, 0x3b, 0xd6, 0xb3, 0x29, 0xe3, 0x2f, 0x84,
  0x53, 0xd1, 0x00, 0xed, 0x20, 0xfc, 0xb1, 0x5b, 0x6a, 0xcb, 0xbe, 0x39, 0x4a, 0x4c, 0x58, 0xcf,
  0xd0, 0xef, 0xaa, 0xfb, 0x43, 0x4d, 0x33, 0x85, 0x45, 0xf9, 0x02, 0x7f, 0x50, 0x3c, 0x9f, 0xa8,
  0x51, 0xa3, 0x40, 0x8f, 0x92, 0x9d, 0x38, 0xf5, 0xbc, 0xb6, 0xda, 0x21, 0x10, 0xff, 0xf3, 0xd2,
  0xcd, 0x0c, 0x13, 0xec, 0x5f, 0x97, 0x44, 0x17, 0xc4, 0xa7, 0x7e, 0x3d, 0x64, 0x5d, 0x19, 0x73,
  0x60, 0x81, 0x4f, 0xdc, 0x22, 0x2a, 0x90, 0x88, 0x46, 0xee, 0xb8, 0x14, 0xde, 0x5e, 0x0b, 0xdb,
  0xe0, 0x32, 0x3a, 0x0a, 0x49, 0x06, 0x24, 0x5c, 0xc2, 0xd3, 0xac, 0x62, 0x91, 0x95, 0xe4, 0x79,
  0xe7, 0xc8, 0x37, 0x6d, 0x8d, 0xd5, 0x4e, 0xa9, 0x6c, 0x56, 0xf4, 0xea, 0x65, 0x7a, 0xae, 0x08,
  0xba, 0x78, 0x25, 0x2e, 0x1c, 0xa6, 0xb4, 0xc6, 0xe8, 0xdd, 0x74, 0x1f, 0x4b, 0xbd, 0x8b, 0x8a,
  0x70, 0x3e, 0xb5, 0x66, 0x48, 0x03, 0xf6, 0x0e, 0x61, 0x35, 0x57, 0xb9, 0x86, 0xc1, 0x1d, 0x9e,
  0xe1, 0xf8, 0x98, 0x11, 0x69, 0xd9, 0x8e, 0x94, 0x9b, 0x1e, 0x87, 0xe9, 0xce, 0x55, 0x28, 0xdf,
  0x8c, 0xa1, 0x89, 0x0d, 0xbf, 0xe6, 0x42, 0x68, 0x41, 0x99, 0x2d, 0x0f, 0xb0, 0x54, 0xbb, 0x16]

set_option maxRecDepth 2048 in
/-- `ccaes_s_box_inverse` (`:88`). -/
def ccaes_s_box_inverse : Vector UInt8 256 := #v[
  0x52, 0x09, 0x6a, 0xd5, 0x30, 0x36, 0xa5, 0x38, 0xbf, 0x40, 0xa3, 0x9e, 0x81, 0xf3, 0xd7, 0xfb,
  0x7c, 0xe3, 0x39, 0x82, 0x9b, 0x2f, 0xff, 0x87, 0x34, 0x8e, 0x43, 0x44, 0xc4, 0xde, 0xe9, 0xcb,
  0x54, 0x7b, 0x94, 0x32, 0xa6, 0xc2, 0x23, 0x3d, 0xee, 0x4c, 0x95, 0x0b, 0x42, 0xfa, 0xc3, 0x4e,
  0x08, 0x2e, 0xa1, 0x66, 0x28, 0xd9, 0x24, 0xb2, 0x76, 0x5b, 0xa2, 0x49, 0x6d, 0x8b, 0xd1, 0x25,
  0x72, 0xf8, 0xf6, 0x64, 0x86, 0x68, 0x98, 0x16, 0xd4, 0xa4, 0x5c, 0xcc, 0x5d, 0x65, 0xb6, 0x92,
  0x6c, 0x70, 0x48, 0x50, 0xfd, 0xed, 0xb9, 0xda, 0x5e, 0x15, 0x46, 0x57, 0xa7, 0x8d, 0x9d, 0x84,
  0x90, 0xd8, 0xab, 0x00, 0x8c, 0xbc, 0xd3, 0x0a, 0xf7, 0xe4, 0x58, 0x05, 0xb8, 0xb3, 0x45, 0x06,
  0xd0, 0x2c, 0x1e, 0x8f, 0xca, 0x3f, 0x0f, 0x02, 0xc1, 0xaf, 0xbd, 0x03, 0x01, 0x13, 0x8a, 0x6b,
  0x3a, 0x91, 0x11, 0x41, 0x4f, 0x67, 0xdc, 0xea, 0x97, 0xf2, 0xcf, 0xce, 0xf0, 0xb4, 0xe6, 0x73,
  0x96, 0xac, 0x74, 0x22, 0xe7, 0xad, 0x35, 0x85, 0xe2, 0xf9, 0x37, 0xe8, 0x1c, 0x75, 0xdf, 0x6e,
  0x47, 0xf1, 0x1a, 0x71, 0x1d, 0x29, 0xc5, 0x89, 0x6f, 0xb7, 0x62, 0x0e, 0xaa, 0x18, 0xbe, 0x1b,
  0xfc, 0x56, 0x3e, 0x4b, 0xc6, 0xd2, 0x79, 0x20, 0x9a, 0xdb, 0xc0, 0xfe, 0x78, 0xcd, 0x5a, 0xf4,
  0x1f, 0xdd, 0xa8, 0x33, 0x88, 0x07, 0xc7, 0x31, 0xb1, 0x12, 0x10, 0x59, 0x27, 0x80, 0xec, 0x5f,
  0x60, 0x51, 0x7f, 0xa9, 0x19, 0xb5, 0x4a, 0x0d, 0x2d, 0xe5, 0x7a, 0x9f, 0x93, 0xc9, 0x9c, 0xef,
  0xa0, 0xe0, 0x3b, 0x4d, 0xae, 0x2a, 0xf5, 0xb0, 0xc8, 0xeb, 0xbb, 0x3c, 0x83, 0x53, 0x99, 0x61,
  0x17, 0x2b, 0x04, 0x7e, 0xba, 0x77, 0xd6, 0x26, 0xe1, 0x69, 0x14, 0x63, 0x55, 0x21, 0x0c, 0x7d]

set_option maxRecDepth 2048 in
/-- `gmul_2` (`:107`): `{02}` times each byte. -/
def gmul_2 : Vector UInt8 256 := #v[
  0x00, 0x02, 0x04, 0x06, 0x08, 0x0a, 0x0c, 0x0e, 0x10, 0x12, 0x14, 0x16, 0x18, 0x1a, 0x1c, 0x1e,
  0x20, 0x22, 0x24, 0x26, 0x28, 0x2a, 0x2c, 0x2e, 0x30, 0x32, 0x34, 0x36, 0x38, 0x3a, 0x3c, 0x3e,
  0x40, 0x42, 0x44, 0x46, 0x48, 0x4a, 0x4c, 0x4e, 0x50, 0x52, 0x54, 0x56, 0x58, 0x5a, 0x5c, 0x5e,
  0x60, 0x62, 0x64, 0x66, 0x68, 0x6a, 0x6c, 0x6e, 0x70, 0x72, 0x74, 0x76, 0x78, 0x7a, 0x7c, 0x7e,
  0x80, 0x82, 0x84, 0x86, 0x88, 0x8a, 0x8c, 0x8e, 0x90, 0x92, 0x94, 0x96, 0x98, 0x9a, 0x9c, 0x9e,
  0xa0, 0xa2, 0xa4, 0xa6, 0xa8, 0xaa, 0xac, 0xae, 0xb0, 0xb2, 0xb4, 0xb6, 0xb8, 0xba, 0xbc, 0xbe,
  0xc0, 0xc2, 0xc4, 0xc6, 0xc8, 0xca, 0xcc, 0xce, 0xd0, 0xd2, 0xd4, 0xd6, 0xd8, 0xda, 0xdc, 0xde,
  0xe0, 0xe2, 0xe4, 0xe6, 0xe8, 0xea, 0xec, 0xee, 0xf0, 0xf2, 0xf4, 0xf6, 0xf8, 0xfa, 0xfc, 0xfe,
  0x1b, 0x19, 0x1f, 0x1d, 0x13, 0x11, 0x17, 0x15, 0x0b, 0x09, 0x0f, 0x0d, 0x03, 0x01, 0x07, 0x05,
  0x3b, 0x39, 0x3f, 0x3d, 0x33, 0x31, 0x37, 0x35, 0x2b, 0x29, 0x2f, 0x2d, 0x23, 0x21, 0x27, 0x25,
  0x5b, 0x59, 0x5f, 0x5d, 0x53, 0x51, 0x57, 0x55, 0x4b, 0x49, 0x4f, 0x4d, 0x43, 0x41, 0x47, 0x45,
  0x7b, 0x79, 0x7f, 0x7d, 0x73, 0x71, 0x77, 0x75, 0x6b, 0x69, 0x6f, 0x6d, 0x63, 0x61, 0x67, 0x65,
  0x9b, 0x99, 0x9f, 0x9d, 0x93, 0x91, 0x97, 0x95, 0x8b, 0x89, 0x8f, 0x8d, 0x83, 0x81, 0x87, 0x85,
  0xbb, 0xb9, 0xbf, 0xbd, 0xb3, 0xb1, 0xb7, 0xb5, 0xab, 0xa9, 0xaf, 0xad, 0xa3, 0xa1, 0xa7, 0xa5,
  0xdb, 0xd9, 0xdf, 0xdd, 0xd3, 0xd1, 0xd7, 0xd5, 0xcb, 0xc9, 0xcf, 0xcd, 0xc3, 0xc1, 0xc7, 0xc5,
  0xfb, 0xf9, 0xff, 0xfd, 0xf3, 0xf1, 0xf7, 0xf5, 0xeb, 0xe9, 0xef, 0xed, 0xe3, 0xe1, 0xe7, 0xe5]

set_option maxRecDepth 2048 in
/-- `gmul_3` (`:126`): `{03}` times each byte. -/
def gmul_3 : Vector UInt8 256 := #v[
  0x00, 0x03, 0x06, 0x05, 0x0c, 0x0f, 0x0a, 0x09, 0x18, 0x1b, 0x1e, 0x1d, 0x14, 0x17, 0x12, 0x11,
  0x30, 0x33, 0x36, 0x35, 0x3c, 0x3f, 0x3a, 0x39, 0x28, 0x2b, 0x2e, 0x2d, 0x24, 0x27, 0x22, 0x21,
  0x60, 0x63, 0x66, 0x65, 0x6c, 0x6f, 0x6a, 0x69, 0x78, 0x7b, 0x7e, 0x7d, 0x74, 0x77, 0x72, 0x71,
  0x50, 0x53, 0x56, 0x55, 0x5c, 0x5f, 0x5a, 0x59, 0x48, 0x4b, 0x4e, 0x4d, 0x44, 0x47, 0x42, 0x41,
  0xc0, 0xc3, 0xc6, 0xc5, 0xcc, 0xcf, 0xca, 0xc9, 0xd8, 0xdb, 0xde, 0xdd, 0xd4, 0xd7, 0xd2, 0xd1,
  0xf0, 0xf3, 0xf6, 0xf5, 0xfc, 0xff, 0xfa, 0xf9, 0xe8, 0xeb, 0xee, 0xed, 0xe4, 0xe7, 0xe2, 0xe1,
  0xa0, 0xa3, 0xa6, 0xa5, 0xac, 0xaf, 0xaa, 0xa9, 0xb8, 0xbb, 0xbe, 0xbd, 0xb4, 0xb7, 0xb2, 0xb1,
  0x90, 0x93, 0x96, 0x95, 0x9c, 0x9f, 0x9a, 0x99, 0x88, 0x8b, 0x8e, 0x8d, 0x84, 0x87, 0x82, 0x81,
  0x9b, 0x98, 0x9d, 0x9e, 0x97, 0x94, 0x91, 0x92, 0x83, 0x80, 0x85, 0x86, 0x8f, 0x8c, 0x89, 0x8a,
  0xab, 0xa8, 0xad, 0xae, 0xa7, 0xa4, 0xa1, 0xa2, 0xb3, 0xb0, 0xb5, 0xb6, 0xbf, 0xbc, 0xb9, 0xba,
  0xfb, 0xf8, 0xfd, 0xfe, 0xf7, 0xf4, 0xf1, 0xf2, 0xe3, 0xe0, 0xe5, 0xe6, 0xef, 0xec, 0xe9, 0xea,
  0xcb, 0xc8, 0xcd, 0xce, 0xc7, 0xc4, 0xc1, 0xc2, 0xd3, 0xd0, 0xd5, 0xd6, 0xdf, 0xdc, 0xd9, 0xda,
  0x5b, 0x58, 0x5d, 0x5e, 0x57, 0x54, 0x51, 0x52, 0x43, 0x40, 0x45, 0x46, 0x4f, 0x4c, 0x49, 0x4a,
  0x6b, 0x68, 0x6d, 0x6e, 0x67, 0x64, 0x61, 0x62, 0x73, 0x70, 0x75, 0x76, 0x7f, 0x7c, 0x79, 0x7a,
  0x3b, 0x38, 0x3d, 0x3e, 0x37, 0x34, 0x31, 0x32, 0x23, 0x20, 0x25, 0x26, 0x2f, 0x2c, 0x29, 0x2a,
  0x0b, 0x08, 0x0d, 0x0e, 0x07, 0x04, 0x01, 0x02, 0x13, 0x10, 0x15, 0x16, 0x1f, 0x1c, 0x19, 0x1a]

set_option maxRecDepth 2048 in
/-- `gmul_9` (`:145`): `{09}` times each byte. -/
def gmul_9 : Vector UInt8 256 := #v[
  0x00, 0x09, 0x12, 0x1b, 0x24, 0x2d, 0x36, 0x3f, 0x48, 0x41, 0x5a, 0x53, 0x6c, 0x65, 0x7e, 0x77,
  0x90, 0x99, 0x82, 0x8b, 0xb4, 0xbd, 0xa6, 0xaf, 0xd8, 0xd1, 0xca, 0xc3, 0xfc, 0xf5, 0xee, 0xe7,
  0x3b, 0x32, 0x29, 0x20, 0x1f, 0x16, 0x0d, 0x04, 0x73, 0x7a, 0x61, 0x68, 0x57, 0x5e, 0x45, 0x4c,
  0xab, 0xa2, 0xb9, 0xb0, 0x8f, 0x86, 0x9d, 0x94, 0xe3, 0xea, 0xf1, 0xf8, 0xc7, 0xce, 0xd5, 0xdc,
  0x76, 0x7f, 0x64, 0x6d, 0x52, 0x5b, 0x40, 0x49, 0x3e, 0x37, 0x2c, 0x25, 0x1a, 0x13, 0x08, 0x01,
  0xe6, 0xef, 0xf4, 0xfd, 0xc2, 0xcb, 0xd0, 0xd9, 0xae, 0xa7, 0xbc, 0xb5, 0x8a, 0x83, 0x98, 0x91,
  0x4d, 0x44, 0x5f, 0x56, 0x69, 0x60, 0x7b, 0x72, 0x05, 0x0c, 0x17, 0x1e, 0x21, 0x28, 0x33, 0x3a,
  0xdd, 0xd4, 0xcf, 0xc6, 0xf9, 0xf0, 0xeb, 0xe2, 0x95, 0x9c, 0x87, 0x8e, 0xb1, 0xb8, 0xa3, 0xaa,
  0xec, 0xe5, 0xfe, 0xf7, 0xc8, 0xc1, 0xda, 0xd3, 0xa4, 0xad, 0xb6, 0xbf, 0x80, 0x89, 0x92, 0x9b,
  0x7c, 0x75, 0x6e, 0x67, 0x58, 0x51, 0x4a, 0x43, 0x34, 0x3d, 0x26, 0x2f, 0x10, 0x19, 0x02, 0x0b,
  0xd7, 0xde, 0xc5, 0xcc, 0xf3, 0xfa, 0xe1, 0xe8, 0x9f, 0x96, 0x8d, 0x84, 0xbb, 0xb2, 0xa9, 0xa0,
  0x47, 0x4e, 0x55, 0x5c, 0x63, 0x6a, 0x71, 0x78, 0x0f, 0x06, 0x1d, 0x14, 0x2b, 0x22, 0x39, 0x30,
  0x9a, 0x93, 0x88, 0x81, 0xbe, 0xb7, 0xac, 0xa5, 0xd2, 0xdb, 0xc0, 0xc9, 0xf6, 0xff, 0xe4, 0xed,
  0x0a, 0x03, 0x18, 0x11, 0x2e, 0x27, 0x3c, 0x35, 0x42, 0x4b, 0x50, 0x59, 0x66, 0x6f, 0x74, 0x7d,
  0xa1, 0xa8, 0xb3, 0xba, 0x85, 0x8c, 0x97, 0x9e, 0xe9, 0xe0, 0xfb, 0xf2, 0xcd, 0xc4, 0xdf, 0xd6,
  0x31, 0x38, 0x23, 0x2a, 0x15, 0x1c, 0x07, 0x0e, 0x79, 0x70, 0x6b, 0x62, 0x5d, 0x54, 0x4f, 0x46]

set_option maxRecDepth 2048 in
/-- `gmul_11` (`:164`): `{0b}` times each byte. -/
def gmul_11 : Vector UInt8 256 := #v[
  0x00, 0x0b, 0x16, 0x1d, 0x2c, 0x27, 0x3a, 0x31, 0x58, 0x53, 0x4e, 0x45, 0x74, 0x7f, 0x62, 0x69,
  0xb0, 0xbb, 0xa6, 0xad, 0x9c, 0x97, 0x8a, 0x81, 0xe8, 0xe3, 0xfe, 0xf5, 0xc4, 0xcf, 0xd2, 0xd9,
  0x7b, 0x70, 0x6d, 0x66, 0x57, 0x5c, 0x41, 0x4a, 0x23, 0x28, 0x35, 0x3e, 0x0f, 0x04, 0x19, 0x12,
  0xcb, 0xc0, 0xdd, 0xd6, 0xe7, 0xec, 0xf1, 0xfa, 0x93, 0x98, 0x85, 0x8e, 0xbf, 0xb4, 0xa9, 0xa2,
  0xf6, 0xfd, 0xe0, 0xeb, 0xda, 0xd1, 0xcc, 0xc7, 0xae, 0xa5, 0xb8, 0xb3, 0x82, 0x89, 0x94, 0x9f,
  0x46, 0x4d, 0x50, 0x5b, 0x6a, 0x61, 0x7c, 0x77, 0x1e, 0x15, 0x08, 0x03, 0x32, 0x39, 0x24, 0x2f,
  0x8d, 0x86, 0x9b, 0x90, 0xa1, 0xaa, 0xb7, 0xbc, 0xd5, 0xde, 0xc3, 0xc8, 0xf9, 0xf2, 0xef, 0xe4,
  0x3d, 0x36, 0x2b, 0x20, 0x11, 0x1a, 0x07, 0x0c, 0x65, 0x6e, 0x73, 0x78, 0x49, 0x42, 0x5f, 0x54,
  0xf7, 0xfc, 0xe1, 0xea, 0xdb, 0xd0, 0xcd, 0xc6, 0xaf, 0xa4, 0xb9, 0xb2, 0x83, 0x88, 0x95, 0x9e,
  0x47, 0x4c, 0x51, 0x5a, 0x6b, 0x60, 0x7d, 0x76, 0x1f, 0x14, 0x09, 0x02, 0x33, 0x38, 0x25, 0x2e,
  0x8c, 0x87, 0x9a, 0x91, 0xa0, 0xab, 0xb6, 0xbd, 0xd4, 0xdf, 0xc2, 0xc9, 0xf8, 0xf3, 0xee, 0xe5,
  0x3c, 0x37, 0x2a, 0x21, 0x10, 0x1b, 0x06, 0x0d, 0x64, 0x6f, 0x72, 0x79, 0x48, 0x43, 0x5e, 0x55,
  0x01, 0x0a, 0x17, 0x1c, 0x2d, 0x26, 0x3b, 0x30, 0x59, 0x52, 0x4f, 0x44, 0x75, 0x7e, 0x63, 0x68,
  0xb1, 0xba, 0xa7, 0xac, 0x9d, 0x96, 0x8b, 0x80, 0xe9, 0xe2, 0xff, 0xf4, 0xc5, 0xce, 0xd3, 0xd8,
  0x7a, 0x71, 0x6c, 0x67, 0x56, 0x5d, 0x40, 0x4b, 0x22, 0x29, 0x34, 0x3f, 0x0e, 0x05, 0x18, 0x13,
  0xca, 0xc1, 0xdc, 0xd7, 0xe6, 0xed, 0xf0, 0xfb, 0x92, 0x99, 0x84, 0x8f, 0xbe, 0xb5, 0xa8, 0xa3]

set_option maxRecDepth 2048 in
/-- `gmul_13` (`:183`): `{0d}` times each byte. -/
def gmul_13 : Vector UInt8 256 := #v[
  0x00, 0x0d, 0x1a, 0x17, 0x34, 0x39, 0x2e, 0x23, 0x68, 0x65, 0x72, 0x7f, 0x5c, 0x51, 0x46, 0x4b,
  0xd0, 0xdd, 0xca, 0xc7, 0xe4, 0xe9, 0xfe, 0xf3, 0xb8, 0xb5, 0xa2, 0xaf, 0x8c, 0x81, 0x96, 0x9b,
  0xbb, 0xb6, 0xa1, 0xac, 0x8f, 0x82, 0x95, 0x98, 0xd3, 0xde, 0xc9, 0xc4, 0xe7, 0xea, 0xfd, 0xf0,
  0x6b, 0x66, 0x71, 0x7c, 0x5f, 0x52, 0x45, 0x48, 0x03, 0x0e, 0x19, 0x14, 0x37, 0x3a, 0x2d, 0x20,
  0x6d, 0x60, 0x77, 0x7a, 0x59, 0x54, 0x43, 0x4e, 0x05, 0x08, 0x1f, 0x12, 0x31, 0x3c, 0x2b, 0x26,
  0xbd, 0xb0, 0xa7, 0xaa, 0x89, 0x84, 0x93, 0x9e, 0xd5, 0xd8, 0xcf, 0xc2, 0xe1, 0xec, 0xfb, 0xf6,
  0xd6, 0xdb, 0xcc, 0xc1, 0xe2, 0xef, 0xf8, 0xf5, 0xbe, 0xb3, 0xa4, 0xa9, 0x8a, 0x87, 0x90, 0x9d,
  0x06, 0x0b, 0x1c, 0x11, 0x32, 0x3f, 0x28, 0x25, 0x6e, 0x63, 0x74, 0x79, 0x5a, 0x57, 0x40, 0x4d,
  0xda, 0xd7, 0xc0, 0xcd, 0xee, 0xe3, 0xf4, 0xf9, 0xb2, 0xbf, 0xa8, 0xa5, 0x86, 0x8b, 0x9c, 0x91,
  0x0a, 0x07, 0x10, 0x1d, 0x3e, 0x33, 0x24, 0x29, 0x62, 0x6f, 0x78, 0x75, 0x56, 0x5b, 0x4c, 0x41,
  0x61, 0x6c, 0x7b, 0x76, 0x55, 0x58, 0x4f, 0x42, 0x09, 0x04, 0x13, 0x1e, 0x3d, 0x30, 0x27, 0x2a,
  0xb1, 0xbc, 0xab, 0xa6, 0x85, 0x88, 0x9f, 0x92, 0xd9, 0xd4, 0xc3, 0xce, 0xed, 0xe0, 0xf7, 0xfa,
  0xb7, 0xba, 0xad, 0xa0, 0x83, 0x8e, 0x99, 0x94, 0xdf, 0xd2, 0xc5, 0xc8, 0xeb, 0xe6, 0xf1, 0xfc,
  0x67, 0x6a, 0x7d, 0x70, 0x53, 0x5e, 0x49, 0x44, 0x0f, 0x02, 0x15, 0x18, 0x3b, 0x36, 0x21, 0x2c,
  0x0c, 0x01, 0x16, 0x1b, 0x38, 0x35, 0x22, 0x2f, 0x64, 0x69, 0x7e, 0x73, 0x50, 0x5d, 0x4a, 0x47,
  0xdc, 0xd1, 0xc6, 0xcb, 0xe8, 0xe5, 0xf2, 0xff, 0xb4, 0xb9, 0xae, 0xa3, 0x80, 0x8d, 0x9a, 0x97]

set_option maxRecDepth 2048 in
/-- `gmul_14` (`:202`): `{0e}` times each byte. -/
def gmul_14 : Vector UInt8 256 := #v[
  0x00, 0x0e, 0x1c, 0x12, 0x38, 0x36, 0x24, 0x2a, 0x70, 0x7e, 0x6c, 0x62, 0x48, 0x46, 0x54, 0x5a,
  0xe0, 0xee, 0xfc, 0xf2, 0xd8, 0xd6, 0xc4, 0xca, 0x90, 0x9e, 0x8c, 0x82, 0xa8, 0xa6, 0xb4, 0xba,
  0xdb, 0xd5, 0xc7, 0xc9, 0xe3, 0xed, 0xff, 0xf1, 0xab, 0xa5, 0xb7, 0xb9, 0x93, 0x9d, 0x8f, 0x81,
  0x3b, 0x35, 0x27, 0x29, 0x03, 0x0d, 0x1f, 0x11, 0x4b, 0x45, 0x57, 0x59, 0x73, 0x7d, 0x6f, 0x61,
  0xad, 0xa3, 0xb1, 0xbf, 0x95, 0x9b, 0x89, 0x87, 0xdd, 0xd3, 0xc1, 0xcf, 0xe5, 0xeb, 0xf9, 0xf7,
  0x4d, 0x43, 0x51, 0x5f, 0x75, 0x7b, 0x69, 0x67, 0x3d, 0x33, 0x21, 0x2f, 0x05, 0x0b, 0x19, 0x17,
  0x76, 0x78, 0x6a, 0x64, 0x4e, 0x40, 0x52, 0x5c, 0x06, 0x08, 0x1a, 0x14, 0x3e, 0x30, 0x22, 0x2c,
  0x96, 0x98, 0x8a, 0x84, 0xae, 0xa0, 0xb2, 0xbc, 0xe6, 0xe8, 0xfa, 0xf4, 0xde, 0xd0, 0xc2, 0xcc,
  0x41, 0x4f, 0x5d, 0x53, 0x79, 0x77, 0x65, 0x6b, 0x31, 0x3f, 0x2d, 0x23, 0x09, 0x07, 0x15, 0x1b,
  0xa1, 0xaf, 0xbd, 0xb3, 0x99, 0x97, 0x85, 0x8b, 0xd1, 0xdf, 0xcd, 0xc3, 0xe9, 0xe7, 0xf5, 0xfb,
  0x9a, 0x94, 0x86, 0x88, 0xa2, 0xac, 0xbe, 0xb0, 0xea, 0xe4, 0xf6, 0xf8, 0xd2, 0xdc, 0xce, 0xc0,
  0x7a, 0x74, 0x66, 0x68, 0x42, 0x4c, 0x5e, 0x50, 0x0a, 0x04, 0x16, 0x18, 0x32, 0x3c, 0x2e, 0x20,
  0xec, 0xe2, 0xf0, 0xfe, 0xd4, 0xda, 0xc8, 0xc6, 0x9c, 0x92, 0x80, 0x8e, 0xa4, 0xaa, 0xb8, 0xb6,
  0x0c, 0x02, 0x10, 0x1e, 0x34, 0x3a, 0x28, 0x26, 0x7c, 0x72, 0x60, 0x6e, 0x44, 0x4a, 0x58, 0x56,
  0x37, 0x39, 0x2b, 0x25, 0x0f, 0x01, 0x13, 0x1d, 0x47, 0x49, 0x5b, 0x55, 0x7f, 0x71, 0x63, 0x6d,
  0xd7, 0xd9, 0xcb, 0xc5, 0xef, 0xe1, 0xf3, 0xfd, 0xa7, 0xa9, 0xbb, 0xb5, 0x9f, 0x91, 0x83, 0x8d]

/-- `ccaes_round_constant` (`:222`). -/
def ccaes_round_constant : Vector UInt8 10 := #v[0x01, 0x02, 0x04, 0x08, 0x10, 0x20, 0x40, 0x80, 0x1b, 0x36]

/-! ## Steps -/

/-- `ccaes_round_count` (`:236`). -/
def ccaes_round_count (key_len : Nat) : Nat :=
  if key_len = 16 then 10 else if key_len = 24 then 12 else if key_len = 32 then 14 else 0

/-- `ccaes_rot_word` (`:247`). -/
def ccaes_rot_word (word : ccaes_word_t) : ccaes_word_t := ![word 1, word 2, word 3, word 0]

/-- `ccaes_xor_word` (`:254`). -/
def ccaes_xor_word (x y : ccaes_word_t) : ccaes_word_t :=
  ![x 0 ^^^ y 0, x 1 ^^^ y 1, x 2 ^^^ y 2, x 3 ^^^ y 3]

/-- `ccaes_sub_bytes (len, in, out)` (`:261`) with `in == out`, as every call has it: each byte
through the S-box. The calls pass a word (`len = 4`) or the state (`len = 16`, row after row). -/
def ccaes_sub_bytes {ι : Type} (bytes : ι → UInt8) : ι → UInt8 :=
  fun i => ccaes_s_box.get (bytes i).toFin

/-- `ccaes_sub_bytes_inverse` (`:267`). -/
def ccaes_sub_bytes_inverse {ι : Type} (bytes : ι → UInt8) : ι → UInt8 :=
  fun i => ccaes_s_box_inverse.get (bytes i).toFin

/-- One pass of the shifter of `ccaes_shift_rows`: row `i` one place to the left. -/
def ccaes_shift_row_left (state : ccaes_state_t) (i : Fin 4) : ccaes_state_t :=
  Function.update state i ![state i 1, state i 2, state i 3, state i 0]

/-- One pass of the shifter of `ccaes_shift_rows_inverse`: row `i` one place to the right. -/
def ccaes_shift_row_right (state : ccaes_state_t) (i : Fin 4) : ccaes_state_t :=
  Function.update state i ![state i 3, state i 0, state i 1, state i 2]

/-- `ccaes_shift_rows` (`:273`): row `i` shifted left once, `i` times. -/
def ccaes_shift_rows (state : ccaes_state_t) : ccaes_state_t :=
  (List.finRange 4).foldl (fun state (i : Fin 4) =>
    (List.range i.val).foldl (fun state _ => ccaes_shift_row_left state i) state) state

/-- `ccaes_shift_rows_inverse` (`:288`). -/
def ccaes_shift_rows_inverse (state : ccaes_state_t) : ccaes_state_t :=
  (List.finRange 4).foldl (fun state (i : Fin 4) =>
    (List.range i.val).foldl (fun state _ => ccaes_shift_row_right state i) state) state

/-- `ccaes_mix_columns` (`:303`): column `i` of the result from column `i` of the state, through
the tables; every cell of the zeroed `result` is written. -/
def ccaes_mix_columns (state : ccaes_state_t) : ccaes_state_t := fun r i =>
  let GF1 := fun index => state index i
  let GF2 := fun index => gmul_2.get (GF1 index).toFin
  let GF3 := fun index => gmul_3.get (GF1 index).toFin
  ![GF2 0 ^^^ GF3 1 ^^^ GF1 2 ^^^ GF1 3,
    GF1 0 ^^^ GF2 1 ^^^ GF3 2 ^^^ GF1 3,
    GF1 0 ^^^ GF1 1 ^^^ GF2 2 ^^^ GF3 3,
    GF3 0 ^^^ GF1 1 ^^^ GF1 2 ^^^ GF2 3] r

/-- `ccaes_mix_columns_inverse` (`:328`). -/
def ccaes_mix_columns_inverse (state : ccaes_state_t) : ccaes_state_t := fun r i =>
  let GF1 := fun index => state index i
  let GF9 := fun index => gmul_9.get (GF1 index).toFin
  let GF11 := fun index => gmul_11.get (GF1 index).toFin
  let GF13 := fun index => gmul_13.get (GF1 index).toFin
  let GF14 := fun index => gmul_14.get (GF1 index).toFin
  ![GF14 0 ^^^ GF11 1 ^^^ GF13 2 ^^^ GF9 3,
    GF9 0 ^^^ GF14 1 ^^^ GF11 2 ^^^ GF13 3,
    GF13 0 ^^^ GF9 1 ^^^ GF14 2 ^^^ GF11 3,
    GF11 0 ^^^ GF13 1 ^^^ GF9 2 ^^^ GF14 3] r

/-- `ccaes_add_round_key` (`:358`): `state->bytes[j][i] ^= round_key[i].bytes[j]`, each cell once. -/
def ccaes_add_round_key (state : ccaes_state_t) (round_key : Fin 4 → ccaes_word_t) :
    ccaes_state_t :=
  fun j i => state j i ^^^ round_key i j

/-- The four words at `&ctx->round_keys[base]` that `ccaes_add_round_key` reads; nothing past the
array. -/
def ccaes_round_keys_at (ctx : the_real_ccecb_ctx) (base : Nat) : Option (Fin 4 → ccaes_word_t) :=
  if h : base + 4 ≤ 60 then some fun i => ctx.round_keys.get ⟨base + i, by omega⟩ else none

/-- `expanded_keys[i] = w`; nothing past the array. -/
def ccaes_set_key (keys : Vector ccaes_word_t 60) (i : Nat) (w : ccaes_word_t) :
    Option (Vector ccaes_word_t 60) :=
  if h : i < 60 then some (keys.set i w h) else none

/-- A pass of the first loop of `ccaes_expand_key` (`:370`): word `i` is key bytes `4i` to
`4i + 3`. -/
def ccaes_expand_key_word (key : List UInt8) (keys : Vector ccaes_word_t 60) (i : Nat) :
    Option (Vector ccaes_word_t 60) :=
  ccaes_set_key keys i
    ![key.getD (4 * i) 0, key.getD (4 * i + 1) 0, key.getD (4 * i + 2) 0, key.getD (4 * i + 3) 0]

/-- A pass of the second loop of `ccaes_expand_key` (`:373`): word `i` from word `i - 1`, rotated,
substituted and xored with a round constant at each multiple of `Nk`, and from word `i - Nk`. -/
def ccaes_expand_key_next (Nk : Nat) (keys : Vector ccaes_word_t 60) (i : Nat) :
    Option (Vector ccaes_word_t 60) := do
  let tmp ← keys[i - 1]?
  let tmp ←
    if i % Nk = 0 then do
      let tmp := ccaes_sub_bytes (ccaes_rot_word tmp)
      let rc ← ccaes_round_constant[i / Nk - 1]?
      pure (Function.update tmp 0 (tmp 0 ^^^ rc))
    else if Nk > 6 ∧ i % Nk = 4 then pure (ccaes_sub_bytes tmp)
    else pure tmp
  let prev ← keys[i - Nk]?
  ccaes_set_key keys i (ccaes_xor_word prev tmp)

/-- `ccaes_expand_key` (`:365`) over the key's bytes: the `Nk` key words, then each word up to
`4 (Nr + 1)` from the one before and the one `Nk` before. -/
def ccaes_expand_key (key_len : Nat) (key : List UInt8) (expanded_keys : Vector ccaes_word_t 60) :
    Option (Vector ccaes_word_t 60) := do
  let Nr := ccaes_round_count key_len
  let Nk := key_len / 4
  let keys ← (List.range Nk).foldlM (ccaes_expand_key_word key) expanded_keys
  (List.range' Nk (4 * (Nr + 1) - Nk)).foldlM (ccaes_expand_key_next Nk) keys

/-- `ccaes_ecb_init` (`:390`): the round count, and for a key of 16, 24 or 32 bytes its schedule.
The `info` argument is not read. The key's bytes are the ones the expansion reads. -/
def ccaes_ecb_init (ctx : the_real_ccecb_ctx) (key_size : Nat) (key : Ptr) :
    DerM (Int × the_real_ccecb_ctx) := do
  let ctx := { ctx with round_count := (ccaes_round_count key_size).toUInt8 }
  if ctx.round_count = 0 then pure (CCERR_PARAMETER, ctx)
  else
    let key_bytes ← loadN key key_size
    let round_keys ← Prog.ofOption (ccaes_expand_key key_size key_bytes ctx.round_keys)
    pure (CCERR_OK, { ctx with round_keys := round_keys })

/-- The rounds of `ccaes_ecb_encrypt` on one block's state (`:420-432`). -/
def ccaes_encrypt_block (ctx : the_real_ccecb_ctx) (state : ccaes_state_t) :
    Option ccaes_state_t := do
  let k ← ccaes_round_keys_at ctx 0
  let state := ccaes_add_round_key state k
  let state ← (List.range' 1 (ctx.round_count.toNat - 1)).foldlM (fun state round => do
    let state := fun r => ccaes_sub_bytes (state r)
    let state := ccaes_mix_columns (ccaes_shift_rows state)
    let k ← ccaes_round_keys_at ctx (4 * round)
    pure (ccaes_add_round_key state k)) state
  let state := ccaes_shift_rows fun r => ccaes_sub_bytes (state r)
  let k ← ccaes_round_keys_at ctx (4 * ctx.round_count.toNat)
  pure (ccaes_add_round_key state k)

/-- The rounds of `ccaes_ecb_decrypt` on one block's state (`:459-470`); the loop counter is a
`uint8_t` from `round_count - 1` down to `1`. -/
def ccaes_decrypt_block (ctx : the_real_ccecb_ctx) (state : ccaes_state_t) :
    Option ccaes_state_t := do
  let k ← ccaes_round_keys_at ctx (4 * ctx.round_count.toNat)
  let state := ccaes_shift_rows_inverse (ccaes_add_round_key state k)
  let state := fun r => ccaes_sub_bytes_inverse (state r)
  let state ← (List.range' 1 (ctx.round_count - 1).toNat).reverse.foldlM (fun state round => do
    let k ← ccaes_round_keys_at ctx (4 * round)
    let state := ccaes_shift_rows_inverse (ccaes_mix_columns_inverse (ccaes_add_round_key state k))
    pure fun r => ccaes_sub_bytes_inverse (state r)) state
  let k ← ccaes_round_keys_at ctx 0
  pure (ccaes_add_round_key state k)

/-- One pass of the block loop of `ccaes_ecb_encrypt` and `ccaes_ecb_decrypt`, with the rounds
of one block: the 16 bytes of block `block_index` as the state (`state.bytes[r][c] = input[r + 4c]`),
and the state back column after column (`output[4i + j] = state.bytes[j][i]`, at increasing
addresses). -/
def ccaes_ecb_block (rounds : ccaes_state_t → Option ccaes_state_t) (inp out : Ptr)
    (block_index : Nat) : DerM Unit := do
  let input := inp.add (16 * block_index)
  let output := out.add (16 * block_index)
  let bytes ← loadN input 16
  let state ← Prog.ofOption (rounds fun r c => bytes.getD (r + 4 * c) 0)
  storeN output ((List.finRange 4).flatMap fun i => (List.finRange 4).map fun j => state j i)

/-- The block loop of `ccaes_ecb_encrypt` (`:410-439`) and `ccaes_ecb_decrypt` (`:449-478`). -/
def ccaes_ecb_loop (rounds : ccaes_state_t → Option ccaes_state_t) (block_count : Nat)
    (inp out : Ptr) : DerM Int := do
  for block_index in List.range block_count do
    ccaes_ecb_block rounds inp out block_index
  pure CCERR_OK

/-- `ccaes_ecb_encrypt` (`:405`). -/
def ccaes_ecb_encrypt (ctx : the_real_ccecb_ctx) (block_count : Nat) (inp out : Ptr) : DerM Int :=
  ccaes_ecb_loop (ccaes_encrypt_block ctx) block_count inp out

/-- `ccaes_ecb_decrypt` (`:444`). -/
def ccaes_ecb_decrypt (ctx : the_real_ccecb_ctx) (block_count : Nat) (inp out : Ptr) : DerM Int :=
  ccaes_ecb_loop (ccaes_decrypt_block ctx) block_count inp out

/-- `struct ccmode_ecb`: the block size and the two functions. -/
structure ccmode_ecb where
  block_size : Nat
  init : the_real_ccecb_ctx → Nat → Ptr → DerM (Int × the_real_ccecb_ctx)
  ecb : the_real_ccecb_ctx → Nat → Ptr → Ptr → DerM Int

/-- `ccaes_ecb_encrypt_mode ()` (`:61`), returning `ccaes_ecb_encrypt_info` (`:47`). -/
def ccaes_ecb_encrypt_mode : ccmode_ecb := ⟨16, ccaes_ecb_init, ccaes_ecb_encrypt⟩

/-- `ccaes_ecb_decrypt_mode ()` (`:65`), returning `ccaes_ecb_decrypt_info` (`:54`). -/
def ccaes_ecb_decrypt_mode : ccmode_ecb := ⟨16, ccaes_ecb_init, ccaes_ecb_decrypt⟩

/-! ## The tables are the field's -/

/-- The source's tables in value: the S-box is the affine map of the inverse, the inverse S-box
the inverse of the inverse affine map, `gmul_c` the product by `c`, and the round constants the
powers of `x`. One evaluation over all the entries. -/
theorem ccaes_tables_toNat :
    ccaes_s_box.toList.map UInt8.toNat =
        (List.range 256).map (fun n => (Aes.affine (invNat n).toUInt8).toNat) ∧
      ccaes_s_box_inverse.toList.map UInt8.toNat =
        (List.range 256).map (fun n => invNat (Aes.invAffine n.toUInt8).toNat) ∧
      gmul_2.toList.map UInt8.toNat = (List.range 256).map (fun n => mulNat n 2) ∧
      gmul_3.toList.map UInt8.toNat = (List.range 256).map (fun n => mulNat n 3) ∧
      gmul_9.toList.map UInt8.toNat = (List.range 256).map (fun n => mulNat n 9) ∧
      gmul_11.toList.map UInt8.toNat = (List.range 256).map (fun n => mulNat n 11) ∧
      gmul_13.toList.map UInt8.toNat = (List.range 256).map (fun n => mulNat n 13) ∧
      gmul_14.toList.map UInt8.toNat = (List.range 256).map (fun n => mulNat n 14) ∧
      ∀ j < 10, ccaes_round_constant[j]? = some (Nat.iterate xtime j 1) := by
  decide +kernel

/-- A table whose entries are `f 0, …, f 255` in value holds `f b` at `b`. -/
theorem table_get {t : Vector UInt8 256} {f : Nat → Nat}
    (h : t.toList.map UInt8.toNat = (List.range 256).map f) (b : UInt8) :
    (t.get b.toFin).toNat = f b.toNat := by
  have hb : b.toNat < 256 := b.toNat_lt
  have hlen : b.toNat < t.toList.length := by simp [hb]
  have hb' := congrArg (fun l => l[b.toNat]?) h
  simp only [List.getElem?_map, List.getElem?_range hb, List.getElem?_eq_getElem hlen,
    Option.map_some, Option.some_inj] at hb'
  rw [← hb']
  simp [Vector.get, Vector.toList]

theorem ccaes_s_box_get (b : UInt8) : ccaes_s_box.get b.toFin = Aes.sbox b := by
  apply UInt8.toNat_inj.mp
  rw [table_get ccaes_tables_toNat.1, Aes.sbox, inv_eq_invNat]

theorem ccaes_s_box_inverse_get (b : UInt8) :
    ccaes_s_box_inverse.get b.toFin = Aes.invSbox b := by
  apply UInt8.toNat_inj.mp
  rw [table_get ccaes_tables_toNat.2.1, Aes.invSbox, inv_toNat]
  simp only [Nat.toUInt8_eq, UInt8.ofNat_toNat]

/-- A table of `{c}` times each byte. -/
theorem gmul_get {t : Vector UInt8 256} (c : UInt8)
    (h : t.toList.map UInt8.toNat = (List.range 256).map fun n => mulNat n c.toNat) (b : UInt8) :
    t.get b.toFin = mul b c := by
  apply UInt8.toNat_inj.mp
  rw [table_get h, mul_toNat]

theorem gmul_2_get : ∀ b : UInt8, gmul_2.get b.toFin = mul b 2 :=
  gmul_get 2 ccaes_tables_toNat.2.2.1
theorem gmul_3_get : ∀ b : UInt8, gmul_3.get b.toFin = mul b 3 :=
  gmul_get 3 ccaes_tables_toNat.2.2.2.1
theorem gmul_9_get : ∀ b : UInt8, gmul_9.get b.toFin = mul b 9 :=
  gmul_get 9 ccaes_tables_toNat.2.2.2.2.1
theorem gmul_11_get : ∀ b : UInt8, gmul_11.get b.toFin = mul b 11 :=
  gmul_get 11 ccaes_tables_toNat.2.2.2.2.2.1
theorem gmul_13_get : ∀ b : UInt8, gmul_13.get b.toFin = mul b 13 :=
  gmul_get 13 ccaes_tables_toNat.2.2.2.2.2.2.1
theorem gmul_14_get : ∀ b : UInt8, gmul_14.get b.toFin = mul b 14 :=
  gmul_get 14 ccaes_tables_toNat.2.2.2.2.2.2.2.1

/-- `ccaes_round_constant[j]` is `x^j`. -/
theorem ccaes_round_constant_get :
    ∀ j < 10, ccaes_round_constant[j]? = some (Nat.iterate xtime j 1) :=
  ccaes_tables_toNat.2.2.2.2.2.2.2.2

/-! ## Each step is the standard one -/

theorem ccaes_sub_bytes_eq (s : ccaes_state_t) :
    (fun r => ccaes_sub_bytes (s r)) = Aes.SubBytes s := by
  funext r c
  exact ccaes_s_box_get (s r c)

theorem ccaes_sub_bytes_inverse_eq (s : ccaes_state_t) :
    (fun r => ccaes_sub_bytes_inverse (s r)) = Aes.InvSubBytes s := by
  funext r c
  exact ccaes_s_box_inverse_get (s r c)

theorem ccaes_sub_bytes_word (w : ccaes_word_t) : ccaes_sub_bytes w = Aes.SubWord w := by
  funext i
  exact ccaes_s_box_get (w i)

theorem ccaes_rot_word_eq (w : ccaes_word_t) : ccaes_rot_word w = Aes.RotWord w := by
  funext i
  fin_cases i <;> rfl

theorem ccaes_xor_word_eq (x y : ccaes_word_t) : ccaes_xor_word x y = Aes.xorWord x y := by
  funext i
  fin_cases i <;> rfl

theorem ccaes_shift_rows_eq (s : ccaes_state_t) : ccaes_shift_rows s = Aes.ShiftRows s := by
  funext r c
  fin_cases r <;> fin_cases c <;> rfl

theorem ccaes_shift_rows_inverse_eq (s : ccaes_state_t) :
    ccaes_shift_rows_inverse s = Aes.InvShiftRows s := by
  funext r c
  fin_cases r <;> fin_cases c <;> rfl

theorem ccaes_mix_columns_eq (s : ccaes_state_t) : ccaes_mix_columns s = Aes.MixColumns s := by
  funext r c
  simp only [ccaes_mix_columns, gmul_2_get, gmul_3_get, Aes.MixColumns, Aes.mixColumn]
  -- each row is the spec's, its four terms in another order; the literals of the two sides
  -- carry different instance proofs, which `ac_rfl` does not see through and `grind` does
  fin_cases r <;> simp <;> grind

theorem ccaes_mix_columns_inverse_eq (s : ccaes_state_t) :
    ccaes_mix_columns_inverse s = Aes.InvMixColumns s := by
  funext r c
  simp only [ccaes_mix_columns_inverse, gmul_9_get, gmul_11_get, gmul_13_get, gmul_14_get,
    Aes.InvMixColumns, Aes.invMixColumn]
  fin_cases r <;> simp <;> grind

theorem ccaes_add_round_key_eq (s : ccaes_state_t) (k : Fin 4 → ccaes_word_t) :
    ccaes_add_round_key s k = Aes.AddRoundKey s k := rfl

/-! ## The rounds of one block -/

/-- The context holds `Nr` rounds of the schedule `w`: its round count, and its first
`4 (Nr + 1)` round keys. -/
structure HoldsSchedule (ctx : the_real_ccecb_ctx) (Nr : Nat) (w : Nat → Aes.Word) : Prop where
  round_count : ctx.round_count.toNat = Nr
  round_keys : ∀ j < 4 * (Nr + 1), ctx.round_keys[j]? = some (w j)

section Rounds

variable {ctx : the_real_ccecb_ctx} {Nr : Nat} {w : Nat → Aes.Word}

theorem HoldsSchedule.round_keys_at (hs : HoldsSchedule ctx Nr w) {round : Nat} (hr : round ≤ Nr) :
    ccaes_round_keys_at ctx (4 * round) = some (Aes.roundKey w round) := by
  -- the last of the four words is in the array, so all four are
  have h60 : 4 * round + 4 ≤ 60 := by
    obtain ⟨h3, -⟩ := Vector.getElem?_eq_some_iff.mp (hs.round_keys (4 * round + 3) (by omega))
    omega
  rw [ccaes_round_keys_at, dif_pos h60]
  congr 1
  funext i
  obtain ⟨_, hget⟩ := Vector.getElem?_eq_some_iff.mp (hs.round_keys (4 * round + i) (by omega))
  exact hget

theorem ccaes_encrypt_block_eq (hs : HoldsSchedule ctx Nr w) (state : ccaes_state_t) :
    ccaes_encrypt_block ctx state = some (Aes.Cipher Nr w state) := by
  have h0 : ccaes_round_keys_at ctx 0 = some (Aes.roundKey w 0) := hs.round_keys_at (Nat.zero_le Nr)
  simp only [ccaes_encrypt_block, hs.round_count, h0, hs.round_keys_at (Nat.le_refl Nr),
    Option.bind_eq_bind, Option.bind_some]
  rw [foldlM_eq_some_foldl _
    (fun s round => Aes.AddRoundKey (Aes.MixColumns (Aes.ShiftRows (Aes.SubBytes s)))
      (Aes.roundKey w round)) _ ?_]
  · simp only [Option.bind_some, ccaes_sub_bytes_eq, ccaes_shift_rows_eq, ccaes_add_round_key_eq,
      Aes.Cipher, Option.pure_def]
  · -- a middle round: its keys are in the schedule
    intro s round hround
    have hr : round ≤ Nr := by
      have := List.mem_range'_1.mp hround
      omega
    simp only [hs.round_keys_at hr, ccaes_sub_bytes_eq, ccaes_shift_rows_eq, ccaes_mix_columns_eq,
      ccaes_add_round_key_eq, Option.bind_some, Option.pure_def]

theorem ccaes_decrypt_block_eq (hs : HoldsSchedule ctx Nr w) (hNr : 0 < Nr) (state : ccaes_state_t) :
    ccaes_decrypt_block ctx state = some (Aes.InvCipher Nr w state) := by
  have h0 : ccaes_round_keys_at ctx 0 = some (Aes.roundKey w 0) := hs.round_keys_at (Nat.zero_le Nr)
  -- the `uint8_t` counter starts at `round_count - 1`, which does not wrap
  have hcount : (ctx.round_count - 1).toNat = Nr - 1 := by
    have hle : (1 : UInt8) ≤ ctx.round_count := by
      rw [UInt8.le_iff_toNat_le, hs.round_count]
      exact hNr
    rw [UInt8.toNat_sub_of_le _ _ hle, hs.round_count]
    rfl
  -- the source's passes end with the inverse S-box; the standard ones start with it
  have hshift := Aes.foldl_shift (fun s => Aes.InvSubBytes (Aes.InvShiftRows s))
    (fun s round => Aes.InvMixColumns (Aes.AddRoundKey s (Aes.roundKey w round)))
  simp only [ccaes_decrypt_block, hs.round_count, hcount, h0, hs.round_keys_at (Nat.le_refl Nr),
    Option.bind_eq_bind, Option.bind_some]
  rw [foldlM_eq_some_foldl _ (fun s round => Aes.InvSubBytes (Aes.InvShiftRows
    (Aes.InvMixColumns (Aes.AddRoundKey s (Aes.roundKey w round))))) _ ?_]
  · simp only [Option.bind_some, ccaes_sub_bytes_inverse_eq, ccaes_shift_rows_inverse_eq,
      ccaes_add_round_key_eq, Aes.InvCipher, Option.pure_def, hshift]
  · intro s round hround
    have hr : round ≤ Nr := by
      have := List.mem_range'_1.mp (List.mem_reverse.mp hround)
      omega
    simp only [hs.round_keys_at hr, ccaes_sub_bytes_inverse_eq, ccaes_shift_rows_inverse_eq,
      ccaes_mix_columns_inverse_eq, ccaes_add_round_key_eq, Option.bind_some, Option.pure_def]

end Rounds

/-! ## The key schedule -/

/-- The first `i` words of `keys` are those of the schedule of a key of `Nk` words. -/
def ScheduleUpTo (Nk : Nat) (key : List UInt8) (i : Nat) (keys : Vector ccaes_word_t 60) : Prop :=
  ∀ j < i, keys[j]? = some (Aes.keyExpansion Nk key j)

section Schedule

variable {Nk : Nat} {key : List UInt8} {keys : Vector ccaes_word_t 60} {i : Nat}

theorem ccaes_set_key_spec (hi : i < 60) (hkeys : ScheduleUpTo Nk key i keys) :
    ∃ keys', ccaes_set_key keys i (Aes.keyExpansion Nk key i) = some keys' ∧
      ScheduleUpTo Nk key (i + 1) keys' := by
  refine ⟨keys.set i _ hi, dif_pos hi, fun j hj => ?_⟩
  rw [Vector.getElem?_set]
  split
  · -- the word just written
    subst_vars
    rfl
  · exact hkeys j (by omega)

/-- The source xors the round constant into the first byte only: the rest of `Rcon` is zero. -/
theorem update_xor_Rcon (tmp : ccaes_word_t) (j : Nat) :
    Function.update tmp 0 (tmp 0 ^^^ Nat.iterate xtime (j - 1) 1) =
      Aes.xorWord tmp (Aes.Rcon j) := by
  funext k
  fin_cases k <;> simp [Aes.xorWord, Aes.Rcon, Function.update]

theorem ccaes_expand_key_word_spec (hi : i < Nk) (h60 : Nk ≤ 60)
    (hkeys : ScheduleUpTo Nk key i keys) :
    ∃ keys', ccaes_expand_key_word key keys i = some keys' ∧
      ScheduleUpTo Nk key (i + 1) keys' := by
  have hword : ![key.getD (4 * i) 0, key.getD (4 * i + 1) 0, key.getD (4 * i + 2) 0,
      key.getD (4 * i + 3) 0] = Aes.keyExpansion Nk key i := by
    rw [Aes.keyExpansion_lt hi]
    funext j
    fin_cases j <;> rfl
  rw [ccaes_expand_key_word, hword]
  exact ccaes_set_key_spec (by omega) hkeys

/-- A pass of the second loop computes word `i` of the schedule, from the two words it reads. -/
theorem ccaes_expand_key_next_eq (hNk : 0 < Nk) (hi : Nk ≤ i) (hrc : i / Nk - 1 < 10)
    (hkeys : ScheduleUpTo Nk key i keys) :
    ccaes_expand_key_next Nk keys i = ccaes_set_key keys i (Aes.keyExpansion Nk key i) := by
  rw [Aes.keyExpansion_ge hNk hi]
  simp only [ccaes_expand_key_next, hkeys (i - 1) (by omega), hkeys (i - Nk) (by omega),
    Option.bind_eq_bind, Option.bind_some, ccaes_xor_word_eq]
  -- the three kinds of word: a multiple of `Nk`, word 4 of a 256-bit key's eight, the rest
  by_cases h0 : i % Nk = 0
  · simp only [h0, if_true, ccaes_rot_word_eq, ccaes_sub_bytes_word, ccaes_round_constant_get _ hrc,
      Option.bind_some, Option.pure_def, update_xor_Rcon]
  · by_cases h4 : Nk > 6 ∧ i % Nk = 4
    · simp only [if_neg h0, if_pos h4, ccaes_sub_bytes_word, Option.pure_def, Option.bind_some]
    · simp only [if_neg h0, if_neg h4, Option.pure_def, Option.bind_some]

theorem ccaes_expand_key_next_spec (hNk : 0 < Nk) (hi : Nk ≤ i) (h60 : i < 60)
    (hrc : i / Nk - 1 < 10) (hkeys : ScheduleUpTo Nk key i keys) :
    ∃ keys', ccaes_expand_key_next Nk keys i = some keys' ∧
      ScheduleUpTo Nk key (i + 1) keys' := by
  rw [ccaes_expand_key_next_eq hNk hi hrc hkeys]
  exact ccaes_set_key_spec h60 hkeys

end Schedule

theorem ccaes_round_count_of_valid {key_len : Nat}
    (hk : key_len = 16 ∨ key_len = 24 ∨ key_len = 32) :
    ccaes_round_count key_len = key_len / 4 + 6 := by
  rcases hk with rfl | rfl | rfl <;> rfl

/-- For a key of 16, 24 or 32 bytes, `ccaes_expand_key` returns, and the first `4 (Nr + 1)`
words are the schedule of FIPS-197. -/
theorem ccaes_expand_key_spec {key_len : Nat} (hk : key_len = 16 ∨ key_len = 24 ∨ key_len = 32)
    (key : List UInt8) (expanded_keys : Vector ccaes_word_t 60) :
    ∃ keys, ccaes_expand_key key_len key expanded_keys = some keys ∧
      ScheduleUpTo (key_len / 4) key (4 * (ccaes_round_count key_len + 1)) keys := by
  have hNk : 4 ≤ key_len / 4 := by omega
  -- the schedule fits the array, and its round constants are among the ten of the table
  have hNr : 4 * (ccaes_round_count key_len + 1) ≤ 60 ∧
      ∀ i < 4 * (ccaes_round_count key_len + 1), i / (key_len / 4) - 1 < 10 := by
    rw [ccaes_round_count_of_valid hk]
    rcases hk with rfl | rfl | rfl <;> exact ⟨by decide, fun i hi => by omega⟩
  obtain ⟨keys₁, h₁, hI₁⟩ := foldlM_range'_some (ScheduleUpTo (key_len / 4) key)
    (ccaes_expand_key_word key) (key_len / 4) 0
    (fun i keys _ hi hkeys => ccaes_expand_key_word_spec (by omega) (by omega) hkeys)
    (b := expanded_keys) (fun j hj => absurd hj (Nat.not_lt_zero j))
  obtain ⟨keys₂, h₂, hI₂⟩ := foldlM_range'_some (ScheduleUpTo (key_len / 4) key)
    (ccaes_expand_key_next (key_len / 4)) (4 * (ccaes_round_count key_len + 1) - key_len / 4)
    (key_len / 4)
    (fun i keys hlo hhi hkeys =>
      ccaes_expand_key_next_spec (by omega) hlo (by omega) (hNr.2 i (by omega)) hkeys)
    (by rwa [Nat.zero_add] at hI₁)
  refine ⟨keys₂, ?_, ?_⟩
  · simp only [ccaes_expand_key, List.range_eq_range', h₁, Option.bind_eq_bind, Option.bind_some]
    exact h₂
  · have hle : key_len / 4 ≤ 4 * (ccaes_round_count key_len + 1) := by
      rw [ccaes_round_count_of_valid hk]
      omega
    rwa [Nat.add_sub_cancel' hle] at hI₂

/-! ## Setting up the context -/

/-- With a key of 16, 24 or 32 bytes, `ccaes_ecb_init` returns `CCERR_OK` and a context that
holds the key's schedule for `Nk + 6` rounds; it writes no memory. -/
theorem ccaes_ecb_init_run {K : List UInt8} (hK : K.length = 16 ∨ K.length = 24 ∨ K.length = 32)
    {key : Ptr} {m : Mem UInt8} (hkey : m.Reads key K) (ctx : the_real_ccecb_ctx) :
    ∃ ctx', (ccaes_ecb_init ctx K.length key).run m = some ((CCERR_OK, ctx'), m) ∧
      HoldsSchedule ctx' (K.length / 4 + 6) (Aes.keyExpansion (K.length / 4) K) := by
  have hNr := ccaes_round_count_of_valid hK
  obtain ⟨keys, hkeys, hsched⟩ := ccaes_expand_key_spec hK K ctx.round_keys
  -- the round count fits its `uint8_t`
  have hrc : (ccaes_round_count K.length).toUInt8.toNat = K.length / 4 + 6 := by
    rw [hNr]
    rcases hK with h | h | h <;> rw [h] <;> rfl
  have hne : (ccaes_round_count K.length).toUInt8 ≠ 0 := by
    intro h0
    have h := congrArg UInt8.toNat h0
    rw [hrc] at h
    simp at h
  refine ⟨{ ctx with round_count := (ccaes_round_count K.length).toUInt8, round_keys := keys },
    ?_, ⟨hrc, ?_⟩⟩
  · simp only [ccaes_ecb_init, hne, if_false, StateT.run_bind, loadN_run_of_reads hkey,
      Option.bind_eq_bind, Option.bind_some, hkeys, Prog.ofOption]
    rfl
  · rw [hNr] at hsched
    exact hsched

/-- With any other key length, `ccaes_ecb_init` returns `CCERR_PARAMETER`, with the round count
zero and the round keys as they were. -/
theorem ccaes_ecb_init_invalid {key_size : Nat}
    (hK : ¬ (key_size = 16 ∨ key_size = 24 ∨ key_size = 32)) (ctx : the_real_ccecb_ctx)
    (key : Ptr) (m : Mem UInt8) :
    (ccaes_ecb_init ctx key_size key).run m =
      some ((CCERR_PARAMETER, { ctx with round_count := 0 }), m) := by
  have h0 : ccaes_round_count key_size = 0 := by
    simp only [not_or] at hK
    simp [ccaes_round_count, hK.1, hK.2.1, hK.2.2]
  simp [ccaes_ecb_init, h0]

/-! ## The block loop -/

/-- After `i` passes of the block loop from `m₀`: the first `i` output blocks hold `g` of the
input blocks, and every cell outside them is as it was. -/
def EcbAfter (m₀ : Mem UInt8) (out : Ptr) (g : List UInt8 → List UInt8) (P : List UInt8) (i : Nat)
    (m : Mem UInt8) : Prop :=
  m.Reads out ((List.range i).flatMap fun j => g ((P.drop (16 * j)).take 16)) ∧
    ∀ q, out.Outside (16 * i) q → m.load q = m₀.load q

section Loop

variable {rounds : ccaes_state_t → Option ccaes_state_t} {G : ccaes_state_t → ccaes_state_t}

/-- One pass: block `i` of the input read whole, the rounds, and the state written to block `i`
of the output; no other cell changes. -/
theorem ccaes_ecb_block_run (hr : ∀ s, rounds s = some (G s)) {inp out : Ptr} {i : Nat}
    {B O : List UInt8} {m : Mem UInt8} (hB : m.Reads (inp.add (16 * i)) B) (hBl : B.length = 16)
    (hO : m.Reads (out.add (16 * i)) O) (hOl : O.length = 16) :
    ∃ m', (ccaes_ecb_block rounds inp out i).run m = some ((), m') ∧
      m'.Reads (out.add (16 * i)) (Aes.ofState (G (Aes.toState B))) ∧
      ∀ q, (out.add (16 * i)).Outside 16 q → m'.load q = m.load q := by
  have hload := loadN_run_of_reads hB
  rw [hBl] at hload
  obtain ⟨m', hrun, hreads, hframe⟩ := storeN_run hO
    (show (Aes.ofState (G (Aes.toState B))).length = O.length by rw [Aes.length_ofState, hOl])
  refine ⟨m', ?_, hreads, fun q hq => hframe q (by rwa [Aes.length_ofState])⟩
  simp only [ccaes_ecb_block, StateT.run_bind, hload, Option.bind_eq_bind, Option.bind_some, hr,
    Prog.ofOption, StateT.run_pure, Option.pure_def]
  exact hrun

variable {inp out : Ptr} {P O : List UInt8} {n : Nat} {m₀ : Mem UInt8}

/-- Pass `i` keeps the loop's invariant: the input block it reads is still the caller's, since
the outputs written so far lie before it or apart from it. -/
theorem EcbAfter.step (hr : ∀ s, rounds s = some (G s)) (hP : m₀.Reads inp P)
    (hPl : P.length = 16 * n) (hO : m₀.Reads out O) (hOl : O.length = 16 * n)
    (hov : inp.blk ≠ out.blk ∨ out.off ≤ inp.off ∨ inp.off + 16 * n ≤ out.off)
    {i : Nat} (hi : i < n) {m : Mem UInt8}
    (hm : EcbAfter m₀ out (fun B => Aes.ofState (G (Aes.toState B))) P i m) :
    ∃ m', (ccaes_ecb_block rounds inp out i).run m = some ((), m') ∧
      EcbAfter m₀ out (fun B => Aes.ofState (G (Aes.toState B))) P (i + 1) m' := by
  have hcast : (((16 * i : Nat) : Int)) = 16 * (i : Int) := by push_cast; rfl
  -- input block `i`, unchanged by the passes before
  have hB : m.Reads (inp.add (16 * i)) ((P.drop (16 * i)).take 16) := by
    have h := hP.sub (i := 16 * i) (k := 16) (by omega)
    rw [hcast] at h
    refine h.congr fun k hk => hm.2 _ ?_
    simp only [List.length_take, List.length_drop] at hk
    simp only [Ptr.Outside, Ptr.add_blk, Ptr.add_off]
    omega
  -- output block `i`, not written yet
  have hOi : m.Reads (out.add (16 * i)) ((O.drop (16 * i)).take 16) := by
    have h := hO.sub (i := 16 * i) (k := 16) (by omega)
    rw [hcast] at h
    refine h.congr fun k _ => hm.2 _ ?_
    simp only [Ptr.Outside, Ptr.add_blk, Ptr.add_off]
    omega
  obtain ⟨m', hrun, hreads, hframe⟩ := ccaes_ecb_block_run hr hB
    (Aes.length_block (by omega)) hOi (Aes.length_block (by omega))
  have hdone := Aes.length_flatMap_blocks
    (h := fun j => Aes.ofState (G (Aes.toState ((P.drop (16 * j)).take 16))))
    (fun _ => Aes.length_ofState _) i
  refine ⟨m', hrun, ?_, fun q hq => ?_⟩
  · rw [List.range_succ, List.flatMap_append, List.flatMap_singleton, Mem.Reads.append_iff,
      hdone, hcast]
    refine ⟨hm.1.congr fun k hk => hframe _ ?_, hreads⟩
    rw [hdone] at hk
    simp only [Ptr.Outside, Ptr.add_blk, Ptr.add_off]
    omega
  · rw [hframe q ?_, hm.2 q ?_] <;>
      simp only [Ptr.Outside, Ptr.add_blk, Ptr.add_off] at hq ⊢ <;> omega

/-- The block loop over `n` blocks returns `CCERR_OK`; the output holds `G` applied to each input
block, and no cell outside the output changes. The output lies apart from the input, or at or
before it in the same block, as `in == out` is. -/
theorem ccaes_ecb_loop_run (hr : ∀ s, rounds s = some (G s)) (hP : m₀.Reads inp P)
    (hPl : P.length = 16 * n) (hO : m₀.Reads out O) (hOl : O.length = 16 * n)
    (hov : inp.blk ≠ out.blk ∨ out.off ≤ inp.off ∨ inp.off + 16 * n ≤ out.off) :
    ∃ m', (ccaes_ecb_loop rounds n inp out).run m₀ = some (CCERR_OK, m') ∧
      m'.Reads out (Aes.ecb (fun B => Aes.ofState (G (Aes.toState B))) P) ∧
      ∀ q, out.Outside (16 * n) q → m'.load q = m₀.load q := by
  have hinit : EcbAfter m₀ out (fun B => Aes.ofState (G (Aes.toState B))) P 0 m₀ :=
    ⟨Mem.Reads.nil, fun _ _ => rfl⟩
  obtain ⟨m', hrun, hI⟩ := forIn_range'_run _
    (fun i _ => ccaes_ecb_block rounds inp out i >>= fun _ => pure (ForInStep.yield ())) n 0
    (fun i m _ hi hm => by
      obtain ⟨m', h, hm'⟩ := EcbAfter.step hr hP hPl hO hOl hov (by omega) hm
      exact ⟨m', by simp only [StateT.run_bind, h, Option.bind_eq_bind, Option.bind_some]; rfl,
        hm'⟩)
    hinit
  have hn : P.length / 16 = n := by omega
  rw [Nat.zero_add] at hI
  refine ⟨m', ?_, ?_, hI.2⟩
  · simp only [ccaes_ecb_loop, List.range_eq_range', StateT.run_bind]
    rw [hrun]
    rfl
  · rw [Aes.ecb, hn]
    exact hI.1

end Loop

/-! ## corecrypto's ECB is FIPS-197 -/

/-- Through either mode, `init` with a key of 16, 24 or 32 bytes returns `CCERR_OK` and writes no
memory; `ecb` on `n` whole blocks then returns `CCERR_OK`, writes AES of the key (or its inverse)
of each input block to the output, and changes no other cell, for an output apart from the input
or at it. On whole blocks the two directions undo each other. `init` with any other key length
returns `CCERR_PARAMETER` and leaves the round keys as they were. -/
theorem ccaes_ecb_is_fips197 :
    (∀ (K : List UInt8) (key : Ptr) (m : Mem UInt8) (ctx : the_real_ccecb_ctx),
      (K.length = 16 ∨ K.length = 24 ∨ K.length = 32) → m.Reads key K →
      ∃ ctx', (ccaes_ecb_encrypt_mode.init ctx K.length key).run m = some ((CCERR_OK, ctx'), m) ∧
        ∀ (n : Nat) (inp out : Ptr) (P O : List UInt8) (m₁ : Mem UInt8),
          m₁.Reads inp P → P.length = 16 * n → m₁.Reads out O → O.length = 16 * n →
          (inp.blk ≠ out.blk ∨ out.off ≤ inp.off ∨ inp.off + 16 * n ≤ out.off) →
          ∃ m₂, (ccaes_ecb_encrypt_mode.ecb ctx' n inp out).run m₁ = some (CCERR_OK, m₂) ∧
            m₂.Reads out (Aes.ecb (Aes.encrypt K) P) ∧
            ∀ q, out.Outside (16 * n) q → m₂.load q = m₁.load q) ∧
    (∀ (K : List UInt8) (key : Ptr) (m : Mem UInt8) (ctx : the_real_ccecb_ctx),
      (K.length = 16 ∨ K.length = 24 ∨ K.length = 32) → m.Reads key K →
      ∃ ctx', (ccaes_ecb_decrypt_mode.init ctx K.length key).run m = some ((CCERR_OK, ctx'), m) ∧
        ∀ (n : Nat) (inp out : Ptr) (C O : List UInt8) (m₁ : Mem UInt8),
          m₁.Reads inp C → C.length = 16 * n → m₁.Reads out O → O.length = 16 * n →
          (inp.blk ≠ out.blk ∨ out.off ≤ inp.off ∨ inp.off + 16 * n ≤ out.off) →
          ∃ m₂, (ccaes_ecb_decrypt_mode.ecb ctx' n inp out).run m₁ = some (CCERR_OK, m₂) ∧
            m₂.Reads out (Aes.ecb (Aes.decrypt K) C) ∧
            ∀ q, out.Outside (16 * n) q → m₂.load q = m₁.load q) ∧
    (∀ K P : List UInt8, P.length % 16 = 0 →
      Aes.ecb (Aes.decrypt K) (Aes.ecb (Aes.encrypt K) P) = P ∧
        Aes.ecb (Aes.encrypt K) (Aes.ecb (Aes.decrypt K) P) = P) ∧
    (∀ (key_size : Nat) (key : Ptr) (m : Mem UInt8) (ctx : the_real_ccecb_ctx),
      ¬ (key_size = 16 ∨ key_size = 24 ∨ key_size = 32) →
      (ccaes_ecb_encrypt_mode.init ctx key_size key).run m =
          some ((CCERR_PARAMETER, { ctx with round_count := 0 }), m) ∧
        (ccaes_ecb_decrypt_mode.init ctx key_size key).run m =
          some ((CCERR_PARAMETER, { ctx with round_count := 0 }), m)) := by
  refine ⟨fun K key m ctx hK hkey => ?_, fun K key m ctx hK hkey => ?_,
    fun K P hP => ⟨Aes.ecb_decrypt_encrypt K hP, Aes.ecb_encrypt_decrypt K hP⟩,
    fun key_size key m ctx hK => ⟨ccaes_ecb_init_invalid hK ctx key m,
      ccaes_ecb_init_invalid hK ctx key m⟩⟩
  · -- encryption: the context holds the schedule, so each block goes through `Aes.Cipher`
    obtain ⟨ctx', hinit, hs⟩ := ccaes_ecb_init_run hK hkey ctx
    exact ⟨ctx', hinit, fun n inp out P O m₁ hP hPl hO hOl hov =>
      ccaes_ecb_loop_run (ccaes_encrypt_block_eq hs) hP hPl hO hOl hov⟩
  · -- decryption: the same context, each block through `Aes.InvCipher`
    obtain ⟨ctx', hinit, hs⟩ := ccaes_ecb_init_run hK hkey ctx
    exact ⟨ctx', hinit, fun n inp out C O m₁ hC hCl hO hOl hov =>
      ccaes_ecb_loop_run (ccaes_decrypt_block_eq hs (by omega)) hC hCl hO hOl hov⟩

/-- FIPS-197's AES-128 example key (bytes `00` to `0f`) and block (`00 11 … ff`), the block
encrypted in place. -/
theorem ccaes_ecb_encrypts_in_place :
    ∃ ctx', (ccaes_ecb_encrypt_mode.init ⟨0, Vector.replicate 60 fun _ => 0⟩ 16 ⟨0, 0⟩).run
        [(List.range 16).map Nat.toUInt8, (List.range 16).map fun i => (17 * i).toUInt8] =
        some ((CCERR_OK, ctx'),
          [(List.range 16).map Nat.toUInt8, (List.range 16).map fun i => (17 * i).toUInt8]) ∧
      ∃ m₂, (ccaes_ecb_encrypt_mode.ecb ctx' 1 ⟨1, 0⟩ ⟨1, 0⟩).run
          [(List.range 16).map Nat.toUInt8, (List.range 16).map fun i => (17 * i).toUInt8] =
          some (CCERR_OK, m₂) ∧
        m₂.Reads ⟨1, 0⟩ (Aes.ecb (Aes.encrypt ((List.range 16).map Nat.toUInt8))
          ((List.range 16).map fun i => (17 * i).toUInt8)) := by
  obtain ⟨ctx', hinit, hecb⟩ := ccaes_ecb_is_fips197.1 ((List.range 16).map Nat.toUInt8) ⟨0, 0⟩
    [(List.range 16).map Nat.toUInt8, (List.range 16).map fun i => (17 * i).toUInt8]
    ⟨0, Vector.replicate 60 fun _ => 0⟩ (by decide) (by unfold Mem.Reads; decide)
  obtain ⟨m₂, hrun, hreads, -⟩ := hecb 1 ⟨1, 0⟩ ⟨1, 0⟩
    ((List.range 16).map fun i => (17 * i).toUInt8) ((List.range 16).map fun i => (17 * i).toUInt8)
    [(List.range 16).map Nat.toUInt8, (List.range 16).map fun i => (17 * i).toUInt8]
    (by unfold Mem.Reads; decide) (by decide) (by unfold Mem.Reads; decide) (by decide) (by decide)
  exact ⟨ctx', hinit, m₂, hrun, hreads⟩

end Corecrypto.Aes
