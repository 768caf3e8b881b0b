import Darwin.Corecrypto.Digest

/-!
# corecrypto HMAC (`corecrypto/src/cchmac.c`)

| here | there |
| --- | --- |
| `cchmac_ctx` | `cchmac_ctx_t` (`cchmac.h:17-60`): a digest context, whose state is `istate`, then `ostate` |
| `cchmac_init` | `:5` |
| `cchmac_update`, `cchmac_final` | `:48`, `:56` |
| `cchmac` | `:75`, with `cchmac_di_decl` / `cchmac_di_clear` |
| `sha256`, `hmac` | FIPS 180-4 SHA-256 over `ccsha2xx_compress_one`, and RFC 2104 over any hash |

`cchmac_init` builds the padded key `K0` in the context's block buffer. A key of at most
`block_size` bytes is copied there and zero-padded; a longer one is replaced by its digest,
written by `ccdigest` into the first `output_size` bytes of the buffer, and nothing clears the
rest (`:8-13`). The key block then hashed with `opad` and `ipad` ends in whatever bytes the
buffer held before, where RFC 2104 has zeros. The one-shot `cchmac` declares its context on the
stack without clearing it (`cchmac_di_decl`), so the same bytes are the stack's
(`cchmac_reads_stale_key_tail`).
-/

namespace Corecrypto.Digest

open Blocks Corecrypto.Der

/-- An HMAC context: the digest context of the inner hash, and the outer state. -/
structure cchmac_ctx where
  digest : ccdigest_ctx
  ostate : List UInt8

/-- `cchmac_init` (`:5`): the key block `K0` in the buffer, `ostate` and `istate` each the
initial state after one block of `K0 ^ opad` and `K0 ^ ipad`, and nothing hashed after them. -/
def cchmac_init (di : ccdigest_info) (ctx : cchmac_ctx) (key_len : Nat) (key : Ptr) :
    DerM cchmac_ctx := do
  let data := ctx.digest.data
  if key_len > di.block_size then
    -- "keys longer than blocksize are shortened": `output_size` bytes are written
    ccdigest di key_len key data
  else
    memcpy data key key_len
    if key_len < di.block_size then
      memset (data.add key_len) 0 (di.block_size - key_len)
  for i in List.range di.block_size do
    let b ← load data i
    store data i (b ^^^ 0x5c)
  let block ← loadN data di.block_size
  let ostate := di.compress di.initial_state 1 block
  for i in List.range di.block_size do
    let b ← load data i
    store data i (b ^^^ 0x5c)
    let b ← load data i
    store data i (b ^^^ 0x36)
  let block ← loadN data di.block_size
  let istate := di.compress di.initial_state 1 block
  pure ⟨{ ctx.digest with state := istate, nbits := (di.block_size * 8).toUInt64, num := 0 },
    ostate⟩

/-- `cchmac_update` (`:48`): the message goes to the inner digest. -/
def cchmac_update (di : ccdigest_info) (ctx : cchmac_ctx) (data_len : Nat) (data : Ptr) :
    DerM cchmac_ctx := do
  let digest ← ccdigest_update di ctx.digest data_len data
  pure { ctx with digest := digest }

/-- `cchmac_final` (`:56`): the inner digest is written into the buffer, and the same context,
its state now `ostate`, is finalised again as if `block_size` bytes had been hashed and the
`output_size` bytes of the inner digest were pending. -/
def cchmac_final (di : ccdigest_info) (ctx : cchmac_ctx) (mac : Ptr) : DerM cchmac_ctx := do
  let digest ← ccdigest_final di ctx.digest ctx.digest.data
  let digest := { digest with
    state := ctx.ostate, num := di.output_size.toUInt32,
    nbits := (di.block_size * 8).toUInt64 }
  let digest ← ccdigest_final di digest mac
  pure { ctx with digest := digest }

/-- `cchmac` (`:75`). `cchmac_di_decl` puts the context on the stack uninitialised: `stack i` is
the byte its buffer held at `i`. `cchmac_di_clear` clears the buffer at the end. -/
def cchmac (di : ccdigest_info) (stack : Nat → UInt8) (key_len : Nat) (key : Ptr)
    (data_len : Nat) (data mac : Ptr) : DerM Unit := do
  let buf ← alloca ((List.range di.block_size).map stack)
  let ctx ← cchmac_init di ⟨⟨0, [], buf, 0⟩, []⟩ key_len key
  let ctx ← cchmac_update di ctx data_len data
  let _ ← cchmac_final di ctx mac
  memset buf 0 di.block_size

/-! ## What HMAC-SHA-256 is -/

/-- SHA-256 of FIPS 180-4 §5-6: the message, `0x80`, zeros up to 56 bytes modulo 64, the
64-bit big-endian bit length; the blocks compressed from the initial hash value, whose words
are the digest, big-endian. -/
def sha256 (M : List UInt8) : List UInt8 :=
  let l := M.length * 8
  let length : List UInt8 := (List.range 8).map fun j => (l >>> (8 * (7 - j))).toUInt8
  let padded := M ++ [0x80] ++ List.replicate ((119 - M.length % 64) % 64) 0 ++ length
  let H := (List.range (padded.length / 64)).foldl
    (fun H i => ccsha2xx_compress_one H ((padded.drop (64 * i)).take 64)) ccsha256_initial_state
  H.flatMap fun (w : UInt32) =>
    [(w >>> 24).toUInt8, (w >>> 16).toUInt8, (w >>> 8).toUInt8, w.toUInt8]

/-- HMAC of RFC 2104 over a hash `H` with `B`-byte blocks: `K0` is the key, or `H (key)` when
the key is longer than a block, zero-padded to `B` bytes. -/
def hmac (H : List UInt8 → List UInt8) (B : Nat) (key text : List UInt8) : List UInt8 :=
  let K := if key.length > B then H key else key
  let K0 := K ++ List.replicate (B - K.length) 0
  H (K0.map (· ^^^ 0x5c) ++ H (K0.map (· ^^^ 0x36) ++ text))

/-- RFC 2104's HMAC-SHA-256 of `"abc"` under 65 bytes of `0x0b`. Each value below is computed on
its own, so that the kernel's work on one is dropped before the next. -/
theorem hmac_sha256_long_key_abc :
    hmac sha256 64 (List.replicate 65 0x0b) [0x61, 0x62, 0x63] =
      [0xf4, 0xe1, 0x95, 0x27, 0x3f, 0xf9, 0xf2, 0xc0, 0x68, 0x54, 0x6f,
       0x72, 0x0f, 0xbc, 0x6f, 0xb1, 0xf6, 0xa7, 0x45, 0x64, 0xa3, 0x45,
       0x10, 0x91, 0x3e, 0x88, 0xc7, 0x21, 0x80, 0x0f, 0x9c, 0x4f] := by
  decide +kernel

/-- The MAC the model computes when the block buffer held zeros. -/
theorem cchmac_zero_buffer_abc :
    ((do
        let c ← cchmac_init ccsha256_di ⟨⟨0, [], ⟨3, 0⟩, 0⟩, []⟩ 65 ⟨0, 0⟩
        let c ← cchmac_update ccsha256_di c 3 ⟨1, 0⟩
        let _ ← cchmac_final ccsha256_di c ⟨2, 0⟩
        pure () : DerM Unit).run
        [List.replicate 65 0x0b, [0x61, 0x62, 0x63], List.replicate 32 0,
          List.replicate 64 0]).map (fun r => r.2.getD 2 []) =
      some [0xf4, 0xe1, 0x95, 0x27, 0x3f, 0xf9, 0xf2, 0xc0, 0x68, 0x54, 0x6f,
         0x72, 0x0f, 0xbc, 0x6f, 0xb1, 0xf6, 0xa7, 0x45, 0x64, 0xa3, 0x45,
         0x10, 0x91, 0x3e, 0x88, 0xc7, 0x21, 0x80, 0x0f, 0x9c, 0x4f] := by
  decide +kernel

/-- The MAC the model computes when the block buffer held `0xff` bytes: that of the key block
`sha256 key ++ replicate 32 0xff`. -/
theorem cchmac_ff_buffer_abc :
    ((do
        let c ← cchmac_init ccsha256_di ⟨⟨0, [], ⟨3, 0⟩, 0⟩, []⟩ 65 ⟨0, 0⟩
        let c ← cchmac_update ccsha256_di c 3 ⟨1, 0⟩
        let _ ← cchmac_final ccsha256_di c ⟨2, 0⟩
        pure () : DerM Unit).run
        [List.replicate 65 0x0b, [0x61, 0x62, 0x63], List.replicate 32 0,
          List.replicate 64 0xff]).map (fun r => r.2.getD 2 []) =
      some [0x22, 0xf5, 0xa1, 0x2b, 0x60, 0x50, 0x51, 0x73, 0x1d, 0x78, 0x18,
         0xc5, 0x2b, 0x30, 0xc9, 0x60, 0x69, 0x8b, 0xdb, 0xce, 0x98, 0x41,
         0xa2, 0x1c, 0x0b, 0x29, 0xd8, 0xf8, 0xda, 0x6f, 0x58, 0x1f] := by
  decide +kernel

/-- HMAC-SHA-256 of `"abc"` under a 65-byte key, through `cchmac_init`, `cchmac_update` and
`cchmac_final` on a context whose block buffer (memory block 3) held zeros, and on one whose
buffer held `0xff` bytes: the first MAC is RFC 2104's, the second another, since the 32 bytes
after the key's digest are the buffer's. -/
theorem cchmac_reads_stale_key_tail :
    ((do
        let c ← cchmac_init ccsha256_di ⟨⟨0, [], ⟨3, 0⟩, 0⟩, []⟩ 65 ⟨0, 0⟩
        let c ← cchmac_update ccsha256_di c 3 ⟨1, 0⟩
        let _ ← cchmac_final ccsha256_di c ⟨2, 0⟩
        pure () : DerM Unit).run
        [List.replicate 65 0x0b, [0x61, 0x62, 0x63], List.replicate 32 0,
          List.replicate 64 0]).map (fun r => r.2.getD 2 []) =
        some (hmac sha256 64 (List.replicate 65 0x0b) [0x61, 0x62, 0x63]) ∧
      ((do
        let c ← cchmac_init ccsha256_di ⟨⟨0, [], ⟨3, 0⟩, 0⟩, []⟩ 65 ⟨0, 0⟩
        let c ← cchmac_update ccsha256_di c 3 ⟨1, 0⟩
        let _ ← cchmac_final ccsha256_di c ⟨2, 0⟩
        pure () : DerM Unit).run
        [List.replicate 65 0x0b, [0x61, 0x62, 0x63], List.replicate 32 0,
          List.replicate 64 0xff]).map (fun r => r.2.getD 2 []) ≠
        some (hmac sha256 64 (List.replicate 65 0x0b) [0x61, 0x62, 0x63]) := by
  rw [cchmac_zero_buffer_abc, cchmac_ff_buffer_abc, hmac_sha256_long_key_abc]
  -- the two MACs differ in their first byte
  exact ⟨rfl, by decide⟩

end Corecrypto.Digest
