import Darwin.Corecrypto.Der
import Mathlib

/-!
# corecrypto streaming digests (`corecrypto/src/ccdigest.c`, `ccsha2xx.c`, `ccsha3xx.c`)

| here | there |
| --- | --- |
| `ccdigest_info`, `ccdigest_final_kind` | `struct ccdigest_info` (`ccdigest.h:80`); `final` is one of three functions |
| `ccdigest_ctx` | the context: `ccdigest_nbits`, the state, the block buffer `ccdigest_data`, `ccdigest_num` |
| `toInt`, `toSize` | the conversions of C's `int` and `size_t` |
| `ccdigest_init`, `ccdigest_submit_block` | `ccdigest.c:102`, `:109` |
| `ccdigest_update_loop`, `ccdigest_update` | `ccdigest.c:115` |
| `ccdigest_final_64`, `ccdigest_final_64be`, `ccdigest_final_64le` | `ccdigest.c:50-92` |
| `ccdigest_final_128be` | `ccsha3xx.c:17` |
| `ccdigest_final`, `ccdigest` | `di->final`, `ccdigest.c:94` |
| `ccsha2xx_compress_one`, `ccsha2xx_compress`, `ccsha256_di` | `ccsha2xx.c` |

The state is kept as its bytes, as the functions copy it (`ccdigest_copy_state`); the words of
SHA-256 are its little-endian 32-bit words. The block buffer lives in the byte memory, so that
the context can be handed to code that writes into it (`cchmac`).

`ccdigest_update` computes `nblocks * block_size` in an `int`: for `len = 2^31` and blocks of 64
or 128 bytes that is `-2^31`, which sets `len` to `2^32` and moves `ptr` back by `2^31`; from
there each pass compresses `2^32` bytes in front of the message and changes neither
(`ccdigest_update_two_pow_31_undefined`).
-/

namespace Corecrypto.Digest

open Blocks Corecrypto.Der

/-- The three `final` functions of the descriptors. -/
inductive ccdigest_final_kind
  | final_64be
  | final_64le
  | final_128be
  deriving DecidableEq, Repr

/-- `struct ccdigest_info`: `compress` gets the state and the bytes of `nblocks` blocks. -/
structure ccdigest_info where
  output_size : Nat
  state_size : Nat
  block_size : Nat
  initial_state : List UInt8
  compress : List UInt8 → Nat → List UInt8 → List UInt8
  final : ccdigest_final_kind

/-- A digest context: bits hashed so far, the state, where its block buffer is, and how many
bytes the buffer holds. -/
structure ccdigest_ctx where
  nbits : UInt64
  state : List UInt8
  data : Ptr
  num : UInt32

/-- A value converted to `int`: 32-bit two's complement. -/
def toInt (x : Int) : Int :=
  let y := x % 2 ^ 32
  if y < 2 ^ 31 then y else y - 2 ^ 32

/-- A value converted to `size_t`. -/
def toSize (x : Int) : Nat := (x % 2 ^ 64).toNat

/-- `memcpy (dst, src, n)` on bytes, in order. -/
def memcpy (dst src : Ptr) : Nat → DerM Unit
  | 0 => pure ()
  | n + 1 => do
    memcpy dst src n
    let v ← load src n
    store dst n v

/-- `ccdigest_init` (`:102`); the buffer keeps what it held. -/
def ccdigest_init (di : ccdigest_info) (ctx : ccdigest_ctx) : ccdigest_ctx :=
  { ctx with nbits := 0, num := 0, state := di.initial_state }

/-- `ccdigest_submit_block` (`:109`): `compress` over the `nblocks` blocks at `data`, then
`nbits += nblocks * block_size * 8` in `size_t`. -/
def ccdigest_submit_block (di : ccdigest_info) (ctx : ccdigest_ctx) (nblocks : Int)
    (data : Ptr) : DerM ccdigest_ctx := do
  let bytes ← loadN data (toSize nblocks * di.block_size)
  pure { ctx with
    state := di.compress ctx.state (toSize nblocks) bytes
    nbits := ctx.nbits + (toSize (toSize nblocks * di.block_size * 8)).toUInt64 }

/-- The loop of `ccdigest_update` (`:119`), with `fuel` passes left: fill the buffer and compress
it when full, or compress the whole blocks in place, or keep the tail in the buffer. -/
def ccdigest_update_loop (di : ccdigest_info) :
    Nat → ccdigest_ctx → Nat → Ptr → DerM ccdigest_ctx
  | 0, _, _, _ => fun _ => none
  | fuel + 1, ctx, len, ptr =>
    if len > 0 then
      let buffered := toInt ctx.num.toNat
      if buffered > 0 then do
        let tocopy := toInt (toSize (di.block_size - buffered))
        let tocopy := if toSize tocopy > len then toInt len else tocopy
        memcpy (ctx.data.add buffered) ptr (toSize tocopy)
        let buffered := toInt (buffered + tocopy)
        let ctx := { ctx with num := (toSize buffered).toUInt32 }
        if toSize buffered = di.block_size then
          let ctx ← ccdigest_submit_block di ctx 1 ctx.data
          ccdigest_update_loop di fuel { ctx with num := 0 } (toSize (len - tocopy))
            (ptr.add tocopy)
        else ccdigest_update_loop di fuel ctx (toSize (len - tocopy)) (ptr.add tocopy)
      else if len ≥ di.block_size then do
        let nblocks := toInt (len / di.block_size)
        let bytes := toInt (toSize nblocks * di.block_size)
        let ctx ← ccdigest_submit_block di ctx nblocks ptr
        ccdigest_update_loop di fuel ctx (toSize (len - bytes)) (ptr.add bytes)
      else do
        memcpy ctx.data ptr len
        pure { ctx with num := len.toUInt32 }
    else pure ctx

/-- `ccdigest_update` (`:115`). A pass takes a byte of `len` at least, or ends the loop, when
`len` stays below `2^31`, so `len + 1` passes are enough there. -/
def ccdigest_update (di : ccdigest_info) (ctx : ccdigest_ctx) (len : Nat) (data : Ptr) :
    DerM ccdigest_ctx :=
  ccdigest_update_loop di (len + 1) ctx len data

/-- The little-endian 32-bit words of state bytes (`ccdigest_state_u32` on the hosts). -/
def u32s (bytes : List UInt8) : List UInt32 :=
  (List.range (bytes.length / 4)).map fun i =>
    (List.range 4).foldr (fun j w => (w <<< 8) ||| (bytes.getD (4 * i + j) 0).toUInt32) 0

/-- The little-endian 64-bit words of state bytes (`ccdigest_state_u64`). -/
def u64s (bytes : List UInt8) : List UInt64 :=
  (List.range (bytes.length / 8)).map fun i =>
    (List.range 8).foldr (fun j w => (w <<< 8) ||| (bytes.getD (8 * i + j) 0).toUInt64) 0

/-- The bytes of 32-bit words stored little-endian. -/
def bytesOfU32s (ws : List UInt32) : List UInt8 :=
  ws.flatMap fun w => (List.range 4).map fun j => (w >>> (8 * j).toUInt32).toUInt8

/-- `CC_STORE32_BE`. -/
def store32be (v : UInt32) (dest : Ptr) : DerM Unit := do
  store dest 0 (v >>> 24).toUInt8
  store dest 1 (v >>> 16).toUInt8
  store dest 2 (v >>> 8).toUInt8
  store dest 3 v.toUInt8

/-- `CC_STORE32_LE`. -/
def store32le (v : UInt32) (dest : Ptr) : DerM Unit := do
  store dest 3 (v >>> 24).toUInt8
  store dest 2 (v >>> 16).toUInt8
  store dest 1 (v >>> 8).toUInt8
  store dest 0 v.toUInt8

/-- `CC_BSWAP64`. -/
def bswap64 (v : UInt64) : UInt64 :=
  (List.range 8).foldl (fun w j => (w <<< 8) ||| ((v >>> (8 * j).toUInt64) &&& 0xff)) 0

/-- `ccdigest_final_64` (`:50`): `0x80`, zeros up to 56 bytes in the buffer, the 8 bytes of
`swap64 (nbits)` as they lie in memory, then the state words stored with `store32`. -/
def ccdigest_final_64 (di : ccdigest_info) (ctx : ccdigest_ctx) (digest : Ptr)
    (swap64 : UInt64 → UInt64) (store32 : UInt32 → Ptr → DerM Unit) : DerM ccdigest_ctx := do
  let nbits := ctx.nbits + (ctx.num * 8).toUInt64
  store ctx.data ctx.num.toNat 0x80
  let ctx := { ctx with nbits := nbits, num := ctx.num + 1 }
  let ctx ← if ctx.num.toNat ≠ 56 then do
      let zeroes ← alloca (List.replicate 64 0)
      let count := ((56 - ctx.num + 64) % 64).toNat
      memset zeroes 0 count
      ccdigest_update di ctx count zeroes
    else pure ctx
  -- `&nbits`: the bytes of `swap64 (nbits)` in the little-endian memory
  let n := swap64 nbits
  let p ← alloca ((List.range 8).map fun j => (n >>> (8 * j).toUInt64).toUInt8)
  let ctx ← ccdigest_update di ctx 8 p
  let words := u32s ctx.state
  for i in List.range (di.output_size / 4) do
    store32 (words.getD i 0) (digest.add (i * 4))
  pure ctx

/-- `ccdigest_final_128be` (`ccsha3xx.c:17`): `0x80`, zeros up to 112 bytes, the 128-bit
big-endian length (its upper half zero), then the state words big-endian. -/
def ccdigest_final_128be (di : ccdigest_info) (ctx : ccdigest_ctx) (digest : Ptr) :
    DerM ccdigest_ctx := do
  let nbits := ctx.nbits + (ctx.num * 8).toUInt64
  store ctx.data ctx.num.toNat 128
  let ctx := { ctx with nbits := nbits, num := ctx.num + 1 }
  let ctx ← if ctx.num.toNat ≠ 112 then do
      let zeroes ← alloca (List.replicate 128 0)
      let count := (112 - ctx.num + 128) % 128
      ccdigest_update di ctx count.toNat zeroes
    else pure ctx
  let len ← alloca ((List.range 16).map fun k =>
    if 8 ≤ k then (nbits >>> (8 * (15 - k)).toUInt64).toUInt8 else 0)
  let ctx ← ccdigest_update di ctx 16 len
  let words := u64s ctx.state
  for i in List.range (di.output_size / 8) do
    for j in List.range 8 do
      store digest (i * 8 + (7 - j)) ((words.getD i 0 >>> (j * 8).toUInt64).toUInt8)
  pure ctx

/-- `ccdigest_final`: `di->final (di, ctx, digest)`. -/
def ccdigest_final (di : ccdigest_info) (ctx : ccdigest_ctx) (digest : Ptr) :
    DerM ccdigest_ctx :=
  match di.final with
  | .final_64be => ccdigest_final_64 di ctx digest bswap64 store32be
  | .final_64le => ccdigest_final_64 di ctx digest id store32le
  | .final_128be => ccdigest_final_128be di ctx digest

/-- `ccdigest` (`:94`): a fresh context on the stack, `init`, one `update`, `final`. -/
def ccdigest (di : ccdigest_info) (len : Nat) (data digest : Ptr) : DerM Unit := do
  let buf ← alloca (List.replicate di.block_size 0)
  let ctx := ccdigest_init di ⟨0, [], buf, 0⟩
  let ctx ← ccdigest_update di ctx len data
  let _ ← ccdigest_final di ctx digest

/-! ## SHA-256 (`ccsha2xx.c`) -/

/-- `ccsha256_initial_state` (`ccsha2xx.c:7`). -/
def ccsha256_initial_state : List UInt32 :=
  [0x6A09E667, 0xBB67AE85, 0x3C6EF372, 0xA54FF53A,
    0x510E527F, 0x9B05688C, 0x1F83D9AB, 0x5BE0CD19]

/-- `K` of `ccsha2xx_compress_one`, FIPS 180-3 §4.2.2. -/
def sha256_K : List UInt32 :=
  [0x428a2f98, 0x71374491, 0xb5c0fbcf, 0xe9b5dba5, 0x3956c25b, 0x59f111f1, 0x923f82a4,
    0xab1c5ed5, 0xd807aa98, 0x12835b01, 0x243185be, 0x550c7dc3, 0x72be5d74, 0x80deb1fe,
    0x9bdc06a7, 0xc19bf174, 0xe49b69c1, 0xefbe4786, 0x0fc19dc6, 0x240ca1cc, 0x2de92c6f,
    0x4a7484aa, 0x5cb0a9dc, 0x76f988da, 0x983e5152, 0xa831c66d, 0xb00327c8, 0xbf597fc7,
    0xc6e00bf3, 0xd5a79147, 0x06ca6351, 0x14292967, 0x27b70a85, 0x2e1b2138, 0x4d2c6dfc,
    0x53380d13, 0x650a7354, 0x766a0abb, 0x81c2c92e, 0x92722c85, 0xa2bfe8a1, 0xa81a664b,
    0xc24b8b70, 0xc76c51a3, 0xd192e819, 0xd6990624, 0xf40e3585, 0x106aa070, 0x19a4c116,
    0x1e376c08, 0x2748774c, 0x34b0bcb5, 0x391c0cb3, 0x4ed8aa4a, 0x5b9cca4f, 0x682e6ff3,
    0x748f82ee, 0x78a5636f, 0x84c87814, 0x8cc70208, 0x90befffa, 0xa4506ceb, 0xbef9a3f7,
    0xc67178f2]

/-- `SHA256_ROTR`. -/
def SHA256_ROTR (bits : UInt32) (word : UInt32) : UInt32 := (word >>> bits) ||| (word <<< (32 - bits))

def SHA256_SIGMA0 (w : UInt32) : UInt32 := SHA256_ROTR 2 w ^^^ SHA256_ROTR 13 w ^^^ SHA256_ROTR 22 w
def SHA256_SIGMA1 (w : UInt32) : UInt32 := SHA256_ROTR 6 w ^^^ SHA256_ROTR 11 w ^^^ SHA256_ROTR 25 w
def SHA256_sigma0 (w : UInt32) : UInt32 := SHA256_ROTR 7 w ^^^ SHA256_ROTR 18 w ^^^ (w >>> 3)
def SHA256_sigma1 (w : UInt32) : UInt32 := SHA256_ROTR 17 w ^^^ SHA256_ROTR 19 w ^^^ (w >>> 10)
def SHA_Ch (x y z : UInt32) : UInt32 := (x &&& (y ^^^ z)) ^^^ z
def SHA_Maj (x y z : UInt32) : UInt32 := (x &&& (y ||| z)) ||| (y &&& z)

/-- The message schedule `W[0, 64)` of one block. -/
def sha256_W (input : List UInt8) : List UInt32 :=
  let w16 := (List.range 16).map fun t =>
    ((input.getD (4 * t) 0).toUInt32 <<< 24) ||| ((input.getD (4 * t + 1) 0).toUInt32 <<< 16) |||
      ((input.getD (4 * t + 2) 0).toUInt32 <<< 8) ||| (input.getD (4 * t + 3) 0).toUInt32
  (List.range 48).foldl (fun W t =>
    let t := t + 16
    W ++ [SHA256_sigma1 (W.getD (t - 2) 0) + W.getD (t - 7) 0 +
      SHA256_sigma0 (W.getD (t - 15) 0) + W.getD (t - 16) 0]) w16

/-- `ccsha2xx_compress_one` (`ccsha2xx.c:66`) on the state words. -/
def ccsha2xx_compress_one (state : List UInt32) (input : List UInt8) : List UInt32 :=
  let W := sha256_W input
  let round (v : List UInt32) (t : Nat) : List UInt32 :=
    match v with
    | [A, B, C, D, E, F, G, H] =>
      let temp1 := H + SHA256_SIGMA1 E + SHA_Ch E F G + sha256_K.getD t 0 + W.getD t 0
      let temp2 := SHA256_SIGMA0 A + SHA_Maj A B C
      [temp1 + temp2, A, B, C, D + temp1, E, F, G]
    | v => v
  let v := (List.range 64).foldl round (state.take 8)
  List.zipWith (· + ·) state v

/-- `ccsha2xx_compress` (`ccsha2xx.c:133`): one block after another, on the state bytes. -/
def ccsha2xx_compress (state : List UInt8) (nblocks : Nat) (input : List UInt8) : List UInt8 :=
  bytesOfU32s ((List.range nblocks).foldl
    (fun s i => ccsha2xx_compress_one s ((input.drop (64 * i)).take 64)) (u32s state))

/-- `ccsha256_ltc_di` (`ccsha2xx.c:16`). -/
def ccsha256_di : ccdigest_info where
  output_size := 32
  state_size := 32
  block_size := 64
  initial_state := bytesOfU32s ccsha256_initial_state
  compress := ccsha2xx_compress
  final := .final_64be

/-! ## A single update of `2^31` bytes -/

section Update

variable {di : ccdigest_info} {ctx : ccdigest_ctx}

theorem ccdigest_submit_block_num {nblocks : Int} {data : Ptr} {m m' : Mem UInt8}
    {ctx' : ccdigest_ctx} (h : (ccdigest_submit_block di ctx nblocks data).run m = some (ctx', m')) :
    ctx'.num = ctx.num := by
  simp only [ccdigest_submit_block, StateT.run_bind, Option.bind_eq_bind,
    Option.bind_eq_some_iff] at h
  obtain ⟨⟨bytes, m₁⟩, -, h⟩ := h
  simp only [StateT.run_pure, Option.pure_def, Option.some.injEq, Prod.mk.injEq] at h
  rw [← h.1]

/-- A pass of the loop from an empty buffer over at least a block: the whole blocks are
compressed where they are, and the loop goes on `bytes` further, `bytes` the `int` of
`nblocks * block_size`. -/
theorem ccdigest_update_loop_blocks {fuel len : Nat} {ptr : Ptr} (hnum : ctx.num = 0)
    (hlen : 0 < len) (hbs : di.block_size ≤ len) :
    ccdigest_update_loop di (fuel + 1) ctx len ptr =
      (ccdigest_submit_block di ctx (toInt (len / di.block_size)) ptr >>= fun ctx =>
        ccdigest_update_loop di fuel ctx
          (toSize (len - toInt (toSize (toInt (len / di.block_size)) * di.block_size)))
          (ptr.add (toInt (toSize (toInt (len / di.block_size)) * di.block_size)))) := by
  have hbuf : ¬ (0 < toInt ctx.num.toNat) := by
    rw [hnum]
    decide
  simp only [ccdigest_update_loop, hlen, if_true, hbuf, if_false, ge_iff_le, hbs]

/-- After the first pass the loop is at `len = 2^32` with an empty buffer: the `int` of
`2^32 / block_size * block_size` is `0`, so every pass compresses the same `2^32` bytes and
moves nothing, until the fuel is gone. -/
theorem ccdigest_update_loop_two_pow_32 (hb : di.block_size = 64 ∨ di.block_size = 128)
    (fuel : Nat) (ctx : ccdigest_ctx) (hnum : ctx.num = 0) (ptr : Ptr) (m : Mem UInt8) :
    (ccdigest_update_loop di fuel ctx (2 ^ 32) ptr).run m = none := by
  induction fuel generalizing ctx m with
  | zero => rfl
  | succ fuel ih =>
    -- `bytes` is the `int` of `2^32`, that is `0`
    have hbytes : toInt (toSize (toInt (((2 ^ 32 : Nat) : Int) / di.block_size)) * di.block_size) = 0 := by
      rcases hb with h | h <;> rw [h] <;> decide
    rw [ccdigest_update_loop_blocks hnum (by decide) (by rcases hb with h | h <;> omega), hbytes]
    refine Prog.run_bind_none fun ctx' m' h => ?_
    have hlen : toSize ((2 ^ 32 : Nat) - (0 : Int)) = 2 ^ 32 := by decide
    rw [hlen, Ptr.add_zero]
    exact ih ctx' ((ccdigest_submit_block_num h).trans hnum) m'

/-- One `ccdigest_update` of `2^31` bytes into a context with an empty buffer, for blocks of 64
or 128 bytes, has no result in any memory: its first pass compresses the message and sets
`len` to `2^32` and `ptr` to `2^31` bytes before the message, and from there the loop never
ends. -/
theorem ccdigest_update_two_pow_31_undefined (hb : di.block_size = 64 ∨ di.block_size = 128)
    (ctx : ccdigest_ctx) (hnum : ctx.num = 0) (data : Ptr) (m : Mem UInt8) :
    (ccdigest_update di ctx (2 ^ 31) data).run m = none := by
  have hbytes :
      toInt (toSize (toInt (((2 ^ 31 : Nat) : Int) / di.block_size)) * di.block_size) = -2 ^ 31 := by
    rcases hb with h | h <;> rw [h] <;> decide
  unfold ccdigest_update
  rw [ccdigest_update_loop_blocks hnum (by decide) (by rcases hb with h | h <;> omega), hbytes]
  refine Prog.run_bind_none fun ctx' m' h => ?_
  have hlen : toSize ((2 ^ 31 : Nat) - (-2 ^ 31 : Int)) = 2 ^ 32 := by decide
  rw [hlen]
  exact ccdigest_update_loop_two_pow_32 hb _ ctx' ((ccdigest_submit_block_num h).trans hnum) _ m'

/-- SHA-256 from `ccdigest_init`: an update of `2^31` bytes has no result. -/
theorem sha256_update_two_pow_31_undefined :
    (ccsha256_di.block_size = 64 ∨ ccsha256_di.block_size = 128) ∧
      (ccdigest_init ccsha256_di ⟨0, [], ⟨0, 0⟩, 0⟩).num = 0 ∧
      (ccdigest_update ccsha256_di (ccdigest_init ccsha256_di ⟨0, [], ⟨0, 0⟩, 0⟩) (2 ^ 31)
        ⟨1, 0⟩).run [] = none :=
  ⟨.inl rfl, rfl, ccdigest_update_two_pow_31_undefined (.inl rfl) _ rfl _ _⟩

end Update

end Corecrypto.Digest
