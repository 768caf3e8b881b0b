import Darwin.Corecrypto.Digest
import Darwin.Lib.Absorb

/-!
# `compress` is the fold of one block (`corecrypto/src/ccsha2xx.c:133`)

A descriptor's `compress (state, nblocks, data)` feeds its blocks to a one-block step `f`, one at
a time (`CompressSpec`); the streaming lemmas of `ccdigest_update` and `ccdigest_final_64` are
stated over such an `f`, with `Absorb.absorb` as the state after a message.

For SHA-256 the step is `sha256_block`: the words of the state bytes, `ccsha2xx_compress_one`,
and the words stored back. `ccsha2xx_compress` keeps the words between blocks and stores them at
the end; that is the same, since the words read back from stored words are those words
(`u32s_bytesOfU32s`). So `ccsha256_di` meets `CompressSpec` with `sha256_block`
(`ccsha256_compress_spec`).
-/

namespace Corecrypto.Digest

open Blocks Corecrypto.Der Absorb

/-- `compress (state, nblocks, data)` feeds its `nblocks` blocks to `f` one at a time. -/
def CompressSpec (di : ccdigest_info) (f : List UInt8 → List UInt8 → List UInt8) : Prop :=
  ∀ s n x, 0 < n → x.length = di.block_size * n →
    di.compress s n x = (blocks di.block_size n x).foldl f s

/-- One block is one step. -/
theorem CompressSpec.one {di : ccdigest_info} {f : List UInt8 → List UInt8 → List UInt8}
    (hf : CompressSpec di f) {x : List UInt8} (hx : x.length = di.block_size) (s : List UInt8) :
    di.compress s 1 x = f s x := by
  rw [hf s 1 x Nat.one_pos (by rw [hx, Nat.mul_one]), blocks, List.range_one, List.map_singleton,
    Nat.mul_zero, List.drop_zero, List.take_of_length_le (Nat.le_of_eq hx)]
  rfl

/-! ## Words and bytes -/

/-- A multiple of `256` or-ed with a byte is their sum. -/
theorem or_byte_eq_add {x b : Nat} (hx : x % 256 = 0) (hb : b < 256) : x ||| b = x + b := by
  have hx' : x = (x / 256) <<< 8 := by
    rw [Nat.shiftLeft_eq]
    omega
  rw [hx']
  exact (Nat.shiftLeft_add_eq_or_of_lt (by simpa using hb) (x / 256)).symm

theorem toNat_shiftLeft_or_byte (acc : UInt32) (b : UInt8) :
    ((acc <<< 8) ||| b.toUInt32).toNat = (acc.toNat * 256 + b.toNat) % 2 ^ 32 := by
  have hb := b.toNat_lt
  have h8 : (8 : UInt32).toNat % 32 = 8 := by decide
  rw [UInt32.toNat_or, UInt32.toNat_shiftLeft, UInt8.toNat_toUInt32, h8, Nat.shiftLeft_eq,
    or_byte_eq_add (by omega) hb]
  omega

/-- Byte `j` of a word, least significant first. -/
theorem toNat_byte (w : UInt32) (j : Nat) (hj : j < 4) :
    (w >>> (8 * j).toUInt32).toUInt8.toNat = w.toNat / 2 ^ (8 * j) % 256 := by
  have hs : ((8 * j).toUInt32).toNat % 32 = 8 * j := by
    rw [Nat.toUInt32_eq, UInt32.toNat_ofNat']
    omega
  rw [UInt32.toNat_toUInt8, UInt32.toNat_shiftRight, hs, Nat.shiftRight_eq_div_pow]

/-- A word rebuilt from its four little-endian bytes, the last first, as `u32s` does. -/
theorem word_of_le_bytes (w : UInt32) :
    ((((0 : UInt32) <<< 8 ||| (w >>> (8 * 3).toUInt32).toUInt8.toUInt32) <<< 8 |||
      (w >>> (8 * 2).toUInt32).toUInt8.toUInt32) <<< 8 |||
      (w >>> (8 * 1).toUInt32).toUInt8.toUInt32) <<< 8 |||
      (w >>> (8 * 0).toUInt32).toUInt8.toUInt32 = w := by
  apply UInt32.toNat_inj.mp
  have hw := w.toNat_lt
  simp only [toNat_shiftLeft_or_byte, toNat_byte w 0 (by decide), toNat_byte w 1 (by decide),
    toNat_byte w 2 (by decide), toNat_byte w 3 (by decide), UInt32.toNat_zero]
  omega

theorem getD_flatMap_four {ws : List UInt32} {g : UInt32 → List UInt8}
    (hg : ∀ w, (g w).length = 4) {i j : Nat} (hi : i < ws.length) (hj : j < 4) :
    (ws.flatMap g).getD (4 * i + j) 0 = (g ws[i]).getD j 0 := by
  induction ws generalizing i with
  | nil => cases hi
  | cons w ws ih =>
    rw [List.flatMap_cons]
    cases i with
    | zero =>
      rw [List.getD_append _ _ _ _ (by rw [hg]; omega), Nat.mul_zero, Nat.zero_add,
        List.getElem_cons_zero]
    | succ i =>
      rw [List.getD_append_right _ _ _ _ (by rw [hg]; omega), hg,
        show 4 * (i + 1) + j - 4 = 4 * i + j by omega]
      exact ih (by simpa using hi)

/-- The words of state bytes written from words are those words. -/
theorem u32s_bytesOfU32s (ws : List UInt32) : u32s (bytesOfU32s ws) = ws := by
  have hg : ∀ w : UInt32,
      ((List.range 4).map fun j => (w >>> (8 * j).toUInt32).toUInt8).length = 4 :=
    fun w => by simp
  have hlen : (bytesOfU32s ws).length = 4 * ws.length := by
    simp [bytesOfU32s, List.length_flatMap, Nat.mul_comm]
  apply List.ext_getElem
  · simp [u32s, hlen]
  · intro i _ hi
    have hb : ∀ j, j < 4 →
        (bytesOfU32s ws).getD (4 * i + j) 0 = (ws[i] >>> (8 * j).toUInt32).toUInt8 := by
      intro j hj
      rw [bytesOfU32s, getD_flatMap_four hg hi hj]
      simp [hj]
    simp only [u32s, List.getElem_map, List.getElem_range, List.range_succ, List.range_zero,
      List.nil_append, List.foldr_append, List.foldr_cons, List.foldr_nil]
    rw [hb 0 (by decide), hb 1 (by decide), hb 2 (by decide), hb 3 (by decide)]
    exact word_of_le_bytes ws[i]

/-! ## SHA-256 -/

/-- One block of SHA-256 on the state bytes: their words, `ccsha2xx_compress_one`, and the words
stored back. -/
def sha256_block (state block : List UInt8) : List UInt8 :=
  bytesOfU32s (ccsha2xx_compress_one (u32s state) block)

/-- Blocks fed one at a time through the state bytes are the words' fold: each step reads back
the words the one before stored. -/
theorem foldl_sha256_block : ∀ (bs : List (List UInt8)) (s : List UInt8), bs ≠ [] →
    bs.foldl sha256_block s = bytesOfU32s (bs.foldl ccsha2xx_compress_one (u32s s))
  | [], _, h => absurd rfl h
  | [_], _, _ => rfl
  | b :: b' :: bs, s, _ => by
    rw [List.foldl_cons, foldl_sha256_block (b' :: bs) _ (List.cons_ne_nil _ _), sha256_block,
      u32s_bytesOfU32s]
    rfl

/-- `ccsha2xx_compress` (`ccsha2xx.c:133`) feeds its blocks to `sha256_block` one at a time. -/
theorem ccsha256_compress_spec : CompressSpec ccsha256_di sha256_block := by
  intro s n x hn _
  have hne : blocks 64 n x ≠ [] := List.ne_nil_of_length_pos (by simp [blocks]; omega)
  rw [show ccsha256_di.block_size = 64 from rfl, foldl_sha256_block _ _ hne, blocks, List.foldl_map]
  rfl

/-- A fold whose every step keeps the length keeps it. -/
theorem length_foldl_eq {β γ : Type} {g : List γ → β → List γ} {k : Nat}
    (hg : ∀ v b, v.length = k → (g v b).length = k) :
    ∀ (l : List β) (v : List γ), v.length = k → (l.foldl g v).length = k
  | [], _, hv => hv
  | b :: l, v, hv => length_foldl_eq hg l (g v b) (hg v b hv)

/-- The rounds keep the eight working variables, so a block keeps eight state words. -/
theorem length_ccsha2xx_compress_one {s : List UInt32} (hs : s.length = 8) (b : List UInt8) :
    (ccsha2xx_compress_one s b).length = 8 := by
  simp only [ccsha2xx_compress_one, List.length_zipWith, hs]
  rw [length_foldl_eq (k := 8) ?_ _ _ (by simp [hs])]
  · rfl
  · intro v t hv
    split
    · rfl
    · exact hv

end Corecrypto.Digest
