import Darwin.Corecrypto.DigestUpdate
import Darwin.Corecrypto.Hmac

/-!
# `ccdigest_final_64` pads the message, and `ccdigest` over SHA-256 is FIPS 180-4

| here | there |
| --- | --- |
| `final64_pad` | what `ccdigest_final_64` (`ccdigest.c:50`) hashes after the message |
| `Store32Spec` | what `store32be` / `store32le` write |
| `ccdigest_final_64_run` | `ccdigest_final_64` on a context that has hashed a message |
| `ccdigest_sha256` | `ccdigest (ccsha256_di, len, data, digest)` (`ccdigest.c:94`) |

`ccdigest_final_64` adds the buffered bits to `nbits`, stores `0x80` after the buffered bytes,
hashes zeros until 56 bytes are buffered, then the 8 bytes `swap64 (nbits)` has in memory, which
fill the last block; it then stores the state words with `store32`. Over a context that has
hashed `M` (`Holds`), the state it reads the words from is the initial state after the whole
blocks of `M ++ final64_pad swap64 M` (`ccdigest_final_64_run`).

For SHA-256 the words are those of FIPS 180-4's hash of `M` (`Hmac.sha256`): `ccsha2xx_compress`
is the fold of `sha256_block` (`ccsha256_compress_spec`), and `bswap64` puts the bit count's
bytes big-endian first (`bswap64_bytes`). So `ccdigest` with `ccsha256_di`, over any message of fewer
than `2^31` bytes, writes the SHA-256 digest of the message (`ccdigest_sha256`).
-/

namespace Corecrypto.Digest

open Blocks Corecrypto.Der Absorb

/-! ## `CC_BSWAP64` -/

/-- One step of `CC_BSWAP64`: the word so far moved up a byte, and the next byte of `v`. -/
theorem toNat_shiftLeft_or_mask (acc v s : UInt64) :
    ((acc <<< 8) ||| ((v >>> s) &&& 0xff)).toNat =
      (acc.toNat * 256 + (v >>> s).toNat % 256) % 2 ^ 64 := by
  have hff : (0xff : UInt64).toNat = 2 ^ 8 - 1 := by decide
  have hmask : ((v >>> s) &&& 0xff).toNat = (v >>> s).toNat % 256 := by
    rw [UInt64.toNat_and, hff, Nat.and_two_pow_sub_one_eq_mod]
  have h8 : (8 : UInt64).toNat % 64 = 8 := by decide
  have hlt : (v >>> s).toNat % 256 < 256 := Nat.mod_lt _ (by decide)
  rw [UInt64.toNat_or, UInt64.toNat_shiftLeft, h8, Nat.shiftLeft_eq, hmask,
    or_byte_eq_add (by omega) hlt]
  omega

theorem toNat_shiftRight_bytes (v : UInt64) (j : Nat) (hj : j < 8) :
    (v >>> (8 * j).toUInt64).toNat = v.toNat / 2 ^ (8 * j) := by
  have hs : ((8 * j).toUInt64).toNat % 64 = 8 * j := by
    rw [Nat.toUInt64_eq, UInt64.toNat_ofNat']
    omega
  rw [UInt64.toNat_shiftRight, hs, Nat.shiftRight_eq_div_pow]

/-- The base-`256` digits of a number written with eight of them, most significant first. -/
theorem digit_horner8 {c : List Nat} (hc : c.length = 8) (hlt : ∀ x ∈ c, x < 256) {j : Nat}
    (hj : j < 8) : c.foldl (fun s x => s * 256 + x) 0 / 256 ^ j % 256 = c.getD (7 - j) 0 := by
  match c, hc with
  | [c0, c1, c2, c3, c4, c5, c6, c7], _ =>
    simp only [List.mem_cons, List.not_mem_nil, or_false, forall_eq_or_imp, forall_eq] at hlt
    obtain ⟨h0, h1, h2, h3, h4, h5, h6, h7⟩ := hlt
    simp only [List.foldl_cons, List.foldl_nil]
    interval_cases j <;> simp <;> omega

/-- `CC_BSWAP64` puts the bytes of `v` in the other order. -/
theorem toNat_bswap64 (v : UInt64) :
    (bswap64 v).toNat =
      ((List.range 8).map fun k => v.toNat / 2 ^ (8 * k) % 256).foldl (fun s x => s * 256 + x) 0 := by
  simp only [bswap64, List.range_succ, List.range_zero, List.nil_append, List.foldl_append,
    List.foldl_cons, List.foldl_nil, List.map_append, List.map_cons, List.map_nil,
    toNat_shiftLeft_or_mask, UInt64.toNat_zero,
    toNat_shiftRight_bytes v 0 (by decide), toNat_shiftRight_bytes v 1 (by decide),
    toNat_shiftRight_bytes v 2 (by decide), toNat_shiftRight_bytes v 3 (by decide),
    toNat_shiftRight_bytes v 4 (by decide), toNat_shiftRight_bytes v 5 (by decide),
    toNat_shiftRight_bytes v 6 (by decide), toNat_shiftRight_bytes v 7 (by decide)]
  have := v.toNat_lt
  simp only [Nat.reducePow, Nat.reduceMul, Nat.div_one] at this ⊢
  omega

/-- The bytes of `CC_BSWAP64 (v)` as they lie in little-endian memory are those of `v`, most
significant first. -/
theorem bswap64_bytes (v : UInt64) :
    (List.range 8).map (fun j => (bswap64 v >>> (8 * j).toUInt64).toUInt8) =
      (List.range 8).map (fun j => (v.toNat >>> (8 * (7 - j))).toUInt8) := by
  refine List.map_congr_left fun j hj => ?_
  have hj8 := List.mem_range.mp hj
  apply UInt8.toNat_inj.mp
  rw [UInt64.toNat_toUInt8, toNat_shiftRight_bytes _ j hj8, toNat_bswap64, Nat.pow_mul,
    digit_horner8 (by simp) (by simp [Nat.mod_lt]) hj8, Nat.toUInt8_eq, UInt8.toNat_ofNat',
    Nat.shiftRight_eq_div_pow]
  simp [List.getD_eq_getElem?_getD, show 7 - j < 8 by omega]

/-! ## `ccdigest_final_64` -/

/-- The zeros `ccdigest_final_64` hashes after the `0x80` (`ccdigest.c:59-65`). -/
def ccdigest_final_64_zeros (di : ccdigest_info) (ctx : ccdigest_ctx) : DerM ccdigest_ctx :=
  if ctx.num.toNat ≠ 56 then do
    let zeroes ← alloca (List.replicate 64 0)
    let count := ((56 - ctx.num + 64) % 64).toNat
    memset zeroes 0 count
    ccdigest_update di ctx count zeroes
  else pure ctx

/-- The rest of `ccdigest_final_64` (`ccdigest.c:67-80`): the bytes of the bit count `n`, then
the state words. -/
def ccdigest_final_64_tail (di : ccdigest_info) (ctx : ccdigest_ctx) (digest : Ptr) (n : UInt64)
    (store32 : UInt32 → Ptr → DerM Unit) : DerM ccdigest_ctx := do
  let p ← alloca ((List.range 8).map fun j => (n >>> (8 * j).toUInt64).toUInt8)
  let ctx ← ccdigest_update di ctx 8 p
  let words := u32s ctx.state
  for i in List.range (di.output_size / 4) do
    store32 (words.getD i 0) (digest.add (i * 4))
  pure ctx

/-- `ccdigest_final_64` is the `0x80`, the zeros, and the rest. -/
theorem ccdigest_final_64_eq (di : ccdigest_info) (ctx : ccdigest_ctx) (digest : Ptr)
    (swap64 : UInt64 → UInt64) (store32 : UInt32 → Ptr → DerM Unit) :
    ccdigest_final_64 di ctx digest swap64 store32 =
      store ctx.data ctx.num.toNat 0x80 >>= fun _ =>
        ccdigest_final_64_zeros di
          { ctx with nbits := ctx.nbits + (ctx.num * 8).toUInt64, num := ctx.num + 1 } >>=
          fun ctx' => ccdigest_final_64_tail di ctx' digest
            (swap64 (ctx.nbits + (ctx.num * 8).toUInt64)) store32 := by
  unfold ccdigest_final_64 ccdigest_final_64_zeros ccdigest_final_64_tail
  by_cases h : (ctx.num + 1).toNat = 56
  · simp only [h, ne_eq, not_true_eq_false, if_false, pure_bind]
  · simp only [h, ne_eq, not_false_eq_true, if_true, bind_assoc, pure_bind]

section Final

variable {di : ccdigest_info} {f : List UInt8 → List UInt8 → List UInt8} {bits : Nat}
  {ctx : ccdigest_ctx} {m : Mem UInt8} {B t : List UInt8}

/-- The byte stored after the buffered bytes, with their bits added to `nbits` and `num` moved
past it (`ccdigest.c:55-58`): the context holds it too. -/
theorem Rep.store_pad (h : Rep di f bits ctx m B t) (ht : t.length < di.block_size)
    (hbs' : di.block_size < 2 ^ 28) (v : UInt8) :
    ∃ m₁, (store ctx.data ctx.num.toNat v).run m = some ((), m₁) ∧
      Rep di f (bits + t.length * 8)
        { ctx with nbits := ctx.nbits + (ctx.num * 8).toUInt64, num := ctx.num + 1 } m₁ B
        (t ++ [v]) ∧
      m.Extends m₁ := by
  obtain ⟨rest, hlen, hr⟩ := h.buffer
  obtain ⟨ht', hrest⟩ := Mem.Reads.append_iff.mp hr
  obtain ⟨w, rest', rfl⟩ : ∃ w rest', rest = w :: rest' :=
    List.exists_cons_of_ne_nil (by rintro rfl; simp at hlen; omega)
  obtain ⟨hcell, hrest'⟩ := Mem.Reads.cons_iff.mp hrest
  obtain ⟨m₁, hs, hv, hother⟩ :=
    store_run_of_load (p := ctx.data) (i := ctx.num.toNat) (by rw [h.num]; exact hcell) v
  have hnum := h.num
  refine ⟨m₁, hs, ⟨h.aligned, h.state, ?_, ?_, rest', ?_, ?_⟩, Prog.Keeps.store _ _ _ m () m₁ hs⟩
  · simp only [UInt32.toNat_add, UInt32.toNat_ofNat, List.length_append, List.length_singleton]
    omega
  · simp only [UInt64.toNat_add, UInt32.toNat_toUInt64, UInt32.toNat_mul, UInt32.toNat_ofNat, h.nbits]
    omega
  · simp only [List.length_append, List.length_cons, List.length_nil] at hlen ⊢
    omega
  · -- the bytes before the new one and after it are untouched
    rw [List.append_assoc, List.singleton_append, Mem.Reads.append_iff, Mem.Reads.cons_iff]
    rw [hnum] at hv hother
    refine ⟨ht'.congr fun i hi => hother _ ?_, hv, hrest'.congr fun i hi => hother _ ?_⟩
    · intro heq
      have := congrArg Ptr.off heq
      simp only [Ptr.add_off] at this
      omega
    · intro heq
      have := congrArg Ptr.off heq
      simp only [Ptr.add_off, Ptr.add_add] at this
      omega

/-- `memset` over bytes that already hold the value changes nothing. -/
theorem memset_run_self {dst : Ptr} {c : UInt8} {k : Nat} (h : m.Reads dst (List.replicate k c))
    {n : Nat} (hn : n ≤ k) : (memset dst c n).run m = some ((), m) := by
  obtain ⟨m', hrun, rfl⟩ := forIn_range'_run (fun _ m' => m' = m)
    (fun i _ => store dst i c >>= fun _ => pure (ForInStep.yield ())) n 0
    (fun i m' _ hi hm => by
      subst hm
      have hcell : m'.load (dst.add i) = some c := by
        rw [h i (by simp; omega), List.getElem_replicate]
      exact ⟨m', by simp only [StateT.run_bind, store_run_self hcell, Option.bind_eq_bind,
        Option.bind_some]; rfl, rfl⟩)
    rfl
  simp only [memset, List.range_eq_range', StateT.run_bind]
  rw [hrun]
  rfl

/-- What `store32` writes: the four bytes `enc v`, over four bytes that can be written, and no
other cell. -/
def Store32Spec (store32 : UInt32 → Ptr → DerM Unit) (enc : UInt32 → List UInt8) : Prop :=
  ∀ v dest m old, Mem.Reads m dest old → old.length = 4 →
    ∃ m', (store32 v dest).run m = some ((), m') ∧ m'.Reads dest (enc v) ∧
      ∀ q, dest.Outside 4 q → m'.load q = m.load q

/-- `CC_STORE32_BE` writes the bytes of `v` most significant first. -/
theorem store32be_spec :
    Store32Spec store32be fun v => [(v >>> 24).toUInt8, (v >>> 16).toUInt8, (v >>> 8).toUInt8,
      v.toUInt8] := by
  intro v dest m old hr hl
  have heq : (store32be v dest).run m = (storeN dest [(v >>> 24).toUInt8, (v >>> 16).toUInt8,
      (v >>> 8).toUInt8, v.toUInt8]).run m := by
    simp only [store32be, storeN, Ptr.add_add, store_add_zero]
    norm_num
  have hlen : [(v >>> 24).toUInt8, (v >>> 16).toUInt8, (v >>> 8).toUInt8, v.toUInt8].length =
      old.length := by
    rw [hl]
    rfl
  obtain ⟨m', hrun, hreads, hframe⟩ := storeN_run hr hlen
  exact ⟨m', heq.trans hrun, hreads, hframe⟩

theorem store32be_keeps (v : UInt32) (dest : Ptr) : Prog.Keeps (store32be v dest) :=
  Prog.Keeps.bind (Prog.Keeps.store _ _ _) fun _ => Prog.Keeps.bind (Prog.Keeps.store _ _ _) fun _ =>
    Prog.Keeps.bind (Prog.Keeps.store _ _ _) fun _ => Prog.Keeps.store _ _ _

/-- After `i` passes of the loop that stores the state words from `m₀`: the first `i` words are
stored, and every cell outside them is as it was. -/
def StoredAfter (m₀ : Mem UInt8) (digest : Ptr) (enc : UInt32 → List UInt8) (words : List UInt32)
    (i : Nat) (m : Mem UInt8) : Prop :=
  m.Reads digest ((List.range i).flatMap fun k => enc (words.getD k 0)) ∧
    ∀ q, digest.Outside (4 * i) q → m.load q = m₀.load q

variable {store32 : UInt32 → Ptr → DerM Unit} {enc : UInt32 → List UInt8}

theorem length_flatMap_range_four (henc : ∀ v, (enc v).length = 4) (g : Nat → UInt32) (i : Nat) :
    ((List.range i).flatMap fun k => enc (g k)).length = 4 * i := by
  induction i with
  | zero => rfl
  | succ i ih =>
    rw [List.range_succ, List.flatMap_append, List.length_append, ih, List.flatMap_singleton,
      henc, Nat.mul_succ]

/-- Pass `i` of the loop stores word `i` at `digest + 4 i`, over cells that the passes before
left as they were. -/
theorem StoredAfter.step (hs : Store32Spec store32 enc) (henc : ∀ v, (enc v).length = 4)
    {m₀ : Mem UInt8} {digest : Ptr} {O : List UInt8} {n : Nat} (hO : m₀.Reads digest O)
    (hOl : O.length = 4 * n) (words : List UInt32) {i : Nat} (hi : i < n)
    (hm : StoredAfter m₀ digest enc words i m) :
    ∃ m', (store32 (words.getD i 0) (digest.add (i * 4))).run m = some ((), m') ∧
      StoredAfter m₀ digest enc words (i + 1) m' := by
  have hcast : (((4 * i : Nat) : Int)) = (i : Int) * 4 := by push_cast; omega
  -- the four cells of word `i`, not written yet
  have hOi : m.Reads (digest.add (i * 4)) ((O.drop (4 * i)).take 4) := by
    have h := hO.sub (i := 4 * i) (k := 4) (by omega)
    rw [hcast] at h
    refine h.congr fun k _ => hm.2 _ ?_
    simp only [Ptr.Outside, Ptr.add_blk, Ptr.add_off]
    omega
  obtain ⟨m', hrun, hreads, hframe⟩ := hs (words.getD i 0) _ m _ hOi (by simp; omega)
  have hdone := length_flatMap_range_four henc (fun k => words.getD k 0) i
  refine ⟨m', hrun, ?_, fun q hq => ?_⟩
  · rw [List.range_succ, List.flatMap_append, List.flatMap_singleton, Mem.Reads.append_iff,
      hdone, hcast]
    refine ⟨hm.1.congr fun k hk => hframe _ ?_, hreads⟩
    rw [hdone] at hk
    simp only [Ptr.Outside, Ptr.add_blk, Ptr.add_off]
    omega
  · rw [hframe q ?_, hm.2 q ?_] <;>
      simp only [Ptr.Outside, Ptr.add_blk, Ptr.add_off] at hq ⊢ <;> omega

/-- The loop that ends `ccdigest_final_64` (`ccdigest.c:77-79`) stores each of the first `n`
words at `digest + 4 i`, over `4 n` bytes that can be written, and no other cell. -/
theorem store32_loop_run (hs : Store32Spec store32 enc) (henc : ∀ v, (enc v).length = 4)
    {digest : Ptr} {O : List UInt8} {n : Nat} (hO : m.Reads digest O) (hOl : O.length = 4 * n)
    (words : List UInt32) :
    ∃ m', (forIn (List.range n) PUnit.unit fun i _ =>
        store32 (words.getD i 0) (digest.add (i * 4)) >>= fun _ =>
          pure (ForInStep.yield PUnit.unit) : DerM Unit).run m = some ((), m') ∧
      StoredAfter m digest enc words n m' := by
  obtain ⟨m', hrun, hI⟩ := forIn_range'_run (StoredAfter m digest enc words)
    (fun i _ => store32 (words.getD i 0) (digest.add (i * 4)) >>= fun _ =>
      pure (ForInStep.yield ())) n 0
    (fun i m₁ _ hi hm => by
      obtain ⟨m₂, h, hm₂⟩ := StoredAfter.step hs henc hO hOl words (by omega) hm
      exact ⟨m₂, by simp only [StateT.run_bind, h, Option.bind_eq_bind, Option.bind_some]; rfl,
        hm₂⟩)
    ⟨Mem.Reads.nil, fun _ _ => rfl⟩
  rw [Nat.zero_add] at hI
  refine ⟨m', ?_, hI⟩
  rw [List.range_eq_range']
  exact hrun

/-! ### The zeros and the bit count -/

/-- A block allocated after the buffer's leaves the context as it was. -/
theorem Rep.append_block (h : Rep di f bits ctx m B t) (cells : List UInt8) :
    Rep di f bits ctx (m ++ [cells]) B t := by
  obtain ⟨rest, hlen, hr⟩ := h.buffer
  exact { h with buffer := ⟨rest, hlen, hr.append_block cells⟩ }

theorem Rep.data_blk_lt (h : Rep di f bits ctx m B t) (hbs : 0 < di.block_size) :
    ctx.data.blk < m.length := by
  obtain ⟨rest, hlen, hr⟩ := h.buffer
  exact hr.blk_lt (List.ne_nil_of_length_pos (by simp; omega))

theorem Holds.append_block {M : List UInt8} (h : Holds di f bits ctx m M) (cells : List UInt8) :
    Holds di f bits ctx (m ++ [cells]) M := by
  obtain ⟨B, t, hM, ht, hR⟩ := h
  exact ⟨B, t, hM, ht, hR.append_block cells⟩

theorem Holds.data_blk_lt {M : List UInt8} (h : Holds di f bits ctx m M)
    (hbs : 0 < di.block_size) : ctx.data.blk < m.length := by
  obtain ⟨B, t, -, -, hR⟩ := h
  exact hR.data_blk_lt hbs

/-- The count of zeros `ccdigest_final_64` hashes when the buffer holds `k` bytes with the
`0x80` (`ccdigest.c:61`), computed in `uint32_t`. -/
theorem final64_count {n : UInt32} {k : Nat} (hn : n.toNat = k) (hk : k ≤ 64) :
    ((56 - n + 64) % 64).toNat = (120 - k) % 64 := by
  have hlt := n.toNat_lt
  simp only [UInt32.toNat_mod, UInt32.toNat_add, UInt32.toNat_sub, UInt32.toNat_ofNat, hn,
    Nat.reducePow, Nat.reduceMod] at hlt ⊢
  omega

theorem memset_keeps (dst : Ptr) (c : UInt8) (n : Nat) : Prog.Keeps (memset dst c n) := by
  unfold memset
  exact Prog.Keeps.bind (Prog.Keeps.forIn _ _ fun _ _ =>
    Prog.Keeps.bind (Prog.Keeps.store _ _ _) fun _ => Prog.Keeps.pure _) fun _ => Prog.Keeps.pure _

theorem ccdigest_final_64_zeros_keeps (di : ccdigest_info) (ctx : ccdigest_ctx) :
    Prog.Keeps (ccdigest_final_64_zeros di ctx) :=
  Prog.Keeps.ite
    (Prog.Keeps.bind (Prog.Keeps.alloca _) fun _ =>
      Prog.Keeps.bind (memset_keeps _ _ _) fun _ => ccdigest_update_loop_keeps _ _ _ _ _)
    (Prog.Keeps.pure _)

/-- The zeros fill the buffer up to 56 bytes: from `k` bytes, `(120 - k) % 64` of them, hashed
from a block of 64 zeros on the stack. -/
theorem ccdigest_final_64_zeros_run (hf : CompressSpec di f) (hbs : di.block_size = 64)
    (h : Rep di f bits ctx m B t) (ht : 0 < t.length) :
    ∃ ctx' m', (ccdigest_final_64_zeros di ctx).run m = some (ctx', m') ∧
      Holds di f bits ctx' m' (B ++ t ++ List.replicate ((120 - t.length) % 64) 0) ∧
      ctx'.data = ctx.data := by
  have hle := h.length_le
  have hnum := h.num
  unfold ccdigest_final_64_zeros
  by_cases h56 : ctx.num.toNat = 56
  · -- 56 bytes buffered already: no zeros
    rw [if_neg (not_not_intro h56), show (120 - t.length) % 64 = 0 by rw [← h.num, h56],
      List.replicate_zero, List.append_nil]
    exact ⟨ctx, m, rfl, h.holds (by omega), rfl⟩
  rw [if_pos h56, final64_count h.num (by omega)]
  have hz := Mem.reads_append_self m (List.replicate 64 (0 : UInt8))
  have hcount : (120 - t.length) % 64 ≤ 64 := by omega
  have hmemset : (memset ⟨m.length, 0⟩ 0 ((120 - t.length) % 64)).run (m ++ [List.replicate 64 0]) =
      some ((), m ++ [List.replicate 64 0]) := memset_run_self hz hcount
  have hxs : (m ++ [List.replicate 64 0]).Reads ⟨m.length, 0⟩
      (List.replicate ((120 - t.length) % 64) 0) := by
    have h := hz.sub (i := 0) (k := (120 - t.length) % 64) (by simpa using hcount)
    rwa [Nat.cast_zero, Ptr.add_zero, List.drop_zero, List.take_replicate,
      Nat.min_eq_left hcount] at h
  have hblk : (⟨m.length, 0⟩ : Ptr).blk ≠ ctx.data.blk := (Nat.ne_of_lt (h.data_blk_lt (by omega))).symm
  -- a full buffer is followed by 56 zeros, which is input enough to compress it
  obtain ⟨ctx', m', hrun, hH, hd, -⟩ := ccdigest_update_rep hf (by omega) (by omega)
    (h.append_block _) (fun hfull => by simp; omega) hxs (by simp; omega) hblk
  rw [List.length_replicate] at hrun
  refine ⟨ctx', m', ?_, hH, hd⟩
  rw [run_alloca_bind, run_bind_of_run hmemset]
  exact hrun

/-- The bit count's bytes fill the last block, and the state words are stored: those of the
initial state after every block of the message and the count. -/
theorem ccdigest_final_64_tail_run (hf : CompressSpec di f) (hbs : di.block_size = 64)
    {M : List UInt8} (h : Holds di f bits ctx m M) (hs : Store32Spec store32 enc)
    (henc : ∀ v, (enc v).length = 4) {digest : Ptr} {old : List UInt8} (hd : m.Reads digest old)
    (hold : old.length = 4 * (di.output_size / 4)) (n : UInt64) :
    ∃ ctx' m', (ccdigest_final_64_tail di ctx digest n store32).run m = some (ctx', m') ∧
      m'.Reads digest ((List.range (di.output_size / 4)).flatMap fun i =>
        enc ((u32s (absorb f 64 di.initial_state
          (M ++ (List.range 8).map fun j => (n >>> (8 * j).toUInt64).toUInt8))).getD i 0)) ∧
      ctx'.data = ctx.data := by
  have hlen : ((List.range 8).map fun j => (n >>> (8 * j).toUInt64).toUInt8).length = 8 := by simp
  have hp := Mem.reads_append_self m ((List.range 8).map fun j => (n >>> (8 * j).toUInt64).toUInt8)
  have hblk : (⟨m.length, 0⟩ : Ptr).blk ≠ ctx.data.blk :=
    (Nat.ne_of_lt (h.data_blk_lt (by omega))).symm
  obtain ⟨ctx₁, m₁, hrun, hH, hdata, -⟩ := ccdigest_update_holds hf (by omega) (by omega)
    (h.append_block _) hp (by omega) fun _ => hblk
  rw [hlen] at hrun
  have hx : m.Extends m₁ := (Prog.Keeps.alloca _ m _ _ (alloca_run _ m)).trans
    (ccdigest_update_loop_keeps di _ _ _ _ _ _ _ hrun)
  obtain ⟨old₁, hlen₁, hd₁⟩ := hx.reads hd
  obtain ⟨m', hloop, hI⟩ := store32_loop_run hs henc hd₁ (hlen₁.trans hold) (u32s ctx₁.state)
  have hstate := (hH.spec (by omega)).1
  rw [hbs] at hstate
  have hrun' : (ccdigest_final_64_tail di ctx digest n store32).run m = some (ctx₁, m') := by
    rw [ccdigest_final_64_tail, run_alloca_bind, run_bind_of_run hrun]
    dsimp only
    rw [run_bind_of_run hloop]
    rfl
  exact ⟨ctx₁, m', hrun', hstate ▸ hI.1, hdata⟩

/-- `ccdigest_final_64` loses no block and resizes none, if `store32` does not. -/
theorem ccdigest_final_64_keeps (di : ccdigest_info) (ctx : ccdigest_ctx) (digest : Ptr)
    (swap64 : UInt64 → UInt64) (hk : ∀ v p, Prog.Keeps (store32 v p)) :
    Prog.Keeps (ccdigest_final_64 di ctx digest swap64 store32) := by
  rw [ccdigest_final_64_eq]
  refine Prog.Keeps.bind (Prog.Keeps.store _ _ _) fun _ =>
    Prog.Keeps.bind (ccdigest_final_64_zeros_keeps _ _) fun _ => ?_
  exact Prog.Keeps.bind (Prog.Keeps.alloca _) fun _ =>
    Prog.Keeps.bind (ccdigest_update_loop_keeps _ _ _ _ _) fun _ =>
      Prog.Keeps.bind (Prog.Keeps.forIn _ _ fun _ _ =>
        Prog.Keeps.bind (hk _ _) fun _ => Prog.Keeps.pure _) fun _ => Prog.Keeps.pure _

/-- What `ccdigest_final_64` hashes after `len` bytes, `nbits` bits in all: `0x80`, zeros up to
56 bytes modulo 64, and the bytes of `swap64 (nbits)` as they lie in memory. -/
def final64_pad (swap64 : UInt64 → UInt64) (nbits len : Nat) : List UInt8 :=
  (0x80 : UInt8) :: List.replicate ((119 - len % 64) % 64) 0 ++
    (List.range 8).map fun j => (swap64 nbits.toUInt64 >>> (8 * j).toUInt64).toUInt8

/-- `ccdigest_final_64` on a context of 64-byte blocks that has hashed `M`, `bits` bits before
its blocks, stores with `store32` the words of the initial state after every block of `M` and
its padding. -/
theorem ccdigest_final_64_run (hf : CompressSpec di f) (hbs : di.block_size = 64)
    {M : List UInt8} (h : Holds di f bits ctx m M) (hs : Store32Spec store32 enc)
    (henc : ∀ v, (enc v).length = 4) {digest : Ptr} {old : List UInt8} (hd : m.Reads digest old)
    (hold : old.length = 4 * (di.output_size / 4)) (swap64 : UInt64 → UInt64) :
    ∃ ctx' m', (ccdigest_final_64 di ctx digest swap64 store32).run m = some (ctx', m') ∧
      m'.Reads digest ((List.range (di.output_size / 4)).flatMap fun i =>
        enc ((u32s (absorb f 64 di.initial_state
          (M ++ final64_pad swap64 (bits + M.length * 8) M.length))).getD i 0)) ∧
      ctx'.data = ctx.data := by
  obtain ⟨B, t, rfl, ht, hR⟩ := h
  have hB : B.length % 64 = 0 := hbs ▸ hR.aligned
  obtain ⟨m₁, hst, hR₁, hx₁⟩ := hR.store_pad ht (by omega) 0x80
  obtain ⟨ctx₂, m₂, hrun₂, hH₂, hdata₂⟩ := ccdigest_final_64_zeros_run hf hbs hR₁ (by simp)
  have hx₂ : m₁.Extends m₂ := ccdigest_final_64_zeros_keeps di _ m₁ ctx₂ m₂ hrun₂
  obtain ⟨old₂, hlen₂, hd₂⟩ := (hx₁.trans hx₂).reads hd
  obtain ⟨ctx', m', hrun, hreads, hdata⟩ := ccdigest_final_64_tail_run hf hbs hH₂ hs henc hd₂
    (hlen₂.trans hold) (swap64 (ctx.nbits + (ctx.num * 8).toUInt64))
  refine ⟨ctx', m', ?_, ?_, hdata.trans hdata₂⟩
  · rw [ccdigest_final_64_eq, run_bind_of_run hst, run_bind_of_run hrun₂]
    exact hrun
  -- the bytes hashed after the message are `final64_pad`
  have hnbits : ctx.nbits + (ctx.num * 8).toUInt64 = (bits + (B ++ t).length * 8).toUInt64 := by
    apply UInt64.toNat_inj.mp
    rw [show (ctx.nbits + (ctx.num * 8).toUInt64).toNat = _ from hR₁.nbits, Nat.toUInt64_eq,
      UInt64.toNat_ofNat', List.length_append,
      show bits + t.length * 8 + B.length * 8 = bits + (B.length + t.length) * 8 by ring]
  have hz : (120 - (t ++ [(0x80 : UInt8)]).length) % 64 = (119 - (B ++ t).length % 64) % 64 := by
    simp only [List.length_append, List.length_singleton]
    omega
  rw [final64_pad, ← hnbits, ← hz]
  simpa only [List.append_assoc, List.singleton_append, List.cons_append, List.nil_append]
    using hreads

end Final

/-! ## SHA-256 -/

theorem map_range_getD {α : Type} (l : List α) (d : α) :
    (List.range l.length).map (fun i => l.getD i d) = l :=
  List.ext_getElem (by simp) fun i _ h => by simp [List.getD_eq_getElem?_getD, h]

/-- The loop over the indices of a list, each element encoded, is the list encoded. -/
theorem flatMap_range_getD {α β : Type} {l : List α} {n : Nat} (hl : l.length = n) (d : α)
    (g : α → List β) : (List.range n).flatMap (fun i => g (l.getD i d)) = l.flatMap g := by
  subst hl
  calc (List.range l.length).flatMap (fun i => g (l.getD i d))
      = ((List.range l.length).map fun i => l.getD i d).flatMap g := (List.flatMap_map _ _ _).symm
    _ = l.flatMap g := by rw [map_range_getD]

/-- A byte of a count below `2^64` from its top eight: the bits above them do not reach it. -/
theorem toUInt8_shiftRight_mod (x s : Nat) (hs : s + 8 ≤ 64) :
    ((x % 2 ^ 64) >>> s).toUInt8 = (x >>> s).toUInt8 := by
  apply UInt8.toNat_inj.mp
  have hsplit : 2 ^ 64 = 2 ^ s * 2 ^ (64 - s) := by rw [← Nat.pow_add, Nat.add_sub_cancel' (by omega)]
  have hdvd : 256 ∣ 2 ^ (64 - s) := Nat.pow_dvd_pow 2 (show 8 ≤ 64 - s by omega)
  rw [Nat.toUInt8_eq, Nat.toUInt8_eq, UInt8.toNat_ofNat', UInt8.toNat_ofNat',
    Nat.shiftRight_eq_div_pow, Nat.shiftRight_eq_div_pow, hsplit, Nat.mod_mul_right_div_self,
    Nat.mod_mod_of_dvd _ hdvd]

/-- With `CC_BSWAP64`, what `ccdigest_final_64` hashes after the message is the padding of
FIPS 180-4 §5.1.1: `0x80`, zeros, and the 64-bit bit count big-endian. -/
theorem final64_pad_bswap64 (M : List UInt8) :
    final64_pad bswap64 (M.length * 8) M.length =
      [(0x80 : UInt8)] ++ List.replicate ((119 - M.length % 64) % 64) (0 : UInt8) ++
        (List.range 8).map fun j => ((M.length * 8) >>> (8 * (7 - j))).toUInt8 := by
  rw [final64_pad, bswap64_bytes, Nat.toUInt64_eq, UInt64.toNat_ofNat', List.singleton_append]
  refine congrArg _ (List.map_congr_left fun j hj => ?_)
  exact toUInt8_shiftRight_mod _ _ (by have := List.mem_range.mp hj; omega)

/-- The state after the whole blocks of a padded message, from SHA-256's initial words. -/
theorem absorb_sha256_block {P : List UInt8} (hP : 64 ≤ P.length) :
    absorb sha256_block 64 (bytesOfU32s ccsha256_initial_state) P =
      bytesOfU32s ((List.range (P.length / 64)).foldl
        (fun H i => ccsha2xx_compress_one H ((P.drop (64 * i)).take 64)) ccsha256_initial_state) := by
  have hne : blocks 64 (P.length / 64) P ≠ [] :=
    List.ne_nil_of_length_pos (by simp [blocks]; omega)
  rw [absorb, foldl_sha256_block _ _ hne, u32s_bytesOfU32s, blocks, List.foldl_map]

/-- The words `ccdigest_final_64` stores for SHA-256, with `CC_STORE32_BE`, are the SHA-256
digest of the message. -/
theorem flatMap_store32be_sha256 (M : List UInt8) :
    ((List.range 8).flatMap fun i =>
      (fun v : UInt32 => [(v >>> 24).toUInt8, (v >>> 16).toUInt8, (v >>> 8).toUInt8, v.toUInt8])
        ((u32s (absorb sha256_block 64 (bytesOfU32s ccsha256_initial_state)
          (M ++ final64_pad bswap64 (M.length * 8) M.length))).getD i 0)) = sha256 M := by
  have hpad := final64_pad_bswap64 M
  have hlen : 64 ≤ (M ++ final64_pad bswap64 (M.length * 8) M.length).length := by
    rw [hpad]
    simp only [List.length_append, List.length_singleton, List.length_replicate, List.length_map,
      List.length_range]
    omega
  have hH := length_foldl_eq
    (g := fun H i => ccsha2xx_compress_one H
      (((M ++ final64_pad bswap64 (M.length * 8) M.length).drop (64 * i)).take 64))
    (fun v _ hv => length_ccsha2xx_compress_one hv _)
    (List.range ((M ++ final64_pad bswap64 (M.length * 8) M.length).length / 64))
    ccsha256_initial_state rfl
  rw [absorb_sha256_block hlen, u32s_bytesOfU32s, flatMap_range_getD hH 0
    (fun v : UInt32 => [(v >>> 24).toUInt8, (v >>> 16).toUInt8, (v >>> 8).toUInt8, v.toUInt8]),
    hpad, ← List.append_assoc, ← List.append_assoc]
  rfl

/-- **`ccdigest` computes SHA-256.** `ccdigest` with `ccsha256_di`, over a message of fewer than
`2^31` bytes and a digest buffer of 32 bytes, returns, and the buffer holds the SHA-256 digest of
the message (FIPS 180-4). -/
theorem ccdigest_sha256 {m : Mem UInt8} {data digest : Ptr} {M old : List UInt8}
    (hM : m.Reads data M) (hlen : M.length < 2 ^ 31) (hd : m.Reads digest old)
    (hold : old.length = 32) :
    ∃ m', (ccdigest ccsha256_di M.length data digest).run m = some ((), m') ∧
      m'.Reads digest (sha256 M) := by
  have hbuf := Mem.reads_append_self m (List.replicate ccsha256_di.block_size (0 : UInt8))
  have hH₀ : Holds ccsha256_di sha256_block 0 (ccdigest_init ccsha256_di ⟨0, [], ⟨m.length, 0⟩, 0⟩)
      (m ++ [List.replicate ccsha256_di.block_size 0]) [] :=
    ccdigest_init_holds (by decide) hbuf (List.length_replicate ..)
  -- the update returns a context that has hashed the message
  obtain ⟨ctx₁, m₁, hrun₁, hH₁, -, -⟩ := ccdigest_update_holds ccsha256_compress_spec (by decide)
    (by decide) hH₀ (hM.append_block _) hlen fun hne => Nat.ne_of_lt (hM.blk_lt hne)
  rw [List.nil_append] at hH₁
  have hx₁ : (m ++ [List.replicate ccsha256_di.block_size 0]).Extends m₁ :=
    ccdigest_update_loop_keeps _ _ _ _ _ _ _ _ hrun₁
  obtain ⟨old₁, hlen₁, hd₁⟩ := hx₁.reads (hd.append_block _)
  obtain ⟨ctx₂, m₂, hrun₂, hreads, -⟩ := ccdigest_final_64_run ccsha256_compress_spec rfl hH₁
    store32be_spec (fun _ => rfl) hd₁ (by rw [hlen₁, hold]; rfl) bswap64
  have hfin : (ccdigest_final ccsha256_di ctx₁ digest).run m₁ = some (ctx₂, m₂) := hrun₂
  refine ⟨m₂, ?_, ?_⟩
  · rw [ccdigest, run_alloca_bind]
    dsimp only
    rw [run_bind_of_run hrun₁, run_bind_of_run hfin]
    rfl
  · rw [Nat.zero_add] at hreads
    rw [← flatMap_store32be_sha256]
    exact hreads

/-- `ccdigest` over `"abc"`, the message in block 0 and a 32-byte digest buffer in block 1. -/
theorem ccdigest_sha256_abc :
    ∃ m', (ccdigest ccsha256_di 3 ⟨0, 0⟩ ⟨1, 0⟩).run [[0x61, 0x62, 0x63], List.replicate 32 0] =
        some ((), m') ∧ m'.Reads ⟨1, 0⟩ (sha256 [0x61, 0x62, 0x63]) :=
  ccdigest_sha256 (M := [0x61, 0x62, 0x63])
    ((Mem.reads_append_self [] _).append_block _) (by decide)
    (Mem.reads_append_self [[0x61, 0x62, 0x63]] _) rfl

end Corecrypto.Digest
