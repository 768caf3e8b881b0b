import Darwin.Corecrypto.DigestFinal

/-!
# `cchmac` over SHA-256 with a key of at most one block is RFC 2104's HMAC

| here | there |
| --- | --- |
| `cchmac_key_block_run` | `cchmac_init`, `cchmac.c:14-20`: the key copied and zero-padded |
| `cchmac_init_pads`, `cchmac_init_pads_run` | `cchmac.c:23-44`: the two pads and the two states |
| `cchmac_init_run` | `cchmac_init` (`:5`) for a key of at most `block_size` bytes |
| `cchmac_final_sha256_run` | `cchmac_final` (`:56`) with `ccsha256_di` |
| `cchmac_sha256` | `cchmac` (`:75`) with `ccsha256_di` |

`cchmac_init` builds the key block `K0` in the context's block buffer, xors it with `opad` in
place and compresses one block into `ostate`, then turns the buffer into `K0 ^ ipad` (it undoes
`opad` byte by byte) and compresses one block into the state of the digest context, which then
stands for the message `K0 ^ ipad` (`Holds`). `cchmac_update` is `ccdigest_update` on that
context. `cchmac_final` finalises it into the buffer itself, which leaves the inner digest in its
first `output_size` bytes; the same context, its state now `ostate`, `num` the digest's length
and `nbits` one block, then stands for `K0 ^ opad` followed by the inner digest, and is finalised
into the MAC.

For a key of at most 64 bytes the result is `hmac sha256 64 key text`, whatever the stack held
where `cchmac` puts its context (`cchmac_sha256`). A longer key is another matter: its digest
fills only half of the buffer (`cchmac_reads_stale_key_tail`).
-/

namespace Corecrypto.Digest

open Blocks Corecrypto.Der Absorb

/-! ## The key block -/

section KeyBlock

variable {m : Mem UInt8}

/-- `memset` over cells that can be written: they read `c`, and no other cell changes. -/
theorem memset_run {dst : Ptr} (c : UInt8) {old : List UInt8} (h : m.Reads dst old) :
    ∃ m', (memset dst c old.length).run m = some ((), m') ∧
      m'.Reads dst (List.replicate old.length c) ∧
      ∀ q, dst.Outside old.length q → m'.load q = m.load q := by
  have hcell : MapsCell dst (fun _ => c)
      (fun i _ => store dst i c >>= fun _ => pure (ForInStep.yield ())) := by
    intro i m₁ v hv
    obtain ⟨m₂, hs, hc, hother⟩ := store_run_of_load hv c
    exact ⟨m₂, by rw [run_bind_of_run hs]; rfl, hc, hother⟩
  obtain ⟨m', hrun, hr, hframe⟩ := forIn_mapsCell_run hcell h
  refine ⟨m', ?_, by rwa [List.map_const'] at hr, hframe⟩
  rw [memset, run_bind_of_run hrun]
  rfl

/-- The key copied into the buffer and, if it is shorter than the buffer, the rest of the buffer
cleared (`cchmac.c:16-20`): the buffer reads the key block `K0`, and no cell outside it changes.
An empty key can be anywhere. -/
theorem cchmac_key_block_run {data key : Ptr} {K buf : List UInt8} {n : Nat}
    (hK : m.Reads key K) (hKl : K.length ≤ n) (hbuf : m.Reads data buf) (hbufl : buf.length = n)
    (hblk : K ≠ [] → key.blk ≠ data.blk) :
    ∃ m', ((memcpy data key K.length >>= fun _ =>
        if K.length < n then memset (data.add K.length) 0 (n - K.length) else pure ()) :
          DerM Unit).run m = some ((), m') ∧
      m'.Reads data (K ++ List.replicate (n - K.length) 0) ∧
      ∀ q, data.Outside n q → m'.load q = m.load q := by
  -- the copy: the key at the front, the rest of the buffer as it was
  obtain ⟨m₁, hrun₁, hK₁, hf₁⟩ : ∃ m₁, (memcpy data key K.length).run m = some ((), m₁) ∧
      m₁.Reads data K ∧ ∀ q, data.Outside K.length q → m₁.load q = m.load q := by
    rcases eq_or_ne K [] with rfl | hne
    · exact ⟨m, rfl, Mem.Reads.nil, fun _ _ => rfl⟩
    · obtain ⟨m₁, hrun, hr, hf⟩ := memcpy_run hK hbuf (hblk hne) K.length (by omega) le_rfl
      exact ⟨m₁, hrun, by rwa [List.take_length] at hr, hf⟩
  have hrest : m₁.Reads (data.add K.length) (buf.drop K.length) := by
    have h := (Mem.Reads.append_iff.mp ((List.take_append_drop K.length buf).symm ▸ hbuf)).2
    rw [List.length_take, Nat.min_eq_left (by omega)] at h
    refine h.congr fun i _ => hf₁ _ (.inr (.inr ?_))
    simp only [Ptr.add_off, Ptr.add_add]
    omega
  have hdrop : (buf.drop K.length).length = n - K.length := by
    rw [List.length_drop, hbufl]
  rw [run_bind_of_run hrun₁]
  by_cases hlt : K.length < n
  · -- the rest cleared, the key untouched
    rw [if_pos hlt, ← hdrop]
    obtain ⟨m₂, hrun₂, hz, hf₂⟩ := memset_run 0 hrest
    refine ⟨m₂, hrun₂, Mem.Reads.append_iff.mpr ⟨hK₁.congr fun i hi => hf₂ _ ?_, hz⟩,
      fun q hq => ?_⟩
    · simp only [Ptr.Outside, Ptr.add_blk, Ptr.add_off]
      omega
    · rw [hf₂ q ?_, hf₁ q ?_] <;>
        simp only [Ptr.Outside, Ptr.add_blk, Ptr.add_off] at hq ⊢ <;> omega
  · -- the key fills the buffer
    rw [if_neg hlt, show n - K.length = 0 by omega, List.replicate_zero, List.append_nil]
    exact ⟨m₁, rfl, hK₁, fun q hq => hf₁ q (by
      simp only [Ptr.Outside] at hq ⊢
      omega)⟩

end KeyBlock

/-! ## The pads -/

/-- The part of `cchmac_init` after the key block is built (`cchmac.c:23-44`): `opad`, `ostate`,
`ipad`, and the state of the digest context. -/
def cchmac_init_pads (di : ccdigest_info) (ctx : cchmac_ctx) : DerM cchmac_ctx := do
  let data := ctx.digest.data
  for i in List.range di.block_size do
    let b ← load data i
    store data i (b ^^^ 0x5c)
  let block ← loadN data di.block_size
  let ostate := di.compress di.initial_state 1 block
  for i in List.range di.block_size do
    let b ← load data i
    store data i (b ^^^ 0x5c)
    let b ← load data i
    store data i (b ^^^ 0x36)
  let block ← loadN data di.block_size
  let istate := di.compress di.initial_state 1 block
  pure ⟨{ ctx.digest with state := istate, nbits := (di.block_size * 8).toUInt64, num := 0 },
    ostate⟩

/-- `cchmac_init` with a key of at most `block_size` bytes is the key block, then the pads. -/
theorem cchmac_init_short {di : ccdigest_info} {ctx : cchmac_ctx} {key_len : Nat} {key : Ptr}
    (h : key_len ≤ di.block_size) :
    cchmac_init di ctx key_len key =
      (memcpy ctx.digest.data key key_len >>= fun _ =>
        if key_len < di.block_size then
          memset (ctx.digest.data.add key_len) 0 (di.block_size - key_len)
        else pure ()) >>= fun _ => cchmac_init_pads di ctx := by
  unfold cchmac_init cchmac_init_pads
  rw [if_neg (by omega)]
  by_cases hlt : key_len < di.block_size
  · simp only [if_pos hlt, bind_assoc]
  · simp only [if_neg hlt, bind_assoc, pure_bind]

/-- The first loop xors each byte of the buffer with `opad`. -/
theorem opad_mapsCell (data : Ptr) :
    MapsCell (α := UInt8) data (· ^^^ 0x5c) (fun i _ => do
      let b ← load data i
      store data i (b ^^^ 0x5c)
      pure (ForInStep.yield ())) := by
  intro i m v hv
  obtain ⟨m', hs, hc, hother⟩ := store_run_of_load hv (v ^^^ 0x5c)
  exact ⟨m', by rw [run_bind_of_run (load_run_of_load hv), run_bind_of_run hs]; rfl, hc, hother⟩

/-- The second loop xors each byte with `opad` again, then with `ipad`. -/
theorem ipad_mapsCell (data : Ptr) :
    MapsCell (α := UInt8) data (fun b => b ^^^ 0x5c ^^^ 0x36) (fun i _ => do
      let b ← load data i
      store data i (b ^^^ 0x5c)
      let b ← load data i
      store data i (b ^^^ 0x36)
      pure (ForInStep.yield ())) := by
  intro i m v hv
  obtain ⟨m₁, hs₁, hc₁, hother₁⟩ := store_run_of_load hv (v ^^^ 0x5c)
  obtain ⟨m₂, hs₂, hc₂, hother₂⟩ := store_run_of_load hc₁ (v ^^^ 0x5c ^^^ 0x36)
  refine ⟨m₂, ?_, hc₂, fun q hq => (hother₂ q hq).trans (hother₁ q hq)⟩
  rw [run_bind_of_run (load_run_of_load hv), run_bind_of_run hs₁,
    run_bind_of_run (load_run_of_load hc₁), run_bind_of_run hs₂]
  rfl

/-- Undoing `opad` and applying `ipad` is applying `ipad`. -/
theorem map_opad_ipad (K0 : List UInt8) :
    (K0.map (· ^^^ 0x5c)).map (fun b => b ^^^ 0x5c ^^^ 0x36) = K0.map (· ^^^ 0x36) := by
  rw [List.map_map]
  refine List.map_congr_left fun b _ => ?_
  simp

section Pads

variable {di : ccdigest_info} {f : List UInt8 → List UInt8 → List UInt8} {ctx : cchmac_ctx}
  {m : Mem UInt8}

/-- From a key block `K0` in the buffer: `ostate` is one step on `K0 ^ opad`, the digest context
stands for the message `K0 ^ ipad`, and no block but the buffer's changes. -/
theorem cchmac_init_pads_run (hf : CompressSpec di f) (hbs : 0 < di.block_size)
    {K0 : List UInt8} (hK0 : m.Reads ctx.digest.data K0) (hlen : K0.length = di.block_size) :
    ∃ c m', (cchmac_init_pads di ctx).run m = some (c, m') ∧ c.digest.data = ctx.digest.data ∧
      c.ostate = f di.initial_state (K0.map (· ^^^ 0x5c)) ∧
      Holds di f 0 c.digest m' (K0.map (· ^^^ 0x36)) ∧
      ∀ q, q.blk ≠ ctx.digest.data.blk → m'.load q = m.load q := by
  obtain ⟨m₁, hrun₁, hr₁, hf₁⟩ := forIn_mapsCell_run (opad_mapsCell ctx.digest.data) hK0
  obtain ⟨m₂, hrun₂, hr₂, hf₂⟩ := forIn_mapsCell_run (ipad_mapsCell ctx.digest.data) hr₁
  have hl₁ : (K0.map (· ^^^ 0x5c)).length = di.block_size := by rw [List.length_map, hlen]
  have hload₁ := loadN_run_of_reads hr₁
  have hload₂ := loadN_run_of_reads hr₂
  rw [hlen] at hrun₁
  rw [hl₁] at hrun₂ hload₁
  rw [List.length_map, hl₁] at hload₂
  rw [map_opad_ipad] at hr₂ hload₂
  have hl₂ : (K0.map (· ^^^ 0x36)).length = di.block_size := by rw [List.length_map, hlen]
  have hrun : (cchmac_init_pads di ctx).run m = some (⟨{ ctx.digest with
      state := di.compress di.initial_state 1 (K0.map (· ^^^ 0x36)),
      nbits := (di.block_size * 8).toUInt64, num := 0 },
      di.compress di.initial_state 1 (K0.map (· ^^^ 0x5c))⟩, m₂) := by
    rw [cchmac_init_pads, run_bind_of_run hrun₁, run_bind_of_run hload₁]
    dsimp only
    rw [run_bind_of_run hrun₂, run_bind_of_run hload₂]
    rfl
  refine ⟨_, m₂, hrun, rfl, hf.one hl₁ _, ⟨K0.map (· ^^^ 0x36), [], (List.append_nil _).symm,
    hbs, ?_⟩, fun q hq => ?_⟩
  · -- one whole block hashed, nothing buffered
    refine ⟨by rw [hl₂, Nat.mod_self], ?_, rfl, ?_, K0.map (· ^^^ 0x36), by simp [hl₂], hr₂⟩
    · exact (hf.one hl₂ _).trans (absorb_block f hbs hl₂ _).symm
    · show (di.block_size * 8).toUInt64.toNat = _
      rw [Nat.toUInt64_eq, UInt64.toNat_ofNat', hl₂, Nat.zero_add]
  · have hout : ctx.digest.data.Outside K0.length q := .inl hq
    rw [hf₂ q (by rwa [List.length_map]), hf₁ q hout]

/-- **`cchmac_init` with a short key.** A key of at most `block_size` bytes, and a buffer of
`block_size` bytes: `ostate` is one step on `K0 ^ opad` and the digest context stands for
`K0 ^ ipad`, where `K0` is the key zero-padded to a block; no block but the buffer's changes. -/
theorem cchmac_init_run (ctx : cchmac_ctx) (hf : CompressSpec di f) (hbs : 0 < di.block_size)
    {key : Ptr}
    {K buf : List UInt8} (hK : m.Reads key K) (hKl : K.length ≤ di.block_size)
    (hbuf : m.Reads ctx.digest.data buf) (hbufl : buf.length = di.block_size)
    (hblk : K ≠ [] → key.blk ≠ ctx.digest.data.blk) :
    ∃ c m', (cchmac_init di ctx K.length key).run m = some (c, m') ∧
      c.digest.data = ctx.digest.data ∧
      c.ostate = f di.initial_state
        ((K ++ List.replicate (di.block_size - K.length) 0).map (· ^^^ 0x5c)) ∧
      Holds di f 0 c.digest m'
        ((K ++ List.replicate (di.block_size - K.length) 0).map (· ^^^ 0x36)) ∧
      ∀ q, q.blk ≠ ctx.digest.data.blk → m'.load q = m.load q := by
  obtain ⟨m₁, hrun₁, hK0, hf₁⟩ := cchmac_key_block_run hK hKl hbuf hbufl hblk
  rw [cchmac_init_short hKl, run_bind_of_run hrun₁]
  obtain ⟨c, m', hrun, hdata, hos, hH, hf₂⟩ := cchmac_init_pads_run hf hbs hK0
    (by rw [List.length_append, List.length_replicate]; omega)
  exact ⟨c, m', hrun, hdata, hos, hH, fun q hq => (hf₂ q hq).trans (hf₁ q (.inl hq))⟩

end Pads

/-! ## `cchmac_final` over SHA-256 -/

section Final

variable {m : Mem UInt8}

theorem length_flatMap_be32 (ws : List UInt32) :
    (ws.flatMap fun (w : UInt32) =>
      [(w >>> 24).toUInt8, (w >>> 16).toUInt8, (w >>> 8).toUInt8, w.toUInt8]).length =
      4 * ws.length := by
  induction ws with
  | nil => rfl
  | cons w ws ih =>
    rw [List.flatMap_cons, List.length_append, ih]
    simp only [List.length_cons, List.length_nil]
    omega

/-- A SHA-256 digest is eight words, 32 bytes. -/
theorem length_sha256 (M : List UInt8) : (sha256 M).length = 32 := by
  unfold sha256
  dsimp only
  rw [length_flatMap_be32,
    length_foldl_eq (k := 8) (fun v _ hv => length_ccsha2xx_compress_one hv _) _ _ rfl]

/-- `cchmac_final` with `ccsha256_di`, from a context that stands for `M` and an `ostate` one
step on a block `Bo`: the inner digest is written into the buffer, the context then stands for
`Bo` and that digest, and the MAC is their digest. -/
theorem cchmac_final_sha256_run (ctx : cchmac_ctx) {M Bo : List UInt8}
    (h : Holds ccsha256_di sha256_block 0 ctx.digest m M) (hBo : Bo.length = 64)
    (hos : ctx.ostate = sha256_block (bytesOfU32s ccsha256_initial_state) Bo)
    {mac : Ptr} {old : List UInt8} (hmac : m.Reads mac old) (hold : old.length = 32) :
    ∃ c m', (cchmac_final ccsha256_di ctx mac).run m = some (c, m') ∧
      m'.Reads mac (sha256 (Bo ++ sha256 M)) ∧ m.Extends m' := by
  -- the inner digest goes to the first 32 of the buffer's 64 bytes
  obtain ⟨B, t, -, -, hR⟩ := id h
  obtain ⟨rest, hlen, hr⟩ := hR.buffer
  have hl : (t ++ rest).length = 64 := by
    rw [List.length_append, hlen]
    rfl
  rw [← List.take_append_drop 32 (t ++ rest), Mem.Reads.append_iff] at hr
  obtain ⟨c₁, m₁, hrun₁, hD, hdata₁⟩ := ccdigest_final_64_run ccsha256_compress_spec rfl h
    store32be_spec (fun _ => rfl) hr.1 (by rw [List.length_take, hl]; rfl) bswap64
  rw [Nat.zero_add] at hD
  replace hD : m₁.Reads ctx.digest.data (sha256 M) := by
    rw [← flatMap_store32be_sha256]
    exact hD
  have hx₁ : m.Extends m₁ := ccdigest_final_64_keeps _ _ _ _ store32be_keeps m c₁ m₁ hrun₁
  -- the other 32 bytes of the buffer can still be written
  obtain ⟨Y, hYl, hY⟩ := hx₁.reads hr.2
  rw [List.length_take, hl, Nat.min_eq_left (by decide)] at hY
  have hR₂ : Rep ccsha256_di sha256_block 0
      { nbits := (ccsha256_di.block_size * 8).toUInt64, state := ctx.ostate, data := c₁.data,
        num := ccsha256_di.output_size.toUInt32 } m₁ Bo (sha256 M) := by
    refine ⟨by rw [hBo]; rfl, ?_, by rw [length_sha256]; rfl, by rw [hBo]; rfl, Y, ?_, ?_⟩
    · rw [hos]
      exact (absorb_block sha256_block (by decide) hBo _).symm
    · rw [length_sha256, hYl, List.length_drop, hl]
      rfl
    · rw [hdata₁, Mem.Reads.append_iff, length_sha256]
      exact ⟨hD, hY⟩
  -- the outer digest goes to the MAC
  obtain ⟨old₁, hold₁, hmac₁⟩ := hx₁.reads hmac
  obtain ⟨c₂, m₂, hrun₂, hmac₂, -⟩ := ccdigest_final_64_run ccsha256_compress_spec rfl
    (hR₂.holds (by rw [length_sha256]; decide)) store32be_spec (fun _ => rfl) hmac₁
    (by rw [hold₁, hold]; rfl) bswap64
  rw [Nat.zero_add] at hmac₂
  replace hmac₂ : m₂.Reads mac (sha256 (Bo ++ sha256 M)) := by
    rw [← flatMap_store32be_sha256]
    exact hmac₂
  have hx₂ : m₁.Extends m₂ := ccdigest_final_64_keeps _ _ _ _ store32be_keeps m₁ c₂ m₂ hrun₂
  have hfin₁ : (ccdigest_final ccsha256_di ctx.digest ctx.digest.data).run m = some (c₁, m₁) :=
    hrun₁
  have hfin₂ : (ccdigest_final ccsha256_di
      { nbits := (ccsha256_di.block_size * 8).toUInt64, state := ctx.ostate, data := c₁.data,
        num := ccsha256_di.output_size.toUInt32 } mac).run m₁ = some (c₂, m₂) := hrun₂
  refine ⟨{ ctx with digest := c₂ }, m₂, ?_, hmac₂, hx₁.trans hx₂⟩
  rw [cchmac_final, run_bind_of_run hfin₁]
  dsimp only
  rw [run_bind_of_run hfin₂]
  rfl

end Final

/-! ## `cchmac` -/

/-- **`cchmac` computes HMAC-SHA-256 for a key of at most a block.** `cchmac` with
`ccsha256_di`, a key of at most 64 bytes, a text of fewer than `2^31` bytes and a MAC buffer of
32 bytes, whatever the stack held where it puts its context: it returns, and the MAC buffer holds
RFC 2104's HMAC-SHA-256 of the text under the key. -/
theorem cchmac_sha256 (stack : Nat → UInt8) {m : Mem UInt8} {key data mac : Ptr}
    {K T old : List UInt8} (hK : m.Reads key K) (hKl : K.length ≤ 64) (hT : m.Reads data T)
    (hTl : T.length < 2 ^ 31) (hO : m.Reads mac old) (hold : old.length = 32) :
    ∃ m', (cchmac ccsha256_di stack K.length key T.length data mac).run m = some ((), m') ∧
      m'.Reads mac (hmac sha256 64 K T) := by
  -- the context lies in a new block, after the caller's
  have hbuf := Mem.reads_append_self m ((List.range ccsha256_di.block_size).map stack)
  have hfresh : ∀ {p : Ptr} {l : List UInt8}, m.Reads p l → l ≠ [] → ∀ i : Nat,
      (p.add i).blk ≠ m.length :=
    fun hr hne _ => Nat.ne_of_lt (hr.blk_lt hne)
  have hO' : old ≠ [] := List.ne_nil_of_length_pos (by omega)
  obtain ⟨c₁, m₁, hrun₁, hdata₁, hos, hH₁, hf₁⟩ := cchmac_init_run ⟨⟨0, [], ⟨m.length, 0⟩, 0⟩, []⟩
    ccsha256_compress_spec (by decide) (hK.append_block _) hKl hbuf (by simp)
    fun hne => by simpa using hfresh hK hne 0
  -- what the caller's blocks read, they still read after `cchmac_init`
  have hkeep₁ : ∀ {p : Ptr} {l : List UInt8}, m.Reads p l → m₁.Reads p l := by
    intro p l hr
    rcases eq_or_ne l [] with rfl | hne
    · exact Mem.Reads.nil
    · exact (hr.append_block _).congr fun i _ => hf₁ _ (hfresh hr hne i)
  obtain ⟨d₂, m₂, hrun₂, hH₂, hd₂, hf₂⟩ := ccdigest_update_holds ccsha256_compress_spec
    (by decide) (by decide) hH₁ (hkeep₁ hT) hTl fun hne => by
      rw [hdata₁]
      simpa using hfresh hT hne 0
  have hupd : (cchmac_update ccsha256_di c₁ T.length data).run m₁ =
      some ({ c₁ with digest := d₂ }, m₂) := by
    rw [cchmac_update, run_bind_of_run hrun₂]
    rfl
  have hO₂ : m₂.Reads mac old := (hkeep₁ hO).congr fun i _ => hf₂ _ (by
    rw [hdata₁]
    exact hfresh hO hO' i)
  obtain ⟨c₃, m₃, hrun₃, hmac₃, hx₃⟩ := cchmac_final_sha256_run { c₁ with digest := d₂ } hH₂
    (by rw [List.length_map, List.length_append, List.length_replicate]; exact Nat.add_sub_cancel' hKl)
    hos hO₂ hold
  -- `cchmac_di_clear`: the buffer, 64 bytes that can be written, cleared
  obtain ⟨B, t, -, -, hR⟩ := hH₂
  obtain ⟨rest, hlen, hr⟩ := hR.buffer
  obtain ⟨Z, hZl, hZ⟩ := hx₃.reads hr
  rw [hd₂, hdata₁] at hZ
  obtain ⟨m₄, hrun₄, -, hf₄⟩ := memset_run 0 hZ
  rw [hZl, List.length_append, hlen] at hrun₄
  refine ⟨m₄, ?_, ?_⟩
  · rw [cchmac, run_alloca_bind, run_bind_of_run hrun₁, run_bind_of_run hupd,
      run_bind_of_run hrun₃]
    exact hrun₄
  · -- the MAC is outside the buffer
    have hmac₄ := hmac₃.congr fun i _ => hf₄ _ (.inl (hfresh hO hO' i))
    unfold hmac
    rw [if_neg (by omega)]
    exact hmac₄

/-- HMAC-SHA-256 of `"abc"` under the key `"key"`, with the key in block 0, the text in block 1,
the MAC buffer in block 2, and `0xff` wherever the stack is read. -/
theorem cchmac_sha256_key_abc :
    ∃ m', (cchmac ccsha256_di (fun _ => 0xff) 3 ⟨0, 0⟩ 3 ⟨1, 0⟩ ⟨2, 0⟩).run
        [[0x6b, 0x65, 0x79], [0x61, 0x62, 0x63], List.replicate 32 0] = some ((), m') ∧
      m'.Reads ⟨2, 0⟩ (hmac sha256 64 [0x6b, 0x65, 0x79] [0x61, 0x62, 0x63]) :=
  cchmac_sha256 (fun _ => 0xff) (K := [0x6b, 0x65, 0x79]) (T := [0x61, 0x62, 0x63])
    (((Mem.reads_append_self [] _).append_block _).append_block _) (by decide)
    ((Mem.reads_append_self [[0x6b, 0x65, 0x79]] _).append_block _) (by decide)
    (Mem.reads_append_self [[0x6b, 0x65, 0x79], [0x61, 0x62, 0x63]] _) rfl

end Corecrypto.Digest
