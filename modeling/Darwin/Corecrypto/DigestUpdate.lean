import Darwin.Corecrypto.Compress

/-!
# `ccdigest_update` streams its input (`corecrypto/src/ccdigest.c:115`)

A digest context stands for the message hashed so far (`Holds`): its state is the initial state
after the whole blocks of the message, fed one at a time to the descriptor's one-block step `f`
(`Absorb.absorb`); the rest of the message, fewer than `block_size` bytes, is at the front of
the block buffer, and `num` counts it; `nbits` counts the bits of the whole blocks. `compress`
is tied to `f` by `CompressSpec` (`Compress.lean`).

For an input shorter than `2^31` bytes, in a block other than the buffer's, `ccdigest_update`
returns, and leaves the context standing for the message with the input after it
(`ccdigest_update_holds`); it writes only into the buffer's block. So a message fed in pieces,
cut anywhere, leaves the context as the whole message fed at once (`ccdigest_update_chunks`).
At `2^31` bytes the `int` arithmetic of the loop breaks (`ccdigest_update_two_pow_31_undefined`).

A pass of the loop does one of four things: it fills the buffer and compresses it, adds to the
buffer without filling it, compresses the whole blocks of the input where they are, or puts the
tail of the input into an empty buffer. Each has its equation (`ccdigest_update_loop_fill`,
`_append`, `_whole`, `_tail`) with the conversions of `int` and `size_t` worked out, and each
its lemma on the representation (`Rep`). The loop never makes more than three passes.

`ccdigest_final_64` stores its `0x80` byte into the buffer by hand, which can fill the buffer
without compressing it; `Rep` allows a full buffer, and an update of two bytes or more
compresses it first (`ccdigest_update_rep`).
-/

namespace Corecrypto.Digest

open Blocks Corecrypto.Der Absorb

/-! ## `int` and `size_t` -/

theorem toInt_of_lt {x : Int} (h0 : 0 ≤ x) (h : x < 2 ^ 31) : toInt x = x := by
  unfold toInt
  rw [Int.emod_eq_of_lt h0 (by omega), if_pos h]

theorem toInt_natCast {k : Nat} (h : k < 2 ^ 31) : toInt (k : Int) = k :=
  toInt_of_lt (Int.natCast_nonneg k) (by omega)

theorem toSize_natCast_mod (k : Nat) : toSize (k : Int) = k % 2 ^ 64 := by
  unfold toSize
  omega

theorem toSize_natCast {k : Nat} (h : k < 2 ^ 64) : toSize (k : Int) = k := by
  unfold toSize
  rw [Int.emod_eq_of_lt (Int.natCast_nonneg k) (by omega), Int.toNat_natCast]

/-! ## `memcpy` -/

/-- `memcpy` from another block into cells that can be written: the `n` cells read the source's
first `n` bytes, and every other cell is as it was. -/
theorem memcpy_run {m : Mem UInt8} {dst src : Ptr} {xs old : List UInt8} (hsrc : m.Reads src xs)
    (hdst : m.Reads dst old) (hblk : src.blk ≠ dst.blk) :
    ∀ n, n ≤ old.length → n ≤ xs.length →
      ∃ m', (memcpy dst src n).run m = some ((), m') ∧ m'.Reads dst (xs.take n) ∧
        ∀ q, dst.Outside n q → m'.load q = m.load q
  | 0, _, _ => ⟨m, rfl, Mem.Reads.nil, fun _ _ => rfl⟩
  | n + 1, hold, hc => by
    obtain ⟨m₁, h₁, hr₁, hf₁⟩ := memcpy_run hsrc hdst hblk n (by omega) (by omega)
    -- the source lies in another block, and cell `n` of the destination is not written yet
    have hload : (load src n).run m₁ = some (xs[n], m₁) := by
      have : m₁.load (src.add n) = some xs[n] := by
        rw [hf₁ _ (.inl (by simpa using hblk)), hsrc n (by omega)]
      simp [load, StateT.run, this]
    have hcell : m₁.load (dst.add n) = some old[n] := by
      rw [hf₁ _ (.inr (.inr (by simp))), hdst n (by omega)]
    obtain ⟨m', hs, hv, hother⟩ := store_run_of_load hcell xs[n]
    refine ⟨m', ?_, ?_, fun q hq => ?_⟩
    · simp only [memcpy, StateT.run_bind, h₁, Option.bind_eq_bind, Option.bind_some, hload, hs]
    · rw [List.take_add_one, List.getElem?_eq_getElem (by omega), Option.toList_some,
        Mem.Reads.append_iff, List.length_take, Nat.min_eq_left (by omega)]
      refine ⟨hr₁.congr fun i hi => hother _ ?_, Mem.Reads.cons_iff.mpr ⟨hv, Mem.Reads.nil⟩⟩
      intro heq
      have := congrArg Ptr.off heq
      simp only [Ptr.add_off, List.length_take] at this hi
      omega
    · have hne : q ≠ dst.add n := by
        rintro rfl
        simp only [Ptr.Outside, Ptr.add_blk, Ptr.add_off, ne_eq, not_true_eq_false, false_or] at hq
        omega
      have hout : dst.Outside n q := by
        rcases hq with h | h | h
        · exact .inl h
        · exact .inr (.inl h)
        · exact .inr (.inr (by omega))
      rw [hother q hne, hf₁ q hout]

/-! ## Runs that keep every block -/

theorem memcpy_keeps (dst src : Ptr) : ∀ n, Prog.Keeps (memcpy dst src n)
  | 0 => Prog.Keeps.pure ()
  | n + 1 => Prog.Keeps.bind (memcpy_keeps dst src n) fun _ =>
      Prog.Keeps.bind (Prog.Keeps.load src n) fun v => Prog.Keeps.store dst n v

theorem ccdigest_submit_block_keeps (di : ccdigest_info) (ctx : ccdigest_ctx) (nblocks : Int)
    (data : Ptr) : Prog.Keeps (ccdigest_submit_block di ctx nblocks data) :=
  Prog.Keeps.bind (Prog.Keeps.loadN _ _) fun _ => Prog.Keeps.pure _

/-- Every pass of `ccdigest_update` loads, copies into the buffer and compresses: no block is
lost or resized. -/
theorem ccdigest_update_loop_keeps (di : ccdigest_info) :
    ∀ fuel ctx len ptr, Prog.Keeps (ccdigest_update_loop di fuel ctx len ptr)
  | 0, _, _, _ => Prog.Keeps.fail
  | fuel + 1, ctx, len, ptr => by
    simp only [ccdigest_update_loop]
    refine Prog.Keeps.ite (Prog.Keeps.ite ?_ (Prog.Keeps.ite ?_ ?_)) (Prog.Keeps.pure ctx)
    · -- bytes in the buffer: copy, then compress a full buffer
      refine Prog.Keeps.bind (memcpy_keeps _ _ _) fun _ => Prog.Keeps.ite ?_ ?_
      · exact Prog.Keeps.bind (ccdigest_submit_block_keeps _ _ _ _) fun _ =>
          ccdigest_update_loop_keeps di fuel _ _ _
      · exact ccdigest_update_loop_keeps di fuel _ _ _
    · exact Prog.Keeps.bind (ccdigest_submit_block_keeps _ _ _ _) fun _ =>
        ccdigest_update_loop_keeps di fuel _ _ _
    · exact Prog.Keeps.bind (memcpy_keeps _ _ _) fun _ => Prog.Keeps.pure _

/-! ## The passes of the loop -/

section Passes

variable {di : ccdigest_info} {ctx : ccdigest_ctx} {fuel len : Nat} {ptr : Ptr}

theorem ccdigest_update_loop_zero (hfuel : 0 < fuel) :
    ccdigest_update_loop di fuel ctx 0 ptr = pure ctx := by
  obtain ⟨fuel, rfl⟩ : ∃ k, fuel = k + 1 := ⟨fuel - 1, by omega⟩
  rw [ccdigest_update_loop, if_neg (Nat.lt_irrefl 0)]

/-- Bytes in the buffer and enough input to fill it: the buffer is filled and compressed. -/
theorem ccdigest_update_loop_fill (hbs : di.block_size < 2 ^ 31) (hnum0 : 0 < ctx.num.toNat)
    (hnum : ctx.num.toNat ≤ di.block_size) (hk : di.block_size - ctx.num.toNat ≤ len)
    (hlen : 0 < len) (hlen' : len < 2 ^ 31) :
    ccdigest_update_loop di (fuel + 1) ctx len ptr =
      (memcpy (ctx.data.add ctx.num.toNat) ptr (di.block_size - ctx.num.toNat) >>= fun _ =>
        ccdigest_submit_block di { ctx with num := di.block_size.toUInt32 } 1 ctx.data >>= fun ctx' =>
          ccdigest_update_loop di fuel { ctx' with num := 0 } (len - (di.block_size - ctx.num.toNat))
            (ptr.add (di.block_size - ctx.num.toNat : Nat))) := by
  -- the `int`s of the pass, as casts of naturals below `2^31`
  have h0 : (ctx.num.toNat : Int) > 0 := by omega
  have hsub : (di.block_size : Int) - ctx.num.toNat = ((di.block_size - ctx.num.toNat : Nat) : Int) := by
    omega
  have hadd : (ctx.num.toNat : Int) + ((di.block_size - ctx.num.toNat : Nat) : Int) = di.block_size := by
    omega
  have hrest : (len : Int) - ((di.block_size - ctx.num.toNat : Nat) : Int) =
      ((len - (di.block_size - ctx.num.toNat) : Nat) : Int) := by
    omega
  have hgt : ¬ (di.block_size - ctx.num.toNat > len) := by omega
  simp only [ccdigest_update_loop, hlen, if_true, toInt_natCast (show ctx.num.toNat < 2 ^ 31 by omega),
    h0, hsub, toSize_natCast (show di.block_size - ctx.num.toNat < 2 ^ 64 by omega),
    toInt_natCast (show di.block_size - ctx.num.toNat < 2 ^ 31 by omega), hgt, if_false, hadd,
    toInt_natCast hbs, toSize_natCast (show di.block_size < 2 ^ 64 by omega), hrest,
    toSize_natCast (show len - (di.block_size - ctx.num.toNat) < 2 ^ 64 by omega)]

/-- Bytes in the buffer and too little input to fill it: the input joins them. -/
theorem ccdigest_update_loop_append (hnum0 : 0 < ctx.num.toNat)
    (hk : ctx.num.toNat + len < di.block_size) (hlen : 0 < len) (hbs : di.block_size < 2 ^ 31) :
    ccdigest_update_loop di (fuel + 1) ctx len ptr =
      (memcpy (ctx.data.add ctx.num.toNat) ptr len >>= fun _ =>
        ccdigest_update_loop di fuel { ctx with num := (ctx.num.toNat + len).toUInt32 } 0
          (ptr.add len)) := by
  have h0 : (ctx.num.toNat : Int) > 0 := by omega
  have hsub : (di.block_size : Int) - ctx.num.toNat = ((di.block_size - ctx.num.toNat : Nat) : Int) := by
    omega
  have hadd : (ctx.num.toNat : Int) + len = ((ctx.num.toNat + len : Nat) : Int) := by omega
  have hrest : (len : Int) - len = ((0 : Nat) : Int) := by omega
  have hgt : di.block_size - ctx.num.toNat > len := by omega
  have hfull : ¬ (ctx.num.toNat + len = di.block_size) := by omega
  simp only [ccdigest_update_loop, hlen, if_true, toInt_natCast (show ctx.num.toNat < 2 ^ 31 by omega),
    h0, hsub, toSize_natCast (show di.block_size - ctx.num.toNat < 2 ^ 64 by omega),
    toInt_natCast (show di.block_size - ctx.num.toNat < 2 ^ 31 by omega), hgt, if_true,
    toInt_natCast (show len < 2 ^ 31 by omega), toSize_natCast (show len < 2 ^ 64 by omega), hadd,
    toInt_natCast (show ctx.num.toNat + len < 2 ^ 31 by omega),
    toSize_natCast (show ctx.num.toNat + len < 2 ^ 64 by omega), hfull, if_false, hrest,
    toSize_natCast (show 0 < 2 ^ 64 by omega)]

/-- An empty buffer and a block of input or more: the whole blocks are compressed in place. -/
theorem ccdigest_update_loop_whole (hnum : ctx.num.toNat = 0) (hbs : 0 < di.block_size)
    (hk : di.block_size ≤ len) (hlen' : len < 2 ^ 31) :
    ccdigest_update_loop di (fuel + 1) ctx len ptr =
      (ccdigest_submit_block di ctx (len / di.block_size : Nat) ptr >>= fun ctx' =>
        ccdigest_update_loop di fuel ctx' (len % di.block_size)
          (ptr.add (len / di.block_size * di.block_size : Nat))) := by
  have hnum' : ctx.num = 0 := UInt32.toNat_inj.mp hnum
  have hdiv : len / di.block_size ≤ len := Nat.div_le_self len di.block_size
  have hmul : len / di.block_size * di.block_size ≤ len := Nat.div_mul_le_self len di.block_size
  have hrest : (len : Int) - (len / di.block_size * di.block_size : Nat) =
      ((len % di.block_size : Nat) : Int) := by
    have := Nat.div_add_mod' len di.block_size
    omega
  rw [ccdigest_update_loop_blocks hnum' (by omega) hk, ← Int.natCast_div,
    toInt_natCast (show len / di.block_size < 2 ^ 31 by omega),
    toSize_natCast (show len / di.block_size < 2 ^ 64 by omega), ← Nat.cast_mul,
    toInt_natCast (show len / di.block_size * di.block_size < 2 ^ 31 by omega), hrest,
    toSize_natCast (show len % di.block_size < 2 ^ 64 by omega)]

/-- An empty buffer and less than a block of input: the input is put into the buffer. -/
theorem ccdigest_update_loop_tail (hnum : ctx.num.toNat = 0) (hlen : 0 < len)
    (hk : len < di.block_size) :
    ccdigest_update_loop di (fuel + 1) ctx len ptr =
      (memcpy ctx.data ptr len >>= fun _ => pure { ctx with num := len.toUInt32 }) := by
  have hb : ¬ (toInt (ctx.num.toNat : Int) > 0) := by
    rw [hnum]
    decide
  have hk' : ¬ (len ≥ di.block_size) := by omega
  simp only [ccdigest_update_loop, hlen, if_true, hb, if_false, hk']

end Passes

/-! ## What a context stands for -/

section Rep

variable (di : ccdigest_info) (f : List UInt8 → List UInt8 → List UInt8)

/-- The context has fed the whole blocks `B` to the initial state, counts their bits after
`bits` more, and holds `t` at the front of its `block_size` bytes of buffer. (`bits` is `0` but
inside `ccdigest_final_64`, which adds the bits of the buffer to `nbits` before it pads.) -/
structure Rep (bits : Nat) (ctx : ccdigest_ctx) (m : Mem UInt8) (B t : List UInt8) : Prop where
  aligned : B.length % di.block_size = 0
  state : ctx.state = absorb f di.block_size di.initial_state B
  num : ctx.num.toNat = t.length
  nbits : ctx.nbits.toNat = (bits + B.length * 8) % 2 ^ 64
  buffer : ∃ rest, t.length + rest.length = di.block_size ∧ m.Reads ctx.data (t ++ rest)

/-- The context has hashed `M`: its whole blocks fed, the rest in the buffer. -/
def Holds (bits : Nat) (ctx : ccdigest_ctx) (m : Mem UInt8) (M : List UInt8) : Prop :=
  ∃ B t, M = B ++ t ∧ t.length < di.block_size ∧ Rep di f bits ctx m B t

/-- A run of `x` from `m` returns a context that has hashed `M`, keeps its buffer where `ctx`
had it, and writes no block but the buffer's. -/
def Leaves (bits : Nat) (x : DerM ccdigest_ctx) (ctx : ccdigest_ctx) (m : Mem UInt8)
    (M : List UInt8) : Prop :=
  ∃ ctx' m', x.run m = some (ctx', m') ∧ Holds di f bits ctx' m' M ∧ ctx'.data = ctx.data ∧
    ∀ q, q.blk ≠ ctx.data.blk → m'.load q = m.load q

end Rep

section Stream

variable {di : ccdigest_info} {f : List UInt8 → List UInt8 → List UInt8} {bits : Nat}
  {ctx : ccdigest_ctx} {m : Mem UInt8} {B t : List UInt8}

theorem Rep.length_le (h : Rep di f bits ctx m B t) : t.length ≤ di.block_size := by
  obtain ⟨rest, hl, -⟩ := h.buffer
  omega

theorem Rep.holds (h : Rep di f bits ctx m B t) (ht : t.length < di.block_size) :
    Holds di f bits ctx m (B ++ t) :=
  ⟨B, t, rfl, ht, h⟩

/-- A run that leaves the memory as it was and the context holding `M`. -/
theorem Holds.leaves {M : List UInt8} (h : Holds di f bits ctx m M) :
    Leaves di f bits (pure ctx) ctx m M :=
  ⟨ctx, m, rfl, h, rfl, fun _ _ => rfl⟩

/-- What a context that has hashed `M` is: the initial state after the whole blocks of `M`,
`num` the count of the rest, `nbits` the bits of the whole blocks, and the rest at the front of
the buffer. Two contexts that have hashed one message agree on all that an update or a `final`
reads, however the message was cut. -/
theorem Holds.spec {M : List UInt8} (hbs : 0 < di.block_size) (h : Holds di f bits ctx m M) :
    ctx.state = absorb f di.block_size di.initial_state M ∧
      ctx.num.toNat = M.length % di.block_size ∧
      ctx.nbits.toNat = (bits + (M.length - M.length % di.block_size) * 8) % 2 ^ 64 ∧
      m.Reads ctx.data (M.drop (M.length - M.length % di.block_size)) := by
  obtain ⟨B, t, rfl, ht, hR⟩ := h
  obtain ⟨k, hk⟩ : di.block_size ∣ B.length := Nat.dvd_of_mod_eq_zero hR.aligned
  have hmod : (B ++ t).length % di.block_size = t.length := by
    rw [List.length_append, hk, Nat.mul_add_mod, Nat.mod_eq_of_lt ht]
  have hB : (B ++ t).length - t.length = B.length := by
    rw [List.length_append, Nat.add_sub_cancel]
  obtain ⟨rest, -, hr⟩ := hR.buffer
  refine ⟨?_, by rw [hR.num, hmod], by rw [hR.nbits, hmod, hB], ?_⟩
  · rw [hR.state, absorb_append f hbs hR.aligned, absorb_of_lt f ht]
  · rw [hmod, hB, List.drop_left]
    exact (Mem.Reads.append_iff.mp hr).1

/-- `ccdigest_init` with a buffer of `block_size` bytes has hashed nothing. -/
theorem ccdigest_init_holds (hbs : 0 < di.block_size) {buf : List UInt8}
    (hbuf : m.Reads ctx.data buf) (hlen : buf.length = di.block_size) :
    Holds di f 0 (ccdigest_init di ctx) m [] := by
  refine ⟨[], [], rfl, hbs, ⟨Nat.zero_mod _, ?_, rfl, rfl, buf, by simp [hlen], hbuf⟩⟩
  exact (absorb_of_lt f (by simpa using hbs) _).symm

/-- Bytes copied from another block into the buffer, after what it holds, are held too. -/
theorem Rep.memcpy (h : Rep di f bits ctx m B t) (hbs : di.block_size < 2 ^ 31) {ptr : Ptr}
    {xs : List UInt8} (hc : m.Reads ptr xs) (hblk : ptr.blk ≠ ctx.data.blk) {k : Nat}
    (hk : t.length + k ≤ di.block_size) (hkc : k ≤ xs.length) :
    ∃ m', (memcpy (ctx.data.add t.length) ptr k).run m = some ((), m') ∧
      Rep di f bits { ctx with num := (t.length + k).toUInt32 } m' B (t ++ xs.take k) ∧
      ∀ q, q.blk ≠ ctx.data.blk → m'.load q = m.load q := by
  obtain ⟨rest, hlen, hr⟩ := h.buffer
  obtain ⟨ht, hrest⟩ := Mem.Reads.append_iff.mp hr
  obtain ⟨m', hrun, hcopy, hframe⟩ := memcpy_run hc hrest hblk k (by omega) hkc
  -- the bytes held before the copy, and the rest of the buffer after it, are untouched
  have ht' : m'.Reads ctx.data t := ht.congr fun i hi => hframe _ (.inr (.inl (by simp; omega)))
  have hsplit : rest = rest.take k ++ rest.drop k := (List.take_append_drop k rest).symm
  rw [hsplit, Mem.Reads.append_iff, List.length_take, Nat.min_eq_left (by omega), Ptr.add_add,
    ← Int.natCast_add] at hrest
  have hrest' : m'.Reads (ctx.data.add ↑(t.length + k)) (rest.drop k) :=
    hrest.2.congr fun i hi => hframe _ (.inr (.inr (by simp [Ptr.add_off]; omega)))
  have hck : (xs.take k).length = k := by
    rw [List.length_take, Nat.min_eq_left hkc]
  refine ⟨m', hrun, ⟨h.aligned, h.state, ?_, h.nbits, rest.drop k, ?_, ?_⟩, fun q hq => ?_⟩
  · simp only [List.length_append, hck]
    rw [UInt32.toNat_ofNat_of_lt' (by simp only [UInt32.size]; omega)]
  · simp only [List.length_append, hck, List.length_drop]
    omega
  · rw [List.append_assoc, Mem.Reads.append_iff, Mem.Reads.append_iff, Ptr.add_add, hck,
      ← Int.natCast_add]
    exact ⟨ht', hcopy, hrest'⟩
  · exact hframe q (.inl (by simpa using hq))

/-- `ccdigest_submit_block` over `n ≥ 1` blocks read at `data`: the state has fed them, `nbits`
counts their bits, and nothing else changes. -/
theorem ccdigest_submit_block_run (hf : CompressSpec di f) {data : Ptr} {x : List UInt8}
    {n : Nat} (hn : 0 < n) (hn' : n < 2 ^ 32)
    (hx : x.length = di.block_size * n) (hr : m.Reads data x) :
    ∃ ctx', (ccdigest_submit_block di ctx n data).run m = some (ctx', m) ∧
      ctx'.state = (blocks di.block_size n x).foldl f ctx.state ∧
      ctx'.nbits.toNat = (ctx.nbits.toNat + x.length * 8) % 2 ^ 64 ∧ ctx'.num = ctx.num ∧
      ctx'.data = ctx.data := by
  have hsize : toSize (n : Int) = n := toSize_natCast (by omega)
  have hload : (loadN data (n * di.block_size)).run m = some (x, m) := by
    rw [Nat.mul_comm, ← hx]
    exact loadN_run_of_reads hr
  have hrun : (ccdigest_submit_block di ctx n data).run m =
      some ({ ctx with
        state := di.compress ctx.state n x
        nbits := ctx.nbits + (toSize ((n * di.block_size * 8 : Nat) : Int)).toUInt64 }, m) := by
    rw [ccdigest_submit_block, StateT.run_bind, hsize, hload]
    rfl
  refine ⟨_, hrun, hf ctx.state n x hn hx, ?_, rfl, rfl⟩
  -- `nbits` grows by the bits of the blocks, modulo `2^64`
  have hbits : (toSize ((n * di.block_size * 8 : Nat) : Int)).toUInt64.toNat =
      n * di.block_size * 8 % 2 ^ 64 := by
    rw [toSize_natCast_mod]
    simp
  rw [UInt64.toNat_add, hbits, hx, Nat.mul_comm di.block_size n, Nat.add_mod_mod]

/-- Whole blocks read at `data`, fed to the state: the context has fed them after `B`. -/
theorem Rep.submit (h : Rep di f bits ctx m B t) (hf : CompressSpec di f) (hbs : 0 < di.block_size)
    {data : Ptr} {x : List UInt8} {n : Nat} (hn : 0 < n) (hn' : n < 2 ^ 32)
    (hx : x.length = di.block_size * n) (hr : m.Reads data x) :
    ∃ ctx', (ccdigest_submit_block di ctx n data).run m = some (ctx', m) ∧
      Rep di f bits ctx' m (B ++ x) t ∧ ctx'.data = ctx.data := by
  obtain ⟨ctx', hrun, hstate, hnbits, hnum, hdata⟩ := ccdigest_submit_block_run hf hn hn' hx hr
  refine ⟨ctx', hrun, ⟨?_, ?_, by rw [hnum]; exact h.num, ?_, by rw [hdata]; exact h.buffer⟩, hdata⟩
  · rw [List.length_append, hx, Nat.add_mul_mod_self_left]
    exact h.aligned
  · rw [hstate, h.state, ← absorb_eq_foldl f hbs hx, absorb_append f hbs h.aligned]
  · rw [hnbits, h.nbits, List.length_append]
    omega

/-- A context whose `num` is cleared holds nothing in its buffer. -/
theorem Rep.clear (h : Rep di f bits ctx m B t) : Rep di f bits { ctx with num := 0 } m B [] := by
  obtain ⟨rest, hlen, hr⟩ := h.buffer
  exact ⟨h.aligned, h.state, rfl, h.nbits, t ++ rest, by simp [hlen], hr⟩

/-- A full buffer reads the bytes it holds. -/
theorem Rep.reads_full (h : Rep di f bits ctx m B t) (ht : t.length = di.block_size) :
    m.Reads ctx.data t := by
  obtain ⟨rest, hlen, hr⟩ := h.buffer
  rw [List.eq_nil_of_length_eq_zero (by omega : rest.length = 0), List.append_nil] at hr
  exact hr

/-- A run that leaves a context holding `M`, then a run from there that leaves one holding `M'`:
together they leave one holding `M'`. -/
theorem Leaves.bind {x : DerM ccdigest_ctx} {g : ccdigest_ctx → DerM ccdigest_ctx}
    {M M' : List UInt8} (hx : Leaves di f bits x ctx m M)
    (hg : ∀ ctx₁ m₁, x.run m = some (ctx₁, m₁) → Holds di f bits ctx₁ m₁ M → ctx₁.data = ctx.data →
      (∀ q, q.blk ≠ ctx.data.blk → m₁.load q = m.load q) → Leaves di f bits (g ctx₁) ctx₁ m₁ M') :
    Leaves di f bits (x >>= g) ctx m M' := by
  obtain ⟨ctx₁, m₁, h₁, hH₁, hd₁, hf₁⟩ := hx
  obtain ⟨ctx', m', h', hH', hd', hf'⟩ := hg ctx₁ m₁ h₁ hH₁ hd₁ hf₁
  refine ⟨ctx', m', ?_, hH', hd'.trans hd₁, fun q hq => ?_⟩
  · rw [StateT.run_bind, h₁]
    exact h'
  · rw [hf' q (by rwa [hd₁]), hf₁ q hq]

end Stream

/-! ## The loop -/

section Loop

variable {di : ccdigest_info} {f : List UInt8 → List UInt8 → List UInt8} {bits : Nat}
  {ctx : ccdigest_ctx} {m : Mem UInt8} {B t xs : List UInt8} {ptr : Ptr}

/-- Less than a block of input, into an empty buffer: one pass puts it there. -/
theorem ccdigest_update_loop_short (hbs' : di.block_size < 2 ^ 31) (h : Rep di f bits ctx m B [])
    (hr : m.Reads ptr xs) (hblk : ptr.blk ≠ ctx.data.blk) (hlt : xs.length < di.block_size)
    (fuel : Nat) (hfuel : 0 < fuel) :
    Leaves di f bits (ccdigest_update_loop di fuel ctx xs.length ptr) ctx m (B ++ xs) := by
  rcases Nat.eq_zero_or_pos xs.length with h0 | h0
  · -- nothing to hash
    rw [h0, ccdigest_update_loop_zero hfuel, List.eq_nil_of_length_eq_zero h0]
    exact (h.holds (Nat.lt_of_le_of_lt (Nat.zero_le _) hlt)).leaves
  obtain ⟨fuel, rfl⟩ : ∃ k, fuel = k + 1 := ⟨fuel - 1, by omega⟩
  rw [ccdigest_update_loop_tail h.num h0 hlt]
  obtain ⟨m', hrun, hR, hframe⟩ := h.memcpy hbs' hr hblk (k := xs.length) (by simpa using hlt.le) le_rfl
  simp only [List.length_nil, Nat.cast_zero, Ptr.add_zero, Nat.zero_add, List.nil_append,
    List.take_length] at hrun hR
  refine ⟨_, m', ?_, hR.holds hlt, rfl, hframe⟩
  rw [StateT.run_bind, hrun]
  rfl

/-- Input into an empty buffer: its whole blocks are compressed where they are, and the rest is
put into the buffer. -/
theorem ccdigest_update_loop_aligned (hf : CompressSpec di f) (hbs : 0 < di.block_size)
    (hbs' : di.block_size < 2 ^ 31) (h : Rep di f bits ctx m B []) (hr : m.Reads ptr xs)
    (hlen : xs.length < 2 ^ 31) (hblk : ptr.blk ≠ ctx.data.blk) (fuel : Nat) (hfuel : 0 < fuel)
    (hfuel' : di.block_size ≤ xs.length → 1 < fuel) :
    Leaves di f bits (ccdigest_update_loop di fuel ctx xs.length ptr) ctx m (B ++ xs) := by
  rcases Nat.lt_or_ge xs.length di.block_size with hlt | hge
  · exact ccdigest_update_loop_short hbs' h hr hblk hlt fuel hfuel
  have hfuel₂ := hfuel' hge
  obtain ⟨fuel, rfl⟩ : ∃ k, fuel = k + 1 := ⟨fuel - 1, by omega⟩
  rw [ccdigest_update_loop_whole h.num hbs hge hlen]
  -- the whole blocks, read where they are, and the rest after them
  have hdm := Nat.div_add_mod' xs.length di.block_size
  have hn : 0 < xs.length / di.block_size := Nat.div_pos hge hbs
  have hsplit : m.Reads ptr (xs.take (xs.length / di.block_size * di.block_size) ++
      xs.drop (xs.length / di.block_size * di.block_size)) := by
    rwa [List.take_append_drop]
  obtain ⟨hr₁, hr₂⟩ := Mem.Reads.append_iff.mp hsplit
  have htake : (xs.take (xs.length / di.block_size * di.block_size)).length =
      xs.length / di.block_size * di.block_size := by
    rw [List.length_take, Nat.min_eq_left (by omega)]
  have hdrop : (xs.drop (xs.length / di.block_size * di.block_size)).length =
      xs.length % di.block_size := by
    rw [List.length_drop]
    omega
  rw [htake] at hr₂
  obtain ⟨ctx₁, hrun₁, hR₁, hd₁⟩ :=
    h.submit hf hbs hn (by have := Nat.div_le_self xs.length di.block_size; omega)
      (by rw [htake, Nat.mul_comm]) hr₁
  obtain ⟨ctx', m', hrun', hH', hd', hf'⟩ := ccdigest_update_loop_short hbs' hR₁ hr₂
    (by rwa [hd₁]) (by rw [hdrop]; exact Nat.mod_lt _ hbs) fuel (by omega)
  rw [hdrop] at hrun'
  refine ⟨ctx', m', ?_, ?_, hd'.trans hd₁, fun q hq => hf' q (by rwa [hd₁])⟩
  · rw [StateT.run_bind, hrun₁]
    exact hrun'
  · rwa [List.append_assoc, List.take_append_drop] at hH'

/-- `ccdigest_update` of an input shorter than `2^31` bytes, read in a block other than the
buffer's, into a context that has fed `B` and holds `t`: the context ends holding `B ++ t` and
the input after them. A full buffer, as `ccdigest_final_64` can leave it, needs two bytes of
input or more: the first pass compresses it and takes no byte. -/
theorem ccdigest_update_rep (hf : CompressSpec di f) (hbs : 0 < di.block_size)
    (hbs' : di.block_size < 2 ^ 31) (h : Rep di f bits ctx m B t)
    (hfull : t.length = di.block_size → 2 ≤ xs.length) (hr : m.Reads ptr xs)
    (hlen : xs.length < 2 ^ 31) (hblk : ptr.blk ≠ ctx.data.blk) :
    Leaves di f bits (ccdigest_update di ctx xs.length ptr) ctx m (B ++ t ++ xs) := by
  unfold ccdigest_update
  have hle := h.length_le
  have hnum := h.num
  rcases Nat.eq_zero_or_pos t.length with ht0 | ht0
  · -- an empty buffer
    obtain rfl := List.eq_nil_of_length_eq_zero ht0
    rw [List.append_nil]
    exact ccdigest_update_loop_aligned hf hbs hbs' h hr hlen hblk (xs.length + 1) (by omega)
      (fun hge => by omega)
  rcases Nat.eq_zero_or_pos xs.length with hx0 | hx0
  · -- no input
    have ht : t.length < di.block_size := by
      rcases Nat.lt_or_ge t.length di.block_size with hlt | hge
      · exact hlt
      · have := hfull (by omega)
        omega
    rw [hx0, ccdigest_update_loop_zero (by omega), List.eq_nil_of_length_eq_zero hx0,
      List.append_nil]
    exact (h.holds ht).leaves
  rcases Nat.lt_or_ge (t.length + xs.length) di.block_size with hlt | hge
  · -- the input joins the bytes held, and the next pass ends the loop
    rw [ccdigest_update_loop_append (by omega) (by omega) hx0 hbs', hnum]
    obtain ⟨m₁, hrun₁, hR₁, hframe₁⟩ := h.memcpy hbs' hr hblk (k := xs.length) (by omega) le_rfl
    rw [List.take_length] at hR₁
    refine ⟨{ ctx with num := (t.length + xs.length).toUInt32 }, m₁, ?_, ?_, rfl, hframe₁⟩
    · rw [StateT.run_bind, hrun₁]
      simp only [ccdigest_update_loop_zero hx0]
      rfl
    · rw [List.append_assoc]
      exact hR₁.holds (by rw [List.length_append]; exact hlt)
  · -- the buffer is filled and compressed, and the rest goes on from an empty buffer
    rw [ccdigest_update_loop_fill hbs' (by omega) (by omega) (by omega) hx0 hlen, hnum]
    obtain ⟨m₁, hrun₁, hR₁, hframe₁⟩ :=
      h.memcpy hbs' hr hblk (k := di.block_size - t.length) (by omega) (by omega)
    have hfill : t.length + (di.block_size - t.length) = di.block_size := by omega
    rw [hfill] at hR₁
    have hblock : (t ++ xs.take (di.block_size - t.length)).length = di.block_size * 1 := by
      rw [List.length_append, List.length_take, Nat.min_eq_left (by omega), Nat.mul_one]
      exact hfill
    obtain ⟨ctx₂, hrun₂, hR₂, hd₂⟩ :=
      hR₁.submit hf hbs Nat.one_pos (by omega) hblock (hR₁.reads_full (by omega))
    -- the rest of the input, untouched by the copy
    have hsplit : m₁.Reads ptr (xs.take (di.block_size - t.length) ++
        xs.drop (di.block_size - t.length)) := by
      rw [List.take_append_drop]
      exact hr.congr fun i _ => hframe₁ _ (by simpa using hblk)
    obtain ⟨-, hr₂⟩ := Mem.Reads.append_iff.mp hsplit
    rw [List.length_take, Nat.min_eq_left (by omega)] at hr₂
    have hrest : (xs.drop (di.block_size - t.length)).length = xs.length - (di.block_size - t.length) :=
      List.length_drop
    -- two passes may be left: the rest is a block or more only if the input was two bytes or more
    have hfuel : di.block_size ≤ xs.length - (di.block_size - t.length) → 1 < xs.length := by
      intro hge'
      rcases Nat.lt_or_ge t.length di.block_size with hlt' | hge''
      · omega
      · exact hfull (by omega)
    obtain ⟨ctx', m', hrun', hH', hd', hf'⟩ := ccdigest_update_loop_aligned hf hbs hbs' hR₂.clear
      hr₂ (by rw [hrest]; omega) (by simpa [hd₂] using hblk) xs.length hx0
      (by rw [hrest]; exact hfuel)
    rw [hrest] at hrun'
    refine ⟨ctx', m', ?_, ?_, hd'.trans hd₂, fun q hq => ?_⟩
    · rw [Nat.cast_one] at hrun₂
      simp only [StateT.run_bind, hrun₁, Option.bind_eq_bind, Option.bind_some, hrun₂]
      exact hrun'
    · rw [List.append_assoc]
      rwa [List.append_assoc B, List.append_assoc t, List.take_append_drop] at hH'
    · rw [hf' q (by rwa [hd₂]), hframe₁ q hq]

/-- **`ccdigest_update` streams.** An update of fewer than `2^31` bytes, read in a block other
than the buffer's, into a context that has hashed `M`, returns and leaves it holding `M` and the
input after it; only the buffer's block is written. An empty input can be anywhere. -/
theorem ccdigest_update_holds (hf : CompressSpec di f) (hbs : 0 < di.block_size)
    (hbs' : di.block_size < 2 ^ 31) {M : List UInt8} (h : Holds di f bits ctx m M)
    (hr : m.Reads ptr xs) (hlen : xs.length < 2 ^ 31) (hblk : xs ≠ [] → ptr.blk ≠ ctx.data.blk) :
    Leaves di f bits (ccdigest_update di ctx xs.length ptr) ctx m (M ++ xs) := by
  rcases eq_or_ne xs [] with rfl | hne
  · -- no input: the loop stops at once
    rw [List.length_nil, List.append_nil, ccdigest_update, ccdigest_update_loop_zero (by omega)]
    exact h.leaves
  obtain ⟨B, t, rfl, ht, hR⟩ := h
  exact ccdigest_update_rep hf hbs hbs' hR (fun h => absurd h (Nat.ne_of_lt ht)) hr hlen (hblk hne)

/-- **Updates stream.** Updates one after another into a context that has hashed `M`, each input
shorter than `2^31` bytes and read in a block other than the buffer's: they return, and leave the
context holding `M` and every input after it, in order. With `Holds.spec`, a message cut into
updates anywhere leaves the context as one update of the whole message does. -/
theorem ccdigest_update_chunks (hf : CompressSpec di f) (hbs : 0 < di.block_size)
    (hbs' : di.block_size < 2 ^ 31) :
    ∀ (chunks : List (Ptr × List UInt8)) (ctx : ccdigest_ctx) (m : Mem UInt8) (M : List UInt8),
      Holds di f bits ctx m M →
      (∀ p ∈ chunks, m.Reads p.1 p.2 ∧ p.2.length < 2 ^ 31 ∧ p.1.blk ≠ ctx.data.blk) →
      Leaves di f bits (chunks.foldlM (fun c p => ccdigest_update di c p.2.length p.1) ctx) ctx m
        (M ++ (chunks.map Prod.snd).flatten)
  | [], ctx, m, M, h, _ => by simpa using h.leaves
  | (p, xs) :: chunks, ctx, m, M, h, hc => by
    rw [List.foldlM_cons]
    obtain ⟨hr, hlen, hblk⟩ := hc (p, xs) List.mem_cons_self
    refine (ccdigest_update_holds hf hbs hbs' h hr hlen fun _ => hblk).bind
      fun ctx₁ m₁ _ hH₁ hd₁ hf₁ => ?_
    -- the later inputs lie outside the buffer's block, which is where it was
    have hc₁ : ∀ q ∈ chunks, m₁.Reads q.1 q.2 ∧ q.2.length < 2 ^ 31 ∧ q.1.blk ≠ ctx₁.data.blk := by
      intro q hq
      obtain ⟨hrq, hlq, hbq⟩ := hc q (List.mem_cons_of_mem _ hq)
      exact ⟨hrq.congr fun i _ => hf₁ _ (by simpa using hbq), hlq, by rwa [hd₁]⟩
    have := ccdigest_update_chunks hf hbs hbs' chunks ctx₁ m₁ (M ++ xs) hH₁ hc₁
    simpa only [List.map_cons, List.flatten_cons, List.append_assoc] using this

/-- `"abc"` hashed by two updates, `"a"` then `"bc"`, into a fresh SHA-256 context whose buffer
is block 1: the context holds `"abc"`. -/
theorem sha256_update_a_bc :
    Leaves ccsha256_di sha256_block 0
      ([((⟨0, 0⟩ : Ptr), [(0x61 : UInt8)]), (⟨0, 1⟩, [0x62, 0x63])].foldlM
        (fun c p => ccdigest_update ccsha256_di c p.2.length p.1)
        (ccdigest_init ccsha256_di ⟨0, [], ⟨1, 0⟩, 0⟩))
      (ccdigest_init ccsha256_di ⟨0, [], ⟨1, 0⟩, 0⟩)
      [[0x61, 0x62, 0x63], List.replicate 64 0] [0x61, 0x62, 0x63] := by
  have hM : Mem.Reads ([[0x61, 0x62, 0x63], List.replicate 64 0] : Mem UInt8) ⟨0, 0⟩
      [0x61, 0x62, 0x63] :=
    (Mem.reads_append_self [] _).append_block _
  refine ccdigest_update_chunks ccsha256_compress_spec (by decide) (by decide) _ _ _ []
    (ccdigest_init_holds (by decide) (Mem.reads_append_self [[0x61, 0x62, 0x63]] _) rfl) ?_
  intro p hp
  simp only [List.mem_cons, List.mem_nil_iff, or_false] at hp
  rcases hp with rfl | rfl
  · exact ⟨hM.sub (i := 0) (k := 1) (by decide), by decide, by decide⟩
  · exact ⟨hM.sub (i := 1) (k := 2) (by decide), by decide, by decide⟩

end Loop

end Corecrypto.Digest
