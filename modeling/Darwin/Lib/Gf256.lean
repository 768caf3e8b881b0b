import Mathlib.Data.List.Basic

/-!
# The field of 256 elements on bytes

Bytes as polynomials over GF(2) of degree below 8, reduced by `x^8 + x^4 + x^3 + x + 1`, the field
of FIPS-197 §4: addition is `^^^`, `xtime` multiplies by `x` (§4.2.1), and `mul` is the product,
the `xtime` multiples of its first argument for the set bits of its second (§4.2). `inv` is the
multiplicative inverse `b^254`.

The lemma that matters is linearity: `mul (a ^^^ b) c = mul a c ^^^ mul b c` (`mul_xor`), from
`xtime_xor`. Facts about single bytes (that a table is a product, that two products compose to
another) are checked over all 256 bytes by evaluation, `allBytes p = true`, and brought back as
`∀ b, p b` by `allBytes_spec`. A byte is the sum of its bits, so an additive map is fixed by
its values on the eight one-bit bytes (`Additive.ext`): a fact about a sum of products of one byte
is checked on those eight.

The kernel evaluates `Nat` arithmetic far faster than byte arithmetic, so `mul` and `inv` have
mirrors on byte values (`mulNat`, `invNat`, with `mul_toNat`, `inv_toNat`): a check that computes
inverses of all 256 bytes is stated and evaluated on them.
-/

namespace Gf256

/-- Multiplication by `x`: a left shift, reduced by `0x1b` when bit 7 falls out. -/
def xtime (b : UInt8) : UInt8 := (b <<< 1) ^^^ (if b &&& 0x80 = 0 then 0 else 0x1b)

/-- `p` plus `a` times the low `n` bits of `b`, each pass one bit of `b` and one `xtime` of `a`. -/
def mulAux : Nat → UInt8 → UInt8 → UInt8 → UInt8
  | 0, _, _, p => p
  | n + 1, a, b, p => mulAux n (xtime a) (b >>> 1) (if b &&& 1 = 0 then p else p ^^^ a)

/-- The product of `a` and `b`. -/
def mul (a b : UInt8) : UInt8 := mulAux 8 a b 0

/-- The inverse `b^254 = b^2 · b^4 ⋯ b^128`, and `0` for `0`: seven squarings, each multiplied
in. -/
def inv (b : UInt8) : UInt8 :=
  ((List.range 7).foldl (fun (acc, sq) _ => (mul acc (mul sq sq), mul sq sq)) (1, b)).1

/-- `p` holds of every byte, by evaluation. -/
def allBytes (p : UInt8 → Bool) : Bool := (List.range 256).all fun n => p n.toUInt8

theorem allBytes_spec {p : UInt8 → Bool} (h : allBytes p = true) (b : UInt8) : p b = true := by
  have hb : b.toNat < 256 := b.toNat_lt
  have hall := List.all_eq_true.mp h b.toNat (List.mem_range.mpr hb)
  simpa [UInt8.ofNat_toNat] using hall

/-- The facts about the bits of a byte used below, on all 256 bytes: bit 7 is clear or set, a
byte is the sum of its bits, and each bit is clear or set. One evaluation. -/
theorem bit_checks :
    allBytes (fun b => (b &&& 0x80 == 0 || b &&& 0x80 == 0x80) &&
      b == (b &&& 1) ^^^ (b &&& 2) ^^^ (b &&& 4) ^^^ (b &&& 8) ^^^ (b &&& 16) ^^^ (b &&& 32) ^^^
        (b &&& 64) ^^^ (b &&& 128) &&
      [1, 2, 4, 8, 16, 32, 64, 128].all fun c => b &&& c == 0 || b &&& c == c) = true := by
  decide +kernel

/-! ## Linearity -/

/-- Bit 7 of a byte is clear or set. -/
theorem and_0x80_cases (b : UInt8) : b &&& 0x80 = 0 ∨ b &&& 0x80 = 0x80 := by
  have h := allBytes_spec bit_checks b
  simp only [Bool.and_eq_true] at h
  simpa using h.1.1

/-- The reduction mask of `xtime` is additive. -/
theorem xtime_mask_xor (a b : UInt8) :
    (if (a ^^^ b) &&& 0x80 = 0 then (0 : UInt8) else 0x1b) =
      (if a &&& 0x80 = 0 then 0 else 0x1b) ^^^ (if b &&& 0x80 = 0 then 0 else 0x1b) := by
  have hm : (a ^^^ b) &&& 0x80 = (a &&& 0x80) ^^^ (b &&& 0x80) := by
    apply UInt8.toBitVec_inj.mp
    ext i
    simp [Bool.and_xor_distrib_right]
  rw [hm]
  rcases and_0x80_cases a with ha | ha <;> rcases and_0x80_cases b with hb | hb <;>
    rw [ha, hb] <;> decide

theorem xtime_xor (a b : UInt8) : xtime (a ^^^ b) = xtime a ^^^ xtime b := by
  have hs : (a ^^^ b) <<< 1 = (a <<< 1) ^^^ (b <<< 1) := by
    apply UInt8.toBitVec_inj.mp
    simp [BitVec.shiftLeft_xor_distrib]
  unfold xtime
  rw [hs, xtime_mask_xor]
  ac_rfl

/-- The loop of `mul` is additive in the multiplicand and the accumulator together. -/
theorem mulAux_xor (n : Nat) (a a' b p p' : UInt8) :
    mulAux n (a ^^^ a') b (p ^^^ p') = mulAux n a b p ^^^ mulAux n a' b p' := by
  induction n generalizing a a' b p p' with
  | zero => rfl
  | succ n ih =>
    simp only [mulAux, xtime_xor]
    by_cases hb : b &&& 1 = 0
    · simp only [hb, if_true]
      exact ih _ _ _ _ _
    · simp only [hb, if_false]
      rw [← ih]
      congr 1
      ac_rfl

theorem mul_xor (a a' b : UInt8) : mul (a ^^^ a') b = mul a b ^^^ mul a' b := by
  unfold mul
  rw [← mulAux_xor, UInt8.xor_self]

/-! ## Additive maps -/

/-- `f` is additive: linear over GF(2). -/
def Additive (f : UInt8 → UInt8) : Prop := ∀ a b, f (a ^^^ b) = f a ^^^ f b

theorem additive_id : Additive id := fun _ _ => rfl

theorem additive_zero : Additive fun _ => 0 := fun _ _ => by rw [UInt8.xor_self]

/-- The bytes of one bit. -/
def unitBytes : List UInt8 := [1, 2, 4, 8, 16, 32, 64, 128]

theorem Additive.map_zero {f : UInt8 → UInt8} (hf : Additive f) : f 0 = 0 := by
  have h := hf 0 0
  simp only [UInt8.xor_self] at h
  exact h

/-- A byte is the sum of its bits. -/
theorem xor_unitBytes (b : UInt8) :
    b = (b &&& 1) ^^^ (b &&& 2) ^^^ (b &&& 4) ^^^ (b &&& 8) ^^^ (b &&& 16) ^^^ (b &&& 32) ^^^
      (b &&& 64) ^^^ (b &&& 128) := by
  have h := allBytes_spec bit_checks b
  simp only [Bool.and_eq_true] at h
  simpa using h.1.2

theorem and_unitByte_cases (b : UInt8) {c : UInt8} (hc : c ∈ unitBytes) :
    b &&& c = 0 ∨ b &&& c = c := by
  have h := allBytes_spec bit_checks b
  simp only [Bool.and_eq_true] at h
  simpa using List.all_eq_true.mp h.2 c hc

/-- Two additive maps that agree on the one-bit bytes agree. -/
theorem Additive.ext {f g : UInt8 → UInt8} (hf : Additive f) (hg : Additive g)
    (h : ∀ c ∈ unitBytes, f c = g c) (b : UInt8) : f b = g b := by
  have hbit : ∀ c ∈ unitBytes, f (b &&& c) = g (b &&& c) := by
    intro c hc
    rcases and_unitByte_cases b hc with h0 | h1
    · rw [h0, hf.map_zero, hg.map_zero]
    · rw [h1]
      exact h c hc
  simp only [unitBytes, List.forall_mem_cons, List.not_mem_nil, IsEmpty.forall_iff,
    implies_true, and_true] at hbit
  obtain ⟨h1, h2, h4, h8, h16, h32, h64, h128⟩ := hbit
  have hf' : ∀ a b, f (a ^^^ b) = f a ^^^ f b := hf
  have hg' : ∀ a b, g (a ^^^ b) = g a ^^^ g b := hg
  rw [xor_unitBytes b]
  simp only [hf', hg']
  rw [h1, h2, h4, h8, h16, h32, h64, h128]

/-! ## Evaluation on byte values -/

/-- `xtime` on the value of a byte. -/
def xtimeNat (b : Nat) : Nat := if b < 128 then 2 * b else (2 * b - 256) ^^^ 0x1b

def mulAuxNat : Nat → Nat → Nat → Nat → Nat
  | 0, _, _, p => p
  | n + 1, a, b, p => mulAuxNat n (xtimeNat a) (b / 2) (if b % 2 = 0 then p else p ^^^ a)

def mulNat (a b : Nat) : Nat := mulAuxNat 8 a b 0

def invNat (b : Nat) : Nat :=
  ((List.range 7).foldl (fun (acc, sq) _ => (mulNat acc (mulNat sq sq), mulNat sq sq)) (1, b)).1

/-- `xtime` agrees with its mirror on every byte, and the inverse is an involution on byte
values. One evaluation. -/
theorem value_checks :
    allBytes (fun b => (xtime b).toNat == xtimeNat b.toNat) = true ∧
      (List.range 256).all (fun n => invNat (invNat n) == n) = true := by
  decide +kernel

theorem xtime_toNat (b : UInt8) : (xtime b).toNat = xtimeNat b.toNat := by
  have h := allBytes_spec value_checks.1 b
  simpa using h

theorem mulAux_toNat (n : Nat) (a b p : UInt8) :
    (mulAux n a b p).toNat = mulAuxNat n a.toNat b.toNat p.toNat := by
  induction n generalizing a b p with
  | zero => rfl
  | succ n ih =>
    have hb : (b >>> 1).toNat = b.toNat / 2 := by
      simp [UInt8.toNat_shiftRight, Nat.shiftRight_eq_div_pow]
    have hbit : (b &&& 1 = 0) ↔ b.toNat % 2 = 0 := by
      rw [← UInt8.toNat_inj]
      simp [UInt8.toNat_and, Nat.and_one_is_mod]
    rw [mulAux, mulAuxNat, ih, xtime_toNat, hb]
    -- the accumulator: the same bit is tested on both sides
    by_cases h0 : b &&& 1 = 0
    · rw [if_pos h0, if_pos (hbit.mp h0)]
    · rw [if_neg h0, if_neg (mt hbit.mpr h0), UInt8.toNat_xor]

theorem mul_toNat (a b : UInt8) : (mul a b).toNat = mulNat a.toNat b.toNat :=
  mulAux_toNat 8 a b 0

theorem inv_toNat (b : UInt8) : (inv b).toNat = invNat b.toNat := by
  -- the pair of accumulator and square, pass after pass
  have hstep : ∀ (l : List Nat) (x : UInt8 × UInt8),
      Prod.map UInt8.toNat UInt8.toNat
          (l.foldl (fun (acc, sq) _ => (mul acc (mul sq sq), mul sq sq)) x) =
        l.foldl (fun (acc, sq) _ => (mulNat acc (mulNat sq sq), mulNat sq sq))
          (Prod.map UInt8.toNat UInt8.toNat x) := by
    intro l
    induction l with
    | nil => intro x; rfl
    | cons i l ih =>
      intro x
      rw [List.foldl_cons, List.foldl_cons, ih]
      simp [mul_toNat]
  exact congrArg Prod.fst (hstep (List.range 7) (1, b))

theorem inv_eq_invNat (b : UInt8) : inv b = (invNat b.toNat).toUInt8 := by
  rw [← inv_toNat]
  exact (UInt8.ofNat_toNat).symm

/-- The inverse is an involution, checked on byte values. -/
theorem inv_inv (b : UInt8) : inv (inv b) = b := by
  have h := List.all_eq_true.mp value_checks.2 b.toNat (List.mem_range.mpr b.toNat_lt)
  apply UInt8.toNat_inj.mp
  rw [inv_toNat, inv_toNat]
  simpa using h

end Gf256
