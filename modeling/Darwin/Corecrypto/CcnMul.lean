import Darwin.Corecrypto.Ccn

/-!
# corecrypto `ccn_mul`: Karatsuba over `cc_unit`s (`corecrypto/src/ccn.c:214-398`)

| here | there |
| --- | --- |
| `CC_HI_BITS`, `CC_LO_BITS`, `CC_COMBINE` | the macros at `:214-216` |
| `ccn_mul_base` | the one-unit case, a 64 x 64 → 128-bit product from 32-bit halves (`:252-275`) |
| `ccn_mul_shift_loop` | the unit shifts of `t0` and `t1` (`:371-389`) |
| `ccn_mul_fuel`, `ccn_mul` | `ccn_mul` (`:218`) |

`ccn_mul` splits at half of the larger number of used units (`ccn_n`), which it reads from
memory, so its recursion is not on an argument and is given fuel. The measure
`n + [s]_n + [t]_n` falls at each of its three calls; `ccn_mul` gives it more fuel than that
measure can be at the start.
-/

namespace Corecrypto.Ccn

open Blocks

/-- `CC_HI_BITS`: the upper 32 bits. -/
def CC_HI_BITS (x : UInt64) : UInt64 := x >>> 32

/-- `CC_LO_BITS`: the lower 32 bits. -/
def CC_LO_BITS (x : UInt64) : UInt64 := x &&& ((0xFFFFFFFFFFFFFFFF : UInt64) >>> 32)

/-- `CC_COMBINE`: `hi` above the lower 32 bits of `lo`. -/
def CC_COMBINE (lo hi : UInt64) : UInt64 := (hi <<< 32) ||| lo

/-- The one-unit case (`:252`): `r_2n[0]` and `r_2n[1]` of `s[0] · t[0]`, from four products of
32-bit halves. -/
def ccn_mul_base (s0 t0 : UInt64) : UInt64 × UInt64 :=
  let s_hi := CC_HI_BITS s0
  let s_lo := CC_LO_BITS s0
  let t_hi := CC_HI_BITS t0
  let t_lo := CC_LO_BITS t0
  let x := s_lo * t_lo
  let prod_0 := CC_LO_BITS x
  let x := s_hi * t_lo + CC_HI_BITS x
  let prod_1 := CC_LO_BITS x
  let prod_2 := CC_HI_BITS x
  let x := prod_1 + s_lo * t_hi
  let prod_1 := CC_LO_BITS x
  let x := prod_2 + s_hi * t_hi + CC_HI_BITS x
  (CC_COMBINE prod_0 prod_1, x)

/-- The unit shifts of `t0` and `t1` (`:371`, `:384`): for `i` from `count` down to `1`, unit
`i - 1` moves up by `shift` units when its target is below `result_n` (`tgt < t0_end`). -/
def ccn_mul_shift_loop (t : Ptr) (shift result_n : Nat) : Nat → CcnM Unit
  | 0 => pure ()
  | i + 1 => do
    if shift + i < result_n then
      let v ← load t i
      store t (shift + i) v
    ccn_mul_shift_loop t shift result_n i

/-- `ccn_mul` (`:218`) with `fuel` calls left. The `alloca`d temporaries are cleared by the
source's `memset`s, so they are allocated as zeros. -/
def ccn_mul_fuel : Nat → Nat → Ptr → Ptr → Ptr → CcnM Unit
  | 0, _, _, _, _ => ub
  | fuel + 1, n, r_2n, s, t => do
    let s_n ← ccn_n n s
    let t_n ← ccn_n n t
    ccn_zero (n * 2) r_2n
    if s_n < 2 && t_n < 2 then
      let s0 ← load s 0
      let t0 ← load t 0
      let r := ccn_mul_base s0 t0
      store r_2n 0 r.1
      store r_2n 1 r.2
    else
      let max_n := if s_n > t_n then s_n else t_n
      let half_n := (max_n + 1) / 2
      let result_n := max_n * 2
      let intermediate_mul_n := half_n * 2 + 2
      let s_hi ← alloca (List.replicate half_n 0)
      let s_lo ← alloca (List.replicate (half_n + 1) 0)
      let t_hi ← alloca (List.replicate half_n 0)
      let t_lo ← alloca (List.replicate (half_n + 1) 0)
      memcpy s_lo s half_n
      memcpy s_hi (s.add half_n) (max_n - half_n)
      memcpy t_lo t half_n
      memcpy t_hi (t.add half_n) (max_n - half_n)
      let z0 ← alloca (List.replicate intermediate_mul_n 0)
      let z1 ← alloca (List.replicate intermediate_mul_n 0)
      let z2 ← alloca (List.replicate intermediate_mul_n 0)
      ccn_mul_fuel fuel half_n z0 s_lo t_lo
      ccn_mul_fuel fuel half_n z1 s_hi t_hi
      -- `lo + hi` in place, the carry in the extra unit of the `lo`s
      let s_carry ← ccn_add half_n s_lo s_lo s_hi
      let t_carry ← ccn_add half_n t_lo t_lo t_hi
      store s_lo half_n s_carry
      store t_lo half_n t_carry
      ccn_mul_fuel fuel (half_n + 1) z2 s_lo t_lo
      let t0 ← alloca (List.replicate result_n 0)
      let t1 ← alloca (List.replicate result_n 0)
      let _ ← ccn_sub intermediate_mul_n z2 z2 z1
      let _ ← ccn_sub intermediate_mul_n z2 z2 z0
      ccn_set intermediate_mul_n t0 z2
      ccn_set intermediate_mul_n t1 z1
      ccn_mul_shift_loop t0 half_n result_n intermediate_mul_n
      ccn_zero half_n t0
      ccn_mul_shift_loop t1 (half_n * 2) result_n intermediate_mul_n
      ccn_zero (half_n * 2) t1
      ccn_set intermediate_mul_n r_2n z0
      let _ ← ccn_add result_n r_2n r_2n t0
      let _ ← ccn_add result_n r_2n r_2n t1

/-- `ccn_mul` (`:218`), with more fuel than `n + [s]_n + [t]_n` can be. -/
def ccn_mul (n : Nat) (r_2n s t : Ptr) : CcnM Unit :=
  ccn_mul_fuel (n + 2 * 2 ^ (CCN_UNIT_BITS * n) + 1) n r_2n s t

/-! ## A run keeps every block -/

section Keeps

open Prog (Keeps)

theorem ccn_mul_shift_loop_keeps (t : Ptr) (shift result_n i : Nat) :
    Keeps (ccn_mul_shift_loop t shift result_n i) := by
  induction i with
  | zero => exact Keeps.pure _
  | succ i ih =>
    rw [ccn_mul_shift_loop]
    dsimp only
    refine Keeps.ite ?_ ih
    exact Keeps.bind (Keeps.load t i) fun v => Keeps.bind (Keeps.store t _ v) fun _ => ih

theorem ccn_mul_fuel_keeps (fuel n : Nat) (r_2n s t : Ptr) :
    Keeps (ccn_mul_fuel fuel n r_2n s t) := by
  induction fuel generalizing n r_2n s t with
  | zero => exact ub_keeps
  | succ fuel ih =>
    rw [ccn_mul_fuel]
    -- every step is a primitive, a callee with its own lemma, or a recursive call
    repeat' first
      | exact Keeps.pure _
      | exact Keeps.load _ _
      | exact Keeps.store _ _ _
      | exact Keeps.alloca _
      | exact ccn_n_keeps _ _
      | exact ccn_zero_keeps _ _
      | exact memcpy_keeps _ _ _
      | exact ccn_add_keeps _ _ _ _
      | exact ccn_sub_keeps _ _ _ _
      | exact ccn_set_keeps _ _ _
      | exact ccn_mul_shift_loop_keeps _ _ _ _
      | exact ih _ _ _ _
      | refine Keeps.bind ?_ fun _ => ?_
      | refine Keeps.ite ?_ ?_

theorem ccn_mul_keeps (n : Nat) (r_2n s t : Ptr) : Keeps (ccn_mul n r_2n s t) :=
  ccn_mul_fuel_keeps _ n r_2n s t

end Keeps

end Corecrypto.Ccn
