import Darwin.Lib.Blocks
import Mathlib.Data.Nat.Digits.Defs

/-!
# corecrypto `ccn`: the unit-array primitives (`corecrypto/src/ccn.c`)

A `ccn` of `n` units is `n` little-endian `cc_unit`s (`uint64_t`) in memory; its value is
`[s]_n = Σ s[i] · 2^(64 i)` (`value`). The functions are modelled over a memory of unit blocks
(`Blocks.Prog UInt64`), one statement after another, so that an output may be an input as well
(`r = s`), and a pointer may point into the middle of a buffer (`r + nt` in `ccn_addn`).
A read or a write outside a buffer, a shift by 64 bits or more and `__builtin_clzl (0)` are
undefined behaviour in C and have no result here.

What the code computes differs from the contracts of `ccn.h` in places:

* `ccn_n` (`:7`) starts `last` at `0` and returns `last + 1`, so a zero array has one used unit.
  `ccn_is_zero` is `!ccn_n`, never true for `n ≥ 1`, and `ccn_bitlen` of zero is `1`
  (`ccn_is_zero_misses_zero`).
* `ccn_shift_left` and `ccn_shift_right` (`:23`, `:57`) shift the carry by `64 - k`, a shift by
  64 when `k = 0`.
* `ccn_sub1` (`:160`) adds `-v` to the lowest unit with `ccn_add1`: for `n ≥ 2` this is
  `[s] + 2^64 - v`, not `[s] - v` (`ccn_sub1_carries_into_high_unit`).

`ccn_add`, `ccn_add1`, `ccn_cmp` and `ccn_sub` compute what their contracts say.
-/

namespace Corecrypto.Ccn

open Blocks

/-- The programs over the unit memory. -/
abbrev CcnM := Prog UInt64

/-- `CCN_UNIT_BITS`. -/
def CCN_UNIT_BITS : Nat := 64

/-- `[s]`: the value of the little-endian units `s`. -/
def value (s : List UInt64) : Nat := Nat.ofDigits (2 ^ 64) (s.map UInt64.toNat)

/-- `x >> k` on a `cc_unit`; undefined for `k ≥ 64`. -/
def shr (x : UInt64) (k : Nat) : Option UInt64 :=
  if k < CCN_UNIT_BITS then some (x >>> k.toUInt64) else none

/-- `x << k` on a `cc_unit`; undefined for `k ≥ 64`. -/
def shl (x : UInt64) (k : Nat) : Option UInt64 :=
  if k < CCN_UNIT_BITS then some (x <<< k.toUInt64) else none

/-- `__builtin_clzl`; undefined at zero. -/
def clzl (x : UInt64) : Option Nat :=
  if x = 0 then none else some (CCN_UNIT_BITS - 1 - Nat.log2 x.toNat)

/-- A step of `CcnM` that has no result. -/
def ub {β : Type} : CcnM β := fun _ => none

/-- A computation that may be undefined, as a step. -/
def ofOption {β : Type} : Option β → CcnM β
  | some b => pure b
  | none => ub

/-! ## Sizes and comparison -/

/-- The loop of `ccn_n`: `last` is the highest index below `i` of a non-zero unit, or `0`. -/
def ccn_n_loop (s : Ptr) : Nat → Nat → Nat → CcnM Nat
  | 0, _, last => pure last
  | k + 1, i, last => do
    let si ← load s i
    ccn_n_loop s k (i + 1) (if si != 0 then i else last)

/-- `ccn_n` (`:7`). -/
def ccn_n (n : Nat) (s : Ptr) : CcnM Nat := do
  let last ← ccn_n_loop s n 0 0
  pure (last + 1)

/-- `ccn_is_zero` (`ccn.h:316`): `!ccn_n(n, s)`. -/
def ccn_is_zero (n : Nat) (s : Ptr) : CcnM Bool := do
  let used ← ccn_n n s
  pure (used == 0)

/-- `ccn_is_one` (`ccn.h:320`): `ccn_n(n, s) == 1 && s[0] == 1`. -/
def ccn_is_one (n : Nat) (s : Ptr) : CcnM Bool := do
  let used ← ccn_n n s
  if used == 1 then
    let s0 ← load s 0
    pure (s0 == 1)
  else pure false

/-- `ccn_bitlen` (`:86`). -/
def ccn_bitlen (n : Nat) (s : Ptr) : CcnM Nat := do
  let used ← ccn_n n s
  if used == 0 then pure 0
  else
    let last_used_unit ← load s ((used : Int) - 1)
    if used == 1 && last_used_unit == 0 then pure 1
    else
      let z ← ofOption (clzl last_used_unit)
      pure (used * CCN_UNIT_BITS - z)

/-- The loop of `ccn_cmp`, from unit `i - 1` down. -/
def ccn_cmp_loop (s t : Ptr) : Nat → CcnM Int
  | 0 => pure 0
  | i + 1 => do
    let si ← load s i
    let ti ← load t i
    if si < ti then pure (-1)
    else if si > ti then pure 1
    else ccn_cmp_loop s t i

/-- `ccn_cmp` (`:122`). -/
def ccn_cmp (n : Nat) (s t : Ptr) : CcnM Int := ccn_cmp_loop s t n

/-! ## Addition and subtraction -/

/-- The loop of `ccn_add` from unit `i`, `k` units left. -/
def ccn_add_loop (r s t : Ptr) : Nat → Nat → UInt64 → CcnM UInt64
  | 0, _, carry => pure carry
  | k + 1, i, carry => do
    let s_current ← load s i
    let t_current ← load t i
    let partial_sum := s_current + t_current
    let ri := partial_sum + carry
    store r i ri
    -- the overflow check of the source, on the sum and on the stored unit
    let carry' : UInt64 :=
      if s_current > partial_sum || t_current > partial_sum || s_current > ri ||
        t_current > ri then 1 else 0
    ccn_add_loop r s t k (i + 1) carry'

/-- `ccn_add` (`:167`). -/
def ccn_add (n : Nat) (r s t : Ptr) : CcnM UInt64 := ccn_add_loop r s t n 0 0

/-- `memcpy` of `n` units, in order. -/
def memcpy (dst src : Ptr) : Nat → CcnM Unit
  | 0 => pure ()
  | n + 1 => do
    memcpy dst src n
    let v ← load src n
    store dst n v

/-- The loop of `ccn_add1` from unit `i`: it stops at the first unit that does not overflow. -/
def ccn_add1_loop (r : Ptr) : Nat → Nat → UInt64 → CcnM UInt64
  | 0, _, v => pure v
  | k + 1, i, v => do
    let ri ← load r i
    store r i (ri + v)
    if ri + v < ri then ccn_add1_loop r k (i + 1) 1 else pure 0

/-- `ccn_add1` (`:184`): it reads `s[n - 1]` first, then copies `s` to `r`. -/
def ccn_add1 (n : Nat) (r s : Ptr) (v : UInt64) : CcnM UInt64 := do
  let _last ← load s ((n : Int) - 1)
  memcpy r s n
  ccn_add1_loop r n 0 v

/-- `ccn_sub` (`:141`): the sign from `ccn_cmp`, then `s` plus the two's complement of `t`
in a fresh `alloca` buffer. -/
def ccn_sub (n : Nat) (r s t : Ptr) : CcnM UInt64 := do
  let c ← ccn_cmp n s t
  let underflow : UInt64 := if c < 0 then 1 else 0
  let t_copy ← alloca (List.replicate n 0)
  for i in List.range n do
    let ti ← load t i
    store t_copy i (~~~ti)
  let _ ← ccn_add1 n t_copy t_copy 1
  let _ ← ccn_add n r s t_copy
  pure underflow

/-- `ccn_sub1` (`:160`): `ccn_add1 (n, r, s, -1 * v)`, then
`n < 1 || ((n == 1) && s[0] < v)`. -/
def ccn_sub1 (n : Nat) (r s : Ptr) (v : UInt64) : CcnM UInt64 := do
  let _ ← ccn_add1 n r s (0 - v)
  if n < 1 then pure 1
  else if n == 1 then
    let s0 ← load s 0
    pure (if s0 < v then 1 else 0)
  else pure 0

/-- `ccn_addn` (`ccn.h:383`); the `assert (n >= nt)` has no result when it fails. -/
def ccn_addn (n : Nat) (r s : Ptr) (nt : Nat) (t : Ptr) : CcnM UInt64 := do
  if n < nt then ub
  else
    let carry ← ccn_add nt r s t
    ccn_add1 (n - nt) (r.add nt) (s.add nt) carry

/-- `ccn_subn` (`ccn.h:361`). -/
def ccn_subn (n : Nat) (r s : Ptr) (nt : Nat) (t : Ptr) : CcnM UInt64 := do
  if n < nt then ub
  else
    let borrow ← ccn_sub nt r s t
    ccn_sub1 (n - nt) (r.add nt) (s.add nt) borrow

/-- `ccn_set` (`:501`). -/
def ccn_set (n : Nat) (r s : Ptr) : CcnM Unit := do
  for i in List.range n do
    let si ← load s i
    store r i si

/-- `ccn_zero` (`ccn.h:530`), `cc_zero` of `n` units; the sources' `memset (r, 0,
ccn_sizeof_n (n))` is the same. -/
def ccn_zero (n : Nat) (r : Ptr) : CcnM Unit := do
  for i in List.range n do
    store r i 0

/-! ## Shifts -/

/-- The loop of `ccn_shift_right`, from unit `i - 1` down. The shift of the carry by `64 - k`
is only reached for `k < 64`, where the subtraction is exact. -/
def ccn_shift_right_loop (r s : Ptr) (k : Nat) : Nat → UInt64 → CcnM UInt64
  | 0, carry => pure carry
  | i + 1, carry => do
    let temp ← load s i
    let hi ← ofOption (shr temp k)
    store r i (hi ||| carry)
    let carry' ← ofOption (shl temp (CCN_UNIT_BITS - k))
    ccn_shift_right_loop r s k i carry'

/-- `ccn_shift_right` (`:23`). -/
def ccn_shift_right (n : Nat) (r s : Ptr) (k : Nat) : CcnM UInt64 :=
  ccn_shift_right_loop r s k n 0

/-- The loop of `ccn_shift_left`, from unit `i`. -/
def ccn_shift_left_loop (r s : Ptr) (k : Nat) : Nat → Nat → UInt64 → CcnM UInt64
  | 0, _, carry => pure carry
  | m + 1, i, carry => do
    let temp ← load s i
    let lo ← ofOption (shl temp k)
    store r i (lo ||| carry)
    let carry' ← ofOption (shr temp (CCN_UNIT_BITS - k))
    ccn_shift_left_loop r s k m (i + 1) carry'

/-- `ccn_shift_left` (`:57`). -/
def ccn_shift_left (n : Nat) (r s : Ptr) (k : Nat) : CcnM UInt64 :=
  ccn_shift_left_loop r s k n 0 0

/-- The loop of `ccn_shift_left_multi` from unit `i`: unit `i` of `s` moves to unit
`i + discarded_units` of `r`, and a unit below `discarded_units` is cleared. -/
def ccn_shift_left_multi_loop (r s : Ptr) (discarded_units k : Nat) :
    Nat → Nat → UInt64 → CcnM Unit
  | 0, _, _ => pure ()
  | m + 1, i, carry => do
    let temp ← load s i
    let lo ← ofOption (shl temp k)
    store r (i + discarded_units) (lo ||| carry)
    if i < discarded_units then store r i 0
    let carry' ← ofOption (shr temp (CCN_UNIT_BITS - k))
    ccn_shift_left_multi_loop r s discarded_units k m (i + 1) carry'

/-- `ccn_shift_left_multi` (`:71`). Its count `n - discarded_units` is a `size_t` difference,
which wraps when more units are discarded than there are. -/
def ccn_shift_left_multi (n : Nat) (r s : Ptr) (k : Nat) : CcnM Unit :=
  let discarded_units := k / CCN_UNIT_BITS
  ccn_shift_left_multi_loop r s discarded_units (k - discarded_units * CCN_UNIT_BITS)
    ((n + 2 ^ 64 - discarded_units) % 2 ^ 64) 0 0

/-! ## Runs keep every block

None of the primitives frees or resizes a block, so a block allocated before a call still has its
length after it (`Prog.Keeps`). -/

section Keeps

open Prog (Keeps)

theorem ub_keeps {β : Type} : Keeps (ub : CcnM β) := Keeps.fail

theorem ofOption_keeps {β : Type} (o : Option β) : Keeps (ofOption o : CcnM β) := by
  cases o with
  | some b => exact Keeps.pure b
  | none => exact ub_keeps

theorem ccn_n_loop_keeps (s : Ptr) (k i last : Nat) : Keeps (ccn_n_loop s k i last) := by
  induction k generalizing i last with
  | zero => exact Keeps.pure _
  | succ k ih => exact Keeps.bind (Keeps.load s i) fun _ => ih _ _

theorem ccn_n_keeps (n : Nat) (s : Ptr) : Keeps (ccn_n n s) :=
  Keeps.bind (ccn_n_loop_keeps s n 0 0) fun _ => Keeps.pure _

theorem ccn_cmp_keeps (n : Nat) (s t : Ptr) : Keeps (ccn_cmp n s t) := by
  induction n with
  | zero => exact Keeps.pure _
  | succ i ih =>
    refine Keeps.bind (Keeps.load s i) fun _ => Keeps.bind (Keeps.load t i) fun _ => ?_
    exact Keeps.ite (Keeps.pure _) (Keeps.ite (Keeps.pure _) ih)

theorem ccn_add_loop_keeps (r s t : Ptr) (k i : Nat) (carry : UInt64) :
    Keeps (ccn_add_loop r s t k i carry) := by
  induction k generalizing i carry with
  | zero => exact Keeps.pure _
  | succ k ih =>
    refine Keeps.bind (Keeps.load s i) fun _ => Keeps.bind (Keeps.load t i) fun _ => ?_
    exact Keeps.bind (Keeps.store r i _) fun _ => ih _ _

theorem ccn_add_keeps (n : Nat) (r s t : Ptr) : Keeps (ccn_add n r s t) :=
  ccn_add_loop_keeps r s t n 0 0

theorem memcpy_keeps (dst src : Ptr) (n : Nat) : Keeps (memcpy dst src n) := by
  induction n with
  | zero => exact Keeps.pure _
  | succ n ih =>
    exact Keeps.bind ih fun _ => Keeps.bind (Keeps.load src n) fun v => Keeps.store dst n v

theorem ccn_add1_loop_keeps (r : Ptr) (k i : Nat) (v : UInt64) :
    Keeps (ccn_add1_loop r k i v) := by
  induction k generalizing i v with
  | zero => exact Keeps.pure _
  | succ k ih =>
    refine Keeps.bind (Keeps.load r i) fun _ => Keeps.bind (Keeps.store r i _) fun _ => ?_
    exact Keeps.ite (ih _ _) (Keeps.pure _)

theorem ccn_add1_keeps (n : Nat) (r s : Ptr) (v : UInt64) : Keeps (ccn_add1 n r s v) :=
  Keeps.bind (Keeps.load s _) fun _ =>
    Keeps.bind (memcpy_keeps r s n) fun _ => ccn_add1_loop_keeps r n 0 v

theorem ccn_sub_keeps (n : Nat) (r s t : Ptr) : Keeps (ccn_sub n r s t) := by
  unfold ccn_sub
  refine Keeps.bind (ccn_cmp_keeps n s t) fun _ => Keeps.bind (Keeps.alloca _) fun t_copy => ?_
  -- the two's complement of `t` in `t_copy`, then the two additions
  refine Keeps.bind (Keeps.forIn _ _ fun i _ => ?_) fun _ => ?_
  · exact Keeps.bind (Keeps.load t i) fun _ =>
      Keeps.bind (Keeps.store t_copy i _) fun _ => Keeps.pure _
  · exact Keeps.bind (ccn_add1_keeps n t_copy t_copy 1) fun _ =>
      Keeps.bind (ccn_add_keeps n r s t_copy) fun _ => Keeps.pure _

theorem ccn_set_keeps (n : Nat) (r s : Ptr) : Keeps (ccn_set n r s) := by
  unfold ccn_set
  refine Keeps.bind (Keeps.forIn _ _ fun i _ => ?_) fun _ => Keeps.pure _
  exact Keeps.bind (Keeps.load s i) fun _ => Keeps.bind (Keeps.store r i _) fun _ => Keeps.pure _

theorem ccn_zero_keeps (n : Nat) (r : Ptr) : Keeps (ccn_zero n r) := by
  unfold ccn_zero
  refine Keeps.bind (Keeps.forIn _ _ fun i _ => ?_) fun _ => Keeps.pure _
  exact Keeps.bind (Keeps.store r i 0) fun _ => Keeps.pure _

theorem ccn_shift_left_multi_keeps (n : Nat) (r s : Ptr) (k : Nat) :
    Keeps (ccn_shift_left_multi n r s k) := by
  dsimp only [ccn_shift_left_multi]
  generalize (n + 2 ^ 64 - k / CCN_UNIT_BITS) % 2 ^ 64 = count
  generalize (0 : Nat) = i
  generalize (0 : UInt64) = carry
  induction count generalizing i carry with
  | zero => exact Keeps.pure _
  | succ count ih =>
    refine Keeps.bind (Keeps.load s i) fun temp => Keeps.bind (ofOption_keeps _) fun _ => ?_
    refine Keeps.bind (Keeps.store r _ _) fun _ => ?_
    -- the clearing of a unit below the shift, then the carry
    dsimp only
    refine Keeps.ite (Keeps.bind (Keeps.store r i 0) fun _ => ?_) ?_ <;>
      exact Keeps.bind (ofOption_keeps _) fun _ => ih _ _

end Keeps

/-! ## Where the code and the contracts part -/

/-- A one-unit zero: `ccn_n` counts one used unit, so `ccn_is_zero` says no and `ccn_bitlen`
says `1`; and a shift by `k = 0` shifts the carry by 64 bits. -/
theorem ccn_is_zero_misses_zero :
    value [0] = 0 ∧ (ccn_n 1 ⟨0, 0⟩).run [[0]] = some (1, [[0]]) ∧
      (ccn_is_zero 1 ⟨0, 0⟩).run [[0]] = some (false, [[0]]) ∧
      (ccn_bitlen 1 ⟨0, 0⟩).run [[0]] = some (1, [[0]]) ∧
      (ccn_shift_right 1 ⟨1, 0⟩ ⟨0, 0⟩ 0).run [[1], [0]] = none := by
  decide

/-- `[5, 0] - 1` by `ccn_sub1` leaves `[4, 1]`, which is `2^64 + 4`; and `ccn_subn` with
`nt = n` ends in `ccn_sub1 (0, …)`, which returns `1` whatever the operands. -/
theorem ccn_sub1_carries_into_high_unit :
    (ccn_sub1 2 ⟨1, 0⟩ ⟨0, 0⟩ 1).run [[5, 0], [0, 0]] = some (0, [[5, 0], [4, 1]]) ∧
      value [4, 1] ≠ (value [5, 0] - 1) % 2 ^ 128 ∧
      (ccn_subn 1 ⟨1, 0⟩ ⟨0, 0⟩ 1 ⟨2, 0⟩).run [[5], [0], [3]] =
        some (1, [[5], [2], [3], [18446744073709551613]]) ∧
      value [3] ≤ value [5] := by
  decide

end Corecrypto.Ccn
