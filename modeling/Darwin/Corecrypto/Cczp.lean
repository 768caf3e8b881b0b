import Darwin.Corecrypto.CcnDiv

/-!
# corecrypto `cczp`: Barrett reduction and modular powers (`corecrypto/src/cczp.c`)

| here | there |
| --- | --- |
| `cczp`, `cczp_prime`, `cczp_recip` | `struct cczp_prime` and its accessors (`cczp.h:7-122`) |
| `shift_units_right` | `:6` |
| `cczp_init` | `:36` |
| `cczp_mod` | `:46`, HAC 14.42 |
| `cczp_power_loop`, `cczp_power` | `:133`, right-to-left square and multiply |

A `cczp` is its header, whose `n` and `mod_prime` matter here, followed by the prime in `n`
units and its reciprocal in `n + 1`. `cczp_init` stores `&cczp_mod` in `mod_prime`, so the
calls through `cczp_mod_prime (zp)` are calls of `cczp_mod`.
-/

namespace Corecrypto.Ccn

open Blocks

/-- A `cczp`: its `n`, and where its units (`ccn`) start. -/
structure cczp where
  n : Nat
  ccn : Ptr

/-- `cczp_prime` (`cczp.h:121`). -/
def cczp_prime (zp : cczp) : Ptr := zp.ccn

/-- `cczp_recip` (`cczp.h:116`), also `CCZP_RECIP`. -/
def cczp_recip (zp : cczp) : Ptr := zp.ccn.add zp.n

/-- `cczp_init` (`:36`): the reciprocal of the used units of the prime. -/
def cczp_init (zp : cczp) : CcnM Int := do
  let n ← ccn_n zp.n (cczp_prime zp)
  ccn_make_recip n (cczp_recip zp) (cczp_prime zp)
  pure 0

/-- `shift_units_right` (`:6`): for `i` from `n` down to `count + 1`,
`result[i - 1 - count] = operand[i - 1]`. -/
def shift_units_right (n : Nat) (result operand : Ptr) (count : Nat) : CcnM Unit :=
  match n with
  | 0 => pure ()
  | i + 1 =>
    if count < i + 1 then do
      let v ← load operand i
      store result (i - count) v
      shift_units_right i result operand count
    else pure ()

/-- The final loop of `cczp_mod` (`:120`): `r -= m` while `r ≥ m`. `r` is below `2^(64 (n + 1))`
and `m` is not zero, so `2^(64 (n + 1)) + 1` passes are enough; `fuel` counts them. -/
def cczp_mod_loop (n : Nat) (r_extra m_copy : Ptr) : Nat → CcnM Unit
  | 0 => ub
  | fuel + 1 => do
    let c ← ccn_cmp (n + 1) r_extra m_copy
    if c ≥ 0 then
      let _ ← ccn_sub (n + 1) r_extra r_extra m_copy
      cczp_mod_loop n r_extra m_copy fuel

/-- `cczp_mod` (`:46`): Barrett reduction of the `2n` units at `operand` by the prime, with its
reciprocal; `n` is the number of used units of the prime. -/
def cczp_mod (zp : cczp) (result operand : Ptr) : CcnM Unit := do
  let modulus := cczp_prime zp
  let n ← ccn_n zp.n modulus
  let modulus_reciprocal := cczp_recip zp
  -- `q_1 = x / b^(k - 1)`
  let q_1 ← alloca (List.replicate (n + 1) 0)
  shift_units_right (2 * n) q_1 operand (n - 1)
  -- `q_2 = q_1 · mu`
  let q_2 ← alloca (List.replicate (2 * (n + 1)) 0)
  ccn_mul (n + 1) q_2 q_1 modulus_reciprocal
  -- `q_3 = q_2 / b^(k + 1)`
  let q_3 ← alloca (List.replicate (n + 1) 0)
  shift_units_right (2 * (n + 1)) q_3 q_2 (n + 1)
  -- `r_1 = x mod b^(k + 1)`
  let r_1 ← alloca (List.replicate (n + 1) 0)
  ccn_set (n + 1) r_1 operand
  let m_copy ← alloca (List.replicate (n + 1) 0)
  memcpy m_copy modulus n
  -- `r_2 = q_3 · m mod b^(k + 1)`
  let intermediate ← alloca (List.replicate (2 * (n + 1)) 0)
  ccn_mul (n + 1) intermediate q_3 m_copy
  let r_2 ← alloca (List.replicate (n + 1) 0)
  ccn_set (n + 1) r_2 intermediate
  -- `r = r_1 - r_2`, negated in place on a borrow
  let r_extra ← alloca (List.replicate (n + 1) 0)
  let underflow ← ccn_sub (n + 1) r_extra r_1 r_2
  if underflow ≠ 0 then
    for i in List.range (n + 1) do
      let v ← load r_extra i
      store r_extra i (~~~v)
    let _ ← ccn_add1 (n + 1) r_extra r_extra 1
  cczp_mod_loop n r_extra m_copy (2 ^ (CCN_UNIT_BITS * (n + 1)) + 1)
  memcpy result r_extra n

/-- The loop of `cczp_power` (`:190`), while the exponent copy is not zero. Each pass halves it,
so `64 full_n + 1` passes are enough; `fuel` counts them. -/
def cczp_power_loop (zp : cczp) (r base e_copy intermediate : Ptr) : Nat → CcnM Unit
  | 0 => ub
  | fuel + 1 => do
    let full_n := zp.n
    let used ← ccn_n full_n e_copy
    let nonzero ← if used > 1 then pure true else do
      let e0 ← load e_copy 0
      pure (e0 > 0)
    if nonzero then
      -- `ccn_bit (e_copy, 0)`
      let e0 ← load e_copy 0
      if e0 &&& 1 ≠ 0 then
        ccn_zero (full_n * 2) intermediate
        ccn_mul full_n intermediate r base
        cczp_mod zp r intermediate
      let _ ← ccn_shift_right full_n e_copy e_copy 1
      ccn_zero (full_n * 2) intermediate
      ccn_mul full_n intermediate base base
      cczp_mod zp base intermediate
      cczp_power_loop zp r base e_copy intermediate fuel

/-- `cczp_power` (`:133`): `r = m^e mod p`, all of `cczp_n (zp)` units. -/
def cczp_power (zp : cczp) (r m e : Ptr) : CcnM Unit := do
  let full_n := zp.n
  ccn_zero full_n r
  let modulus := cczp_prime zp
  let mod_n ← ccn_n full_n modulus
  let is_one ← if mod_n == 1 then do
      let mod0 ← load modulus 0
      pure (mod0 == 1)
    else pure false
  if is_one then pure ()
  else
    let base ← alloca (List.replicate (full_n * 2) 0)
    memcpy base m full_n
    store r 0 1
    -- the workspace `ws`, which `cczp_mod` does not use
    let _ ← alloca (List.replicate (full_n * 2 + 1) (0 : UInt64))
    cczp_mod zp base base
    let e_copy ← alloca (List.replicate full_n 0)
    memcpy e_copy e full_n
    let intermediate ← alloca (List.replicate (full_n * 2) 0)
    cczp_power_loop zp r base e_copy intermediate (CCN_UNIT_BITS * full_n + 1)

end Corecrypto.Ccn
