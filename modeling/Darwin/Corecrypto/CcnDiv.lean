import Darwin.Corecrypto.CcnMul

/-!
# corecrypto division: `ccn_make_recip` and `ccn_div_euclid` (`corecrypto/src/ccn.c:545-760`)

| here | there |
| --- | --- |
| `wide` | the casts of a `cc_unit` to `cc_dunit` (`unsigned __int128`) |
| `ccn_make_recip_normalize` | step 1 of Knuth's Algorithm D (`:575-582`) |
| `ccn_make_recip_q_hat_loop` | the correction loop of step 3 (`:622-639`) |
| `ccn_make_recip_estimate` | steps 3 and 4 for digit `j`: `q_hat` and `pow[j, j + n] -= q_hat · d` (`:609-670`) |
| `ccn_make_recip_digit` | steps 3 to 5 for digit `j` (`:609-690`) |
| `ccn_make_recip` | `ccn_make_recip` (`:545`), its digit loop at `:608` |
| `ccn_div_euclid_loop`, `ccn_div_euclid` | `ccn_div_euclid` (`:700`), its subtraction loop at `:748` |

`ccn_make_recip` runs its digit loop for `j = n + 1` down to `0` and stores `recip[j]`, but
`recip` has `n + 1` units: its first digit is written past the end of its `alloca`, for every
divisor (`ccn_make_recip_undefined`). It also normalises only the low `n + 1` units of the
dividend `pow`, whose only non-zero unit is `pow[2n]`, and reads `d_copy[n - 2]` for `n = 1`.

`ccn_div_euclid` counts the quotient up from whatever `q` holds, and copies `nr` units of an
`na`-unit remainder (`ccn_div_euclid_keeps_old_quotient`).
-/

namespace Corecrypto.Ccn

open Blocks

/-- A `cc_unit` as a `cc_dunit`. -/
def wide (x : UInt64) : BitVec 128 := x.toBitVec.setWidth 128

/-- `CCN_UNIT_MASK + 1`, the base of the digits, as a `cc_dunit`. -/
def base : BitVec 128 := wide 0xFFFFFFFFFFFFFFFF + 1

/-- Step 1 (`:575`): shift the divisor left until its top bit is set, and the low `n + 1` units
of the dividend with it. `__builtin_clzl` of a zero top unit has no result. -/
def ccn_make_recip_normalize (n : Nat) (pow d_copy : Ptr) : CcnM Unit := do
  let top ← load d_copy ((n : Int) - 1)
  let shift ← ofOption (clzl top)
  if shift > 0 then
    ccn_shift_left_multi (n + 1) d_copy d_copy shift
    ccn_shift_left_multi (n + 1) pow pow shift

/-- The correction loop of step 3 (`:622`): while `q_hat ≥ base` or `q_hat · d_copy[n - 2]` is
above `r_hat · base + pow_pointer[n - 2]`, take one from `q_hat` and add `d_copy[n - 1]` to
`r_hat`, as long as `r_hat` stays below `base`. The second test is only read when the first
fails. `r_hat` grows by `d_copy[n - 1] ≥ 1` at each pass and stays below `2^64`, so `2^64 + 1`
passes are enough. -/
def ccn_make_recip_q_hat_loop (n : Nat) (d_copy pow_pointer : Ptr) (d1 : BitVec 128) :
    Nat → BitVec 128 → BitVec 128 → CcnM (BitVec 128)
  | 0, _, _ => ub
  | fuel + 1, q_hat, r_hat => do
    let too_big ← if base ≤ q_hat then pure true else do
      let d2 ← load d_copy ((n : Int) - 2)
      let p2 ← load pow_pointer ((n : Int) - 2)
      pure (decide (r_hat <<< 64 ||| wide p2 < q_hat * wide d2))
    if too_big then
      if r_hat + d1 < base then
        ccn_make_recip_q_hat_loop n d_copy pow_pointer d1 fuel (q_hat - 1) (r_hat + d1)
      else pure (q_hat - 1)
    else pure q_hat

/-- Steps 3 and 4 for digit `j` (`:609`): the estimate `q_hat` from the top two units of
`pow + j` and the top unit of the divisor, corrected, then `pow[j, j + n] -= q_hat · d_copy` in
`n + 1` units. It returns `q_hat` and the borrow of the subtraction. -/
def ccn_make_recip_estimate (n : Nat) (pow d_copy : Ptr) (j : Nat) :
    CcnM (BitVec 128 × UInt64) := do
  let pow_pointer := pow.add j
  let hi ← load pow_pointer n
  let lo ← load pow_pointer ((n : Int) - 1)
  let d1 ← load d_copy ((n : Int) - 1)
  -- the division by the top unit of the divisor has no result when it is zero
  if d1 = 0 then ub
  else
    let two_digits := wide hi <<< 64 ||| wide lo
    let q_hat ← ccn_make_recip_q_hat_loop n d_copy pow_pointer (wide d1) (2 ^ 64 + 1)
      (two_digits / wide d1) (two_digits % wide d1)
    let result ← alloca (List.replicate (2 * n) 0)
    let q_hat_ccn ← alloca (List.replicate n 0)
    store q_hat_ccn 0 (UInt64.ofBitVec (q_hat.setWidth 64))
    ccn_mul n result q_hat_ccn d_copy
    let underflow ← ccn_sub (n + 1) pow_pointer pow_pointer result
    pure (q_hat, underflow)

/-- Steps 3 to 5 for digit `j` (`:675`): `recip[j] = q_hat`, and on a borrow one less, with the
divisor added back to `pow + j`. -/
def ccn_make_recip_digit (n : Nat) (pow recip d_copy : Ptr) (j : Nat) : CcnM Unit := do
  let (q_hat, underflow) ← ccn_make_recip_estimate n pow d_copy j
  store recip j (UInt64.ofBitVec (q_hat.setWidth 64))
  if underflow ≠ 0 then
    let rj ← load recip j
    store recip j (rj - 1)
    let tmp ← alloca (List.replicate (n + 1) 0)
    store tmp n 0
    ccn_set n tmp d_copy
    let _ ← ccn_add (n + 1) (pow.add j) (pow.add j) tmp

/-- `ccn_make_recip` (`:545`): `⌊B^(2n) / d⌋` by Algorithm D, digits `j = n + 1` down to `0`
(`(List.range (n + 2)).reverse` lists them), then copied to `result`. -/
def ccn_make_recip (nd : Nat) (result d : Ptr) : CcnM Unit := do
  let n ← ccn_n nd d
  let pow ← alloca (List.replicate (2 * n + 2) 0)
  store pow (2 * n) 1
  let recip ← alloca (List.replicate (n + 1) 0)
  let d_copy ← alloca (List.replicate (n + 1) 0)
  store d_copy n 0
  memcpy d_copy d n
  ccn_make_recip_normalize n pow d_copy
  for j in (List.range (n + 2)).reverse do
    ccn_make_recip_digit n pow recip d_copy j
  ccn_zero (nd + 1) result
  memcpy result recip (n + 1)

/-! ## The first digit is stored past `recip` -/

section MakeRecip

open Prog (Keeps)

theorem ccn_make_recip_normalize_keeps (n : Nat) (pow d_copy : Ptr) :
    Keeps (ccn_make_recip_normalize n pow d_copy) := by
  unfold ccn_make_recip_normalize
  refine Keeps.bind (Keeps.load _ _) fun _ => Keeps.bind (ofOption_keeps _) fun _ => ?_
  refine Keeps.ite ?_ (Keeps.pure _)
  exact Keeps.bind (ccn_shift_left_multi_keeps _ _ _ _) fun _ => ccn_shift_left_multi_keeps _ _ _ _

theorem ccn_make_recip_q_hat_loop_keeps (n : Nat) (d_copy pow_pointer : Ptr) (d1 : BitVec 128)
    (fuel : Nat) (q_hat r_hat : BitVec 128) :
    Keeps (ccn_make_recip_q_hat_loop n d_copy pow_pointer d1 fuel q_hat r_hat) := by
  induction fuel generalizing q_hat r_hat with
  | zero => exact ub_keeps
  | succ fuel ih =>
    rw [ccn_make_recip_q_hat_loop]
    -- the test is made in each branch of `base ≤ q_hat`, and the pass after it
    refine Keeps.ite (Keeps.bind (Keeps.pure _) fun _ => ?_) ?_
    · exact Keeps.ite (Keeps.ite (ih _ _) (Keeps.pure _)) (Keeps.pure _)
    · refine Keeps.bind (Keeps.load _ _) fun _ => Keeps.bind (Keeps.load _ _) fun _ => ?_
      exact Keeps.bind (Keeps.pure _) fun _ =>
        Keeps.ite (Keeps.ite (ih _ _) (Keeps.pure _)) (Keeps.pure _)

theorem ccn_make_recip_estimate_keeps (n : Nat) (pow d_copy : Ptr) (j : Nat) :
    Keeps (ccn_make_recip_estimate n pow d_copy j) := by
  unfold ccn_make_recip_estimate
  refine Keeps.bind (Keeps.load _ _) fun _ => Keeps.bind (Keeps.load _ _) fun _ => ?_
  refine Keeps.bind (Keeps.load _ _) fun _ => Keeps.ite ub_keeps ?_
  refine Keeps.bind (ccn_make_recip_q_hat_loop_keeps _ _ _ _ _ _ _) fun _ => ?_
  refine Keeps.bind (Keeps.alloca _) fun _ => Keeps.bind (Keeps.alloca _) fun _ => ?_
  refine Keeps.bind (Keeps.store _ _ _) fun _ => Keeps.bind (ccn_mul_keeps _ _ _ _) fun _ => ?_
  exact Keeps.bind (ccn_sub_keeps _ _ _ _) fun _ => Keeps.pure _

/-- Digit `j` stores `recip[j]` after its estimate, which keeps every block: it fails when
`recip` ends at or before `j`, whatever the estimate did. -/
theorem ccn_make_recip_digit_run_none {n j L : Nat} {pow recip d_copy : Ptr} {m : Mem UInt64}
    (hL : (m[recip.blk]?).map List.length = some L) (hj : (L : Int) ≤ recip.off + j) :
    (ccn_make_recip_digit n pow recip d_copy j).run m = none := by
  unfold ccn_make_recip_digit
  refine Prog.run_bind_none fun e m' he => ?_
  have hL' := ccn_make_recip_estimate_keeps n pow d_copy j m e m' he _ _ hL
  obtain ⟨q_hat, underflow⟩ := e
  exact Prog.run_bind_of_none (store_run_none _ hL' hj)

/-- `ccn_make_recip` has no defined result for any `nd`, `d` and memory: its first digit,
`j = n + 1`, is stored at `recip[n + 1]`, past the `n + 1` units `recip` was given. So
`cczp_init`, which calls it, has none either. -/
theorem ccn_make_recip_undefined (nd : Nat) (result d : Ptr) (m : Mem UInt64) :
    (ccn_make_recip nd result d).run m = none := by
  unfold ccn_make_recip
  refine Prog.run_bind_none fun n m₁ _ => ?_
  refine Prog.run_bind_none fun pow m₂ _ => ?_
  refine Prog.run_bind_none fun _ m₃ _ => ?_
  refine Prog.run_bind_none fun recip m₄ h₄ => ?_
  -- `recip` is a new block of `n + 1` units
  simp only [alloca, StateT.run, Option.some.injEq, Prod.mk.injEq] at h₄
  obtain ⟨rfl, rfl⟩ := h₄
  have hL₄ : ((m₃ ++ [List.replicate (n + 1) 0])[m₃.length]?).map List.length = some (n + 1) := by
    simp
  -- the steps before the digit loop keep it
  refine Prog.run_bind_none fun d_copy m₅ h₅ => ?_
  have hL₅ := Keeps.alloca _ _ d_copy m₅ h₅ _ _ hL₄
  refine Prog.run_bind_none fun _ m₆ h₆ => ?_
  have hL₆ := Keeps.store _ _ _ _ _ m₆ h₆ _ _ hL₅
  refine Prog.run_bind_none fun _ m₇ h₇ => ?_
  have hL₇ := memcpy_keeps _ _ _ _ _ m₇ h₇ _ _ hL₆
  refine Prog.run_bind_none fun _ m₈ h₈ => ?_
  have hL₈ := ccn_make_recip_normalize_keeps _ _ _ _ _ m₈ h₈ _ _ hL₇
  -- the loop starts with digit `n + 1`
  refine Prog.run_bind_of_none ?_
  rw [List.range_succ, List.reverse_append, List.reverse_singleton, List.singleton_append,
    List.forIn_cons]
  refine Prog.run_bind_of_none (Prog.run_bind_of_none (ccn_make_recip_digit_run_none hL₈ ?_))
  simp

end MakeRecip

/-! ## Division by repeated subtraction -/

/-- The loop of `ccn_div_euclid` (`:748`): while the remainder is at least the divisor, subtract
it and add one to `q`. The quotient is below `2^(64 na)`, so `2^(64 na) + 1` passes are enough;
`fuel` counts them. -/
def ccn_div_euclid_loop (nq : Nat) (q : Option Ptr) (na : Nat) (tmp_remainder tmp_d : Ptr) :
    Nat → CcnM Unit
  | 0 => ub
  | fuel + 1 => do
    let c ← ccn_cmp na tmp_remainder tmp_d
    if c ≥ 0 then
      let _ ← ccn_sub na tmp_remainder tmp_remainder tmp_d
      if let some q := q then
        let _ ← ccn_add1 nq q q 1
      ccn_div_euclid_loop nq q na tmp_remainder tmp_d fuel

/-- The early exit of `ccn_div_euclid` (`:717`, `:730`): `r = a` over `na` units and `q = 0`. -/
def ccn_div_euclid_small (nq : Nat) (q : Option Ptr) (r : Option Ptr) (na : Nat) (a : Ptr) :
    CcnM Int := do
  if let some r := r then ccn_set na r a
  if let some q := q then ccn_zero nq q
  pure 0

/-- `ccn_div_euclid` (`:700`); a `NULL` `q` or `r` is `none`. -/
def ccn_div_euclid (nq : Nat) (q : Option Ptr) (nr : Nat) (r : Option Ptr) (na : Nat) (a : Ptr)
    (nd : Nat) (d : Ptr) : CcnM Int := do
  let na ← ccn_n na a
  let nd ← ccn_n nd d
  let nq := if q.isNone then na else nq
  let nr := if r.isNone then nd else nr
  if nq < na then pure (-1)
  else if nr < nd then pure (-1)
  else if na < nd then ccn_div_euclid_small nq q r na a
  else
    let tmp_d ← alloca (List.replicate na 0)
    ccn_set nd tmp_d d
    let c ← ccn_cmp na a tmp_d
    if c < 0 then ccn_div_euclid_small nq q r na a
    else
      let tmp_remainder ← alloca (List.replicate na 0)
      ccn_set na tmp_remainder a
      ccn_div_euclid_loop nq q na tmp_remainder tmp_d (2 ^ (CCN_UNIT_BITS * na) + 1)
      if let some r := r then ccn_set nr r tmp_remainder
      pure 0

/-- `5 / 1` into a `q` that held `7` leaves `12`: the quotient is counted up from the old
contents of `q`. And with `nr = 2` for a one-unit `a`, the copy of the remainder reads past the
one unit of `tmp_remainder`. -/
theorem ccn_div_euclid_keeps_old_quotient :
    ((ccn_div_euclid 1 (some ⟨0, 0⟩) 1 (some ⟨1, 0⟩) 1 ⟨2, 0⟩ 1 ⟨3, 0⟩).run
        [[7], [0], [5], [1]]).map (fun x => (x.1, x.2.take 2)) = some (0, [[12], [0]]) ∧
      value [12] ≠ value [5] / value [1] ∧
      (ccn_div_euclid 1 (some ⟨0, 0⟩) 2 (some ⟨1, 0⟩) 1 ⟨2, 0⟩ 1 ⟨3, 0⟩).run
        [[0], [0, 0], [5], [2]] = none := by
  decide +kernel

end Corecrypto.Ccn
