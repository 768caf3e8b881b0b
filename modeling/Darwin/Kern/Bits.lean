import Mathlib.Data.Nat.Bitwise
import Mathlib.Data.List.Basic
import Darwin.Lib.Chain

/-!
# Bitmaps of `osfmk/kern/bits.h`

A `bitmap_t` array is a list of `uint64_t` words; bit `n` is bit `bitmap_bit(n)` of word
`bitmap_index(n)`. `bitmap_set` and `bitmap_clear` change that one bit (`bitmap_test_set`,
`bitmap_test_clear`), and `bitmap_first`, which scans the words from the last down and takes the
most significant bit of the first non-zero one, returns the highest set bit, `-1` when there is
none (`bitmap_first_spec`).
-/

namespace Kern

/-- `BIT(b)`: `1ULL << b`. -/
def BIT (b : Nat) : UInt64 := 1 <<< b.toUInt64

def bitmap_bit (n : Nat) : Nat := n % 64

def bitmap_index (n : Nat) : Nat := n / 64

def BITMAP_LEN (n : Nat) : Nat := (n + 63) / 64

/-- `bit_set(map[bitmap_index(n)], bitmap_bit(n))`. -/
def bitmap_set (map : List UInt64) (n : Nat) : List UInt64 := map.modify (bitmap_index n) (· ||| BIT (bitmap_bit n))

/-- `bit_clear(map[bitmap_index(n)], bitmap_bit(n))`. -/
def bitmap_clear (map : List UInt64) (n : Nat) : List UInt64 :=
  map.modify (bitmap_index n) (· &&& ~~~BIT (bitmap_bit n))

def bitmap_test (map : List UInt64) (n : Nat) : Bool := map.getD (bitmap_index n) 0 &&& BIT (bitmap_bit n) ≠ 0

/-- **`bit_first`**: `63 - __builtin_clzll(bitmap)`, the most significant set bit, `-1` for `0`. -/
def bit_first (x : UInt64) : Int := if x = 0 then -1 else (x.toNat.log2 : Int)

/-- A value brought into an `int`: modulo `2 ^ 32`, read in two's complement. This is the cast
`(int)x` of a wider integer, and what `i << 6` gives once it passes `INT_MAX`. -/
def toInt32 (x : Int) : Int := x.bmod (2 ^ 32)

/-- The loop of `bitmap_first` from word `i - 1` down to word `0`; `i` is an `int`, so `i << 6`
wraps from `i = 2 ^ 25` on. -/
def bitmapFirstBelow (map : List UInt64) : Nat → Int
  | 0 => -1
  | i + 1 =>
    if map.getD i 0 = 0 then bitmapFirstBelow map i else toInt32 (i * 64) + bit_first (map.getD i 0)

/-- **`bitmap_first`** (`:299`): the loop `for (i = bitmap_index(nbits - 1); i >= 0; i--)`. -/
def bitmap_first (map : List UInt64) (nbits : Nat) : Int := bitmapFirstBelow map (bitmap_index (nbits - 1) + 1)

theorem toInt32_of_lt {x : Int} (h0 : 0 ≤ x) (h : x < 2 ^ 31) : toInt32 x = x :=
  Int.bmod_eq_of_le (by omega) (by omega)

/-! ## One bit of a word -/

theorem toNat_BIT {b : Nat} (hb : b < 64) : (BIT b).toNat = 2 ^ b := by
  rw [BIT, UInt64.toNat_shiftLeft]
  have h1 : (b.toUInt64).toNat = b := by simp; omega
  simp only [UInt64.toNat_one, h1, Nat.mod_eq_of_lt hb, Nat.one_shiftLeft]
  exact Nat.mod_eq_of_lt (Nat.pow_lt_pow_right (by decide) hb)

theorem testBit_toBitVec (z : UInt64) (j : Nat) : z.toNat.testBit j = z.toBitVec.getLsbD j := rfl

theorem testBit_or_BIT (x : UInt64) {b : Nat} (hb : b < 64) (j : Nat) :
    (x ||| BIT b).toNat.testBit j = (x.toNat.testBit j || decide (b = j)) := by
  rw [UInt64.toNat_or, toNat_BIT hb, Nat.testBit_or, Nat.testBit_two_pow]

theorem testBit_and_not_BIT (x : UInt64) {b j : Nat} (hb : b < 64) (hj : j < 64) :
    (x &&& ~~~BIT b).toNat.testBit j = (x.toNat.testBit j && !decide (b = j)) := by
  rw [testBit_toBitVec, UInt64.toBitVec_and, BitVec.getLsbD_and, UInt64.toBitVec_not, BitVec.getLsbD_not,
    ← testBit_toBitVec, ← testBit_toBitVec, toNat_BIT hb, Nat.testBit_two_pow]
  simp [hj]

theorem and_BIT_ne_zero (x : UInt64) {b : Nat} (hb : b < 64) : (x &&& BIT b ≠ 0) = (x.toNat.testBit b = true) := by
  have h : (x &&& BIT b).toNat = x.toNat &&& 2 ^ b := by rw [UInt64.toNat_and, toNat_BIT hb]
  apply propext
  constructor
  · intro hne
    by_contra hbit
    apply hne
    apply UInt64.toNat_inj.1
    rw [h, UInt64.toNat_zero, Nat.and_two_pow]
    simp only [Bool.not_eq_true] at hbit
    simp [hbit]
  · intro hbit heq
    have := congrArg UInt64.toNat heq
    rw [h, UInt64.toNat_zero, Nat.and_two_pow] at this
    simp only [hbit, Bool.toNat_true, Nat.one_mul] at this
    exact absurd this (Nat.pos_iff_ne_zero.1 (Nat.two_pow_pos b))

/-! ## Bits of a bitmap -/

theorem bitmap_test_eq (map : List UInt64) (n : Nat) :
    bitmap_test map n = (map.getD (n / 64) 0).toNat.testBit (n % 64) := by
  simp [bitmap_test, bitmap_index, bitmap_bit, and_BIT_ne_zero _ (Nat.mod_lt n (by decide : 64 > 0))]

@[simp] theorem length_bitmap_set (map : List UInt64) (n : Nat) : (bitmap_set map n).length = map.length := by
  simp [bitmap_set]

@[simp] theorem length_bitmap_clear (map : List UInt64) (n : Nat) : (bitmap_clear map n).length = map.length := by
  simp [bitmap_clear]

theorem getD_modify (map : List UInt64) (f : UInt64 → UInt64) (i j : Nat) (hi : i < map.length) :
    (map.modify i f).getD j 0 = if i = j then f (map.getD j 0) else map.getD j 0 := by
  simp only [List.getD_eq_getElem?_getD, List.getElem?_modify]
  by_cases hij : i = j
  · subst hij
    simp [List.getElem?_eq_getElem hi]
  · simp [hij]

theorem bitmap_test_set {map : List UInt64} {n : Nat} (hn : bitmap_index n < map.length) (m : Nat) :
    bitmap_test (bitmap_set map n) m = (bitmap_test map m || decide (n = m)) := by
  rw [bitmap_test_eq, bitmap_test_eq, bitmap_set, getD_modify _ _ _ _ hn]
  unfold bitmap_index bitmap_bit
  by_cases hw : n / 64 = m / 64
  · rw [if_pos hw, testBit_or_BIT _ (Nat.mod_lt n (by decide))]
    congr 1
    rw [decide_eq_decide]
    constructor <;> intro h <;> omega
  · rw [if_neg hw]
    have : n ≠ m := fun h => hw (h ▸ rfl)
    simp [this]

theorem bitmap_test_clear {map : List UInt64} {n : Nat} (hn : bitmap_index n < map.length) (m : Nat) :
    bitmap_test (bitmap_clear map n) m = (bitmap_test map m && !decide (n = m)) := by
  rw [bitmap_test_eq, bitmap_test_eq, bitmap_clear, getD_modify _ _ _ _ hn]
  unfold bitmap_index bitmap_bit
  by_cases hw : n / 64 = m / 64
  · rw [if_pos hw, testBit_and_not_BIT _ (Nat.mod_lt n (by decide)) (Nat.mod_lt m (by decide))]
    congr 2
    rw [decide_eq_decide]
    constructor <;> intro h <;> omega
  · rw [if_neg hw]
    have : n ≠ m := fun h => hw (h ▸ rfl)
    simp [this]

/-! ## The highest set bit -/

/-- `r` is the greatest `m < bound` with `P m`, or `-1` when there is none. -/
def HighestBelow (P : Nat → Bool) (bound : Nat) (r : Int) : Prop :=
  (r = -1 ∧ ∀ m < bound, P m = false) ∨ ∃ m < bound, r = m ∧ P m = true ∧ ∀ k, m < k → k < bound → P k = false

theorem HighestBelow.unique {P : Nat → Bool} {bound : Nat} {r r' : Int} (h : HighestBelow P bound r)
    (h' : HighestBelow P bound r') : r = r' := by
  rcases h with ⟨rfl, hnone⟩ | ⟨m, hm, rfl, hP, hmax⟩ <;> rcases h' with ⟨rfl, hnone'⟩ | ⟨m', hm', rfl, hP', hmax'⟩
  · rfl
  · exact absurd (hnone m' hm') (by simp [hP'])
  · exact absurd (hnone' m hm) (by simp [hP])
  · have h1 : ¬ m < m' := fun hlt => absurd (hmax m' hlt hm') (by simp [hP'])
    have h2 : ¬ m' < m := fun hlt => absurd (hmax' m hlt hm) (by simp [hP])
    congr 1
    omega

theorem HighestBelow.congr {P Q : Nat → Bool} {bound : Nat} {r : Int} (h : HighestBelow P bound r)
    (hPQ : ∀ m < bound, P m = Q m) : HighestBelow Q bound r := by
  rcases h with ⟨hr, hnone⟩ | ⟨m, hm, hr, hP, hmax⟩
  · exact .inl ⟨hr, fun k hk => hPQ k hk ▸ hnone k hk⟩
  · exact .inr ⟨m, hm, hr, hPQ m hm ▸ hP, fun k hmk hk => hPQ k hk ▸ hmax k hmk hk⟩

theorem HighestBelow.lt {P : Nat → Bool} {bound : Nat} {r : Int} (h : HighestBelow P bound r) :
    r < bound := by
  rcases h with ⟨rfl, -⟩ | ⟨m, hm, rfl, -, -⟩ <;> omega

/-- A part of the range where `P` is false may be added at the top. -/
theorem HighestBelow.extend {P : Nat → Bool} {bound c : Nat} {r : Int} (h : HighestBelow P bound r)
    (hc : bound ≤ c) (hP : ∀ m, bound ≤ m → m < c → P m = false) : HighestBelow P c r := by
  rcases h with ⟨hr, hnone⟩ | ⟨m, hm, hr, hPm, hmax⟩
  · refine .inl ⟨hr, fun k hk => ?_⟩
    by_cases hlow : k < bound
    · exact hnone k hlow
    · exact hP k (by omega) hk
  · refine .inr ⟨m, by omega, hr, hPm, fun k hmk hk => ?_⟩
    by_cases hlow : k < bound
    · exact hmax k hmk hlow
    · exact hP k (by omega) hk

/-- ... and taken away again. -/
theorem HighestBelow.restrict {P : Nat → Bool} {bound c : Nat} {r : Int} (h : HighestBelow P bound r)
    (hc : c ≤ bound) (hP : ∀ m, c ≤ m → m < bound → P m = false) : HighestBelow P c r := by
  rcases h with ⟨hr, hnone⟩ | ⟨m, hm, hr, hPm, hmax⟩
  · exact .inl ⟨hr, fun k hk => hnone k (by omega)⟩
  · have hmc : m < c := by
      by_contra hcm
      rw [hP m (by omega) hm] at hPm
      exact Bool.noConfusion hPm
    exact .inr ⟨m, hmc, hr, hPm, fun k hmk hk => hmax k hmk (by omega)⟩

/-- The scan of `[0, off + c)` from the scans of `[off, off + c)`, shifted down by `off`, and of
`[0, off)`: the upper result when there is one. This is one word of a bitmap over the words
below it. -/
theorem HighestBelow.append {P : Nat → Bool} {off c : Nat} {r₀ r₁ : Int} (h₀ : HighestBelow P off r₀)
    (h₁ : HighestBelow (fun j => P (off + j)) c r₁) :
    HighestBelow P (off + c) (if 0 ≤ r₁ then off + r₁ else r₀) := by
  rcases h₁ with ⟨rfl, hnone⟩ | ⟨m, hm, rfl, hPm, hmax⟩
  · -- nothing in the upper part
    rw [if_neg (by decide)]
    refine h₀.extend (by omega) fun k hk hkc => ?_
    simpa [show off + (k - off) = k by omega] using hnone (k - off) (by omega)
  · rw [if_pos (by omega)]
    refine .inr ⟨off + m, by omega, by push_cast; rfl, hPm, fun k hmk hk => ?_⟩
    simpa [show off + (k - off) = k by omega] using hmax (k - off) (by omega) (by omega)

/-! ## The lowest set bit -/

/-- `r` is the least `m` of `[lo, hi)` with `P m`, or `-1` when there is none. -/
def LowestIn (P : Nat → Bool) (lo hi : Nat) (r : Int) : Prop :=
  (r = -1 ∧ ∀ m, lo ≤ m → m < hi → P m = false) ∨
    ∃ m, lo ≤ m ∧ m < hi ∧ r = m ∧ P m = true ∧ ∀ k, lo ≤ k → k < m → P k = false

theorem LowestIn.lt {P : Nat → Bool} {lo hi : Nat} {r : Int} (h : LowestIn P lo hi r) : r < hi := by
  rcases h with ⟨rfl, -⟩ | ⟨m, -, hm, rfl, -, -⟩ <;> omega

theorem LowestIn.congr {P Q : Nat → Bool} {lo hi : Nat} {r : Int} (h : LowestIn P lo hi r)
    (hPQ : ∀ m, lo ≤ m → m < hi → P m = Q m) : LowestIn Q lo hi r := by
  rcases h with ⟨hr, hnone⟩ | ⟨m, hlo, hm, hr, hP, hmin⟩
  · exact .inl ⟨hr, fun k hk hk' => hPQ k hk hk' ▸ hnone k hk hk'⟩
  · refine .inr ⟨m, hlo, hm, hr, hPQ m hlo hm ▸ hP, fun k hk hkm => ?_⟩
    exact hPQ k hk (by omega) ▸ hmin k hk hkm

/-- A part of the range where `P` is false may be added at the bottom... -/
theorem LowestIn.extend_lo {P : Nat → Bool} {lo hi a : Nat} {r : Int} (h : LowestIn P lo hi r)
    (ha : a ≤ lo) (hP : ∀ m, a ≤ m → m < lo → P m = false) : LowestIn P a hi r := by
  rcases h with ⟨hr, hnone⟩ | ⟨m, hlo, hm, hr, hPm, hmin⟩
  · refine .inl ⟨hr, fun k hk hk' => ?_⟩
    by_cases hlow : k < lo
    · exact hP k hk hlow
    · exact hnone k (by omega) hk'
  · refine .inr ⟨m, by omega, hm, hr, hPm, fun k hk hkm => ?_⟩
    by_cases hlow : k < lo
    · exact hP k hk hlow
    · exact hmin k (by omega) hkm

/-- ... and taken away at either end. -/
theorem LowestIn.restrict_lo {P : Nat → Bool} {lo hi a : Nat} {r : Int} (h : LowestIn P lo hi r)
    (ha : lo ≤ a) (hP : ∀ m, lo ≤ m → m < a → P m = false) : LowestIn P a hi r := by
  rcases h with ⟨hr, hnone⟩ | ⟨m, hlo, hm, hr, hPm, hmin⟩
  · exact .inl ⟨hr, fun k hk hk' => hnone k (by omega) hk'⟩
  · have ham : a ≤ m := by
      by_contra hma
      rw [hP m hlo (by omega)] at hPm
      exact Bool.noConfusion hPm
    exact .inr ⟨m, ham, hm, hr, hPm, fun k hk hkm => hmin k (by omega) hkm⟩

theorem LowestIn.restrict_hi {P : Nat → Bool} {lo hi c : Nat} {r : Int} (h : LowestIn P lo hi r)
    (hc : c ≤ hi) (hP : ∀ m, c ≤ m → m < hi → P m = false) : LowestIn P lo c r := by
  rcases h with ⟨hr, hnone⟩ | ⟨m, hlo, hm, hr, hPm, hmin⟩
  · exact .inl ⟨hr, fun k hk hk' => hnone k hk (by omega)⟩
  · have hmc : m < c := by
      by_contra hcm
      rw [hP m (by omega) hm] at hPm
      exact Bool.noConfusion hPm
    exact .inr ⟨m, hlo, hmc, hr, hPm, hmin⟩

/-- The scan of `[off + a, hi)` from the scans of `[off + a, off + c)`, shifted down by `off`,
and of `[off + c, hi)`: the lower result when there is one. -/
theorem LowestIn.append {P : Nat → Bool} {off a c hi : Nat} {r₁ r₂ : Int}
    (h₁ : LowestIn (fun j => P (off + j)) a c r₁) (h₂ : LowestIn P (off + c) hi r₂) (hac : a ≤ c)
    (hc : off + c ≤ hi) : LowestIn P (off + a) hi (if 0 ≤ r₁ then off + r₁ else r₂) := by
  rcases h₁ with ⟨rfl, hnone⟩ | ⟨m, ham, hm, rfl, hPm, hmin⟩
  · -- nothing in the lower part
    rw [if_neg (by decide)]
    refine h₂.extend_lo (by omega) fun k hk hkc => ?_
    simpa [show off + (k - off) = k by omega] using hnone (k - off) (by omega) (by omega)
  · rw [if_pos (by omega)]
    refine .inr ⟨off + m, by omega, by omega, by push_cast; rfl, hPm, fun k hk hkm => ?_⟩
    simpa [show off + (k - off) = k by omega] using hmin (k - off) (by omega) (by omega)

/-! ## Walking the set bits

A caller lists the set bits with `for (i = first; i >= 0; i = next(i))`. Where `first` and every
`next` are scans, that loop is a `LinkChain` through the results that meets every index with `P`
once, in order, and stops at `-1`. -/

/-- From the top: `next p` the highest below `p`, for each `p` below the first bound. -/
theorem HighestBelow.enumerates {P : Nat → Bool} {next : Nat → Int} {bound : Nat}
    (hnext : ∀ p < bound, HighestBelow P p (next p)) {r : Int} (h : HighestBelow P bound r) :
    ∃ l, LinkChain (fun r : Int => 0 ≤ r) Int.toNat next (-1) r l ∧ l.Pairwise (· > ·) ∧
      ∀ m, m ∈ l ↔ m < bound ∧ P m = true := by
  -- induction on the bound: each result is the bound of the next scan
  induction bound using Nat.strong_induction_on generalizing r with
  | _ bound ih =>
  rcases h with ⟨rfl, hnone⟩ | ⟨m, hm, rfl, hPm, hmax⟩
  · refine ⟨[], .stop, .nil, fun k => ⟨fun hk => absurd hk List.not_mem_nil, fun ⟨hk, hPk⟩ => ?_⟩⟩
    rw [hnone k hk] at hPk
    exact Bool.noConfusion hPk
  · obtain ⟨l, hchain, hsorted, hmem⟩ := ih m hm (fun p hp => hnext p (by omega)) (hnext m hm)
    refine ⟨m :: l, .cons (by omega) hchain, ?_, fun k => ?_⟩
    · exact List.pairwise_cons.mpr ⟨fun k hk => ((hmem k).mp hk).1, hsorted⟩
    · rw [List.mem_cons, hmem k]
      constructor
      · rintro (rfl | ⟨hkm, hPk⟩)
        · exact ⟨hm, hPm⟩
        · exact ⟨by omega, hPk⟩
      · rintro ⟨hk, hPk⟩
        rcases Nat.lt_trichotomy k m with hkm | rfl | hmk
        · exact .inr ⟨hkm, hPk⟩
        · exact .inl rfl
        · rw [hmax k hmk hk] at hPk
          exact Bool.noConfusion hPk

/-- From the bottom: `next p` the lowest of `[p + 1, hi)`. -/
theorem LowestIn.enumerates {P : Nat → Bool} {hi : Nat} {next : Nat → Int}
    (hnext : ∀ p, LowestIn P (p + 1) hi (next p)) (lo : Nat) {r : Int} (h : LowestIn P lo hi r) :
    ∃ l, LinkChain (fun r : Int => 0 ≤ r) Int.toNat next (-1) r l ∧ l.Pairwise (· < ·) ∧
      ∀ m, m ∈ l ↔ lo ≤ m ∧ m < hi ∧ P m = true := by
  -- induction on the length of the range left
  induction hlen : hi - lo using Nat.strong_induction_on generalizing lo r with
  | _ n ih =>
  rcases h with ⟨rfl, hnone⟩ | ⟨m, hlo, hm, rfl, hPm, hmin⟩
  · refine ⟨[], .stop, .nil, fun k => ⟨fun hk => absurd hk List.not_mem_nil, fun ⟨hk, hk', hPk⟩ => ?_⟩⟩
    rw [hnone k hk hk'] at hPk
    exact Bool.noConfusion hPk
  · obtain ⟨l, hchain, hsorted, hmem⟩ := ih (hi - (m + 1)) (by omega) (m + 1) (hnext m) rfl
    refine ⟨m :: l, .cons (by omega) hchain, ?_, fun k => ?_⟩
    · exact List.pairwise_cons.mpr ⟨fun k hk => ((hmem k).mp hk).1, hsorted⟩
    · rw [List.mem_cons, hmem k]
      constructor
      · rintro (rfl | ⟨hkm, hk, hPk⟩)
        · exact ⟨hlo, hm, hPm⟩
        · exact ⟨by omega, hk, hPk⟩
      · rintro ⟨hlk, hk, hPk⟩
        rcases Nat.lt_trichotomy k m with hkm | rfl | hmk
        · rw [hmin k hlk hkm] at hPk
          exact Bool.noConfusion hPk
        · exact .inl rfl
        · exact .inr ⟨hmk, hk, hPk⟩

/-- The highest bit of one word is its `log2`. -/
theorem testBit_gt_log2 {x k : Nat} (hk : x.log2 < k) : x.testBit k = false :=
  Nat.testBit_eq_false_of_lt (lt_of_lt_of_le Nat.lt_log2_self (Nat.pow_le_pow_right (by decide) hk))

theorem log2_toNat_lt (x : UInt64) : x.toNat.log2 < 64 := by
  by_cases hx : x.toNat = 0
  · rw [hx]; decide
  · exact (Nat.log2_lt hx).2 x.toNat_lt

/-- **`bit_first`** is the highest set bit of a word. -/
theorem bit_first_spec (x : UInt64) : HighestBelow x.toNat.testBit 64 (bit_first x) := by
  by_cases hx : x = 0
  · -- no bit of `0` is set
    rw [bit_first, if_pos hx]
    exact .inl ⟨rfl, fun m _ => by simp [hx]⟩
  · rw [bit_first, if_neg hx]
    have hne : x.toNat ≠ 0 := fun h => hx (UInt64.toNat_inj.1 (by rw [h]; rfl))
    exact .inr ⟨x.toNat.log2, log2_toNat_lt x, rfl, Nat.testBit_log2 hne,
      fun k hk _ => testBit_gt_log2 hk⟩

/-- Bit `j` of word `i`. -/
theorem bitmap_test_word (map : List UInt64) (i : Nat) {j : Nat} (hj : j < 64) :
    bitmap_test map (64 * i + j) = (map.getD i 0).toNat.testBit j := by
  rw [bitmap_test_eq, show (64 * i + j) / 64 = i by omega, show (64 * i + j) % 64 = j by omega]

/-- Below word `2 ^ 25` the shift does not wrap, and the loop takes word `i` exactly when its
`bit_first` is a bit: a zero word gives `-1`. -/
theorem bitmapFirstBelow_succ (map : List UInt64) {i : Nat} (hi : 64 * i < 2 ^ 31) :
    bitmapFirstBelow map (i + 1) =
      if 0 ≤ bit_first (map.getD i 0) then ((64 * i : Nat) : Int) + bit_first (map.getD i 0)
      else bitmapFirstBelow map i := by
  rw [bitmapFirstBelow]
  by_cases hw : map.getD i 0 = 0
  · rw [if_pos hw, bit_first, if_pos hw, if_neg (by decide)]
  · rw [if_neg hw, bit_first, if_neg hw, if_pos (by omega), toInt32_of_lt (by omega) (by omega)]
    omega

/-- The words below `i` hold the bits below `64 * i`: while those fit an `int`,
`bitmapFirstBelow` is the highest of them. -/
theorem bitmapFirstBelow_spec (map : List UInt64) {i : Nat} (hi : 64 * i ≤ 2 ^ 31) :
    HighestBelow (bitmap_test map) (64 * i) (bitmapFirstBelow map i) := by
  induction i with
  | zero => exact .inl ⟨rfl, fun m hm => absurd hm (by omega)⟩
  | succ i ih =>
    -- word `i` on top of the words below it
    have hword : HighestBelow (fun j => bitmap_test map (64 * i + j)) 64 (bit_first (map.getD i 0)) :=
      (bit_first_spec _).congr fun j hj => (bitmap_test_word map i hj).symm
    rw [bitmapFirstBelow_succ map (by omega), show 64 * (i + 1) = 64 * i + 64 by omega]
    exact (ih (by omega)).append hword

theorem words_le_of_le {nbits : Nat} (hn : nbits ≤ 2 ^ 31) :
    64 * (bitmap_index (nbits - 1) + 1) ≤ 2 ^ 31 := by
  unfold bitmap_index
  omega

/-- **`bitmap_first`**, over at most `2 ^ 31` bits, is the highest set bit among the words it
scans, `-1` if none is set. -/
theorem bitmap_first_spec (map : List UInt64) {nbits : Nat} (hn : nbits ≤ 2 ^ 31) :
    HighestBelow (bitmap_test map) (64 * (bitmap_index (nbits - 1) + 1)) (bitmap_first map nbits) :=
  bitmapFirstBelow_spec map (words_le_of_le hn)

end Kern
