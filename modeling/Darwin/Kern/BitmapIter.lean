import Darwin.Kern.Bits
import Mathlib.Data.List.GetD

/-!
# Walking the bits of a bitmap (`osfmk/kern/bits.h`)

| here | there |
| --- | --- |
| `mask` | `mask(width)` (`bits.h:51`) |
| `__bit_next` | `:116-122` |
| `ffsll`, `lsb_first`, `lsb_next` | `__builtin_ffsll`, `lsb_first` (`:138-142`), `lsb_next` (`:148-154`) |
| `bitmap_next` | `:390-411` |
| `bitmapLsbFrom`, `bitmap_lsb_first` | the loop of `bitmap_lsb_first` (`:377-388`) |
| `bitmap_lsb_next` | `:413-435` |
| `andNotWords`, `bitmap_and_not_mask_first` | `:364-375` |
| `fillWords`, `bitmapFill` | the loops of `bitmap_full`, `bitmap_not`, `bitmap_and_not` |
| `bitmap_full`, `bitmap_not`, `bitmap_and_not` | `:213-229`, `:312-326`, `:336-350` |

The scheduler walks a bitmap from the top with
`for (i = bitmap_first(map, n); i >= 0; i = bitmap_next(map, i))`, and from the bottom with
`bitmap_lsb_first` and `bitmap_lsb_next`. Each call is a scan of a range of bit indices:
`bitmap_next map prev` is the highest set bit below `prev` (`bitmap_next_spec`), and
`bitmap_lsb_next map nbits prev` the lowest one above `prev` (`bitmap_lsb_next_spec`), so the walks
list the set bits in order (`HighestBelow.enumerates`, `LowestIn.enumerates`).

The functions return an `int`: each sum `(i << 6) + bit` is brought into one with `toInt32`, as
the C casts or the `int` shift do. In maps of at most `2 ^ 31` bits every bit index fits and the
scans are exact; in a larger map `bitmap_first` wraps to a negative index
(`bitmap_first_past_int_max`).
-/

namespace Kern

/-- `INT_MAX`, the largest value of the `int` these functions return. -/
def INT_MAX : Int := 2147483647

/-- `mask(width)`: the low `width` bits, all of them from `64` on. -/
def mask (width : Nat) : UInt64 := if width ≥ 64 then -1 else BIT width - 1

set_option linter.style.nameCheck false in
/-- `__bit_next` (`:116-122`): `bit_first` of the bits below `previous_bit`, of the whole word
for `0`. -/
def __bit_next (bitmap : UInt64) (previous_bit : Nat) : Int :=
  let mask := if previous_bit ≠ 0 then mask previous_bit else ~~~0
  bit_first (bitmap &&& mask)

/-- `__builtin_ffsll`: one more than the index of the lowest set bit, `0` for `0`. -/
def ffsll (x : UInt64) : Nat :=
  match (List.range 64).find? x.toNat.testBit with
  | some i => i + 1
  | none => 0

/-- `lsb_first` (`:138-142`). -/
def lsb_first (bitmap : UInt64) : Int := (ffsll bitmap : Int) - 1

/-- `lsb_next` (`:148-154`): `lsb_first` of the bits above `previous_bit`, which may be `-1`. -/
def lsb_next (bitmap : UInt64) (previous_bit : Int) : Int :=
  let mask := mask (previous_bit + 1).toNat
  lsb_first (bitmap &&& ~~~mask)

/-- **`bitmap_next`** (`:390-411`): the rest of word `bitmap_index(prev - 1)` below `prev`, then
the loop of `bitmap_first` over the words below it. There `i` is an `int64_t` and the sum
`(i << 6) + bit_first(map[i])` is cast to `int`; `i << 6` is a multiple of `64`, so that is the
value `bitmapFirstBelow` computes. -/
def bitmap_next (map : List UInt64) (prev : Nat) : Int :=
  if prev = 0 then -1
  else
    let i := bitmap_index (prev - 1)
    let res := __bit_next (map.getD i 0) (bitmap_bit prev)
    if res ≥ 0 then toInt32 (res + (i * 64 : Int))
    else bitmapFirstBelow map i

/-- The loop of `bitmap_lsb_first` and `bitmap_lsb_next` over the `n` words from word `i` up: the
unsigned sum `(i << 6) + lsb_first(map[i])` cast to `int`. -/
def bitmapLsbFrom (map : List UInt64) (i : Nat) : Nat → Int
  | 0 => -1
  | n + 1 =>
    if map.getD i 0 = 0 then bitmapLsbFrom map (i + 1) n
    else toInt32 ((i * 64 : Int) + lsb_first (map.getD i 0))

/-- **`bitmap_lsb_first`** (`:377-388`): the loop `for (i = 0; i <= bitmap_index(nbits - 1); i++)`. -/
def bitmap_lsb_first (map : List UInt64) (nbits : Nat) : Int :=
  bitmapLsbFrom map 0 (bitmap_index (nbits - 1) + 1)

/-- **`bitmap_lsb_next`** (`:413-435`): the rest of word `bitmap_index(prev + 1)` above `prev`,
then the words above it up to word `bitmap_index(nbits - 1)`. -/
def bitmap_lsb_next (map : List UInt64) (nbits prev : Nat) : Int :=
  if prev + 1 ≥ nbits then -1
  else
    let i := bitmap_index (prev + 1)
    -- `bits((prev + 1), 5, 0) - 1` is `UINT_MAX` at a word boundary, and `(int)b` is then `-1`
    let b : Int := (bitmap_bit (prev + 1) : Int) - 1
    let res := lsb_next (map.getD i 0) b
    if res ≥ 0 then toInt32 (res + (i * 64 : Int))
    else bitmapLsbFrom map (i + 1) (bitmap_index (nbits - 1) - i)

/-- The words `map[i] & ~mask[i]`. -/
def andNotWords (map mask : List UInt64) : List UInt64 :=
  (List.range map.length).map fun i => map.getD i 0 &&& ~~~mask.getD i 0

/-- **`bitmap_and_not_mask_first`** (`:364-375`): the loop of `bitmap_first` over the words
`map[i] & ~mask[i]`. -/
def bitmap_and_not_mask_first (map mask : List UInt64) (nbits : Nat) : Int :=
  bitmapFirstBelow (andNotWords map mask) (bitmap_index (nbits - 1) + 1)

/-- The loop `for (i = 0; i < n; i++) out[i] = word(i)`. -/
def fillWords (out : List UInt64) (word : Nat → UInt64) : Nat → List UInt64
  | 0 => out
  | i + 1 => (fillWords out word i).set i (word i)

/-- What `bitmap_full`, `bitmap_not` and `bitmap_and_not` share: the words below word
`bitmap_index(nbits - 1)` are `word i`, and that last one is `word i` cut at `nbits`. -/
def bitmapFill (out : List UInt64) (word : Nat → UInt64) (nbits : Nat) : List UInt64 :=
  let i := bitmap_index (nbits - 1)
  let out := fillWords out word i
  let nbits_complete := i * 64
  if nbits > nbits_complete then out.set i (word i &&& mask (nbits - nbits_complete)) else out

/-- `bitmap_full` (`:213-229`); its last word, `mask(nbits - nbits_filled)`, is `~0` cut at
`nbits`. -/
def bitmap_full (map : List UInt64) (nbits : Nat) : List UInt64 :=
  bitmapFill map (fun _ => ~~~0) nbits

/-- `bitmap_not` (`:312-326`); `in` is `inp`. -/
def bitmap_not (out inp : List UInt64) (nbits : Nat) : List UInt64 :=
  bitmapFill out (fun i => ~~~inp.getD i 0) nbits

/-- `bitmap_and_not` (`:336-350`). -/
def bitmap_and_not (out in1 in2 : List UInt64) (nbits : Nat) : List UInt64 :=
  bitmapFill out (fun i => in1.getD i 0 &&& ~~~in2.getD i 0) nbits

/-! ## Masks -/

theorem toNat_mask (width : Nat) : (mask width).toNat = 2 ^ min width 64 - 1 := by
  unfold mask
  split
  · rw [Nat.min_eq_right (by omega)]
    rfl
  · have hb := toNat_BIT (b := width) (by omega)
    have hle : (1 : UInt64) ≤ BIT width := by
      rw [UInt64.le_iff_toNat_le, hb, UInt64.toNat_one]
      exact Nat.one_le_two_pow
    rw [UInt64.toNat_sub_of_le _ _ hle, hb, UInt64.toNat_one, Nat.min_eq_left (by omega)]

theorem testBit_ge_64 (x : UInt64) {j : Nat} (hj : 64 ≤ j) : x.toNat.testBit j = false :=
  Nat.testBit_lt_two_pow (lt_of_lt_of_le x.toNat_lt (Nat.pow_le_pow_right (by decide) hj))

theorem testBit_and_mask (x : UInt64) (width j : Nat) :
    (x &&& mask width).toNat.testBit j = (x.toNat.testBit j && decide (j < min width 64)) := by
  rw [UInt64.toNat_and, Nat.testBit_and, toNat_mask, Nat.testBit_two_pow_sub_one]

theorem testBit_and_not (x y : UInt64) (j : Nat) :
    (x &&& ~~~y).toNat.testBit j = (x.toNat.testBit j && !y.toNat.testBit j) := by
  by_cases hj : j < 64
  · rw [testBit_toBitVec, UInt64.toBitVec_and, BitVec.getLsbD_and, UInt64.toBitVec_not,
      BitVec.getLsbD_not, ← testBit_toBitVec, ← testBit_toBitVec]
    simp [hj]
  · rw [testBit_ge_64 _ (by omega), testBit_ge_64 _ (by omega), Bool.false_and]

theorem eq_zero_of_testBit (x : UInt64) (h : ∀ j < 64, x.toNat.testBit j = false) : x = 0 := by
  apply UInt64.toNat_inj.1
  apply Nat.eq_of_testBit_eq
  intro j
  rw [UInt64.toNat_zero, Nat.zero_testBit]
  by_cases hj : j < 64
  · exact h j hj
  · exact testBit_ge_64 x (by omega)

/-! ## One word -/

/-- The mask of `__bit_next` is `mask` of the bound: `~0` is `mask(64)`. -/
theorem bit_next_mask (b : Nat) :
    (if b ≠ 0 then mask b else ~~~0) = mask (if b = 0 then 64 else b) := by
  by_cases hb : b = 0
  · rw [if_neg (not_not.mpr hb), if_pos hb]
    rfl
  · rw [if_pos hb, if_neg hb]

/-- **`__bit_next`** is the highest set bit below `previous_bit`, below `64` for `0`. -/
theorem bit_next_spec (x : UInt64) {b : Nat} (hb : b < 64) :
    HighestBelow x.toNat.testBit (if b = 0 then 64 else b) (__bit_next x b) := by
  have hc : (if b = 0 then 64 else b) ≤ 64 := by split <;> omega
  have h := bit_first_spec (x &&& mask (if b = 0 then 64 else b))
  rw [← bit_next_mask] at h
  -- the masked word has the bits below the bound, and none above
  refine (h.restrict hc fun m hm _ => ?_).congr fun m hm => ?_
  · rw [bit_next_mask, testBit_and_mask]
    simp only [Bool.and_eq_false_iff, decide_eq_false_iff_not]
    exact .inr (by omega)
  · rw [bit_next_mask, testBit_and_mask, decide_eq_true (by omega), Bool.and_true]

/-- **`lsb_first`** is the lowest set bit of a word. -/
theorem lsb_first_spec (x : UInt64) : LowestIn x.toNat.testBit 0 64 (lsb_first x) := by
  unfold lsb_first ffsll
  split
  · rename_i i hi
    obtain ⟨hP, hmem, hmin⟩ := List.find?_range_eq_some.mp hi
    refine .inr ⟨i, Nat.zero_le _, List.mem_range.mp hmem, by omega, hP, fun k _ hk => ?_⟩
    simpa using hmin k hk
  · rename_i hnone
    exact .inl ⟨rfl, fun m _ hm => by simpa using List.find?_range_eq_none.mp hnone m hm⟩

theorem lsb_first_nonneg {x : UInt64} (hx : x ≠ 0) : 0 ≤ lsb_first x := by
  rcases lsb_first_spec x with ⟨-, hnone⟩ | ⟨m, -, -, hr, -, -⟩
  · exact absurd (eq_zero_of_testBit x fun j hj => hnone j (Nat.zero_le j) hj) hx
  · omega

/-- **`lsb_next`** is the lowest set bit above `previous_bit`. -/
theorem lsb_next_spec (x : UInt64) (b : Int) :
    LowestIn x.toNat.testBit (b + 1).toNat 64 (lsb_next x b) := by
  have h := lsb_first_spec (x &&& ~~~mask (b + 1).toNat)
  have hbits : ∀ j, (x &&& ~~~mask (b + 1).toNat).toNat.testBit j =
      (x.toNat.testBit j && !decide (j < min (b + 1).toNat 64)) := by
    intro j
    rw [testBit_and_not, ← Nat.testBit_two_pow_sub_one, ← toNat_mask]
  -- the masked word has no bit below `b + 1`, and the word's own bits from there
  refine (h.restrict_lo (Nat.zero_le _) fun m _ hm => ?_).congr fun m hm hm' => ?_
  · rw [hbits]
    by_cases h64 : m < 64
    · rw [decide_eq_true (by omega)]
      exact Bool.and_false _
    · rw [testBit_ge_64 x (by omega), Bool.false_and]
  · rw [hbits, decide_eq_false (by omega), Bool.not_false, Bool.and_true]

/-! ## The bitmap scans -/

/-- The C sum `res + (i << 6)`, for a bit `res` of a word below word `2 ^ 25`, is the `append`
form. -/
theorem word_result_eq {res : Int} (rest : Int) {i : Nat} (hres : res < 64) (hi : 64 * i + 64 ≤ 2 ^ 31) :
    (if res ≥ 0 then toInt32 (res + (i * 64 : Int)) else rest) =
      if 0 ≤ res then ((64 * i : Nat) : Int) + res else rest := by
  by_cases hr : 0 ≤ res
  · rw [if_pos hr, if_pos hr, toInt32_of_lt (by omega) (by omega)]
    omega
  · rw [if_neg hr, if_neg hr]

/-- **`bitmap_next`**, for `prev ≤ 2 ^ 31`, is the highest set bit below `prev`. -/
theorem bitmap_next_spec (map : List UInt64) {prev : Nat} (hp : prev ≤ 2 ^ 31) :
    HighestBelow (bitmap_test map) prev (bitmap_next map prev) := by
  unfold bitmap_next
  split
  · -- nothing is below `0`
    exact .inl ⟨rfl, fun m hm => absurd hm (by omega)⟩
  · -- word `i` holds the bits from `64 * i` up to `prev`, the words below it the rest
    dsimp only
    have hb : bitmap_bit prev < 64 := Nat.mod_lt _ (by decide)
    have hprev : 64 * bitmap_index (prev - 1) +
        (if bitmap_bit prev = 0 then 64 else bitmap_bit prev) = prev := by
      unfold bitmap_bit bitmap_index
      split <;> omega
    have hword : HighestBelow (fun j => bitmap_test map (64 * bitmap_index (prev - 1) + j))
        (if bitmap_bit prev = 0 then 64 else bitmap_bit prev)
        (__bit_next (map.getD (bitmap_index (prev - 1)) 0) (bitmap_bit prev)) :=
      (bit_next_spec _ hb).congr fun j hj =>
        (bitmap_test_word map _ (lt_of_lt_of_le hj (by split <;> omega))).symm
    have h := (bitmapFirstBelow_spec map (by unfold bitmap_index; omega)).append hword
    rw [hprev] at h
    have hres : __bit_next (map.getD (bitmap_index (prev - 1)) 0) (bitmap_bit prev) < 64 := by
      have := hword.lt
      split at this <;> omega
    rwa [word_result_eq _ hres (by unfold bitmap_index; omega)]

/-- A zero word is skipped: below word `2 ^ 25` the loop takes word `i` exactly when its
`lsb_first` is a bit. -/
theorem bitmapLsbFrom_succ (map : List UInt64) {i : Nat} (n : Nat) (hi : 64 * i + 64 ≤ 2 ^ 31) :
    bitmapLsbFrom map i (n + 1) =
      if 0 ≤ lsb_first (map.getD i 0) then ((64 * i : Nat) : Int) + lsb_first (map.getD i 0)
      else bitmapLsbFrom map (i + 1) n := by
  rw [bitmapLsbFrom]
  by_cases hw : map.getD i 0 = 0
  · rw [if_pos hw, hw, if_neg (by decide)]
  · have hlt := (lsb_first_spec (map.getD i 0)).lt
    rw [if_neg hw, if_pos (lsb_first_nonneg hw),
      toInt32_of_lt (by have := lsb_first_nonneg hw; omega) (by omega)]
    omega

/-- The `n` words from word `i` hold the bits of `[64 * i, 64 * (i + n))`: while those fit an
`int`, `bitmapLsbFrom` is the lowest of them. -/
theorem bitmapLsbFrom_spec (map : List UInt64) (n : Nat) :
    ∀ i, 64 * (i + n) ≤ 2 ^ 31 →
      LowestIn (bitmap_test map) (64 * i) (64 * (i + n)) (bitmapLsbFrom map i n) := by
  induction n with
  | zero => exact fun i _ => .inl ⟨rfl, fun m h1 h2 => absurd h2 (by omega)⟩
  | succ n ih =>
    intro i hi
    -- word `i` below the words above it
    have hword : LowestIn (fun j => bitmap_test map (64 * i + j)) 0 64 (lsb_first (map.getD i 0)) :=
      (lsb_first_spec _).congr fun j _ hj => (bitmap_test_word map i hj).symm
    have hrest := ih (i + 1) (by omega)
    rw [show 64 * (i + 1) = 64 * i + 64 by omega] at hrest
    have h := hword.append hrest (by omega) (by omega)
    rw [bitmapLsbFrom_succ map n (by omega), show 64 * (i + (n + 1)) = 64 * (i + 1 + n) by omega]
    simpa using h

/-- **`bitmap_lsb_next`**, while `prev + 1 < nbits ≤ 2 ^ 31`, is the lowest set bit above `prev`
in the words of the map. -/
theorem bitmap_lsb_next_scan (map : List UInt64) {nbits prev : Nat} (h : prev + 1 < nbits)
    (hn : nbits ≤ 2 ^ 31) :
    LowestIn (bitmap_test map) (prev + 1) (64 * (bitmap_index (nbits - 1) + 1))
      (bitmap_lsb_next map nbits prev) := by
  rw [bitmap_lsb_next, if_neg (by omega)]
  dsimp only
  have hi : bitmap_index (prev + 1) ≤ bitmap_index (nbits - 1) := by
    unfold bitmap_index
    omega
  -- the rest of word `i` above `prev`, then the words above it
  have hb : (((bitmap_bit (prev + 1) : Nat) : Int) - 1 + 1).toNat = bitmap_bit (prev + 1) := by
    omega
  have hword : LowestIn (fun j => bitmap_test map (64 * bitmap_index (prev + 1) + j))
      (bitmap_bit (prev + 1)) 64
      (lsb_next (map.getD (bitmap_index (prev + 1)) 0) ((bitmap_bit (prev + 1) : Int) - 1)) := by
    have hw := lsb_next_spec (map.getD (bitmap_index (prev + 1)) 0) ((bitmap_bit (prev + 1) : Int) - 1)
    rw [hb] at hw
    exact hw.congr fun j _ hj => (bitmap_test_word map _ hj).symm
  have hrest := bitmapLsbFrom_spec map (bitmap_index (nbits - 1) - bitmap_index (prev + 1))
    (bitmap_index (prev + 1) + 1) (by have := words_le_of_le hn; omega)
  rw [show 64 * (bitmap_index (prev + 1) + 1) = 64 * bitmap_index (prev + 1) + 64 by omega,
    show bitmap_index (prev + 1) + 1 + (bitmap_index (nbits - 1) - bitmap_index (prev + 1)) =
      bitmap_index (nbits - 1) + 1 by omega] at hrest
  have h := hword.append hrest (Nat.le_of_lt (Nat.mod_lt _ (by decide))) (by omega)
  rw [show 64 * bitmap_index (prev + 1) + bitmap_bit (prev + 1) = prev + 1 by
    unfold bitmap_index bitmap_bit; omega] at h
  have hwords := words_le_of_le hn
  rwa [word_result_eq _ hword.lt (by omega)]

theorem nbits_le_words (nbits : Nat) : nbits ≤ 64 * (bitmap_index (nbits - 1) + 1) := by
  unfold bitmap_index
  omega

section Clear

/-! ## Maps whose bits from `nbits` on are clear -/

variable {map : List UInt64} {nbits : Nat} (hn : nbits ≤ 2 ^ 31)
  (hclear : ∀ m, nbits ≤ m → bitmap_test map m = false)
include hn hclear

/-- `bitmap_first` is the highest set bit. -/
theorem bitmap_first_highest : HighestBelow (bitmap_test map) nbits (bitmap_first map nbits) :=
  (bitmap_first_spec map hn).restrict (nbits_le_words nbits) fun m hm _ => hclear m hm

/-- **`bitmap_lsb_first`** is the lowest set bit. -/
theorem bitmap_lsb_first_spec : LowestIn (bitmap_test map) 0 nbits (bitmap_lsb_first map nbits) := by
  have h := bitmapLsbFrom_spec map (bitmap_index (nbits - 1) + 1) 0
    (by rw [Nat.zero_add]; exact words_le_of_le hn)
  rw [Nat.mul_zero, Nat.zero_add] at h
  exact h.restrict_hi (nbits_le_words nbits) fun m hm _ => hclear m hm

/-- **`bitmap_lsb_next`** is the lowest set bit above `prev`. -/
theorem bitmap_lsb_next_spec (prev : Nat) :
    LowestIn (bitmap_test map) (prev + 1) nbits (bitmap_lsb_next map nbits prev) := by
  by_cases h : prev + 1 < nbits
  · exact (bitmap_lsb_next_scan map h hn).restrict_hi (nbits_le_words nbits) fun m hm _ => hclear m hm
  · -- past the last bit there is none
    rw [bitmap_lsb_next, if_pos (by omega)]
    exact .inl ⟨rfl, fun m h1 h2 => absurd h2 (by omega)⟩

end Clear

theorem getD_andNotWords (map mask : List UInt64) (i : Nat) :
    (andNotWords map mask).getD i 0 = map.getD i 0 &&& ~~~mask.getD i 0 := by
  by_cases hi : i < map.length
  · simp [andNotWords, List.getD_eq_getElem?_getD, hi]
  · rw [List.getD_eq_default _ _ (by simp [andNotWords]; omega),
      List.getD_eq_default _ _ (by omega), UInt64.zero_and]

/-- **`bitmap_and_not_mask_first`** is the highest bit set in `map` and clear in `mask`. -/
theorem bitmap_and_not_mask_first_spec {map : List UInt64} {nbits : Nat} (hn : nbits ≤ 2 ^ 31)
    (hclear : ∀ m, nbits ≤ m → bitmap_test map m = false) (mask : List UInt64) :
    HighestBelow (fun m => bitmap_test map m && !bitmap_test mask m) nbits
      (bitmap_and_not_mask_first map mask nbits) := by
  have htest : ∀ m, bitmap_test (andNotWords map mask) m =
      (bitmap_test map m && !bitmap_test mask m) := by
    intro m
    rw [bitmap_test_eq, bitmap_test_eq, bitmap_test_eq, getD_andNotWords, testBit_and_not]
  refine ((bitmapFirstBelow_spec _ (words_le_of_le hn)).congr fun m _ => htest m).restrict (nbits_le_words nbits)
    fun m hm _ => ?_
  rw [hclear m hm, Bool.false_and]

/-! ## Filling a map -/

@[simp] theorem length_fillWords (out : List UInt64) (word : Nat → UInt64) (n : Nat) :
    (fillWords out word n).length = out.length := by
  induction n with
  | zero => rfl
  | succ n ih => rw [fillWords, List.length_set, ih]

/-- The words `bitmapFill` writes, into a map of `BITMAP_LEN nbits` words, leave every bit from
`nbits` on clear: the last word is cut at `nbits`, and no word follows it. -/
theorem bitmapFill_clear (out : List UInt64) (word : Nat → UInt64) {nbits : Nat} (h1 : 1 ≤ nbits)
    (hlen : out.length = BITMAP_LEN nbits) (m : Nat) (hm : nbits ≤ m) :
    bitmap_test (bitmapFill out word nbits) m = false := by
  have hlast : nbits > bitmap_index (nbits - 1) * 64 := by
    unfold bitmap_index
    omega
  have hfill : (fillWords out word (bitmap_index (nbits - 1))).length = bitmap_index (nbits - 1) + 1 := by
    rw [length_fillWords, hlen]
    unfold BITMAP_LEN bitmap_index
    omega
  rw [bitmapFill, if_pos hlast, bitmap_test_eq]
  by_cases hw : m / 64 = bitmap_index (nbits - 1)
  · -- the last word, cut at `nbits`
    rw [hw, List.getD_eq_getElem?_getD, List.getElem?_set_self (by omega), Option.getD_some,
      testBit_and_mask, decide_eq_false (by unfold bitmap_index at hw ⊢; omega), Bool.and_false]
  · -- past the last word
    rw [List.getD_eq_default _ _ (by rw [List.length_set, hfill]; unfold bitmap_index at hw ⊢; omega),
      UInt64.toNat_zero, Nat.zero_testBit]

/-! ## The walks -/

/-- Over a map of `nbits` bits, `1 ≤ nbits ≤ 2 ^ 31`, whose bits from `nbits` on are clear: the
walk from `bitmap_first` through `bitmap_next` meets every set bit once, from the highest down, and
then `-1`; the walk from `bitmap_lsb_first` through `bitmap_lsb_next` the same from the lowest up;
every bit met fits the `int` returned. `bitmap_and_not_mask_first` is the highest bit set in `map`
and clear in `mask`, and `bitmap_full`, `bitmap_not` and `bitmap_and_not` set no bit from `nbits`
on. -/
theorem bitmap_walks (map mask : List UInt64) (nbits : Nat) (h1 : 1 ≤ nbits) (h2 : nbits ≤ 2 ^ 31)
    (hclear : ∀ m, nbits ≤ m → bitmap_test map m = false) :
    (∃ l, LinkChain (fun r : Int => 0 ≤ r) Int.toNat (bitmap_next map) (-1) (bitmap_first map nbits) l ∧
        l.Pairwise (· > ·) ∧ (∀ m, m ∈ l ↔ bitmap_test map m = true) ∧ ∀ m ∈ l, (m : Int) ≤ INT_MAX) ∧
      (∃ l, LinkChain (fun r : Int => 0 ≤ r) Int.toNat (bitmap_lsb_next map nbits) (-1)
          (bitmap_lsb_first map nbits) l ∧
        l.Pairwise (· < ·) ∧ (∀ m, m ∈ l ↔ bitmap_test map m = true) ∧ ∀ m ∈ l, (m : Int) ≤ INT_MAX) ∧
      HighestBelow (fun m => bitmap_test map m && !bitmap_test mask m) nbits
        (bitmap_and_not_mask_first map mask nbits) ∧
      ∀ out in1 in2 : List UInt64, out.length = BITMAP_LEN nbits → ∀ m, nbits ≤ m →
        bitmap_test (bitmap_full out nbits) m = false ∧
          bitmap_test (bitmap_not out in1 nbits) m = false ∧
          bitmap_test (bitmap_and_not out in1 in2 nbits) m = false := by
  -- a set bit is below `nbits`, so it fits an `int`
  have hbelow : ∀ m, bitmap_test map m = true → m < nbits := by
    intro m hm
    by_contra hge
    rw [hclear m (by omega)] at hm
    exact Bool.noConfusion hm
  have hfits : ∀ m, bitmap_test map m = true → (m : Int) ≤ INT_MAX := by
    intro m hm
    have := hbelow m hm
    unfold INT_MAX
    omega
  obtain ⟨ld, hdown, hdec, hmemd⟩ :=
    HighestBelow.enumerates (fun p hp => bitmap_next_spec map (by omega)) (bitmap_first_highest h2 hclear)
  obtain ⟨lu, hup, hinc, hmemu⟩ :=
    LowestIn.enumerates (bitmap_lsb_next_spec h2 hclear) 0 (bitmap_lsb_first_spec h2 hclear)
  refine ⟨⟨ld, hdown, hdec, fun m => ?_, fun m hm => hfits m ((hmemd m).mp hm).2⟩,
    ⟨lu, hup, hinc, fun m => ?_, fun m hm => hfits m ((hmemu m).mp hm).2.2⟩,
    bitmap_and_not_mask_first_spec h2 hclear mask, fun out in1 in2 hlen m hm => ?_⟩
  · rw [hmemd m]
    exact ⟨fun h => h.2, fun h => ⟨hbelow m h, h⟩⟩
  · rw [hmemu m]
    exact ⟨fun h => h.2.2, fun h => ⟨Nat.zero_le m, hbelow m h, h⟩⟩
  · -- the three fills are one `bitmapFill`
    exact ⟨bitmapFill_clear out _ h1 hlen m hm, bitmapFill_clear out _ h1 hlen m hm,
      bitmapFill_clear out _ h1 hlen m hm⟩

/-- Bits `0`, `2` and `65` of `70`, the mask over bit `0`. -/
theorem bitmap_walks_seventy :
    1 ≤ 70 ∧ 70 ≤ 2 ^ 31 ∧ (∀ m, 70 ≤ m → bitmap_test [5, 2] m = false) ∧
      HighestBelow (fun m => bitmap_test [5, 2] m && !bitmap_test [1, 0] m) 70
        (bitmap_and_not_mask_first [5, 2] [1, 0] 70) := by
  have hclear : ∀ m, 70 ≤ m → bitmap_test [5, 2] m = false := by
    intro m hm
    rw [bitmap_test_eq]
    by_cases hw : m / 64 = 1
    · -- word `1` is `2`, and bit `m % 64` is at least `6`
      rw [hw, show ([5, 2] : List UInt64).getD 1 0 = 2 from rfl]
      exact Nat.testBit_lt_two_pow
        (lt_of_lt_of_le (by decide) (Nat.pow_le_pow_right (by decide) (show 2 ≤ m % 64 by omega)))
    · rw [List.getD_eq_default _ _ (by simp; omega), UInt64.toNat_zero, Nat.zero_testBit]
  exact ⟨by decide, by decide, hclear,
    (bitmap_walks [5, 2] [1, 0] 70 (by decide) (by decide) hclear).2.2.1⟩

theorem getD_replicate_append (n k : Nat) (x : UInt64) :
    (List.replicate n 0 ++ [x]).getD k 0 = if k = n then x else 0 := by
  rcases Nat.lt_trichotomy k n with hk | rfl | hk
  · rw [List.getD_append _ _ _ _ (by simpa using hk), List.getD_replicate _ hk, if_neg (by omega)]
  · rw [List.getD_append_right _ _ _ _ (by simp), if_pos rfl]
    simp
  · rw [List.getD_eq_default _ _ (by simp; omega), if_neg (by omega)]

/-- A map of `2 ^ 31 + 1` bits, `BITMAP_LEN` words whose one set bit is `2 ^ 31`: the highest set
bit is past `INT_MAX`, and `bitmap_first` returns `-2 ^ 31`, since `(i << 6)` at `i = 2 ^ 25`
wraps in the `int` it is computed in. A walk that stops at a negative index lists no bit. -/
theorem bitmap_first_past_int_max :
    (List.replicate (2 ^ 25) (0 : UInt64) ++ [1]).length = BITMAP_LEN (2 ^ 31 + 1) ∧
      (∀ m, 2 ^ 31 + 1 ≤ m → bitmap_test (List.replicate (2 ^ 25) 0 ++ [1]) m = false) ∧
      bitmap_test (List.replicate (2 ^ 25) 0 ++ [1]) (2 ^ 31) = true ∧ INT_MAX < 2 ^ 31 ∧
      bitmap_first (List.replicate (2 ^ 25) 0 ++ [1]) (2 ^ 31 + 1) = -2 ^ 31 := by
  have hfirst : bitmap_first (List.replicate (2 ^ 25) 0 ++ [1]) (2 ^ 31 + 1) = -2 ^ 31 := by
    rw [bitmap_first, show bitmap_index (2 ^ 31 + 1 - 1) = 2 ^ 25 by unfold bitmap_index; decide,
      bitmapFirstBelow, getD_replicate_append, if_pos rfl, if_neg (by decide),
      show bit_first 1 = 0 by decide]
    decide
  have hlen : (List.replicate (2 ^ 25) (0 : UInt64) ++ [1]).length = BITMAP_LEN (2 ^ 31 + 1) := by
    rw [List.length_append, List.length_replicate, List.length_singleton]
    unfold BITMAP_LEN
    decide
  have hset : bitmap_test (List.replicate (2 ^ 25) 0 ++ [1]) (2 ^ 31) = true := by
    rw [bitmap_test_eq, getD_replicate_append, if_pos (by decide)]
    decide
  refine ⟨hlen, fun m hm => ?_, hset, by decide, hfirst⟩
  rw [bitmap_test_eq, getD_replicate_append]
  split
  · -- in the last word only bit `0`, that is bit `2 ^ 31`, is set
    exact Nat.testBit_lt_two_pow
      (lt_of_lt_of_le (by decide) (Nat.pow_le_pow_right (by decide) (show 1 ≤ m % 64 by omega)))
  · rw [UInt64.toNat_zero, Nat.zero_testBit]

end Kern
