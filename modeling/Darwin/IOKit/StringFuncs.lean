import Mathlib

/-!
# `strtol` and `strtoul` (`iokit/Kernel/IOStringFuncs.c:126-295`)

The string `nptr` is a list of bytes; past its end the terminating NUL is read. `long` is 64
bits wide: `strtol` returns an integer in `[LONG_MIN, LONG_MAX]`, `strtoul` one below
`2 ^ 64`. Both clamp on overflow as the `cutoff`/`cutlim` test does.
-/

namespace IOKit

/-- `isspace` (`:111`). Its last test, `'\12'`, is octal for `'\n'` again. -/
def isspace (c : UInt8) : Bool := c == ' '.toUInt8 || c == '\t'.toUInt8 || c == '\n'.toUInt8 || c == 10

def isupper (c : UInt8) : Bool := 'A'.toUInt8 ≤ c && c ≤ 'Z'.toUInt8

def isalpha (c : UInt8) : Bool := isupper c || ('a'.toUInt8 ≤ c && c ≤ 'z'.toUInt8)

def isdigit (c : UInt8) : Bool := '0'.toUInt8 ≤ c && c ≤ '9'.toUInt8

/-- The next character of `s`, NUL past its end. -/
def peek (s : List UInt8) : UInt8 := s.headD 0

/-- `do { c = *s++; } while (isspace(c));`: the first character that is not a space, and what
follows it. -/
def skipSpace : List UInt8 → UInt8 × List UInt8
  | [] => (0, [])
  | c :: s => if isspace c then skipSpace s else (c, s)

/-- The optional sign: `neg`, then `c` and `s` after it. -/
def strtoSign (c : UInt8) (s : List UInt8) : Bool × UInt8 × List UInt8 :=
  if c == '-'.toUInt8 then (true, peek s, s.tail)
  else if c == '+'.toUInt8 then (false, peek s, s.tail)
  else (false, c, s)

/-- The base: a `0x` prefix for base 0 or 16, a `0b` prefix for base 0 or 2, else base 0 reads
a leading `0` as octal. -/
def strtoBase (base : Nat) (c : UInt8) (s : List UInt8) : Nat × UInt8 × List UInt8 :=
  if (base == 0 || base == 16) && c == '0'.toUInt8 && (peek s == 'x'.toUInt8 || peek s == 'X'.toUInt8) then
    (16, peek s.tail, s.tail.tail)
  else if (base == 0 || base == 2) && c == '0'.toUInt8 && (peek s == 'b'.toUInt8 || peek s == 'B'.toUInt8) then
    (2, peek s.tail, s.tail.tail)
  else (if base == 0 then (if c == '0'.toUInt8 then 8 else 10) else base, c, s)

/-- The value of `c` as a digit: `c -= '0'`, or `c -= isupper(c) ? 'A' - 10 : 'a' - 10`. -/
def digitOf (c : UInt8) : Option Nat :=
  if isdigit c then some (c.toNat - '0'.toNat)
  else if isalpha c then some (if isupper c then c.toNat - ('A'.toNat - 10) else c.toNat - ('a'.toNat - 10))
  else none

/-- The loop `for (acc = 0, any = 0;; c = *s++)` from the character `c` with `s` after it:
`acc`, and `any`, `-1` once a digit would pass `cutoff`/`cutlim`. -/
def strtoDigits (base cutoff cutlim : Nat) (c : UInt8) (s : List UInt8) (acc : Nat) (any : Int) : Nat × Int :=
  match digitOf c with
  | none => (acc, any)
  | some d =>
    if base ≤ d then (acc, any)
    else
      let (acc, any) :=
        if any < 0 || cutoff < acc || (acc == cutoff && cutlim < d) then (acc, -1) else (acc * base + d, 1)
      match s with
      | [] => (acc, any)
      | c :: s => strtoDigits base cutoff cutlim c s acc any

/-- **`strtol` (`:126`)** on a 64-bit `long`. -/
def strtol (nptr : List UInt8) (base : Nat) : Int :=
  let (c, s) := skipSpace nptr
  let (neg, c, s) := strtoSign c s
  let (base, c, s) := strtoBase base c s
  let cutoff : Nat := if neg then 2 ^ 63 else 2 ^ 63 - 1
  let (acc, any) := strtoDigits base (cutoff / base) (cutoff % base) c s 0 0
  if any < 0 then (if neg then -2 ^ 63 else 2 ^ 63 - 1)
  else if neg then -(acc : Int) else acc

/-- **`strtoul` (`:219`)** on a 64-bit `unsigned long`: a negative number is negated modulo
`2 ^ 64`. -/
def strtoul (nptr : List UInt8) (base : Nat) : Nat :=
  let (c, s) := skipSpace nptr
  let (neg, c, s) := strtoSign c s
  let (base, c, s) := strtoBase base c s
  let (acc, any) := strtoDigits base ((2 ^ 64 - 1) / base) ((2 ^ 64 - 1) % base) c s 0 0
  if any < 0 then 2 ^ 64 - 1
  else if neg then (2 ^ 64 - acc) % 2 ^ 64 else acc

/-! ## Reading a number back

The digit loop accumulates `acc * base + d` and stops accumulating once a digit would take it
past the limit `L`, with `cutoff = L / base` and `cutlim = L % base`; over digits that end the
string it returns their value or a negative `any` (`strtoDigits_digits`). On the decimal text
`Nat.toDigits` writes, which has no leading zero, base `0` reads decimal, and `strtol` and
`strtoul` return the number, clamped (`strtol_decimal`). -/

/-- The test that ends accumulation, for a digit `d < base`: `acc > cutoff`, or `acc == cutoff`
and `d > cutlim`, says exactly that `acc * base + d` passes `L`. -/
theorem cutoff_test_iff {L base acc d : Nat} (hb : 0 < base) (hd : d < base) :
    (L / base < acc ∨ (acc = L / base ∧ L % base < d)) ↔ L < acc * base + d := by
  have hL := Nat.div_add_mod L base
  have hr := Nat.mod_lt L hb
  have hcomm : L / base * base = base * (L / base) := Nat.mul_comm _ _
  rcases Nat.lt_trichotomy acc (L / base) with h | rfl | h
  · -- a whole step of `base` below the cutoff
    have : (acc + 1) * base ≤ L / base * base := Nat.mul_le_mul_right _ h
    rw [Nat.succ_mul] at this
    constructor
    · rintro (h' | ⟨h', -⟩) <;> omega
    · intro h'
      omega
  · constructor
    · rintro (h' | ⟨-, h'⟩) <;> omega
    · exact fun h' => .inr ⟨rfl, by omega⟩
  · have : (L / base + 1) * base ≤ acc * base := Nat.mul_le_mul_right _ h
    rw [Nat.succ_mul] at this
    exact ⟨fun _ => by omega, fun _ => .inl h⟩

/-- The value of the digits `ds` read after `acc`, in `base`. -/
def digitsValue (base acc : Nat) (ds : List UInt8) : Nat :=
  ds.foldl (fun a c => a * base + (digitOf c).getD 0) acc

/-- Every character of `ds` is a digit below `base`. -/
def Digits (base : Nat) (ds : List UInt8) : Prop := ∀ c ∈ ds, ∃ d, digitOf c = some d ∧ d < base

theorem le_digitsValue {base : Nat} (hb : 0 < base) (ds : List UInt8) (acc : Nat) :
    acc ≤ digitsValue base acc ds := by
  induction ds generalizing acc with
  | nil => exact le_refl _
  | cons c ds ih =>
    have : acc ≤ acc * base := Nat.le_mul_of_pos_right _ hb
    show acc ≤ digitsValue base (acc * base + (digitOf c).getD 0) ds
    exact le_trans (by omega) (ih _)

/-- Once a digit has passed the limit, `any` stays negative. -/
theorem strtoDigits_overflowed (base cutoff cutlim : Nat) (s : List UInt8) :
    ∀ (c : UInt8) (acc : Nat) {any : Int}, any < 0 →
      (strtoDigits base cutoff cutlim c s acc any).2 < 0 := by
  induction s with
  | nil =>
    intro c acc any hany
    unfold strtoDigits
    split
    · exact hany
    · split
      · exact hany
      · simp [hany]
  | cons c' s ih =>
    intro c acc any hany
    unfold strtoDigits
    split
    · exact hany
    · split
      · exact hany
      · simp only [hany, decide_true, Bool.true_or, ↓reduceIte]
        exact ih c' acc (by decide)

/-- The test of the loop, for a digit `d < base` and `any ≥ 0`, is `acc * base + d > L`. -/
theorem strtoTest_eq {base L acc d : Nat} {any : Int} (hb : 0 < base) (hany : 0 ≤ any) (hd : d < base) :
    (decide (any < 0) || decide (L / base < acc) || (acc == L / base && decide (L % base < d))) =
      decide (L < acc * base + d) := by
  rw [Bool.eq_iff_iff]
  simpa [Int.not_lt.2 hany] using cutoff_test_iff hb hd

theorem digitsValue_cons {base acc d : Nat} {c : UInt8} (hd : digitOf c = some d) (s : List UInt8) :
    digitsValue base acc (c :: s) = digitsValue base (acc * base + d) s := by
  simp [digitsValue, hd]

/-- The loop over the digits `c :: s` that end the string, against the limit `L`: it returns
their value with `any = 1` when the value is at most `L`, and a negative `any` otherwise. -/
theorem strtoDigits_digits {base L : Nat} (hb : 0 < base) (s : List UInt8) :
    ∀ (c : UInt8) (acc : Nat) (any : Int), 0 ≤ any → Digits base (c :: s) →
      (digitsValue base acc (c :: s) ≤ L →
        strtoDigits base (L / base) (L % base) c s acc any = (digitsValue base acc (c :: s), 1)) ∧
      (L < digitsValue base acc (c :: s) →
        (strtoDigits base (L / base) (L % base) c s acc any).2 < 0) := by
  induction s with
  | nil =>
    intro c acc any hany hds
    obtain ⟨d, hd, hdb⟩ := hds c List.mem_cons_self
    rw [digitsValue_cons hd]
    unfold strtoDigits
    rw [hd]
    simp only [Nat.not_le.2 hdb, if_false, strtoTest_eq hb hany hdb]
    by_cases hov : L < acc * base + d <;> simp [hov, digitsValue]
  | cons c' s ih =>
    intro c acc any hany hds
    obtain ⟨d, hd, hdb⟩ := hds c List.mem_cons_self
    have hds' : Digits base (c' :: s) := fun x hx => hds x (List.mem_cons_of_mem _ hx)
    rw [digitsValue_cons hd]
    unfold strtoDigits
    rw [hd]
    simp only [Nat.not_le.2 hdb, if_false, strtoTest_eq hb hany hdb]
    by_cases hov : L < acc * base + d
    · -- past the limit: the rest of the digits only keep `any` negative
      have hle := le_digitsValue hb (c' :: s) (acc * base + d)
      simp only [hov, decide_true, if_true]
      exact ⟨fun h => absurd hov (by omega), fun _ => strtoDigits_overflowed _ _ _ _ _ _ (by decide)⟩
    · simp only [hov, decide_false, Bool.false_eq_true, if_false]
      exact ih c' _ 1 (by decide) hds'

/-! ## The decimal text of a number -/

theorem toNat_toUInt8_of_isDigit {c : Char} (h : c.isDigit = true) :
    c.toUInt8.toNat = c.toNat ∧ 48 ≤ c.toNat ∧ c.toNat ≤ 57 := by
  simp only [Char.isDigit, Bool.and_eq_true, decide_eq_true_eq] at h
  have h1 : 48 ≤ c.toNat := h.1
  have h2 : c.toNat ≤ 57 := h.2
  refine ⟨?_, h1, h2⟩
  show c.val.toUInt8.toNat = c.val.toNat
  rw [UInt32.toNat_toUInt8]
  exact Nat.mod_eq_of_lt (by simp only [Char.toNat] at h2; omega)

/-- A decimal digit reads as its value. -/
theorem digitOf_of_isDigit {c : Char} (h : c.isDigit = true) :
    digitOf c.toUInt8 = some (c.toNat - '0'.toNat) ∧ c.toNat - '0'.toNat < 10 := by
  obtain ⟨hu, h1, h2⟩ := toNat_toUInt8_of_isDigit h
  have hdig : isdigit c.toUInt8 = true := by
    simp only [isdigit, Bool.and_eq_true, decide_eq_true_eq, UInt8.le_iff_toNat_le, hu]
    exact ⟨h1, h2⟩
  have h0 : '0'.toNat = 48 := rfl
  exact ⟨by simp [digitOf, hdig, hu], by omega⟩

/-- A leading digit other than `0` is no space, no sign and no base prefix. -/
theorem lead_digit {c : Char} (h : c.isDigit = true) (h0 : c ≠ '0') :
    isspace c.toUInt8 = false ∧ c.toUInt8 ≠ '-'.toUInt8 ∧ c.toUInt8 ≠ '+'.toUInt8 ∧
      c.toUInt8 ≠ '0'.toUInt8 := by
  obtain ⟨hu, h1, h2⟩ := toNat_toUInt8_of_isDigit h
  have h48 : c.toNat ≠ 48 := fun he => h0 (Char.toNat_inj.mp he)
  have hne : ∀ k : UInt8, k.toNat < 49 → c.toUInt8 ≠ k := fun k hk he => by
    rw [he] at hu
    omega
  refine ⟨?_, hne _ (by decide), hne _ (by decide), hne _ (by decide)⟩
  simp only [isspace, Bool.or_eq_false_iff, beq_eq_false_iff_ne]
  exact ⟨⟨⟨hne _ (by decide), hne _ (by decide)⟩, hne _ (by decide)⟩, hne _ (by decide)⟩

theorem digits_toDigits (n : Nat) : Digits 10 ((Nat.toDigits 10 n).map Char.toUInt8) := by
  intro x hx
  obtain ⟨c, hc, rfl⟩ := List.mem_map.1 hx
  exact ⟨_, digitOf_of_isDigit (Nat.isDigit_of_mem_toDigits (by decide) (by decide) hc)⟩

theorem digitsValue_map_toUInt8 (cs : List Char) (hcs : ∀ c ∈ cs, c.isDigit = true) (acc : Nat) :
    digitsValue 10 acc (cs.map Char.toUInt8) = Nat.ofDigitChars 10 cs acc := by
  induction cs generalizing acc with
  | nil => rfl
  | cons c cs ih =>
    have hc := digitOf_of_isDigit (hcs c List.mem_cons_self)
    rw [List.map_cons, digitsValue_cons hc.1, Nat.ofDigitChars_cons, Nat.mul_comm acc 10]
    exact ih (fun c' hc' => hcs c' (List.mem_cons_of_mem _ hc')) _

/-- The digits of `n` read back as `n`. -/
theorem digitsValue_toDigits (n : Nat) :
    digitsValue 10 0 ((Nat.toDigits 10 n).map Char.toUInt8) = n := by
  rw [digitsValue_map_toUInt8 _ (fun c hc => Nat.isDigit_of_mem_toDigits (by decide) (by decide) hc),
    Nat.ofDigitChars_ten_toDigits]

/-- The decimal text of a positive number has no leading zero. -/
theorem toDigits_head {n : Nat} (hn : 0 < n) : ∃ c cs, Nat.toDigits 10 n = c :: cs ∧ c ≠ '0' := by
  induction n using Nat.strong_induction_on with
  | _ n ih =>
    by_cases h : n < 10
    · refine ⟨_, [], Nat.toDigits_of_lt_base h, fun he => ?_⟩
      have := congrArg Char.toNat he
      rw [Nat.toNat_digitChar_of_lt_ten h] at this
      have h0 : '0'.toNat = 48 := rfl
      omega
    · obtain ⟨c, cs, hcs, hc⟩ := ih (n / 10) (by omega) (by omega)
      exact ⟨c, cs ++ _, by rw [Nat.toDigits_of_base_le (by decide) (by omega), hcs]; rfl, hc⟩

theorem skipSpace_cons {c : UInt8} (h : isspace c = false) (s : List UInt8) :
    skipSpace (c :: s) = (c, s) := by
  simp [skipSpace, h]

theorem strtoSign_of_ne {c : UInt8} (hm : c ≠ '-'.toUInt8) (hp : c ≠ '+'.toUInt8) (s : List UInt8) :
    strtoSign c s = (false, c, s) := by
  simp [strtoSign, hm, hp]

theorem strtoSign_minus (c : UInt8) (s : List UInt8) :
    strtoSign '-'.toUInt8 (c :: s) = (true, c, s) := rfl

theorem strtoBase_zero_of_ne {c : UInt8} (h : c ≠ '0'.toUInt8) (s : List UInt8) :
    strtoBase 0 c s = (10, c, s) := by
  simp [strtoBase, h]

/-- A decimal number that ends the string, against the limit `L`: its value when it is at most
`L`, else what the caller returns on overflow. -/
theorem strtoDigits_clamp {u : UInt8} {us : List UInt8} {n : Nat} (hdig : Digits 10 (u :: us))
    (hval : digitsValue 10 0 (u :: us) = n) (L : Nat) {α : Type} (onOverflow : α) (f : Nat → α) :
    (if (strtoDigits 10 (L / 10) (L % 10) u us 0 0).2 < 0 then onOverflow
      else f (strtoDigits 10 (L / 10) (L % 10) u us 0 0).1) = if n ≤ L then f n else onOverflow := by
  obtain ⟨hle, hgt⟩ := strtoDigits_digits (L := L) (by decide : 0 < 10) us u 0 0 le_rfl hdig
  rw [hval] at hle hgt
  by_cases hL : n ≤ L
  · rw [hle hL, if_pos hL]
    rfl
  · rw [if_pos (hgt (by omega)), if_neg hL]

/-- `strtol` and `strtoul` with base `0` read back the decimal text of every number, as
`OSSerialize` writes it, clamped to `LONG_MAX` and `ULONG_MAX`; with a `-` in front, `strtol`
reads its negative, clamped to `LONG_MIN`. -/
theorem strtol_decimal (n : Nat) :
    strtol ((Nat.toDigits 10 n).map Char.toUInt8) 0 = min n (2 ^ 63 - 1) ∧
      strtol ('-'.toUInt8 :: (Nat.toDigits 10 n).map Char.toUInt8) 0 = -(min n (2 ^ 63) : Nat) ∧
      strtoul ((Nat.toDigits 10 n).map Char.toUInt8) 0 = min n (2 ^ 64 - 1) := by
  rcases Nat.eq_zero_or_pos n with rfl | hn
  · -- `0` is read in octal, which gives `0` as well
    decide
  obtain ⟨c, cs, hcs, hc0⟩ := toDigits_head hn
  have hcd : c.isDigit = true := Nat.isDigit_of_mem_toDigits (by decide) (by decide) (hcs ▸ List.mem_cons_self)
  obtain ⟨hsp, hm, hp, hz⟩ := lead_digit hcd hc0
  have hdig := digits_toDigits n
  have hval := digitsValue_toDigits n
  rw [hcs, List.map_cons] at hdig hval ⊢
  refine ⟨?_, ?_, ?_⟩
  · unfold strtol
    rw [skipSpace_cons hsp]
    dsimp only
    rw [strtoSign_of_ne hm hp]
    dsimp only
    rw [strtoBase_zero_of_ne hz]
    simp only [Bool.false_eq_true, ↓reduceIte]
    rw [strtoDigits_clamp hdig hval _ _ fun acc => (acc : Int)]
    split <;> omega
  · unfold strtol
    rw [skipSpace_cons (by decide)]
    dsimp only
    rw [strtoSign_minus]
    dsimp only
    rw [strtoBase_zero_of_ne hz]
    simp only [↓reduceIte]
    rw [strtoDigits_clamp hdig hval _ _ fun acc => -(acc : Int)]
    split <;> omega
  · unfold strtoul
    rw [skipSpace_cons hsp]
    dsimp only
    rw [strtoSign_of_ne hm hp]
    dsimp only
    rw [strtoBase_zero_of_ne hz]
    simp only [Bool.false_eq_true, ↓reduceIte]
    rw [strtoDigits_clamp hdig hval _ _ fun acc => acc]
    split <;> omega

end IOKit
