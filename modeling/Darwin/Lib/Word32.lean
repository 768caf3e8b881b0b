import Mathlib.Data.List.GetD
import Mathlib.Algebra.Order.Group.Nat

/-!
# Guarded 32-bit arithmetic

C code that must not wrap in 32 bits tests each sum against `UINT32_MAX` before it forms the
next one, and rounds sizes up to 4 with `(n + 3) & ~3`. The lemmas here turn such tests and
masks into plain arithmetic on `toNat`, where `omega` decides them.
-/

namespace Word32

/-- The test that `k` bytes at `a`, then `b` more, do not fit below `q`, each sum guarded
against wrapping: it is the test made without wrapping. -/
theorem fit_test_iff {m k q a b : UInt32} (hm : m.toNat = 4294967295) (hk : k.toNat ≤ m.toNat) :
    (a > m - k || a + k > q || a + k > m - b || a + b + k > q) = true ↔
      q.toNat < a.toNat + k.toNat + b.toNat := by
  have hq := q.toNat_lt
  have ha := a.toNat_lt
  have hb := b.toNat_lt
  simp only [Bool.or_eq_true, decide_eq_true_eq, gt_iff_lt, UInt32.lt_iff_toNat_lt,
    UInt32.toNat_add, UInt32.toNat_sub, hm]
  omega

/-- The same test with the size first: `a` bytes and a `k`-byte header, placed at `b`, do not
fit below `q`. -/
theorem span_test_iff {m k q a b : UInt32} (hm : m.toNat = 4294967295) (hk : k.toNat ≤ m.toNat) :
    (a > m - k || a + k > m - b || a + k + b > q) = true ↔ q.toNat < a.toNat + k.toNat + b.toNat := by
  have hq := q.toNat_lt
  have ha := a.toNat_lt
  have hb := b.toNat_lt
  simp only [Bool.or_eq_true, decide_eq_true_eq, gt_iff_lt, UInt32.lt_iff_toNat_lt,
    UInt32.toNat_add, UInt32.toNat_sub, hm]
  omega

/-- `a` bytes and a `k`-byte header do not fit below `q`. -/
theorem size_test_iff {m k q a : UInt32} (hm : m.toNat = 4294967295) (hk : k.toNat ≤ m.toNat) :
    (a > m - k || a + k > q) = true ↔ q.toNat < a.toNat + k.toNat := by
  have hq := q.toNat_lt
  have ha := a.toNat_lt
  simp only [Bool.or_eq_true, decide_eq_true_eq, gt_iff_lt, UInt32.lt_iff_toNat_lt,
    UInt32.toNat_add, UInt32.toNat_sub, hm]
  omega

/-- `b` bytes fit at `a` below `q`, the sum guarded against wrapping. -/
theorem room_test_iff {m q a b : UInt32} (hm : m.toNat = 4294967295) :
    (b ≤ m - a && a + b ≤ q) = true ↔ a.toNat + b.toNat ≤ q.toNat := by
  have hq := q.toNat_lt
  have ha := a.toNat_lt
  have hb := b.toNat_lt
  simp only [Bool.and_eq_true, decide_eq_true_eq, UInt32.le_iff_toNat_le, UInt32.toNat_add,
    UInt32.toNat_sub, hm]
  omega

/-- `& ~3` clears the two low bits. -/
theorem toNat_and_not_three (x : UInt32) : (x &&& ~~~3).toNat = x.toNat / 4 * 4 := by
  have hx := x.toNat_lt
  have hmask : (~~~(3 : UInt32)).toNat = (2 ^ 30 - 1) * 2 ^ 2 := rfl
  rw [UInt32.toNat_and, hmask, show x.toNat / 4 * 4 = x.toNat / 2 ^ 2 * 2 ^ 2 by rfl]
  apply Nat.eq_of_testBit_eq
  intro i
  simp only [Nat.testBit_and, Nat.testBit_mul_two_pow, Nat.testBit_div_two_pow,
    Nat.testBit_two_pow_sub_one]
  by_cases hi : 2 ≤ i
  · have hi2 : i - 2 + 2 = i := by omega
    by_cases hj : i < 32
    · simp [hi, hi2, show i - 2 < 30 by omega]
    · -- past bit 31 neither side has a bit
      have hbit : x.toNat.testBit i = false :=
        Nat.testBit_lt_two_pow (lt_of_lt_of_le hx (Nat.pow_le_pow_right (by omega) (by omega)))
      simp [hbit, hi2]
  · simp [hi]

theorem toUInt32_toNat (x : UInt32) : x.toNat.toUInt32 = x := UInt32.ofNat_toNat

theorem toNat_toUInt32_of_lt {e : Nat} (he : e < 2 ^ 32) : e.toUInt32.toNat = e := by
  rw [UInt32.toNat_ofNat']
  exact Nat.mod_eq_of_lt he

end Word32
