import Mathlib.Data.List.Basic

/-!
# Absorbing a stream one block at a time

A streaming hash keeps a state and feeds it whole blocks of its input, holding back what does not
yet fill a block. `absorb f bs s l` is the state after the whole blocks of `l`, fed to `f` one
at a time from `s`.

Cutting the input on a block boundary changes nothing (`absorb_append`), and fewer than `bs`
elements are not fed (`absorb_of_lt`). An implementation that feeds `n` blocks
at once, as a `compress (s, n, data)` does, agrees with `absorb` when it is the fold of its
one-block step (`absorb_eq_foldl`).
-/

namespace Absorb

variable {α σ : Type}

/-- The first `n` blocks of `bs` elements of `l`. -/
def blocks (bs n : Nat) (l : List α) : List (List α) :=
  (List.range n).map fun i => (l.drop (bs * i)).take bs

/-- The state after the whole blocks of `l`, fed to `f` one at a time from `s`. -/
def absorb (f : σ → List α → σ) (bs : Nat) (s : σ) (l : List α) : σ :=
  (blocks bs (l.length / bs) l).foldl f s

section Blocks

variable {bs n : Nat}

theorem blocks_succ (bs n : Nat) (l : List α) :
    blocks bs (n + 1) l = blocks bs n l ++ [(l.drop (bs * n)).take bs] := by
  simp only [blocks, List.range_succ, List.map_append, List.map_singleton]

/-- Blocks that lie inside `l` do not see what follows it. -/
theorem blocks_append_of_le {l : List α} (h : bs * n ≤ l.length) (r : List α) :
    blocks bs n (l ++ r) = blocks bs n l := by
  refine List.map_congr_left fun i hi => ?_
  have hin : bs * i + bs ≤ l.length := by
    have := List.mem_range.mp hi
    calc bs * i + bs = bs * (i + 1) := by rw [Nat.mul_succ]
      _ ≤ bs * n := Nat.mul_le_mul_left bs this
      _ ≤ l.length := h
  rw [List.drop_append_of_le_length (by omega),
    List.take_append_of_le_length (by rw [List.length_drop]; omega)]

/-- After `n` whole blocks, the blocks are those of the rest. -/
theorem blocks_add {l : List α} (h : l.length = bs * n) (k : Nat) (r : List α) :
    blocks bs (n + k) (l ++ r) = blocks bs n l ++ blocks bs k r := by
  induction k with
  | zero =>
    rw [Nat.add_zero, blocks_append_of_le (Nat.le_of_eq h.symm)]
    exact (List.append_nil _).symm
  | succ k ih =>
    rw [← Nat.add_assoc, blocks_succ, ih, blocks_succ, List.append_assoc, Nat.mul_add, ← h,
      List.drop_append, List.drop_eq_nil_of_le (by omega), List.nil_append,
      Nat.add_sub_cancel_left]

end Blocks

section Absorb

variable (f : σ → List α → σ) {bs : Nat}

/-- `n` whole blocks fed at once are the fold of `f` over them. -/
theorem absorb_eq_foldl (hbs : 0 < bs) {l : List α} {n : Nat} (h : l.length = bs * n) (s : σ) :
    absorb f bs s l = (blocks bs n l).foldl f s := by
  rw [absorb, h, Nat.mul_div_cancel_left n hbs]

/-- Fewer than a block's elements feed nothing. -/
theorem absorb_of_lt {l : List α} (h : l.length < bs) (s : σ) : absorb f bs s l = s := by
  rw [absorb, Nat.div_eq_of_lt h]
  rfl

/-- A block alone is one step. -/
theorem absorb_block (hbs : 0 < bs) {l : List α} (h : l.length = bs) (s : σ) :
    absorb f bs s l = f s l := by
  rw [absorb_eq_foldl f hbs (n := 1) (by rw [h, Nat.mul_one]), blocks, List.range_one,
    List.map_singleton, Nat.mul_zero, List.drop_zero, List.take_of_length_le (Nat.le_of_eq h)]
  rfl

/-- Input cut on a block boundary is fed in two parts. -/
theorem absorb_append (hbs : 0 < bs) {l : List α} (hl : l.length % bs = 0) (s : σ) (r : List α) :
    absorb f bs s (l ++ r) = absorb f bs (absorb f bs s l) r := by
  have hn : l.length = bs * (l.length / bs) := (Nat.mul_div_cancel' (Nat.dvd_of_mod_eq_zero hl)).symm
  have hdiv : (l ++ r).length / bs = l.length / bs + r.length / bs := by
    rw [List.length_append, hn, Nat.mul_add_div hbs, Nat.mul_div_cancel_left _ hbs]
  rw [absorb, hdiv, blocks_add hn, List.foldl_append, absorb, absorb]

end Absorb

end Absorb
