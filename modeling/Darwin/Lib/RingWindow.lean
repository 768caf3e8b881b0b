import Mathlib.Data.List.Basic

/-!
# The occupied cells of a ring, oldest first

A ring of `cap` cells that holds `n` elements from cell `f` on keeps its `k`-th element in cell
`(f + k) % cap`. `window g cap f n` reads them through `g`, oldest first: a queue kept in a ring
buffer is this list.

The lemmas say how the window moves when the ring does. Taking from the front moves `f` on
(`window_cons`, `drop_window`), taking from the back shortens it (`window_succ`, read backwards,
with `mod_eq_pred` for the cell before the end), and writing the cells after it appends to it
(`window_push`), as long as the cells written are not in the window. Cells `(f + i) % cap` and `(f + j) % cap` differ for `i < j < cap` (`add_mod_ne`), so a
window no longer than the ring never holds a cell twice.
-/

namespace RingWindow

variable {β : Type} (g : Nat → β) (cap : Nat)

/-- The `n` cells from `f` on, wrapping at `cap`, read through `g`. -/
def window (f n : Nat) : List β := (List.range n).map fun k => g ((f + k) % cap)

section Window

variable {g cap}

@[simp] theorem length_window (f n : Nat) : (window g cap f n).length = n := by
  simp [window]

@[simp] theorem window_zero (f : Nat) : window g cap f 0 = [] := rfl

theorem getElem_window {f n k : Nat} (hk : k < (window g cap f n).length) :
    (window g cap f n)[k] = g ((f + k) % cap) := by
  simp [window]

theorem window_succ (f n : Nat) : window g cap f (n + 1) = window g cap f n ++ [g ((f + n) % cap)] := by
  simp only [window, List.range_succ, List.map_append, List.map_singleton]

/-- `n + m` cells are the first `n`, then `m` more from `f + n`. -/
theorem window_add (f n m : Nat) : window g cap f (n + m) = window g cap f n ++ window g cap (f + n) m := by
  induction m with
  | zero => simp
  | succ m ih => rw [← Nat.add_assoc, window_succ, ih, window_succ, List.append_assoc, Nat.add_assoc]

theorem window_cons (f n : Nat) : window g cap f (n + 1) = g (f % cap) :: window g cap (f + 1) n := by
  rw [Nat.add_comm n 1, window_add]
  simp [window]

/-- Only `f % cap` matters. -/
theorem window_mod (f n : Nat) : window g cap (f % cap) n = window g cap f n := by
  simp only [window, Nat.mod_add_mod]

theorem drop_window (f n k : Nat) : (window g cap f n).drop k = window g cap (f + k) (n - k) := by
  rcases Nat.lt_or_ge n k with h | h
  · rw [List.drop_eq_nil_of_le (by simp; omega), Nat.sub_eq_zero_of_le (by omega), window_zero]
  · obtain ⟨m, rfl⟩ := Nat.exists_eq_add_of_le h
    rw [window_add, List.drop_left' (length_window f k), Nat.add_sub_cancel_left]

theorem take_window (f n k : Nat) : (window g cap f n).take k = window g cap f (min k n) := by
  simp only [window, ← List.map_take, List.take_range]

/-- A reader that agrees on the window's cells reads the same window. -/
theorem window_congr {g' : Nat → β} {f n : Nat} (h : ∀ k < n, g' ((f + k) % cap) = g ((f + k) % cap)) :
    window g' cap f n = window g cap f n :=
  List.map_congr_left fun k hk => h k (List.mem_range.mp hk)

end Window

/-- Offsets less than a turn apart name different cells. -/
theorem add_mod_ne {f i j cap : Nat} (hij : i < j) (hj : j < cap) : (f + i) % cap ≠ (f + j) % cap := by
  intro h
  have hd : cap ∣ (f + j) - (f + i) := Nat.dvd_of_mod_eq_zero (Nat.sub_mod_eq_zero_of_mod_eq h.symm)
  have : (f + j) - (f + i) = 0 := Nat.eq_zero_of_dvd_of_lt hd (by omega)
  omega

/-- An offset less than a turn past a cell `f < cap` is at `f + n` or, once past the end, at
`f + n - cap`. -/
theorem add_mod_cases {f n cap : Nat} (hf : f < cap) (hn : n ≤ cap) :
    (f + n < cap ∧ (f + n) % cap = f + n) ∨ (cap ≤ f + n ∧ (f + n) % cap = f + n - cap) := by
  rcases Nat.lt_or_ge (f + n) cap with h | h
  · exact Or.inl ⟨h, Nat.mod_eq_of_lt h⟩
  · refine Or.inr ⟨h, ?_⟩
    rw [Nat.mod_eq_sub_mod h, Nat.mod_eq_of_lt (by omega)]

/-- A pointer moved on and put back to the start when it reaches the end. -/
theorem wrap_eq_mod {a cap : Nat} (ha : a ≤ cap) : (if a = cap then 0 else a) = a % cap := by
  split
  · rename_i h
    rw [h, Nat.mod_self]
  · rw [Nat.mod_eq_of_lt (by omega)]

/-- The cell before the one after `x`, back to the last cell from `0`. -/
theorem mod_eq_pred {cap : Nat} (hcap : 0 < cap) (x : Nat) :
    x % cap = if (x + 1) % cap = 0 then cap - 1 else (x + 1) % cap - 1 := by
  have hr := Nat.mod_lt x hcap
  rw [← Nat.mod_add_mod x cap 1]
  rcases Nat.lt_or_ge (x % cap + 1) cap with hlt | hge
  · rw [Nat.mod_eq_of_lt hlt, if_neg (by omega)]
    omega
  · rw [show x % cap + 1 = cap by omega, Nat.mod_self, if_pos rfl]
    omega

section Push

variable {g cap} {g' : Nat → β} {f n m : Nat}

/-- Writing the `m` cells after a window of `n`, with `n + m ≤ cap`, appends them to it: a reader
`g'` that agrees with `g` off those cells reads the old window, then the new cells. -/
theorem window_push (hnm : n + m ≤ cap) (hkeep : ∀ p, (∀ j < m, p ≠ (f + n + j) % cap) → g' p = g p) :
    window g' cap f (n + m) = window g cap f n ++ window g' cap (f + n) m := by
  rw [window_add]
  congr 1
  refine window_congr fun k hk => hkeep _ fun j hj => ?_
  rw [Nat.add_assoc]
  exact add_mod_ne (by omega) (by omega)

end Push

end RingWindow
