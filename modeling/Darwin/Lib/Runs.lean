import Mathlib.Data.List.Basic

/-!
# Runs of one value in a list, and the first of the longest

`IsRun z xs b l` says that `xs[b, b + l)` is a nonempty block of `z`s. A scan that walks the
list once, keeping the run it is in and the best run it has closed, and that replaces the best
only by a strictly longer run, ends with the first of the longest runs (`FirstLongest`).

`FirstLongestIn z xs n best` is what such a scan knows of the runs inside `xs[0, n)`, and
`EndsAt z xs n k` says that the run it is in at `n` has length `k`. The rules below are its
steps: one more `z` (`EndsAt.succ`), another value with no run open (`FirstLongestIn.skip`) or
closing the open run (`FirstLongestIn.close`); and at the end of the list, what it has is the
first longest run of the whole list (`FirstLongestIn.firstLongest`).
-/

namespace Runs

variable {α : Type}

section Defs

variable (z : α) (xs : List α)

/-- `xs[b, b + l)` is a nonempty run of `z`. -/
def IsRun (b l : Nat) : Prop := 0 < l ∧ ∀ j, b ≤ j → j < b + l → xs[j]? = some z

/-- The first of the longest runs inside `xs[0, n)`; `none` when there is no run there. -/
def FirstLongestIn (n : Nat) : Option (Nat × Nat) → Prop
  | none => ∀ b l, IsRun z xs b l → n < b + l
  | some (b, l) => IsRun z xs b l ∧ b + l ≤ n ∧
      ∀ b' l', IsRun z xs b' l' → b' + l' ≤ n → l' < l ∨ (l' = l ∧ b ≤ b')

/-- The run of `z` that ends at `n` has length `k`: `k` of them just before `n`, and no more. -/
def EndsAt (n k : Nat) : Prop :=
  k ≤ n ∧ (∀ j, n - k ≤ j → j < n → xs[j]? = some z) ∧ (k < n → xs[n - k - 1]? ≠ some z)

/-- `(b, l)` is the first of the longest runs of `z` in `xs`. -/
def FirstLongest (b l : Nat) : Prop :=
  IsRun z xs b l ∧ ∀ b' l', IsRun z xs b' l' → l' < l ∨ (l' = l ∧ b ≤ b')

end Defs

/-- The scan's choice when it closes the run `(b, l)`: the best is replaced only by a strictly
longer run. -/
def pick (best : Option (Nat × Nat)) (b l : Nat) : Option (Nat × Nat) :=
  match best with
  | none => some (b, l)
  | some (b', l') => if l' < l then some (b, l) else some (b', l')

variable {z : α} {xs : List α} {n k b l : Nat}

theorem IsRun.end_le_length (h : IsRun z xs b l) : b + l ≤ xs.length := by
  obtain ⟨hl, hr⟩ := h
  have hlast := hr (b + l - 1) (by omega) (by omega)
  have := (List.getElem?_eq_some_iff.mp hlast).1
  omega

/-- A run splits the list into what comes before it, the run, and what comes after it. -/
theorem IsRun.eq_take_append (h : IsRun z xs b l) :
    xs = xs.take b ++ List.replicate l z ++ xs.drop (b + l) := by
  have hle := h.end_le_length
  -- the `l` values from `b` on are the run
  have hrun : (xs.drop b).take l = List.replicate l z := by
    refine List.eq_replicate_iff.mpr ⟨by simp; omega, fun a ha => ?_⟩
    obtain ⟨i, hi⟩ := List.mem_iff_getElem?.mp ha
    rw [List.getElem?_take, List.getElem?_drop] at hi
    split_ifs at hi with hil
    · rw [h.2 (b + i) (by omega) (by omega)] at hi
      exact (Option.some.inj hi).symm
  calc xs = xs.take b ++ xs.drop b := (List.take_append_drop b xs).symm
    _ = xs.take b ++ ((xs.drop b).take l ++ (xs.drop b).drop l) := by
      rw [List.take_append_drop l (xs.drop b)]
    _ = xs.take b ++ List.replicate l z ++ xs.drop (b + l) := by
      rw [hrun, List.drop_drop, List.append_assoc]

theorem firstLongestIn_zero : FirstLongestIn z xs 0 none := by
  intro b l ⟨hl, _⟩
  omega

theorem endsAt_zero : EndsAt z xs 0 0 :=
  ⟨Nat.le_refl 0, fun _ _ hj => absurd hj (Nat.not_lt_zero _), fun h => absurd h (Nat.lt_irrefl 0)⟩

/-- One more `z` lengthens the run that ends here. -/
theorem EndsAt.succ (h : EndsAt z xs n k) (hx : xs[n]? = some z) : EndsAt z xs (n + 1) (k + 1) := by
  obtain ⟨hk, hrun, hstop⟩ := h
  refine ⟨by omega, fun j hj hj' => ?_, fun hlt => ?_⟩
  · rcases Nat.lt_or_ge j n with hjn | hjn
    · exact hrun j (by omega) hjn
    · rw [show j = n by omega]
      exact hx
  · rw [show n + 1 - (k + 1) - 1 = n - k - 1 by omega]
    exact hstop (by omega)

/-- Another value leaves no run open. -/
theorem endsAt_of_ne (hx : xs[n]? ≠ some z) : EndsAt z xs (n + 1) 0 := by
  refine ⟨by omega, fun j hj hj' => by omega, fun _ => ?_⟩
  rw [show n + 1 - 0 - 1 = n by omega]
  exact hx

/-- A run inside `xs[0, n + 1)` stops before a value other than `z` at `n`. -/
theorem IsRun.end_le_of_ne (h : IsRun z xs b l) (hb : b + l ≤ n + 1) (hx : xs[n]? ≠ some z) :
    b + l ≤ n := by
  by_contra hlt
  have := h.2 n (by have := h.1; omega) (by omega)
  exact hx this

/-- A run lies before the run that ends at `n`, or starts inside it. -/
theorem IsRun.before_or_inside (h : IsRun z xs b l) (he : EndsAt z xs n k) :
    b + l ≤ n - k ∨ n - k ≤ b := by
  obtain ⟨-, -, hstop⟩ := he
  rcases Nat.lt_or_ge (n - k) (b + l) with hgt | hle
  · refine .inr (Nat.le_of_not_lt fun hlt => ?_)
    -- the run would hold the value just before the run that ends at `n`
    exact hstop (by omega) (h.2 (n - k - 1) (by omega) (by omega))
  · exact .inl hle

/-- With no run open, another value leaves the best as it was. -/
theorem FirstLongestIn.skip {best : Option (Nat × Nat)} (h : FirstLongestIn z xs n best)
    (hx : xs[n]? ≠ some z) : FirstLongestIn z xs (n + 1) best := by
  match best, h with
  | none, h =>
    intro b l hr
    have hlt := h b l hr
    by_contra hle
    have := hr.end_le_of_ne (by omega) hx
    omega
  | some (b, l), ⟨hr, hb, hbest⟩ =>
    refine ⟨hr, by omega, fun b' l' hr' hb' => hbest b' l' hr' (hr'.end_le_of_ne hb' hx)⟩

/-- Closing the open run of length `k` at `n`: the best becomes `pick best (n - k) k`. -/
theorem FirstLongestIn.close {best : Option (Nat × Nat)} (h : FirstLongestIn z xs (n - k) best)
    (he : EndsAt z xs n k) (hk : 0 < k) (hx : xs[n]? ≠ some z) :
    FirstLongestIn z xs (n + 1) (pick best (n - k) k) := by
  have hopen : IsRun z xs (n - k) k := ⟨hk, fun j hj hj' => he.2.1 j hj (by have := he.1; omega)⟩
  -- every run inside `xs[0, n + 1)` lies before the open run or inside it
  have hsplit : ∀ b' l', IsRun z xs b' l' → b' + l' ≤ n + 1 →
      b' + l' ≤ n - k ∨ (n - k ≤ b' ∧ b' + l' ≤ n) := by
    intro b' l' hr' hb'
    have hn := hr'.end_le_of_ne hb' hx
    rcases hr'.before_or_inside he with h1 | h1
    · exact .inl h1
    · exact .inr ⟨h1, hn⟩
  have hk_le := he.1
  match best, h with
  | none, h =>
    refine ⟨hopen, by omega, fun b' l' hr' hb' => ?_⟩
    rcases hsplit b' l' hr' hb' with h1 | ⟨h1, h2⟩
    · have := h b' l' hr'
      omega
    · omega
  | some (b, l), ⟨hr, hb, hbest⟩ =>
    dsimp only [pick]
    split_ifs with hlt
    · refine ⟨hopen, by omega, fun b' l' hr' hb' => ?_⟩
      rcases hsplit b' l' hr' hb' with h1 | ⟨h1, h2⟩
      · rcases hbest b' l' hr' h1 with h3 | ⟨h3, -⟩ <;> omega
      · omega
    · refine ⟨hr, by omega, fun b' l' hr' hb' => ?_⟩
      rcases hsplit b' l' hr' hb' with h1 | ⟨h1, h2⟩
      · exact hbest b' l' hr' h1
      · omega

/-- At the end of the list, the best run inside it is the first longest run of the list. -/
theorem FirstLongestIn.firstLongest (h : FirstLongestIn z xs n (some (b, l)))
    (hn : xs.length ≤ n) : FirstLongest z xs b l :=
  ⟨h.1, fun b' l' hr' => h.2.2 b' l' hr' (by have := hr'.end_le_length; omega)⟩

/-- At the end of the list, no run inside it means no run at all. -/
theorem FirstLongestIn.no_run (h : FirstLongestIn z xs n none) (hn : xs.length ≤ n)
    (hr : IsRun z xs b l) : False := by
  have := h b l hr
  have := hr.end_le_length
  omega

/-- There is one first longest run. -/
theorem FirstLongest.unique {b' l' : Nat} (h : FirstLongest z xs b l)
    (h' : FirstLongest z xs b' l') : b = b' ∧ l = l' := by
  rcases h.2 b' l' h'.1 with h1 | ⟨h1, h2⟩ <;> rcases h'.2 b l h.1 with h3 | ⟨h3, h4⟩ <;> omega

end Runs
