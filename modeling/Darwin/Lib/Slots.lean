import Mathlib.Data.List.GetD

/-!
# Reading a slot of a table after a write

A C table kept as an array is modelled as a list read with `getD`, which gives the zero value
past the end. These lemmas read one slot back after `set`, after `modify` and after the table
grows by zero-filled slots.
-/

namespace Slots

variable {α : Type} (l : List α) (d : α)

theorem getD_set (i j : Nat) (a : α) :
    (l.set i a).getD j d = if i = j ∧ i < l.length then a else l.getD j d := by
  simp only [List.getD_eq_getElem?_getD, List.getElem?_set]
  by_cases hij : i = j
  · subst hij
    by_cases hi : i < l.length <;> simp [hi]
  · simp [hij]

theorem getD_modify (i j : Nat) (f : α → α) :
    (l.modify i f).getD j d = if i = j ∧ i < l.length then f (l.getD j d) else l.getD j d := by
  simp only [List.getD_eq_getElem?_getD, List.getElem?_modify]
  by_cases hij : i = j
  · subst hij
    by_cases hi : i < l.length <;> simp [hi]
  · simp [hij]

theorem length_foldl_set (ks : List Nat) (o : Nat) (v : Nat → α) :
    (ks.foldl (fun l k => l.set (o + k) (v k)) l).length = l.length := by
  induction ks generalizing l with
  | nil => rfl
  | cons k ks ih => rw [List.foldl_cons, ih, List.length_set]

/-- The slots `o .. o + m - 1` set one after another, slot `o + k` to `v k`, as a copy loop
does. -/
theorem getD_foldl_set_range (o m : Nat) (v : Nat → α) (j : Nat) :
    ((List.range m).foldl (fun l k => l.set (o + k) (v k)) l).getD j d =
      if o ≤ j ∧ j < o + m ∧ j < l.length then v (j - o) else l.getD j d := by
  induction m with
  | zero => simp only [List.range_zero, List.foldl_nil]; split <;> first | omega | rfl
  | succ m ih =>
    rw [List.range_succ, List.foldl_append, List.foldl_cons, List.foldl_nil, getD_set, ih,
      length_foldl_set]
    by_cases hj : j = o + m
    · subst hj
      simp only [Nat.add_sub_cancel_left, true_and]
      by_cases hl : o + m < l.length <;> simp [hl]
    · have : ¬ (o + m = j ∧ o + m < l.length) := fun h => hj h.1.symm
      rw [if_neg this]
      by_cases hr : o ≤ j ∧ j < o + m ∧ j < l.length
      · rw [if_pos hr, if_pos (by omega)]
      · rw [if_neg hr, if_neg (by omega)]

/-- Slots added with the zero value read as they did past the old end. -/
theorem getD_append_replicate (n j : Nat) :
    (l ++ List.replicate n d).getD j d = l.getD j d := by
  by_cases hj : j < l.length
  · exact List.getD_append _ _ _ _ hj
  · rw [List.getD_append_right _ _ _ _ (Nat.le_of_not_lt hj),
      List.getD_eq_default _ _ (Nat.le_of_not_lt hj)]
    simp only [List.getD_eq_getElem?_getD, List.getElem?_replicate]
    split <;> rfl

end Slots
