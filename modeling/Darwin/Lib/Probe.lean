import Mathlib.Data.List.Range

/-!
# Linear probing over a ring of slots

Open-addressing tables walk their slots from a home slot `base`, one slot at a time modulo the
table size `n`, until a test holds, and give up when the walk comes back to `base`. `walk` is
that loop as C writes it (`while (!stop(idx)) { idx = (idx + 1) % n; if (idx == base) fail; }`),
with a fuel argument that `n` makes large enough. Its meaning is a search over the probe
sequence `slot n base 0, slot n base 1, …`: `walk_eq` says the walk stops at the first probe
step whose slot passes the test.
-/

namespace Probe

/-- The slot visited at step `j` of a probe of `n` slots from `base`. -/
def slot (n base j : Nat) : Nat := (base + j) % n

/-- The probe loop: test `idx`, else step to the next slot, failing on a return to `base`. -/
def walk (stop : Nat → Bool) (n base : Nat) : Nat → Nat → Option Nat
  | 0, _ => none
  | fuel + 1, idx =>
    if stop idx then some idx
    else
      let idx := (idx + 1) % n
      if idx = base then none else walk stop n base fuel idx

section
variable {n base : Nat}

theorem slot_lt (hn : 0 < n) (j : Nat) : slot n base j < n := Nat.mod_lt _ hn

theorem slot_zero (hb : base < n) : slot n base 0 = base := by
  simp [slot, Nat.mod_eq_of_lt hb]

theorem slot_succ (j : Nat) : slot n base (j + 1) = (slot n base j + 1) % n := by
  rw [slot, slot, ← Nat.add_assoc, Nat.mod_add_mod]

/-- Two probe steps less than `n` apart land on different slots. -/
theorem slot_ne_of_lt {i j : Nat} (hij : i < j) (hj : j < n) : slot n base i ≠ slot n base j := by
  intro h
  have hd : n ∣ (base + j) - (base + i) :=
    Nat.dvd_of_mod_eq_zero (Nat.sub_mod_eq_zero_of_mod_eq h.symm)
  have : (base + j) - (base + i) = 0 := Nat.eq_zero_of_dvd_of_lt hd (by omega)
  omega

/-- The first `n` steps of a probe visit distinct slots. -/
theorem slot_injective {i j : Nat} (hi : i < n) (hj : j < n) (h : slot n base i = slot n base j) :
    i = j := by
  rcases Nat.lt_trichotomy i j with hij | hij | hij
  · exact absurd h (slot_ne_of_lt hij hj)
  · exact hij
  · exact absurd h.symm (slot_ne_of_lt hij hi)

/-- Within the first `n` steps the probe is back at `base` only after all `n` of them. -/
theorem slot_succ_eq_base_iff (hb : base < n) {j : Nat} (hj : j < n) :
    slot n base (j + 1) = base ↔ j + 1 = n := by
  constructor
  · intro h
    by_contra hne
    have h0 : slot n base (j + 1) = slot n base 0 := by rw [h, slot_zero hb]
    have := @slot_injective n base (j + 1) 0 (by omega) (by omega) h0
    omega
  · intro h
    simp [slot, h, Nat.mod_eq_of_lt hb]

/-- From step `k`, with the `n - k` steps left as fuel, the walk finds the first later step
whose slot passes the test. -/
theorem walk_from (stop : Nat → Bool) (hb : base < n) :
    ∀ m k, k + m = n → 0 < m →
      walk stop n base m (slot n base k) =
        ((List.range' k m).find? fun j => stop (slot n base j)).map (slot n base)
  | 0, _, _, hm => absurd hm (by omega)
  | m + 1, k, hkm, _ => by
    simp only [walk, List.range'_succ, List.find?_cons]
    by_cases hs : stop (slot n base k)
    · simp [hs]
    · simp only [hs, Bool.false_eq_true, ↓reduceIte]
      rw [← slot_succ]
      by_cases hm : m = 0
      · subst hm
        have : slot n base (k + 1) = base := (slot_succ_eq_base_iff hb (by omega)).2 (by omega)
        simp [this]
      · have hne : slot n base (k + 1) ≠ base := fun h =>
          absurd ((slot_succ_eq_base_iff hb (by omega)).1 h) (by omega)
        simp only [hne, ↓reduceIte]
        exact walk_from stop hb m (k + 1) (by omega) (by omega)

/-- The probe loop run from `base` with fuel `n` is a search over the probe steps `0, …, n - 1`. -/
theorem walk_eq (stop : Nat → Bool) (hb : base < n) :
    walk stop n base n base = ((List.range n).find? fun j => stop (slot n base j)).map (slot n base) := by
  have h := walk_from stop hb n 0 (by omega) (by omega)
  rw [List.range_eq_range']
  rwa [slot_zero hb] at h

/-- What the walk returns is the slot of a step where the test holds and held at no earlier step. -/
theorem walk_eq_some_iff (stop : Nat → Bool) (hb : base < n) {r : Nat} :
    walk stop n base n base = some r ↔
      ∃ j < n, r = slot n base j ∧ stop r = true ∧ ∀ i < j, stop (slot n base i) = false := by
  rw [walk_eq stop hb, Option.map_eq_some_iff]
  constructor
  · rintro ⟨j, hfind, rfl⟩
    rw [List.find?_eq_some_iff_getElem] at hfind
    obtain ⟨hstop, i, hi, hget, hbefore⟩ := hfind
    simp only [List.length_range] at hi
    simp only [List.getElem_range] at hget
    subst hget
    refine ⟨i, hi, rfl, hstop, fun i' hi' => ?_⟩
    simpa using hbefore i' hi'
  · rintro ⟨j, hj, rfl, hstop, hbefore⟩
    refine ⟨j, ?_, rfl⟩
    rw [List.find?_eq_some_iff_getElem]
    refine ⟨hstop, j, by simpa using hj, by simp, fun i hij => ?_⟩
    simpa using hbefore i (by simpa using hij)

/-- The walk stops at step `j` when the test fails at every earlier step and holds at `j`. -/
theorem walk_eq_some (stop : Nat → Bool) (hb : base < n) {j : Nat} (hj : j < n)
    (hstop : stop (slot n base j) = true) (hbefore : ∀ i < j, stop (slot n base i) = false) :
    walk stop n base n base = some (slot n base j) :=
  (walk_eq_some_iff stop hb).2 ⟨j, hj, rfl, hstop, hbefore⟩

end

end Probe
