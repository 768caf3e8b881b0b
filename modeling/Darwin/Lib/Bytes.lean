import Mathlib.Data.List.GetD
import Mathlib.Algebra.Order.Group.Nat

/-!
# Little-endian words over byte memory

The decoders of this development read their input through a memory `Nat → UInt8`: the input
buffer is the memory below its size, and what lies past it is whatever the address space holds.
A word of `n` bytes is read least significant byte first, as on every target of the source.
The encoders produce byte lists; `toMem` turns one into a memory, zero past its end.
-/

namespace Bytes

/-- The `n` little-endian bytes of `w`; bits above `8 * n` are dropped. -/
def le : Nat → Nat → List UInt8
  | 0, _ => []
  | n + 1, w => UInt8.ofNat (w % 256) :: le n (w / 256)

/-- The `n`-byte little-endian word of `mem` at byte offset `p`. -/
def rd : Nat → (Nat → UInt8) → Nat → Nat
  | 0, _, _ => 0
  | n + 1, mem, p => (mem p).toNat + 256 * rd n mem (p + 1)

/-- A byte list as memory: zero past its end. -/
def toMem (l : List UInt8) : Nat → UInt8 := fun i => l.getD i 0

/-- The offsets `p, …, p + n - 1` that an `n`-byte access at `p` touches. -/
def span (p n : Nat) : List Nat := (List.range n).map (p + ·)

@[simp] theorem length_le (n w : Nat) : (le n w).length = n := by
  induction n generalizing w with
  | zero => rfl
  | succ n ih => simp [le, ih]

@[simp] theorem mem_span {p n i : Nat} : i ∈ span p n ↔ p ≤ i ∧ i < p + n := by
  simp only [span, List.mem_map, List.mem_range]
  constructor
  · rintro ⟨k, hk, rfl⟩; omega
  · intro h; exact ⟨i - p, by omega, by omega⟩

theorem rd_lt (n : Nat) (mem : Nat → UInt8) (p : Nat) : rd n mem p < 256 ^ n := by
  induction n generalizing p with
  | zero => simp [rd]
  | succ n ih =>
    have hb := (mem p).toNat_lt
    have := ih (p + 1)
    simp only [rd, Nat.pow_succ]
    omega

/-- A read depends only on the bytes it touches. -/
theorem rd_congr {n : Nat} {mem mem' : Nat → UInt8} {p : Nat}
    (h : ∀ i, p ≤ i → i < p + n → mem i = mem' i) : rd n mem p = rd n mem' p := by
  induction n generalizing p with
  | zero => rfl
  | succ n ih =>
    simp only [rd]
    rw [h p (Nat.le_refl _) (by omega), ih (fun i h1 h2 => h i (by omega) (by omega))]

@[simp] theorem toMem_append_left (l r : List UInt8) (i : Nat) (h : i < l.length) :
    toMem (l ++ r) i = toMem l i := by
  simp [toMem, List.getElem?_append_left h]

@[simp] theorem toMem_append_right (l r : List UInt8) (i : Nat) :
    toMem (l ++ r) (l.length + i) = toMem r i := by
  simp [toMem, List.getElem?_append_right]

/-- Reading past a prefix is reading the rest. -/
theorem rd_toMem_append (n : Nat) (pre l : List UInt8) (p : Nat) :
    rd n (toMem (pre ++ l)) (pre.length + p) = rd n (toMem l) p := by
  induction n generalizing p with
  | zero => rfl
  | succ n ih =>
    simp only [rd, toMem_append_right]
    rw [show pre.length + p + 1 = pre.length + (p + 1) by omega, ih]

/-- Reading back what `le` wrote gives the word modulo `256 ^ n`. -/
theorem rd_le (n w : Nat) (r : List UInt8) : rd n (toMem (le n w ++ r)) 0 = w % 256 ^ n := by
  induction n generalizing w with
  | zero => simp [rd, Nat.mod_one]
  | succ n ih =>
    have htail : rd n (toMem (le (n + 1) w ++ r)) 1 = (w / 256) % 256 ^ n := by
      have := rd_toMem_append n [UInt8.ofNat (w % 256)] (le n (w / 256) ++ r) 0
      simpa [le, ih] using this
    have hb : (toMem (le (n + 1) w ++ r) 0).toNat = w % 256 := by
      simp only [le, toMem, List.cons_append, List.getD_cons_zero]
      rw [UInt8.toNat_ofNat']
      omega
    simp only [rd]
    rw [htail, hb, Nat.pow_succ', Nat.mod_mul]

theorem le_add (m n w : Nat) : le (m + n) w = le m w ++ le n (w / 256 ^ m) := by
  induction m generalizing w with
  | zero => simp [le]
  | succ m ih =>
    rw [show m + 1 + n = (m + n) + 1 by omega, le, le, ih, Nat.div_div_eq_div_mul, ← Nat.pow_succ']
    rfl

/-- A word written by `le` inside a buffer reads back modulo `256 ^ n`. -/
theorem rd_le_at (n w : Nat) (pre r : List UInt8) :
    rd n (toMem (pre ++ le n w ++ r)) pre.length = w % 256 ^ n := by
  have := rd_toMem_append n pre (le n w ++ r) 0
  rw [Nat.add_zero] at this
  rw [List.append_assoc, this, rd_le]

/-- The bytes of a list inside a buffer. -/
theorem toMem_at (pre l r : List UInt8) {i : Nat} (hi : i < l.length) :
    toMem (pre ++ l ++ r) (pre.length + i) = l[i] := by
  rw [List.append_assoc, toMem_append_right, toMem_append_left _ _ _ hi]
  simp [toMem, List.getElem?_eq_getElem hi]

/-! ## Writing -/

/-- `mem` with the bytes of `l` stored from offset `p` on. -/
def wr (mem : Nat → UInt8) (p : Nat) (l : List UInt8) : Nat → UInt8 :=
  fun i => if p ≤ i ∧ i < p + l.length then l.getD (i - p) 0 else mem i

/-- The `n` bytes of `mem` from offset `p`. -/
def bytes (mem : Nat → UInt8) (p n : Nat) : List UInt8 := (List.range n).map fun k => mem (p + k)

@[simp] theorem length_bytes (mem : Nat → UInt8) (p n : Nat) : (bytes mem p n).length = n := by
  simp [bytes]

theorem wr_of_lt {mem : Nat → UInt8} {p i : Nat} (l : List UInt8) (h : i < p) : wr mem p l i = mem i := by
  simp only [wr]
  rw [if_neg (by omega)]

theorem wr_of_ge {mem : Nat → UInt8} {p i : Nat} {l : List UInt8} (h : p + l.length ≤ i) :
    wr mem p l i = mem i := by
  simp only [wr]
  rw [if_neg (by omega)]

theorem wr_at {mem : Nat → UInt8} {p k : Nat} {l : List UInt8} (hk : k < l.length) :
    wr mem p l (p + k) = l[k] := by
  simp only [wr]
  rw [if_pos (by omega), Nat.add_sub_cancel_left, List.getD_eq_getElem _ _ hk]

/-- Bytes read back depend only on the bytes they cover. -/
theorem bytes_congr {mem mem' : Nat → UInt8} {p n : Nat}
    (h : ∀ i, p ≤ i → i < p + n → mem i = mem' i) : bytes mem p n = bytes mem' p n := by
  simp only [bytes, List.map_inj_left, List.mem_range]
  intro k hk
  exact h (p + k) (by omega) (by omega)

theorem bytes_wr (mem : Nat → UInt8) (p : Nat) (l : List UInt8) : bytes (wr mem p l) p l.length = l := by
  apply List.ext_getElem (by simp)
  intro k hk _
  simp only [bytes, List.getElem_map, List.getElem_range]
  exact wr_at (by simpa using hk)

/-- A read from `p` is a read from `0` of the memory seen from `p`. -/
theorem rd_shift (n : Nat) (mem : Nat → UInt8) (p : Nat) : rd n mem p = rd n (fun i => mem (p + i)) 0 := by
  induction n generalizing mem p with
  | zero => rfl
  | succ n ih =>
    have h₁ := ih mem (p + 1)
    have h₂ := ih (fun i => mem (p + i)) 1
    simp only [rd, Nat.add_zero]
    rw [h₁, h₂]
    simp only [Nat.add_assoc, Nat.add_comm 1]

/-- A word stored by `le` reads back modulo `256 ^ n`. -/
theorem rd_wr_le (n w : Nat) (mem : Nat → UInt8) (p : Nat) : rd n (wr mem p (le n w)) p = w % 256 ^ n := by
  rw [rd_shift, ← rd_le n w []]
  apply rd_congr
  intro i _ hi
  rw [wr_at (by simpa using hi), List.append_nil, toMem, List.getD_eq_getElem]

/-- A read of bytes that a write does not touch. -/
theorem rd_wr_of_disjoint {n q p : Nat} {mem : Nat → UInt8} {l : List UInt8}
    (h : q + n ≤ p ∨ p + l.length ≤ q) : rd n (wr mem p l) q = rd n mem q := by
  apply rd_congr
  intro i h₁ h₂
  rcases h with h | h
  · exact wr_of_lt l (by omega)
  · exact wr_of_ge (by omega)

theorem bytes_wr_of_disjoint {n q p : Nat} {mem : Nat → UInt8} {l : List UInt8}
    (h : q + n ≤ p ∨ p + l.length ≤ q) : bytes (wr mem p l) q n = bytes mem q n := by
  apply bytes_congr
  intro i h₁ h₂
  rcases h with h | h
  · exact wr_of_lt l (by omega)
  · exact wr_of_ge (by omega)

end Bytes
