import Darwin.Corecrypto.Ccn
import Mathlib.Data.Nat.Size

/-!
# What the `ccn` size functions compute

`value` of unit lists with its `cons` and `append` lemmas, and the runs of `ccn_n` and
`ccn_bitlen` over units they can read: `ccn_n` is one more than the index of the last non-zero
unit, or `1` for zero (`ccn_n_run`), and `ccn_bitlen` is the bit length of the value, or `1` for
zero (`ccn_bitlen_run`). Every list of units is zero or splits at its top non-zero unit
(`top_cases`); the proofs go through that split.
-/

namespace Corecrypto.Ccn

open Blocks

/-! ## Values of unit lists -/

@[simp] theorem value_nil : value [] = 0 := rfl

@[simp] theorem value_cons (x : UInt64) (l : List UInt64) :
    value (x :: l) = x.toNat + 2 ^ 64 * value l := by
  simp [value, Nat.ofDigits_cons]

theorem value_append (l₁ l₂ : List UInt64) :
    value (l₁ ++ l₂) = value l₁ + 2 ^ (64 * l₁.length) * value l₂ := by
  simp only [value, List.map_append, Nat.ofDigits_append, List.length_map, ← Nat.pow_mul]

theorem value_lt (l : List UInt64) : value l < 2 ^ (64 * l.length) := by
  rw [Nat.pow_mul, ← List.length_map (f := UInt64.toNat)]
  refine Nat.ofDigits_lt_base_pow_length (by decide) fun x hx => ?_
  obtain ⟨u, -, rfl⟩ := List.mem_map.mp hx
  exact u.toNat_lt

theorem value_eq_zero_of_forall {l : List UInt64} (h : ∀ x ∈ l, x = 0) : value l = 0 := by
  induction l with
  | nil => rfl
  | cons x l ih =>
    rw [value_cons, h x List.mem_cons_self, ih fun y hy => h y (List.mem_cons_of_mem x hy)]
    rfl

/-- Every list of units is zero, or splits at its last non-zero unit. -/
theorem top_cases (l : List UInt64) :
    (∀ x ∈ l, x = 0) ∨
      ∃ pre top zs, l = pre ++ top :: zs ∧ top ≠ 0 ∧ ∀ z ∈ zs, z = 0 := by
  induction l with
  | nil => exact .inl fun _ h => absurd h List.not_mem_nil
  | cons x l ih =>
    rcases ih with hz | ⟨pre, top, zs, rfl, htop, hzs⟩
    · by_cases hx : x = 0
      · left
        intro y hy
        rcases List.mem_cons.mp hy with rfl | hy
        · exact hx
        · exact hz y hy
      · exact .inr ⟨[], x, l, rfl, hx, hz⟩
    · exact .inr ⟨x :: pre, top, zs, rfl, htop, hzs⟩

/-! ## `ccn_n` -/

/-- The loop of `ccn_n` over the units it reads, from index `i`. -/
def lastNonzero : List UInt64 → Nat → Nat → Nat
  | [], _, last => last
  | x :: l, i, last => lastNonzero l (i + 1) (if x != 0 then i else last)

theorem ccn_n_loop_run {m : Mem UInt64} {s : Ptr} {l : List UInt64} {i : Nat} (last : Nat)
    (h : m.Reads (s.add i) l) :
    (ccn_n_loop s l.length i last).run m = some (lastNonzero l i last, m) := by
  induction l generalizing i last with
  | nil => rfl
  | cons x l ih =>
    obtain ⟨hx, hl⟩ := Mem.Reads.cons_iff.mp h
    rw [Ptr.add_add] at hl
    have hrest := ih (i := i + 1) (if x != 0 then i else last) (by push_cast; exact hl)
    have hload : (load s i).run m = some (x, m) := by simp [load, StateT.run, hx]
    rw [List.length_cons, ccn_n_loop, StateT.run_bind, hload]
    exact hrest

theorem lastNonzero_append (l₁ l₂ : List UInt64) (i last : Nat) :
    lastNonzero (l₁ ++ l₂) i last = lastNonzero l₂ (i + l₁.length) (lastNonzero l₁ i last) := by
  induction l₁ generalizing i last with
  | nil => rfl
  | cons x l₁ ih =>
    simp only [List.cons_append, lastNonzero, ih, List.length_cons]
    rw [Nat.add_assoc, Nat.add_comm 1]

theorem lastNonzero_of_zeros {l : List UInt64} (h : ∀ x ∈ l, x = 0) (i last : Nat) :
    lastNonzero l i last = last := by
  induction l generalizing i with
  | nil => rfl
  | cons x l ih =>
    rw [lastNonzero, h x List.mem_cons_self]
    exact ih (fun y hy => h y (List.mem_cons_of_mem x hy)) _

/-- The last non-zero unit of `pre ++ top :: zs` is `top`. -/
theorem lastNonzero_top {pre zs : List UInt64} {top : UInt64} (htop : top ≠ 0)
    (hzs : ∀ z ∈ zs, z = 0) : lastNonzero (pre ++ top :: zs) 0 0 = pre.length := by
  rw [lastNonzero_append, lastNonzero, lastNonzero_of_zeros hzs]
  simp [htop]

theorem ccn_n_run {m : Mem UInt64} {s : Ptr} {l : List UInt64} (h : m.Reads s l) :
    (ccn_n l.length s).run m = some (lastNonzero l 0 0 + 1, m) := by
  have hl := ccn_n_loop_run (i := 0) 0 (by simpa using h)
  simp only [ccn_n, StateT.run_bind, hl]
  rfl

/-! ## `ccn_bitlen` -/

/-- `64 - __builtin_clzl (t)` is the bit length of `t`. -/
theorem unit_bits_sub_clz {t : UInt64} (ht : t ≠ 0) :
    CCN_UNIT_BITS - (CCN_UNIT_BITS - 1 - Nat.log2 t.toNat) = Nat.size t.toNat := by
  have h0 : t.toNat ≠ 0 := fun h => ht (UInt64.toNat_inj.mp (by simpa using h))
  have hlog : Nat.log2 t.toNat < 64 := (Nat.log2_lt h0).mpr t.toNat_lt
  have hsize : Nat.size t.toNat = Nat.log2 t.toNat + 1 := by
    apply Nat.le_antisymm
    · exact Nat.size_le.mpr Nat.lt_log2_self
    · exact Nat.lt_size.mpr (Nat.log2_self_le h0)
  simp only [CCN_UNIT_BITS]
  omega

/-- The bit length of `pre ++ top :: zs` with `top ≠ 0`: the units below `top`, and `top`'s. -/
theorem size_value_top {pre zs : List UInt64} {top : UInt64} (htop : top ≠ 0)
    (hzs : ∀ z ∈ zs, z = 0) :
    Nat.size (value (pre ++ top :: zs)) = 64 * pre.length + Nat.size top.toNat := by
  have hv : value (pre ++ top :: zs) = value pre + 2 ^ (64 * pre.length) * top.toNat := by
    rw [value_append, value_cons, value_eq_zero_of_forall hzs, Nat.mul_zero, Nat.add_zero]
  have ht0 : top.toNat ≠ 0 := fun h => htop (UInt64.toNat_inj.mp (by simpa using h))
  have hpre := value_lt pre
  have hlo : 2 ^ (Nat.size top.toNat - 1) ≤ top.toNat := by
    refine Nat.lt_size.mp ?_
    have : 0 < Nat.size top.toNat := Nat.size_pos.mpr (Nat.pos_of_ne_zero ht0)
    omega
  have hhi : top.toNat < 2 ^ Nat.size top.toNat := Nat.lt_size_self _
  rw [hv]
  apply Nat.le_antisymm
  · -- below `2^(64 |pre|) · (top + 1)`, at most `2^(64 |pre| + size top)`
    refine Nat.size_le.mpr ?_
    calc value pre + 2 ^ (64 * pre.length) * top.toNat
        < 2 ^ (64 * pre.length) * (top.toNat + 1) := by rw [Nat.mul_succ]; omega
      _ ≤ 2 ^ (64 * pre.length) * 2 ^ Nat.size top.toNat := Nat.mul_le_mul_left _ hhi
      _ = 2 ^ (64 * pre.length + Nat.size top.toNat) := (Nat.pow_add _ _ _).symm
  · -- at least `2^(64 |pre|) · 2^(size top - 1)`
    have hpos : 0 < Nat.size top.toNat := Nat.size_pos.mpr (Nat.pos_of_ne_zero ht0)
    have hle : 64 * pre.length + Nat.size top.toNat - 1 <
        Nat.size (value pre + 2 ^ (64 * pre.length) * top.toNat) := by
      refine Nat.lt_size.mpr ?_
      calc 2 ^ (64 * pre.length + Nat.size top.toNat - 1)
          = 2 ^ (64 * pre.length) * 2 ^ (Nat.size top.toNat - 1) := by
            rw [← Nat.pow_add]; congr 1; omega
        _ ≤ 2 ^ (64 * pre.length) * top.toNat := Nat.mul_le_mul_left _ hlo
        _ ≤ value pre + 2 ^ (64 * pre.length) * top.toNat := Nat.le_add_left _ _
    omega

theorem ccn_bitlen_run {m : Mem UInt64} {s : Ptr} {l : List UInt64} (h : m.Reads s l)
    (hl : 0 < l.length) :
    (ccn_bitlen l.length s).run m =
      some (if value l = 0 then 1 else Nat.size (value l), m) := by
  rcases top_cases l with hz | ⟨pre, top, zs, rfl, htop, hzs⟩
  · -- zero: one used unit, which is zero
    have h0 : (load s 0).run m = some (l[0], m) := by simpa using load_run_of_reads h hl
    have hv : value l = 0 := value_eq_zero_of_forall hz
    have hl0 : l[0] = 0 := hz _ (List.getElem_mem hl)
    simp only [ccn_bitlen, StateT.run_bind, ccn_n_run h, lastNonzero_of_zeros hz]
    simp [h0, hv, hl0]
  · -- the top unit is the last used one
    have hidx : pre.length < (pre ++ top :: zs).length := by simp
    have htop_run := load_run_of_reads h hidx
    have hget : (pre ++ top :: zs)[pre.length] = top := by simp
    have hv : value (pre ++ top :: zs) ≠ 0 := by
      intro h0
      have := @size_value_top pre zs top htop hzs
      rw [h0, Nat.size_zero] at this
      have : 0 < Nat.size top.toNat :=
        Nat.size_pos.mpr (Nat.pos_of_ne_zero fun h => htop (UInt64.toNat_inj.mp (by simpa using h)))
      omega
    have hc := unit_bits_sub_clz htop
    simp only [ccn_bitlen, StateT.run_bind, ccn_n_run h, lastNonzero_top htop hzs]
    simp [htop_run, hget, htop, clzl, ofOption, hv, size_value_top htop hzs]
    simp only [CCN_UNIT_BITS] at hc ⊢
    omega

end Corecrypto.Ccn
