import Darwin.Bsd.TtySubr
import Darwin.Lib.RingWindow
import Darwin.Lib.Slots

/-!
# Clists are bounded queues

A clist set up by `clalloc` is a queue of at most `c_cn` characters kept in its ring: `c_cc` of
them from `c_cf` on, each its byte in `c_cs` and, when the clist has quote bits, the quote bit of
its cell. `Clist.Wf` is what every clist function keeps of that layout and `Clist.contents` the
queue it holds, oldest first (`RingWindow.window` over the cells). `Holds cap quot clp cs` ties
the two together for a ring of `cap` cells.

Each function is a queue operation (`ClistOp.spec`): `getc` takes the oldest character, `putc`
appends one unless the ring is full, `unputc` takes the newest, `q_to_b` copies the oldest
`count` bytes out, `ndflush` drops them, `b_to_q` appends as many bytes as fit and returns how
many did not, and `catq` moves one clist's characters to the end of another. A character keeps
its byte and, with quote bits, its `TTY_QUOTE` bit (`kept`); `b_to_q` clears the quote bits of
what it copies in, through `clrbits`, which clears the same bits as a `clrbit` for each of them
(`clrbits_eq_foldl_clrbit`).

| here | `bsd/kern/tty_subr.c` |
|---|---|
| `isset_setbit`, `isset_clrbit`, `isset_clrbits` | `setbit`, `clrbit`, `isset` (`sys/param.h`), `clrbits` (`:351`) |
| `clalloc_holds` | `clalloc` (`:104`) |
| `getc_refines` | `getc` (`:146`) |
| `putc_refines` | `putc` (`:298`) |
| `unputc_refines` | `unputc` (`:532`) |
| `q_to_b_refines`, `ndflush_refines` | `q_to_b` (`:181`), `ndflush` (`:264`) |
| `b_to_q_refines` | `b_to_q` (`:391`) |
| `catq_refines` | `catq` (`:570`) |
| `ClistOp.runAll_refines`, `clist_queue` | any run of the calls above |

The guards of `putc` and `b_to_q` against a cell offset above `INT_MAX` never fire here, since
`clalloc` takes an `int` size.
-/

namespace Bsd.TtySubr

open RingWindow

/-! ## Quote bits -/

section QuoteBits

theorem toNat_one_shiftLeft {k : Nat} (hk : k < 8) : ((1 : UInt8) <<< k.toUInt8).toNat = 2 ^ k := by
  interval_cases k <;> rfl

/-- `x & (1 << k)` is nonzero exactly when bit `k` of `x` is set. -/
theorem and_one_shiftLeft_ne_zero (x : UInt8) {k : Nat} (hk : k < 8) :
    x &&& (1 <<< k.toUInt8) ≠ 0 ↔ x.toNat.testBit k := by
  rw [ne_eq, ← UInt8.toNat_inj, UInt8.toNat_and, toNat_one_shiftLeft hk, UInt8.toNat_zero]
  constructor
  · intro h
    obtain ⟨i, hi⟩ := Nat.exists_testBit_of_ne_zero h
    simp only [Nat.testBit_and, Nat.testBit_two_pow, Bool.and_eq_true, decide_eq_true_eq] at hi
    rw [hi.2]
    exact hi.1
  · intro h hz
    have := congrArg (Nat.testBit · k) hz
    simp [Nat.testBit_and, h] at this

theorem testBit_toNat_not (m : UInt8) {t : Nat} (ht : t < 8) : (~~~m).toNat.testBit t = !m.toNat.testBit t := by
  rw [← UInt8.toNat_toBitVec, ← UInt8.toNat_toBitVec, BitVec.testBit_toNat, BitVec.testBit_toNat,
    UInt8.toBitVec_not, BitVec.getLsbD_not]
  simp [ht]

theorem testBit_toNat_one_shiftLeft {k t : Nat} (hk : k < 8) :
    ((1 : UInt8) <<< k.toUInt8).toNat.testBit t = decide (k = t) := by
  rw [toNat_one_shiftLeft hk, Nat.testBit_two_pow]

/-- The mask `((1 << e) - 1) << s` of `clrbits` holds bits `s .. s + e - 1`. -/
theorem testBit_toNat_mask {s e t : Nat} (hs : s < 8) (he : e < 8) (ht : t < 8) (hse : s + e ≤ 8) :
    ((((1 : UInt8) <<< e.toUInt8) - 1) <<< s.toUInt8).toNat.testBit t = (decide (s ≤ t) && decide (t < s + e)) := by
  have key : ∀ s e t : Fin 8, s.val + e.val ≤ 8 →
      ((((1 : UInt8) <<< e.val.toUInt8) - 1) <<< s.val.toUInt8).toNat.testBit t =
        (decide (s.val ≤ t.val) && decide (t.val < s.val + e.val)) := by
    decide
  exact key ⟨s, hs⟩ ⟨e, he⟩ ⟨t, ht⟩ hse

/-- The mask `(1 << s) - 1` holds bits `0 .. s - 1`. -/
theorem testBit_toNat_low_mask {s t : Nat} (hs : s < 8) (ht : t < 8) :
    (((1 : UInt8) <<< s.toUInt8) - 1).toNat.testBit t = decide (t < s) := by
  have key : ∀ s t : Fin 8, (((1 : UInt8) <<< s.val.toUInt8) - 1).toNat.testBit t = decide (t.val < s.val) := by
    decide
  exact key ⟨s, hs⟩ ⟨t, ht⟩

theorem isset_eq_testBit (a : List UInt8) (i : Nat) :
    isset a i = (a.getD (i / NBBY) 0).toNat.testBit (i % NBBY) := by
  have hi : i % NBBY < 8 := Nat.mod_lt _ (by decide)
  rw [isset, Bool.eq_iff_iff, decide_eq_true_iff, and_one_shiftLeft_ne_zero _ hi]

theorem isset_of_length_le {a : List UInt8} {i : Nat} (h : a.length ≤ i / NBBY) : isset a i = false := by
  rw [isset_eq_testBit, List.getD_eq_default _ _ h]
  exact Nat.zero_testBit _

/-- The quote bit of `j` after the byte of index `b` is changed by `g`. -/
theorem isset_modify (a : List UInt8) (b : Nat) (g : UInt8 → UInt8) (j : Nat) :
    isset (a.modify b g) j =
      if j / NBBY = b ∧ b < a.length then (g (a.getD b 0)).toNat.testBit (j % NBBY) else isset a j := by
  rw [isset_eq_testBit, isset_eq_testBit, Slots.getD_modify]
  by_cases hj : j / NBBY = b ∧ b < a.length
  · rw [if_pos ⟨hj.1.symm, hj.2⟩, if_pos hj, hj.1]
  · rw [if_neg fun h => hj ⟨h.1.symm, h.2⟩, if_neg hj]

/-- Two indices are one when their byte and their bit agree. -/
theorem eq_iff_div_mod {i j : Nat} : j = i ↔ j / NBBY = i / NBBY ∧ j % NBBY = i % NBBY := by
  constructor
  · rintro rfl
    exact ⟨rfl, rfl⟩
  · rintro ⟨h₁, h₂⟩
    rw [← Nat.div_add_mod j NBBY, ← Nat.div_add_mod i NBBY, h₁, h₂]

theorem isset_setbit {a : List UInt8} {i : Nat} (hi : i / NBBY < a.length) (j : Nat) :
    isset (setbit a i) j = (isset a j || decide (j = i)) := by
  have hj8 : j % NBBY < 8 := Nat.mod_lt _ (by decide)
  have hi8 : i % NBBY < 8 := Nat.mod_lt _ (by decide)
  rw [setbit, isset_modify]
  by_cases hb : j / NBBY = i / NBBY
  · rw [if_pos ⟨hb, hi⟩, UInt8.toNat_or, Nat.testBit_or, testBit_toNat_one_shiftLeft hi8, isset_eq_testBit, hb]
    simp only [eq_iff_div_mod (i := i), hb, true_and, eq_comm (a := i % NBBY)]
  · rw [if_neg fun h => hb h.1]
    have : ¬ j = i := fun h => hb (eq_iff_div_mod.mp h).1
    simp [this]

theorem isset_clrbit (a : List UInt8) (i j : Nat) : isset (clrbit a i) j = (isset a j && !decide (j = i)) := by
  have hj8 : j % NBBY < 8 := Nat.mod_lt _ (by decide)
  have hi8 : i % NBBY < 8 := Nat.mod_lt _ (by decide)
  rw [clrbit, isset_modify]
  by_cases hb : j / NBBY = i / NBBY
  · by_cases hi : i / NBBY < a.length
    · rw [if_pos ⟨hb, hi⟩, UInt8.toNat_and, Nat.testBit_and, testBit_toNat_not _ hj8,
        testBit_toNat_one_shiftLeft hi8, isset_eq_testBit, hb]
      simp only [eq_iff_div_mod (i := i), hb, true_and, eq_comm (a := i % NBBY)]
    · rw [if_neg fun h => hi h.2, isset_of_length_le (by omega), Bool.false_and]
  · rw [if_neg fun h => hb h.1]
    have : ¬ j = i := fun h => hb (eq_iff_div_mod.mp h).1
    simp [this]

theorem length_setbit (a : List UInt8) (i : Nat) : (setbit a i).length = a.length := List.length_modify ..

theorem length_clrbit (a : List UInt8) (i : Nat) : (clrbit a i).length = a.length := List.length_modify ..

theorem length_clrbits (a : List UInt8) (off len : Nat) : (clrbits a off len).length = a.length := by
  unfold clrbits
  split
  · exact length_clrbit a off
  · dsimp only
    split
    · exact List.length_modify ..
    · rw [Slots.length_foldl_set]
      split <;> simp only [List.length_modify]

/-! The three steps of `clrbits`: keep the low bits of the first byte, clear the low bits of the
last, zero the bytes between. Each clears a set of bits and keeps the others. -/

theorem isset_modify_and_low_mask (a : List UInt8) (b : Nat) {s : Nat} (hs : s < 8) (j : Nat) :
    isset (a.modify b (· &&& ((1 <<< s.toUInt8) - 1))) j =
      (isset a j && !decide (j / NBBY = b ∧ s ≤ j % NBBY)) := by
  have hj8 : j % NBBY < 8 := Nat.mod_lt _ (by decide)
  rw [isset_modify]
  by_cases hb : j / NBBY = b ∧ b < a.length
  · rw [if_pos hb, UInt8.toNat_and, Nat.testBit_and, testBit_toNat_low_mask hs hj8, isset_eq_testBit, hb.1]
    simp only [true_and, ← decide_not, Nat.not_le]
  · rw [if_neg hb]
    by_cases hb' : j / NBBY = b
    · rw [isset_of_length_le (by omega), Bool.false_and]
    · simp [hb']

theorem isset_modify_and_not_low_mask (a : List UInt8) (b : Nat) {e : Nat} (he : e < 8) (j : Nat) :
    isset (a.modify b (· &&& ~~~((1 <<< e.toUInt8) - 1))) j =
      (isset a j && !decide (j / NBBY = b ∧ j % NBBY < e)) := by
  have hj8 : j % NBBY < 8 := Nat.mod_lt _ (by decide)
  rw [isset_modify]
  by_cases hb : j / NBBY = b ∧ b < a.length
  · rw [if_pos hb, UInt8.toNat_and, Nat.testBit_and, testBit_toNat_not _ hj8, testBit_toNat_low_mask he hj8,
      isset_eq_testBit, hb.1]
    simp only [true_and]
  · rw [if_neg hb]
    by_cases hb' : j / NBBY = b
    · rw [isset_of_length_le (by omega), Bool.false_and]
    · simp [hb']

theorem isset_modify_and_not_mask (a : List UInt8) (b : Nat) {s e : Nat} (hs : s < 8) (he : e < 8) (hse : s + e ≤ 8)
    (j : Nat) :
    isset (a.modify b (· &&& ~~~((((1 : UInt8) <<< e.toUInt8) - 1) <<< s.toUInt8))) j =
      (isset a j && !decide (j / NBBY = b ∧ s ≤ j % NBBY ∧ j % NBBY < s + e)) := by
  have hj8 : j % NBBY < 8 := Nat.mod_lt _ (by decide)
  rw [isset_modify]
  by_cases hb : j / NBBY = b ∧ b < a.length
  · rw [if_pos hb, UInt8.toNat_and, Nat.testBit_and, testBit_toNat_not _ hj8, testBit_toNat_mask hs he hj8 hse,
      isset_eq_testBit, hb.1]
    simp only [true_and, Bool.decide_and]
  · rw [if_neg hb]
    by_cases hb' : j / NBBY = b
    · rw [isset_of_length_le (by omega), Bool.false_and]
    · simp [hb']

theorem isset_foldl_set_zero (a : List UInt8) (o m j : Nat) :
    isset ((List.range m).foldl (fun cp k => cp.set (o + k) 0) a) j =
      (isset a j && !decide (o ≤ j / NBBY ∧ j / NBBY < o + m)) := by
  rw [isset_eq_testBit, isset_eq_testBit, Slots.getD_foldl_set_range a 0 o m (fun _ => 0)]
  by_cases hr : o ≤ j / NBBY ∧ j / NBBY < o + m
  · by_cases hl : j / NBBY < a.length
    · rw [if_pos ⟨hr.1, hr.2, hl⟩]
      simp [hr]
    · rw [if_neg fun h => hl h.2.2, List.getD_eq_default _ _ (by omega)]
      simp
  · rw [if_neg fun h => hr ⟨h.1, h.2.1⟩]
    simp [hr]

/-- `clrbits(cp, off, len)` clears the quote bits `off .. off + len - 1` and keeps the others. -/
theorem isset_clrbits (a : List UInt8) (off len j : Nat) :
    isset (clrbits a off len) j = (isset a j && !decide (off ≤ j ∧ j < off + len)) := by
  have hb8 : ∀ i, i % NBBY < 8 := fun i => Nat.mod_lt _ (by decide)
  unfold clrbits
  split
  · rename_i h1
    rw [isset_clrbit, h1]
    congr 2
    exact decide_eq_decide.mpr (by omega)
  · dsimp only
    split
    · rename_i heq
      rw [isset_modify_and_not_mask _ _ (hb8 off) (by unfold NBBY at *; omega) (by unfold NBBY at *; omega)]
      congr 2
      exact decide_eq_decide.mpr (by unfold NBBY at *; omega)
    · rename_i hne
      rw [isset_foldl_set_zero]
      split
      · rw [isset_modify_and_not_low_mask _ _ (hb8 (off + len)), isset_modify_and_low_mask _ _ (hb8 off)]
        cases isset a j <;> simp only [Bool.false_and, Bool.true_and, ← Bool.not_or, ← Bool.decide_or]
        congr 1
        exact decide_eq_decide.mpr (by unfold NBBY at *; omega)
      · rename_i hmask
        -- no remainder bits: `off + len` ends on a byte boundary
        have hebi : (off + len) % NBBY = 0 := by
          by_contra hz
          apply hmask
          intro h0
          have h := testBit_toNat_low_mask (hb8 (off + len)) (t := 0) (by decide)
          rw [h0, UInt8.toNat_zero, Nat.zero_testBit] at h
          simp only [false_eq_decide_iff, Nat.not_lt, Nat.le_zero] at h
          exact hz h
        rw [isset_modify_and_low_mask _ _ (hb8 off)]
        cases isset a j <;> simp only [Bool.false_and, Bool.true_and, ← Bool.not_or, ← Bool.decide_or]
        congr 1
        exact decide_eq_decide.mpr (by unfold NBBY at *; omega)

/-- Two quote-bit maps of one length with the same bits are the same bytes. -/
theorem eq_of_isset {a b : List UInt8} (hl : a.length = b.length) (h : ∀ j, isset a j = isset b j) : a = b := by
  refine List.ext_getElem hl fun k hka hkb => UInt8.toNat_inj.mp (Nat.eq_of_testBit_eq fun t => ?_)
  by_cases ht : t < 8
  · have hj := h (8 * k + t)
    have h1 : (8 * k + t) / NBBY = k := by unfold NBBY; omega
    have h2 : (8 * k + t) % NBBY = t := by unfold NBBY; omega
    rwa [isset_eq_testBit, isset_eq_testBit, h1, h2, List.getD_eq_getElem _ _ hka,
      List.getD_eq_getElem _ _ hkb] at hj
  · -- a byte has no bit `8` or above
    have hpow : 2 ^ 8 ≤ 2 ^ t := Nat.pow_le_pow_right (by decide) (by omega)
    rw [Nat.testBit_lt_two_pow (lt_of_lt_of_le a[k].toNat_lt hpow),
      Nat.testBit_lt_two_pow (lt_of_lt_of_le b[k].toNat_lt hpow)]

theorem length_foldl_clrbit (a : List UInt8) (off len : Nat) :
    ((List.range len).foldl (fun cp i => clrbit cp (off + i)) a).length = a.length := by
  induction len with
  | zero => rfl
  | succ len ih => rw [List.range_succ, List.foldl_append, List.foldl_cons, List.foldl_nil, length_clrbit, ih]

theorem isset_foldl_clrbit (a : List UInt8) (off len j : Nat) :
    isset ((List.range len).foldl (fun cp i => clrbit cp (off + i)) a) j =
      (isset a j && !decide (off ≤ j ∧ j < off + len)) := by
  induction len with
  | zero => rw [List.range_zero, List.foldl_nil, decide_eq_false (by omega), Bool.not_false, Bool.and_true]
  | succ len ih =>
    rw [List.range_succ, List.foldl_append, List.foldl_cons, List.foldl_nil, isset_clrbit, ih, Bool.and_assoc,
      ← Bool.not_or, ← Bool.decide_or]
    congr 2
    exact decide_eq_decide.mpr (by omega)

/-- `clrbits` clears the same bits as the loop it stands for: `clrbit` for each of the `len` bits
from `off`. -/
theorem clrbits_eq_foldl_clrbit (cp : List UInt8) (off len : Nat) :
    clrbits cp off len = (List.range len).foldl (fun cp i => clrbit cp (off + i)) cp :=
  eq_of_isset (by rw [length_clrbits, length_foldl_clrbit]) fun j => by
    rw [isset_clrbits, isset_foldl_clrbit]

end QuoteBits

/-! ## The clist and the queue it holds -/

namespace Clist

/-- What every clist function keeps of a clist set up by `clalloc`: a ring of `c_cn` bytes, with
`0 < c_cn ≤ INT_MAX` as `clalloc`'s `int` size has it, and a quote bit for each cell when it has
quote bits; `c_cc ≤ c_cn` characters from `c_cf` on, and `c_cl` at the cell after the last. -/
structure Wf (clp : Clist) : Prop where
  cn_pos : 0 < clp.c_cn
  cn_le : clp.c_cn ≤ INT_MAX
  cs_length : ∃ cs, clp.c_cs = some cs ∧ cs.length = clp.ce
  cq_length : ∀ q, clp.c_cq = some q → q.length = QMEM clp.ce
  cc_nonneg : 0 ≤ clp.c_cc
  cc_le : clp.c_cc ≤ clp.c_cn
  cf_lt : clp.cf < clp.ce
  cl_eq : clp.cl = (clp.cf + clp.c_cc.toNat) % clp.ce

/-- The characters the clist holds, oldest first, each as `getc` returns it. -/
def contents (clp : Clist) : List Nat := window clp.charAt clp.ce clp.cf clp.c_cc.toNat

theorem charAt_congr {clp clp' : Clist} (hcs : clp'.c_cs = clp.c_cs) (hcq : clp'.c_cq = clp.c_cq) :
    clp'.charAt = clp.charAt := by
  funext p
  simp only [charAt, byte, hcs, hcq]

/-- The byte of a character: `q_to_b` copies out the bytes of what `getc` would return. -/
theorem toUInt8_charAt (clp : Clist) (p : Nat) : (clp.charAt p).toUInt8 = (clp.c_cs.getD []).getD p 0 := by
  have hb : ∀ x : UInt8, x.toNat.toUInt8 = x := fun x => UInt8.toNat_inj.mp (by simp)
  unfold charAt byte
  split
  · split
    · apply UInt8.toNat_inj.mp
      rw [Nat.toUInt8_eq, UInt8.toNat_ofNat', Nat.or_mod_two_pow]
      simp [TTY_QUOTE]
    · exact hb _
  · exact hb _

end Clist

/-- What a clist keeps of a character put into it: its byte, and its `TTY_QUOTE` bit when the
clist has quote bits. -/
def kept (quot : Bool) (c : Nat) : Nat := if quot then c % (2 * TTY_QUOTE) else c % TTY_QUOTE

/-- `clp` is a clist of `cap` cells, with quote bits when `quot`, that holds `cs`, oldest first. -/
structure Holds (cap : Nat) (quot : Bool) (clp : Clist) (cs : List Nat) : Prop where
  wf : clp.Wf
  ce_eq : clp.ce = cap
  quot_eq : clp.c_cq.isSome = quot
  contents_eq : clp.contents = cs

theorem clalloc_holds {size : Nat} (hsize : 0 < size) (hmax : (size : Int) ≤ INT_MAX) (quot : Bool) :
    Holds size quot (clalloc size quot) [] where
  wf := by
    refine ⟨by simp [clalloc]; omega, hmax, ⟨_, rfl, by simp [Clist.ce, clalloc]⟩, fun q hq => ?_, le_refl _,
      by simp [clalloc], by simp [Clist.cf, Clist.ce, clalloc]; omega, by simp [Clist.cl, Clist.cf, clalloc]⟩
    cases quot <;> simp only [clalloc, if_true, if_false, Option.some.injEq, reduceCtorEq] at hq
    rw [← hq, List.length_replicate]
    simp [Clist.ce, clalloc]
  ce_eq := by simp [Clist.ce, clalloc]
  quot_eq := by cases quot <;> rfl
  contents_eq := by simp [Clist.contents, clalloc]

section Holds

variable {cap : Nat} {quot : Bool} {clp : Clist} {cs : List Nat}

theorem Holds.length_eq (h : Holds cap quot clp cs) : cs.length = clp.c_cc.toNat := by
  rw [← h.contents_eq, Clist.contents, length_window]

theorem Holds.cc_eq (h : Holds cap quot clp cs) : clp.c_cc = cs.length := by
  rw [h.length_eq, Int.toNat_of_nonneg h.wf.cc_nonneg]

theorem Holds.cn_eq (h : Holds cap quot clp cs) : clp.c_cn = cap := by
  rw [← h.ce_eq, Clist.ce, Int.toNat_of_nonneg (le_of_lt h.wf.cn_pos)]

theorem Holds.cap_pos (h : Holds cap quot clp cs) : 0 < cap := by
  have := h.wf.cn_pos
  rw [h.cn_eq] at this
  exact_mod_cast this

theorem Holds.length_le (h : Holds cap quot clp cs) : cs.length ≤ cap := by
  have := h.wf.cc_le
  rw [h.cc_eq, h.cn_eq] at this
  exact_mod_cast this

theorem Holds.cap_le (h : Holds cap quot clp cs) : (cap : Int) ≤ INT_MAX := h.cn_eq ▸ h.wf.cn_le

theorem Holds.cf_lt (h : Holds cap quot clp cs) : clp.cf < cap := h.ce_eq ▸ h.wf.cf_lt

theorem Holds.cl_eq (h : Holds cap quot clp cs) : clp.cl = (clp.cf + cs.length) % cap := by
  rw [h.wf.cl_eq, h.ce_eq, h.length_eq]

theorem Holds.eq_window (h : Holds cap quot clp cs) : cs = window clp.charAt cap clp.cf cs.length := by
  conv_lhs => rw [← h.contents_eq]
  rw [Clist.contents, h.ce_eq, h.length_eq]

/-- The same ring and characters, with the queue starting at `f` and `n` long. -/
theorem Holds.move (h : Holds cap quot clp cs) (clp' : Clist) (hcs : clp'.c_cs = clp.c_cs)
    (hcq : clp'.c_cq = clp.c_cq) (hcn : clp'.c_cn = clp.c_cn) {f n : Nat} (hcc : clp'.c_cc = n)
    (hf : clp'.cf = f % cap) (hl : clp'.cl = (f + n) % cap) (hn : n ≤ cap) :
    Holds cap quot clp' (window clp.charAt cap f n) := by
  have hce : clp'.ce = cap := by rw [Clist.ce, hcn, ← Clist.ce, h.ce_eq]
  have hcc' : clp'.c_cc.toNat = n := by rw [hcc, Int.toNat_natCast]
  refine ⟨⟨hcn ▸ h.wf.cn_pos, hcn ▸ h.wf.cn_le, ?_, ?_, by rw [hcc]; omega, ?_, ?_, ?_⟩, hce, hcq ▸ h.quot_eq, ?_⟩
  · rw [hcs, hce, ← h.ce_eq]
    exact h.wf.cs_length
  · intro q hq
    rw [hce, ← h.ce_eq]
    exact h.wf.cq_length q (hcq ▸ hq)
  · rw [hcc, hcn, h.cn_eq]
    exact_mod_cast hn
  · rw [hf, hce]
    exact Nat.mod_lt _ h.cap_pos
  · rw [hl, hf, hce, hcc', Nat.mod_add_mod]
  · rw [Clist.contents, Clist.charAt_congr hcs hcq, hce, hf, hcc', window_mod]

/-- An empty clist with its pointers `NULL`. -/
theorem Holds.reset (h : Holds cap quot clp cs) (h0 : clp.c_cc = 0) : Holds cap quot clp.reset cs := by
  have hcs : cs = [] := List.eq_nil_of_length_eq_zero (by rw [h.length_eq, h0]; rfl)
  subst hcs
  exact h.move clp.reset (f := 0) (n := 0) rfl rfl rfl h0 (by simp [Clist.reset, Clist.cf])
    (by simp [Clist.reset, Clist.cl]) (Nat.zero_le _)

/-- The `if (clp->c_cc == 0) clp->c_cf = clp->c_cl = NULL` the functions end with. -/
theorem Holds.reset_if_empty (h : Holds cap quot clp cs) :
    Holds cap quot (if clp.c_cc = 0 then clp.reset else clp) cs := by
  split
  · exact h.reset ‹_›
  · exact h

/-- `putc` and `b_to_q` point an empty clist at the start of its ring first. -/
theorem Holds.prepare (h : Holds cap quot clp cs) : Holds cap quot (prepare clp) cs := by
  unfold TtySubr.prepare
  split
  · rename_i h0
    have hcs : clp.c_cs ≠ none := by
      obtain ⟨b, hb, -⟩ := h.wf.cs_length
      simp [hb]
    have hnil : cs = [] := List.eq_nil_of_length_eq_zero (by rw [h.length_eq, h0]; rfl)
    subst hnil
    rw [if_neg hcs]
    exact h.move { clp with c_cf := some 0, c_cl := some 0 } (f := 0) (n := 0) rfl rfl rfl h0
      (by simp [Clist.cf]) (by simp [Clist.cl]) (Nat.zero_le _)
  · exact h

/-- `m` characters written into the cells after the queue's last one: the queue gets them on its
end. -/
theorem Holds.write (h : Holds cap quot clp cs) {clp' : Clist} {m : Nat} {new : List Nat}
    (hm : cs.length + m ≤ cap) (hcn : clp'.c_cn = clp.c_cn) (hcf : clp'.cf = clp.cf)
    (hcc : clp'.c_cc = clp.c_cc + m) (hl : clp'.cl = (clp.cf + cs.length + m) % cap)
    (hcs : ∃ b, clp'.c_cs = some b ∧ b.length = cap) (hcq : ∀ q, clp'.c_cq = some q → q.length = QMEM cap)
    (hquot : clp'.c_cq.isSome = quot)
    (hkeep : ∀ p, (∀ j < m, p ≠ (clp.cf + cs.length + j) % cap) → clp'.charAt p = clp.charAt p)
    (hnew : window clp'.charAt cap (clp.cf + cs.length) m = new) :
    Holds cap quot clp' (cs ++ new) := by
  have hce : clp'.ce = cap := by rw [Clist.ce, hcn, ← Clist.ce, h.ce_eq]
  have hcc' : clp'.c_cc.toNat = cs.length + m := by rw [hcc, h.cc_eq]; omega
  refine ⟨⟨hcn ▸ h.wf.cn_pos, hcn ▸ h.wf.cn_le, hce ▸ hcs, hce ▸ hcq, by rw [hcc]; have := h.wf.cc_nonneg; omega,
    ?_, by rw [hcf, hce]; exact h.cf_lt, by rw [hl, hcf, hce, hcc', Nat.add_assoc]⟩, hce, hquot, ?_⟩
  · rw [hcc, hcn, h.cc_eq, h.cn_eq]
    exact_mod_cast hm
  · rw [Clist.contents, hce, hcf, hcc', window_push hm hkeep, ← h.eq_window, hnew]

end Holds

/-! ## The queue operations -/

section Ops

variable {cap : Nat} {quot : Bool} {clp : Clist} {cs : List Nat}

theorem Holds.next_eq (h : Holds cap quot clp cs) {p : Nat} (hp : p < cap) : clp.next p = (p + 1) % cap := by
  rw [Clist.next, h.ce_eq]
  exact wrap_eq_mod (by omega)

/-- Every cell of the ring has its bit in the quote bits. -/
theorem Holds.cell_lt_quote (h : Holds cap quot clp cs) {q : List UInt8} (hq : clp.c_cq = some q) {p : Nat}
    (hp : p < cap) : p / NBBY < q.length := by
  rw [h.wf.cq_length q hq, h.ce_eq, QMEM]
  exact Nat.lt_succ_of_le (Nat.div_le_div_right (by omega))

/-- **`getc`** takes the oldest character, and returns `-1` on an empty clist. -/
theorem getc_refines (h : Holds cap quot clp cs) :
    (getc clp).1 = cs.head?.elim (-1) (fun c => (c : Int)) ∧ Holds cap quot (getc clp).2 cs.tail := by
  cases cs with
  | nil =>
    have h0 : clp.c_cc = 0 := by rw [h.cc_eq]; rfl
    simp only [getc, h0, if_true]
    exact ⟨rfl, h⟩
  | cons c rest =>
    have hcc : clp.c_cc = rest.length + 1 := by rw [h.cc_eq]; simp
    have hf := h.cf_lt
    -- the oldest character is the one at `c_cf`, the others follow it
    have hw := h.eq_window
    rw [List.length_cons, window_cons, Nat.mod_eq_of_lt hf] at hw
    obtain ⟨hc, hrest⟩ := List.cons.inj hw
    unfold getc
    rw [if_neg (by omega)]
    dsimp only
    refine ⟨by simp [hc], ?_⟩
    have hm := h.move { clp with c_cf := some (clp.next clp.cf), c_cc := clp.c_cc - 1 } rfl rfl rfl
      (f := clp.cf + 1) (n := rest.length) (by show clp.c_cc - 1 = _; omega)
      (by simp only [Clist.cf, Option.getD_some]; exact h.next_eq hf)
      (by rw [show Clist.cl { clp with c_cf := some (clp.next clp.cf), c_cc := clp.c_cc - 1 } = clp.cl from rfl,
            h.cl_eq, List.length_cons, Nat.add_comm rest.length 1, Nat.add_assoc])
      (by have := h.length_le; simp only [List.length_cons] at this; omega)
    rw [← hrest] at hm
    exact hm.reset_if_empty

/-- The byte `putc` stores, with the quote bit it sets, reads back as the character kept. -/
theorem kept_eq (quot : Bool) (c : Nat) :
    (if quot ∧ c &&& TTY_QUOTE ≠ 0 then (c &&& 0xff) ||| TTY_QUOTE else c &&& 0xff) = kept quot c := by
  have hbyte : c &&& 0xff = c % 2 ^ 8 := Nat.and_two_pow_sub_one_eq_mod c 8
  have hq : (c &&& TTY_QUOTE ≠ 0) ↔ c.testBit 8 = true := by
    rw [show TTY_QUOTE = 2 ^ 8 from rfl, Ne, Nat.and_two_pow]
    cases c.testBit 8 <;> simp
  unfold kept
  cases quot with
  | false => simp [hbyte, TTY_QUOTE]
  | true =>
    simp only [true_and, if_true]
    split
    · -- bit 8 is set: the low byte and the quote bit are the low nine bits
      rename_i h8
      rw [hbyte, show 2 * TTY_QUOTE = 2 ^ 9 from rfl, show TTY_QUOTE = 2 ^ 8 from rfl]
      apply Nat.eq_of_testBit_eq
      intro k
      rw [Nat.testBit_or, Nat.testBit_mod_two_pow, Nat.testBit_mod_two_pow, Nat.testBit_two_pow]
      rcases Nat.lt_trichotomy k 8 with hk | rfl | hk
      · simp [hk, show k < 9 by omega, show 8 ≠ k by omega]
      · simp [hq.1 h8]
      · simp [show ¬ k < 8 by omega, show 8 ≠ k by omega]; omega
    · rename_i h8
      rw [hbyte, show 2 * TTY_QUOTE = 2 ^ 9 from rfl]
      apply Nat.eq_of_testBit_eq
      intro k
      rw [Nat.testBit_mod_two_pow, Nat.testBit_mod_two_pow]
      rcases Nat.lt_trichotomy k 8 with hk | rfl | hk
      · simp [hk, show k < 9 by omega]
      · simp only [show ¬ 8 < 8 by omega, decide_false, Bool.false_and, show 8 < 9 by omega, decide_true,
          Bool.true_and]
        simpa [hq] using h8
      · simp [show ¬ k < 8 by omega, show ¬ k < 9 by omega]

/-- **`putc`** appends the character kept of `c`, and returns `-1` on a full clist. -/
theorem putc_refines (h : Holds cap quot clp cs) (c : Nat) :
    (putc c clp).1 = (if cs.length < cap then 0 else -1) ∧
      Holds cap quot (putc c clp).2 (if cs.length < cap then cs ++ [kept quot c] else cs) := by
  have hp := h.prepare
  unfold putc
  dsimp only
  by_cases hfull : cs.length < cap
  swap
  · -- a full ring is left as it is
    have heq : (prepare clp).c_cc = (prepare clp).c_cn := by
      rw [hp.cc_eq, hp.cn_eq]
      have := h.length_le
      exact_mod_cast (show cs.length = cap by omega)
    rw [if_pos heq, if_neg hfull, if_neg hfull]
    exact ⟨rfl, hp⟩
  have hne : (prepare clp).c_cc ≠ (prepare clp).c_cn := by
    rw [hp.cc_eq, hp.cn_eq]
    exact_mod_cast (Nat.ne_of_lt hfull)
  rw [if_neg hne, if_pos hfull, if_pos hfull]
  refine ⟨rfl, ?_⟩
  obtain ⟨b, hb, hbl⟩ := hp.wf.cs_length
  rw [hp.ce_eq] at hbl
  have hcl : (prepare clp).cl = ((prepare clp).cf + cs.length) % cap := hp.cl_eq
  have hcl_lt : (prepare clp).cl < cap := by rw [hcl]; exact Nat.mod_lt _ hp.cap_pos
  -- the new cell reads as `kept quot c`, every other cell as before
  have hchar : ∀ p, Clist.charAt { prepare clp with
        c_cs := some (((prepare clp).c_cs.getD []).set (prepare clp).cl (c &&& 0xff).toUInt8),
        c_cq := (prepare clp).c_cq.map fun q =>
          if c &&& TTY_QUOTE ≠ 0 then setbit q (prepare clp).cl else clrbit q (prepare clp).cl,
        c_cc := (prepare clp).c_cc + 1, c_cl := some ((prepare clp).next (prepare clp).cl) } p =
      if p = (prepare clp).cl then kept quot c else (prepare clp).charAt p := by
    intro p
    have hbyte : ((c &&& 0xff).toUInt8).toNat = c &&& 0xff := by
      rw [Nat.toUInt8_eq, UInt8.toNat_ofNat', Nat.mod_eq_of_lt (lt_of_le_of_lt Nat.and_le_right (by decide))]
    have hq := hp.quot_eq
    unfold Clist.charAt Clist.byte
    simp only [hb, Option.getD_some]
    rw [Slots.getD_set]
    by_cases hpc : p = (prepare clp).cl
    · subst hpc
      rw [if_pos ⟨rfl, by omega⟩, hbyte, if_pos rfl, ← kept_eq]
      rcases hcq : (prepare clp).c_cq with _ | q
      · rw [hcq] at hq
        simp [← hq]
      · rw [hcq] at hq
        by_cases h8 : c &&& TTY_QUOTE ≠ 0
        · simp [← hq, h8, isset_setbit (hp.cell_lt_quote hcq hcl_lt)]
        · simp [← hq, h8, isset_clrbit]
    · rw [if_neg (fun h => hpc h.1.symm), if_neg hpc]
      rcases hcq : (prepare clp).c_cq with _ | q
      · rfl
      · by_cases h8 : c &&& TTY_QUOTE ≠ 0
        · simp [h8, isset_setbit (hp.cell_lt_quote hcq hcl_lt), hpc]
        · simp [h8, isset_clrbit, hpc]
  refine hp.write (m := 1) (by omega) rfl rfl (by push_cast; rfl) ?_
    ⟨_, rfl, by rw [List.length_set, hb, Option.getD_some, hbl]⟩ ?_ ?_
    (fun p hp' => by rw [hchar, if_neg (by simpa [hcl] using hp' 0 Nat.one_pos)]) ?_
  · -- `c_cl` moves to the next cell
    show (prepare clp).next (prepare clp).cl = _
    rw [hp.next_eq hcl_lt, hcl, Nat.mod_add_mod]
  · intro q hq
    obtain ⟨q₀, hq₀, rfl⟩ := Option.map_eq_some_iff.1 hq
    have := hp.wf.cq_length q₀ hq₀
    rw [hp.ce_eq] at this
    split <;> simp [length_setbit, length_clrbit, this]
  · rw [Option.isSome_map]
    exact hp.quot_eq
  · simp only [window, List.range_one, List.map_cons, List.map_nil, Nat.add_zero]
    rw [← hcl, hchar, if_pos rfl]

/-- **`unputc`** takes the newest character, and returns `-1` on an empty clist. -/
theorem unputc_refines (h : Holds cap quot clp cs) :
    (unputc clp).1 = cs.getLast?.elim (-1) (fun c => (c : Int)) ∧ Holds cap quot (unputc clp).2 cs.dropLast := by
  rcases List.eq_nil_or_concat cs with rfl | ⟨init, c, rfl⟩
  · have h0 : clp.c_cc = 0 := by rw [h.cc_eq]; rfl
    simp only [unputc, h0, if_true]
    exact ⟨rfl, h⟩
  · simp only [List.concat_eq_append] at h ⊢
    have hcc : clp.c_cc = init.length + 1 := by rw [h.cc_eq]; simp
    have hcap := h.cap_pos
    -- the newest character is the one before `c_cl`
    have hw := h.eq_window
    rw [List.length_append, List.length_singleton, window_succ] at hw
    obtain ⟨hinit, hc⟩ := List.append_inj hw (by simp)
    have hlast : (if clp.cl = 0 then clp.ce - 1 else clp.cl - 1) = (clp.cf + init.length) % cap := by
      rw [mod_eq_pred hcap, h.ce_eq, h.cl_eq, List.length_append, List.length_singleton, Nat.add_assoc]
    unfold unputc
    rw [if_neg (by omega)]
    dsimp only
    refine ⟨?_, ?_⟩
    · rw [hlast]
      show ((clp.charAt _ : Nat) : Int) = _
      simp [List.singleton_inj.1 hc]
    · have hm := h.move
        { clp with c_cl := some (if clp.cl = 0 then clp.ce - 1 else clp.cl - 1), c_cc := clp.c_cc - 1 }
        rfl rfl rfl (f := clp.cf) (n := init.length)
        (by show clp.c_cc - 1 = _; omega) (Nat.mod_eq_of_lt h.cf_lt).symm
        (by simp only [Clist.cl, Option.getD_some]; exact hlast)
        (by have := h.length_le; simp only [List.length_append, List.length_singleton] at this; omega)
      rw [← hinit] at hm
      rw [List.dropLast_concat]
      exact hm.reset_if_empty

/-- The free cells from `c_cl` on before `c_cf` or the end of the ring, as `b_to_q` counts them:
at least one while the ring is not full, no more than are free, and not past the end. -/
theorem Holds.free_run (h : Holds cap quot clp cs) (hlt : cs.length < cap) :
    1 ≤ (if clp.cf > clp.cl then clp.cf - clp.cl else cap - clp.cl) ∧
      (if clp.cf > clp.cl then clp.cf - clp.cl else cap - clp.cl) ≤ cap - cs.length ∧
      clp.cl + (if clp.cf > clp.cl then clp.cf - clp.cl else cap - clp.cl) ≤ cap := by
  have hcl := h.cl_eq
  have hf := h.cf_lt
  rcases add_mod_cases h.cf_lt (Nat.le_of_lt hlt) with ⟨hlt', hmod⟩ | ⟨hge, hmod⟩
  · -- the queue does not wrap: the free cells run from `c_cl` to the end
    rw [hmod] at hcl
    rw [if_neg (by omega)]
    omega
  · -- the queue wraps: the free cells run from `c_cl` to `c_cf`
    rw [hmod] at hcl
    rw [if_pos (by omega)]
    omega

/-- One round of `b_to_q`: the `m` bytes copied into the free cells from `c_cl` on, without
their quote bits, go on the end of the queue. -/
theorem Holds.copy_in (h : Holds cap quot clp cs) (p : List UInt8) {m : Nat} (hm : m ≤ cap - cs.length)
    (hend : clp.cl + m ≤ cap) (hmp : m ≤ p.length) :
    Holds cap quot
      { clp with c_cs := some ((List.range m).foldl (fun b k => b.set (clp.cl + k) (p.getD k 0)) (clp.c_cs.getD [])),
                 c_cq := clp.c_cq.map fun q => clrbits q clp.cl m,
                 c_cc := clp.c_cc + m,
                 c_cl := some (if clp.cl + m = clp.ce then 0 else clp.cl + m) }
      (cs ++ (p.take m).map UInt8.toNat) := by
  obtain ⟨b, hb, hbl⟩ := h.wf.cs_length
  rw [h.ce_eq] at hbl
  have hcl := h.cl_eq
  have hlen := h.length_le
  -- the cells `c_cl + k` are the cells after the queue
  have hcell : ∀ k < m, (clp.cf + cs.length + k) % cap = clp.cl + k := by
    intro k hk
    rw [hcl, ← Nat.mod_add_mod, Nat.mod_eq_of_lt (by omega)]
  have hchar : ∀ j, Clist.charAt { clp with
        c_cs := some ((List.range m).foldl (fun b k => b.set (clp.cl + k) (p.getD k 0)) (clp.c_cs.getD [])),
        c_cq := clp.c_cq.map fun q => clrbits q clp.cl m,
        c_cc := clp.c_cc + m,
        c_cl := some (if clp.cl + m = clp.ce then 0 else clp.cl + m) } j =
      if clp.cl ≤ j ∧ j < clp.cl + m then (p.getD (j - clp.cl) 0).toNat else clp.charAt j := by
    intro j
    unfold Clist.charAt Clist.byte
    simp only [hb, Option.getD_some, Slots.getD_foldl_set_range]
    by_cases hj : clp.cl ≤ j ∧ j < clp.cl + m
    · rw [if_pos ⟨hj.1, hj.2, by omega⟩, if_pos hj]
      rcases clp.c_cq with _ | q
      · rfl
      · simp [isset_clrbits, hj]
    · rw [if_neg fun h' => hj ⟨h'.1, h'.2.1⟩, if_neg hj]
      rcases clp.c_cq with _ | q
      · rfl
      · simp [isset_clrbits, hj]
  refine h.write (m := m) (by omega) rfl rfl rfl ?_ ⟨_, rfl, by rw [Slots.length_foldl_set, hb, Option.getD_some, hbl]⟩
    ?_ ?_ ?_ ?_
  · -- `c_cl` moves past the copied cells
    show (if clp.cl + m = clp.ce then 0 else clp.cl + m) = _
    rw [h.ce_eq, wrap_eq_mod hend, hcl, Nat.mod_add_mod]
  · intro q hq
    obtain ⟨q₀, hq₀, rfl⟩ := Option.map_eq_some_iff.1 hq
    rw [length_clrbits, h.wf.cq_length q₀ hq₀, h.ce_eq]
  · rw [Option.isSome_map]
    exact h.quot_eq
  · intro j hj
    rw [hchar, if_neg]
    rintro ⟨h1, h2⟩
    exact hj (j - clp.cl) (by omega) (by rw [hcell _ (by omega)]; omega)
  · apply List.ext_getElem (by simp; omega)
    intro k hk _
    have hkm : k < m := by simpa using hk
    rw [getElem_window, hcell k hkm, hchar, if_pos (by omega), Nat.add_sub_cancel_left]
    simp [List.getElem_take, List.getElem?_eq_getElem (show k < p.length by omega)]

/-- The loop of `b_to_q`: while bytes are left and the ring has room, a run of free cells is
filled. Each round fills one cell at least, so more rounds than free cells are enough. -/
theorem bToQLoop_refines : ∀ (fuel : Nat) {clp : Clist} {cs : List Nat} (p : List UInt8),
    Holds cap quot clp cs → cap - cs.length < fuel →
      (bToQLoop fuel clp p).2 = p.drop (cap - cs.length) ∧
        Holds cap quot (bToQLoop fuel clp p).1 (cs ++ (p.take (cap - cs.length)).map UInt8.toNat)
  | 0, _, _, _, _, hfuel => absurd hfuel (Nat.not_lt_zero _)
  | fuel + 1, clp, cs, p, h, hfuel => by
    have hlen := h.length_le
    unfold bToQLoop
    by_cases hg : p.length > 0 ∧ clp.c_cc < clp.c_cn
    · rw [if_pos hg]
      dsimp only
      have hlt : cs.length < cap := by
        have := hg.2
        rw [h.cc_eq, h.cn_eq] at this
        exact_mod_cast this
      obtain ⟨hr1, hr2, hr3⟩ := h.free_run hlt
      have hcap := h.cap_le
      -- the round fills `m` cells: the free run `r`, or the bytes left if fewer
      have hr : (if clp.cf > clp.cl then (clp.cf : Int) - clp.cl else (clp.ce : Int) - clp.cl) =
          ((if clp.cf > clp.cl then clp.cf - clp.cl else cap - clp.cl : Nat) : Int) := by
        have hcl : clp.cl < cap := by rw [h.cl_eq]; exact Nat.mod_lt _ h.cap_pos
        rw [h.ce_eq]
        split <;> omega
      rw [hr]
      generalize (if clp.cf > clp.cl then clp.cf - clp.cl else cap - clp.cl) = r at hr1 hr2 hr3 ⊢
      have hcc : (if (r : Int) > INT_MAX ∨ (r : Int) > p.length then (p.length : Int) else r) =
          ((min r p.length : Nat) : Int) := by
        split <;> omega
      rw [hcc, Int.toNat_natCast]
      have hc := h.copy_in p (m := min r p.length) (by omega) (by omega) (by omega)
      obtain ⟨ih1, ih2⟩ := bToQLoop_refines fuel (p.drop _) hc (by simp; omega)
      -- the rounds after this one take the rest of the room
      have hsplit : cap - cs.length = min r p.length + (cap - (cs.length + min r p.length)) := by omega
      simp only [List.length_append, List.length_map, List.length_take, Nat.min_eq_left (Nat.min_le_right r _)]
        at ih1 ih2
      refine ⟨by rw [ih1, List.drop_drop, ← hsplit], ?_⟩
      rwa [List.append_assoc, ← List.map_append, ← List.take_add, ← hsplit] at ih2
    · rw [if_neg hg]
      have hk : p = [] ∨ cs.length = cap := by
        by_cases hp : p.length > 0
        · have hcc := not_lt.1 fun h' => hg ⟨hp, h'⟩
          rw [h.cc_eq, h.cn_eq] at hcc
          have : cap ≤ cs.length := by exact_mod_cast hcc
          exact .inr (by omega)
        · exact .inl (List.eq_nil_of_length_eq_zero (by omega))
      rcases hk with rfl | hk
      · simpa using h
      · simpa [hk] using h

/-- **`b_to_q`** appends the bytes of `cp` that fit, without quote bits, and returns how many did
not. -/
theorem b_to_q_refines (h : Holds cap quot clp cs) (cp : List UInt8) :
    (b_to_q cp clp).1 = (cp.drop (cap - cs.length)).length ∧
      Holds cap quot (b_to_q cp clp).2 (cs ++ (cp.take (cap - cs.length)).map UInt8.toNat) := by
  have hlen := h.length_le
  unfold b_to_q
  by_cases h0 : cp.length = 0
  · rw [if_pos h0, List.eq_nil_of_length_eq_zero h0]
    simpa using h
  rw [if_neg h0]
  have hp := h.prepare
  dsimp only
  by_cases hfull : (prepare clp).c_cc = (prepare clp).c_cn
  · -- a full ring takes nothing
    rw [if_pos hfull]
    have hc : cs.length = cap := by
      rw [hp.cc_eq, hp.cn_eq] at hfull
      exact_mod_cast hfull
    simpa [hc] using hp
  · rw [if_neg hfull]
    obtain ⟨h1, h2⟩ := bToQLoop_refines ((prepare clp).c_cn.toNat + 1) cp hp
      (by rw [hp.cn_eq, Int.toNat_natCast]; omega)
    exact ⟨by rw [h1], h2⟩

/-- The characters stored from `c_cf` on before `c_cl` or the end of the ring, as `q_to_b` and
`ndflush` count them: at least one while the clist is not empty, no more than it holds, and not
past the end. -/
theorem Holds.front_run (h : Holds cap quot clp cs) (hne : 0 < cs.length) :
    1 ≤ (if clp.cf ≥ clp.cl then cap - clp.cf else clp.cl - clp.cf) ∧
      (if clp.cf ≥ clp.cl then cap - clp.cf else clp.cl - clp.cf) ≤ cs.length ∧
      clp.cf + (if clp.cf ≥ clp.cl then cap - clp.cf else clp.cl - clp.cf) ≤ cap := by
  have hcl := h.cl_eq
  have hf := h.cf_lt
  have hlen := h.length_le
  rcases add_mod_cases h.cf_lt h.length_le with ⟨hlt, hmod⟩ | ⟨hge, hmod⟩
  · -- the queue does not wrap: it runs from `c_cf` to `c_cl`
    rw [hmod] at hcl
    rw [if_neg (by omega)]
    omega
  · -- the queue wraps: its first run ends at the end of the ring
    rw [hmod] at hcl
    rw [if_pos (by omega)]
    omega

/-- The run `takeRun` gives, for a positive `count`: the front run, or `count` if smaller. -/
theorem Holds.takeRun_eq (h : Holds cap quot clp cs) (hne : 0 < cs.length) {count : Int} (hcount : 0 < count) :
    takeRun clp count = ((min (if clp.cf ≥ clp.cl then cap - clp.cf else clp.cl - clp.cf) count.toNat : Nat) : Int) := by
  obtain ⟨hr1, hr2, hr3⟩ := h.front_run hne
  have hcap := h.cap_le
  have hlen := h.length_le
  have hr : (if clp.cf ≥ clp.cl then (clp.ce : Int) - clp.cf else (clp.cl : Int) - clp.cf) =
      ((if clp.cf ≥ clp.cl then cap - clp.cf else clp.cl - clp.cf : Nat) : Int) := by
    rw [h.ce_eq]
    split <;> omega
  unfold takeRun
  dsimp only
  rw [hr]
  generalize (if clp.cf ≥ clp.cl then cap - clp.cf else clp.cl - clp.cf) = r at hr1 hr2 hr3 ⊢
  split <;> omega

/-- One round of `q_to_b` or `ndflush`: `m` characters of the front run taken off. -/
theorem Holds.take_front (h : Holds cap quot clp cs) {m : Nat} (hm : m ≤ cs.length) (hend : clp.cf + m ≤ cap) :
    Holds cap quot { clp with c_cc := clp.c_cc - m, c_cf := some (if clp.cf + m = clp.ce then 0 else clp.cf + m) }
      (cs.drop m) := by
  have hm' := h.move { clp with c_cc := clp.c_cc - m, c_cf := some (if clp.cf + m = clp.ce then 0 else clp.cf + m) }
    rfl rfl rfl (f := clp.cf + m) (n := cs.length - m) (by show clp.c_cc - m = _; rw [h.cc_eq]; omega)
    (by show (if clp.cf + m = clp.ce then 0 else clp.cf + m) = _; rw [h.ce_eq]; exact wrap_eq_mod hend)
    (by show clp.cl = _; rw [h.cl_eq, Nat.add_assoc, Nat.add_sub_cancel' hm]) (by have := h.length_le; omega)
  rwa [← drop_window, ← h.eq_window] at hm'

/-- The bytes `q_to_b` copies out of the front run are those of the first characters. -/
theorem Holds.bytes_front (h : Holds cap quot clp cs) {m : Nat} (hm : m ≤ cs.length) (hend : clp.cf + m ≤ cap) :
    (List.range m).map (fun k => (clp.c_cs.getD []).getD (clp.cf + k) 0) = (cs.take m).map Nat.toUInt8 := by
  rw [h.eq_window, take_window, Nat.min_eq_left hm, window, List.map_map]
  apply List.map_congr_left
  intro k hk
  have hk' := List.mem_range.1 hk
  rw [Function.comp_apply, Nat.mod_eq_of_lt (by omega), Clist.toUInt8_charAt]

/-- A round of `q_to_b` or `ndflush`, while `count` is positive and characters are left, takes `m`
characters of the front run: one at least, no more than `count` asks for or than are held. -/
theorem Holds.takeRun_round (h : Holds cap quot clp cs) {count : Int} (hg : count > 0 ∧ clp.c_cc > 0) :
    ∃ m : Nat, takeRun clp count = m ∧ 0 < m ∧ m ≤ count.toNat ∧ m ≤ cs.length ∧ clp.cf + m ≤ cap := by
  have hne : 0 < cs.length := by
    have := hg.2
    rw [h.cc_eq] at this
    exact_mod_cast this
  obtain ⟨hr1, hr2, hr3⟩ := h.front_run hne
  rw [h.takeRun_eq hne hg.1]
  generalize (if clp.cf ≥ clp.cl then cap - clp.cf else clp.cl - clp.cf) = r at hr1 hr2 hr3 ⊢
  exact ⟨min r count.toNat, rfl, by omega, by omega, by omega, by omega⟩

/-- Once the guard of the loops fails, `count` asks for nothing or nothing is left. -/
theorem Holds.take_nothing (h : Holds cap quot clp cs) {count : Int} (hg : ¬(count > 0 ∧ clp.c_cc > 0)) :
    cs.take count.toNat = [] ∧ cs.drop count.toNat = cs := by
  by_cases hc : count > 0
  · have hcc := not_lt.1 fun h' => hg ⟨hc, h'⟩
    rw [h.cc_eq] at hcc
    have hnil : cs = [] := List.eq_nil_of_length_eq_zero (by exact_mod_cast (le_antisymm hcc (Int.natCast_nonneg _)))
    simp [hnil]
  · simp [show count.toNat = 0 by omega]

/-- The loop of `q_to_b`: while `count` is positive and characters are left, the front run is
copied out. Each round takes one character at least, so more rounds than characters are enough. -/
theorem qToBLoop_refines : ∀ (fuel : Nat) {clp : Clist} {cs : List Nat} (count : Int) (out : List UInt8),
    Holds cap quot clp cs → cs.length < fuel →
      (qToBLoop fuel clp count out).2 = out ++ (cs.take count.toNat).map Nat.toUInt8 ∧
        Holds cap quot (qToBLoop fuel clp count out).1 (cs.drop count.toNat)
  | 0, _, _, _, _, _, hfuel => absurd hfuel (Nat.not_lt_zero _)
  | fuel + 1, clp, cs, count, out, h, hfuel => by
    unfold qToBLoop
    by_cases hg : count > 0 ∧ clp.c_cc > 0
    · rw [if_pos hg]
      dsimp only
      obtain ⟨m, hrun, hm0, hmc, hml, hend⟩ := h.takeRun_round hg
      rw [hrun, Int.toNat_natCast]
      obtain ⟨ih1, ih2⟩ := qToBLoop_refines fuel (count - m) _ (h.take_front hml hend)
        (by simp only [List.length_drop]; omega)
      -- the later rounds take the rest of what `count` asks for
      have hsplit : count.toNat = m + (count - m).toNat := by omega
      refine ⟨?_, ?_⟩
      · rw [ih1, h.bytes_front hml hend, List.append_assoc, ← List.map_append, ← List.take_add, ← hsplit]
      · rwa [List.drop_drop, ← hsplit] at ih2
    · rw [if_neg hg]
      obtain ⟨htake, hdrop⟩ := h.take_nothing hg
      rw [htake, hdrop, List.map_nil, List.append_nil]
      exact ⟨rfl, h⟩

/-- **`q_to_b`** copies out the bytes of the first `count` characters, takes them off, and returns
how many it copied. -/
theorem q_to_b_refines (h : Holds cap quot clp cs) (count : Int) :
    (q_to_b clp count).1 = (cs.take count.toNat).length ∧
      (q_to_b clp count).2.1 = (cs.take count.toNat).map Nat.toUInt8 ∧
      Holds cap quot (q_to_b clp count).2.2 (cs.drop count.toNat) := by
  obtain ⟨h1, h2⟩ := qToBLoop_refines (clp.c_cc.toNat + 1) count [] h (by rw [h.length_eq]; omega)
  have hlen := h.length_le
  have hcap := h.cap_le
  unfold q_to_b
  dsimp only
  rw [h1, List.nil_append, List.length_map]
  refine ⟨?_, rfl, h2.reset_if_empty⟩
  have : (cs.take count.toNat).length ≤ cap := (List.length_take_le' _ _).trans hlen
  unfold INT_MAX at hcap
  omega

/-- The loop of `ndflush`: the front runs dropped, as `q_to_b` takes them. -/
theorem ndflushLoop_refines : ∀ (fuel : Nat) {clp : Clist} {cs : List Nat} (count : Int),
    Holds cap quot clp cs → cs.length < fuel → Holds cap quot (ndflushLoop fuel clp count) (cs.drop count.toNat)
  | 0, _, _, _, _, hfuel => absurd hfuel (Nat.not_lt_zero _)
  | fuel + 1, clp, cs, count, h, hfuel => by
    unfold ndflushLoop
    by_cases hg : count > 0 ∧ clp.c_cc > 0
    · rw [if_pos hg]
      dsimp only
      obtain ⟨m, hrun, hm0, hmc, hml, hend⟩ := h.takeRun_round hg
      rw [hrun, Int.toNat_natCast]
      have ih := ndflushLoop_refines fuel (count - m) (h.take_front hml hend)
        (by simp only [List.length_drop]; omega)
      rwa [List.drop_drop, show m + (count - m).toNat = count.toNat by omega] at ih
    · rw [if_neg hg, (h.take_nothing hg).2]
      exact h

/-- **`ndflush`** drops the first `count` characters. -/
theorem ndflush_refines (h : Holds cap quot clp cs) (count : Int) :
    Holds cap quot (ndflush clp count) (cs.drop count.toNat) := by
  unfold ndflush
  split
  · -- all of them: the clist is emptied at once
    rename_i hall
    have hd : cs.drop count.toNat = [] := List.drop_eq_nil_of_le (by rw [hall, h.cc_eq]; omega)
    rw [hd]
    simpa [window] using h.move { clp with c_cc := 0 }.reset (f := 0) (n := 0) rfl rfl rfl rfl
      (by simp [Clist.reset, Clist.cf]) (by simp [Clist.reset, Clist.cl]) (Nat.zero_le _)
  · exact (ndflushLoop_refines _ count h (by rw [h.length_eq]; omega)).reset_if_empty

end Ops

/-- Putting `c` on a clist holding `ts`, then the rest: the characters that fit, in order. -/
theorem append_take_putc (quot : Bool) (cap c : Nat) (ts rest : List Nat) :
    (if ts.length < cap then ts ++ [kept quot c] else ts) ++
        (rest.map (kept quot)).take (cap - (if ts.length < cap then ts ++ [kept quot c] else ts).length) =
      ts ++ ((c :: rest).map (kept quot)).take (cap - ts.length) := by
  by_cases hlt : ts.length < cap
  · rw [if_pos hlt, List.length_append, List.length_singleton, List.map_cons,
      show cap - ts.length = cap - (ts.length + 1) + 1 by omega, List.take_succ_cons, List.append_assoc]
    rfl
  · rw [if_neg hlt, show cap - ts.length = 0 by omega, List.take_zero, List.take_zero]

/-- The loop of `catq`: every character of `from` taken in order and put on `to`. -/
theorem catqLoop_refines {capf capt : Nat} {quotf quott : Bool} :
    ∀ (fs : List Nat) {fromq toq : Clist} {ts : List Nat} {fuel : Nat}, fs.length < fuel →
      Holds capf quotf fromq fs → Holds capt quott toq ts →
      Holds capf quotf (catqLoop fuel fromq toq).1 [] ∧
        Holds capt quott (catqLoop fuel fromq toq).2 (ts ++ (fs.map (kept quott)).take (capt - ts.length))
  | fs, fromq, toq, ts, fuel, hfuel, hf, ht => by
    obtain ⟨fuel, rfl⟩ : ∃ k, fuel = k + 1 := ⟨fuel - 1, by omega⟩
    obtain ⟨hres, hrest⟩ := getc_refines hf
    rcases hg : getc fromq with ⟨c, fromq'⟩
    rw [hg] at hres hrest
    simp only [catqLoop, hg]
    cases fs with
    | nil =>
      -- `getc` finds `from` empty
      have hc : c = -1 := hres
      rw [if_pos hc]
      simpa using ⟨hrest, ht⟩
    | cons x rest =>
      have hc : c = x := hres
      rw [if_neg (by omega), hc, Int.toNat_natCast]
      have hput := (putc_refines ht x).2
      obtain ⟨h1, h2⟩ := catqLoop_refines rest (show rest.length < fuel by simp at hfuel; omega) hrest hput
      exact ⟨h1, by rwa [append_take_putc] at h2⟩

/-- **`catq`** moves the characters of `from` to the end of `to`, as many as fit, and empties
`from`. -/
theorem catq_refines {capf capt : Nat} {quotf quott : Bool} {fromq toq : Clist} {fs ts : List Nat}
    (hf : Holds capf quotf fromq fs) (ht : Holds capt quott toq ts) :
    Holds capf quotf (catq fromq toq).1 [] ∧
      Holds capt quott (catq fromq toq).2 (ts ++ (fs.map (kept quott)).take (capt - ts.length)) :=
  catqLoop_refines fs (by rw [hf.length_eq]; omega) hf ht

/-! ## Runs -/

/-- A call on one clist. -/
inductive ClistOp where
  | getc
  | putc (c : Nat)
  | unputc
  | q_to_b (count : Int)
  | b_to_q (cp : List UInt8)
  | ndflush (count : Int)
  deriving DecidableEq, Repr

/-- The call on the clist: what it returns (an int, and the bytes `q_to_b` copies out; `ndflush`
returns nothing and is given `0`), and the clist it leaves. -/
def ClistOp.run : ClistOp → Clist → (Int × List UInt8) × Clist
  | .getc, clp => let (c, clp) := TtySubr.getc clp; ((c, []), clp)
  | .putc c, clp => let (r, clp) := TtySubr.putc c clp; ((r, []), clp)
  | .unputc, clp => let (c, clp) := TtySubr.unputc clp; ((c, []), clp)
  | .q_to_b count, clp => let (n, out, clp) := TtySubr.q_to_b clp count; ((n, out), clp)
  | .b_to_q cp, clp => let (n, clp) := TtySubr.b_to_q cp clp; ((n, []), clp)
  | .ndflush count, clp => ((0, []), TtySubr.ndflush clp count)

/-- What the call does to a queue of at most `cap` characters, with quote bits when `quot`. -/
def ClistOp.spec (cap : Nat) (quot : Bool) : ClistOp → List Nat → (Int × List UInt8) × List Nat
  | .getc, cs => ((cs.head?.elim (-1) (fun c => (c : Int)), []), cs.tail)
  | .putc c, cs => if cs.length < cap then ((0, []), cs ++ [kept quot c]) else ((-1, []), cs)
  | .unputc, cs => ((cs.getLast?.elim (-1) (fun c => (c : Int)), []), cs.dropLast)
  | .q_to_b count, cs => (((cs.take count.toNat).length, (cs.take count.toNat).map Nat.toUInt8), cs.drop count.toNat)
  | .b_to_q cp, cs => (((cp.drop (cap - cs.length)).length, []), cs ++ (cp.take (cap - cs.length)).map UInt8.toNat)
  | .ndflush count, cs => ((0, []), cs.drop count.toNat)

/-- The calls one after another: what each returned, and the clist at the end. -/
def ClistOp.runAll : List ClistOp → Clist → List (Int × List UInt8) × Clist
  | [], clp => ([], clp)
  | op :: ops, clp =>
    let (r, clp) := op.run clp
    let (rs, clp) := runAll ops clp
    (r :: rs, clp)

/-- The queue operations one after another. -/
def ClistOp.specAll (cap : Nat) (quot : Bool) : List ClistOp → List Nat → List (Int × List UInt8) × List Nat
  | [], cs => ([], cs)
  | op :: ops, cs =>
    let (r, cs) := op.spec cap quot cs
    let (rs, cs) := specAll cap quot ops cs
    (r :: rs, cs)

section Runs

variable {cap : Nat} {quot : Bool}

/-- One call is its queue operation. -/
theorem ClistOp.run_refines {clp : Clist} {cs : List Nat} (h : Holds cap quot clp cs) (op : ClistOp) :
    (op.run clp).1 = (op.spec cap quot cs).1 ∧ Holds cap quot (op.run clp).2 (op.spec cap quot cs).2 := by
  cases op with
  | getc =>
    obtain ⟨h1, h2⟩ := getc_refines h
    exact ⟨by simp only [run, spec, h1], h2⟩
  | putc c =>
    obtain ⟨h1, h2⟩ := putc_refines h c
    simp only [run, spec]
    split <;> simp_all
  | unputc =>
    obtain ⟨h1, h2⟩ := unputc_refines h
    exact ⟨by simp only [run, spec, h1], h2⟩
  | q_to_b count =>
    obtain ⟨h1, h2, h3⟩ := q_to_b_refines h count
    exact ⟨by simp only [run, spec, h1, h2], h3⟩
  | b_to_q cp =>
    obtain ⟨h1, h2⟩ := b_to_q_refines h cp
    exact ⟨by simp only [run, spec, h1], h2⟩
  | ndflush count => exact ⟨rfl, ndflush_refines h count⟩

/-- A run of calls is the run of their queue operations. -/
theorem ClistOp.runAll_refines : ∀ (ops : List ClistOp) {clp : Clist} {cs : List Nat},
    Holds cap quot clp cs →
      (runAll ops clp).1 = (specAll cap quot ops cs).1 ∧ Holds cap quot (runAll ops clp).2 (specAll cap quot ops cs).2
  | [], _, _, h => ⟨rfl, h⟩
  | op :: ops, clp, cs, h => by
    obtain ⟨h1, h2⟩ := op.run_refines h
    obtain ⟨ih1, ih2⟩ := runAll_refines ops h2
    simp only [runAll, specAll]
    exact ⟨by rw [h1, ih1], ih2⟩

end Runs

/-- **Clists are bounded queues.** On a clist that `clalloc` set up with `size` cells, every run of
`getc`, `putc`, `unputc`, `q_to_b`, `b_to_q` and `ndflush` returns what the queue operations return
and leaves the clist holding the queue they leave: characters taken from the front and the back, and
appended while fewer than `size` are held, each kept with its byte and its quote bit. `catq` moves the characters of one
clist to the end of another, as many as fit, and empties the first. -/
theorem clist_queue (size : Nat) (quot : Bool) (ops : List ClistOp) (hsize : 0 < size)
    (hmax : (size : Int) ≤ INT_MAX) :
    ((ClistOp.runAll ops (clalloc size quot)).1 = (ClistOp.specAll size quot ops []).1 ∧
      Holds size quot (ClistOp.runAll ops (clalloc size quot)).2 (ClistOp.specAll size quot ops []).2) ∧
    ∀ {capf capt : Nat} {quotf quott : Bool} {fromq toq : Clist} {fs ts : List Nat},
      Holds capf quotf fromq fs → Holds capt quott toq ts →
        Holds capf quotf (catq fromq toq).1 [] ∧
          Holds capt quott (catq fromq toq).2 (ts ++ (fs.map (kept quott)).take (capt - ts.length)) :=
  ⟨ClistOp.runAll_refines ops (clalloc_holds hsize hmax quot), fun hf ht => catq_refines hf ht⟩

/-- A ring of two with quote bits: `a` and `b` put, `c` refused, `a` taken, `'a'` with its quote
bit put, taken back from the end, and `b` taken; then `xyz` copied in (`z` left over), both copied out,
and `w` put and flushed. -/
theorem clist_queue_ring_of_two :
    0 < 2 ∧ ((2 : Nat) : Int) ≤ INT_MAX ∧
      (ClistOp.runAll [.putc 97, .putc 98, .putc 99, .getc, .putc 0x161, .unputc, .getc,
          .b_to_q [120, 121, 122], .q_to_b 5, .putc 119, .ndflush 1, .getc] (clalloc 2 true)).1 =
        [(0, []), (0, []), (-1, []), (97, []), (0, []), (0x161, []), (98, []),
          (1, []), (2, [120, 121]), (0, []), (0, []), (-1, [])] := by
  have h := (clist_queue 2 true [.putc 97, .putc 98, .putc 99, .getc, .putc 0x161, .unputc, .getc,
    .b_to_q [120, 121, 122], .q_to_b 5, .putc 119, .ndflush 1, .getc] (by decide) (by decide)).1.1
  exact ⟨by decide, by decide, h.trans (by decide)⟩

end Bsd.TtySubr
