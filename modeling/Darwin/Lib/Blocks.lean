import Mathlib.Data.List.Basic

/-!
# A memory of blocks

C memory as a list of blocks of cells, and a pointer as a block and an offset into it. The
offset is an integer: pointer arithmetic can take it below the block or past its end, and only a
load or a store there is undefined behaviour, which has no result here (`none`). `alloc` adds a
block, as `alloca` or a variable-length array does.

A program over such a memory runs in `StateT (Mem α) Option`; `load`, `store` and `alloca` are
its primitive steps. The lemmas say what a load sees after a store or an allocation, and that
stores and allocations keep the blocks already there.

`Prog.Keeps x` says that a run of `x` loses no block and resizes none (`Mem.Extends`). It is
proved once per primitive and kept by `bind`, `if` and `for` (`Keeps.bind`, `Keeps.ite`,
`Keeps.forIn`), so that a program built from them keeps the memory with no unfolding of its
callees. Its use: a store past the end of a block allocated earlier in a run fails however the
run went in between (`Prog.run_bind_none`, `store_run_none`).
-/

namespace Blocks

/-- A pointer: a block and an offset in cells. -/
structure Ptr where
  blk : Nat
  off : Int
  deriving DecidableEq, Repr

/-- `p + i`. -/
def Ptr.add (p : Ptr) (i : Int) : Ptr := ⟨p.blk, p.off + i⟩

/-- The blocks, by number. -/
abbrev Mem (α : Type) := List (List α)

variable {α : Type}

/-- `*p`, or nothing outside the block. -/
def Mem.load (m : Mem α) (p : Ptr) : Option α :=
  match m[p.blk]? with
  | some b => if 0 ≤ p.off then b[p.off.toNat]? else none
  | none => none

/-- `*p = v`, or nothing outside the block. -/
def Mem.store (m : Mem α) (p : Ptr) (v : α) : Option (Mem α) :=
  match m[p.blk]? with
  | some b => if 0 ≤ p.off ∧ p.off.toNat < b.length then some (m.set p.blk (b.set p.off.toNat v))
    else none
  | none => none

/-- A program over the memory; `none` is undefined behaviour. -/
abbrev Prog (α : Type) := StateT (Mem α) Option

/-- Read `p[i]`. -/
def load (p : Ptr) (i : Int) : Prog α α := fun m =>
  (m.load (p.add i)).map fun v => (v, m)

/-- Write `p[i] = v`. -/
def store (p : Ptr) (i : Int) (v : α) : Prog α Unit := fun m =>
  (m.store (p.add i) v).map fun m' => ((), m')

/-- Read the `n` cells from `p`. -/
def loadN (p : Ptr) : Nat → Prog α (List α)
  | 0 => pure []
  | n + 1 => do
    let v ← load p 0
    let vs ← loadN (p.add 1) n
    pure (v :: vs)

/-- Write `l` from `p` on, in order. -/
def storeN (p : Ptr) : List α → Prog α Unit
  | [] => pure ()
  | v :: vs => do
    store p 0 v
    storeN (p.add 1) vs

/-- A value that may be missing, as a program: a missing one is undefined behaviour. -/
def Prog.ofOption {β : Type} : Option β → Prog α β
  | some b => pure b
  | none => fun _ => none

/-- A new block of the given cells. -/
def alloca (cells : List α) : Prog α Ptr := fun m => some (⟨m.length, 0⟩, m ++ [cells])

theorem alloca_run (cells : List α) (m : Mem α) :
    (alloca cells).run m = some (⟨m.length, 0⟩, m ++ [cells]) := rfl

/-- A run that begins with an allocation goes on with the new block's pointer. -/
theorem run_alloca_bind {β : Type} (cells : List α) (g : Ptr → Prog α β) (m : Mem α) :
    (alloca cells >>= g).run m = (g ⟨m.length, 0⟩).run (m ++ [cells]) := rfl

/-- A run whose first part returns goes on from where it left the memory. -/
theorem run_bind_of_run {β γ : Type} {x : Prog α β} {g : β → Prog α γ} {m m' : Mem α} {b : β}
    (h : x.run m = some (b, m')) : (x >>= g).run m = (g b).run m' := by
  rw [StateT.run_bind, h]
  rfl

theorem Ptr.add_add (p : Ptr) (i j : Int) : (p.add i).add j = p.add (i + j) := by
  simp only [Ptr.add, Int.add_assoc]

@[simp] theorem Ptr.add_zero (p : Ptr) : p.add 0 = p := by
  simp only [Ptr.add, Int.add_zero]

@[simp] theorem Ptr.add_blk (p : Ptr) (i : Int) : (p.add i).blk = p.blk := rfl

@[simp] theorem Ptr.add_off (p : Ptr) (i : Int) : (p.add i).off = p.off + i := rfl

theorem Mem.load_eq_some {m : Mem α} {p : Ptr} {v : α} :
    m.load p = some v ↔ ∃ b, m[p.blk]? = some b ∧ 0 ≤ p.off ∧ b[p.off.toNat]? = some v := by
  unfold Mem.load
  cases m[p.blk]? with
  | none => simp
  | some b => by_cases h : 0 ≤ p.off <;> simp [h]

theorem Mem.store_eq_some {m m' : Mem α} {p : Ptr} {v : α} :
    m.store p v = some m' ↔ ∃ b, m[p.blk]? = some b ∧ 0 ≤ p.off ∧ p.off.toNat < b.length ∧
      m' = m.set p.blk (b.set p.off.toNat v) := by
  unfold Mem.store
  cases m[p.blk]? with
  | none => simp
  | some b =>
    by_cases h : 0 ≤ p.off ∧ p.off.toNat < b.length
    · simp only [h, and_self, if_true, Option.some.injEq, exists_eq_left',
        true_and]
      exact ⟨fun e => e.symm, fun e => e.symm⟩
    · simp only [h, if_false, reduceCtorEq, false_iff, not_exists, not_and, Option.some.injEq]
      rintro _ rfl h0 hl _
      exact h ⟨h0, hl⟩

/-- A store keeps the number of blocks and the length of each. -/
theorem Mem.store_length {m m' : Mem α} {p : Ptr} {v : α} (h : m.store p v = some m') :
    ∀ k : Nat, (m'[k]?).map List.length = (m[k]?).map List.length := by
  obtain ⟨b, hb, -, -, rfl⟩ := Mem.store_eq_some.mp h
  intro k
  by_cases hk : p.blk = k
  · subst hk
    simp [List.getElem?_set_self (List.getElem?_eq_some_iff.mp hb).1, hb]
  · simp [List.getElem?_set_ne hk]

/-- What a load sees after a store: the stored cell, or the old one. -/
theorem Mem.load_store {m m' : Mem α} {p q : Ptr} {v : α} (h : m.store p v = some m') :
    m'.load q = if q = p then some v else m.load q := by
  obtain ⟨b, hb, h0, hl, rfl⟩ := Mem.store_eq_some.mp h
  unfold Mem.load
  by_cases hq : q = p
  · subst hq
    have hlt := (List.getElem?_eq_some_iff.mp hb).1
    simp [List.getElem?_set_self hlt, h0, hl]
  · rw [if_neg hq]
    by_cases hblk : p.blk = q.blk
    · rw [← hblk, List.getElem?_set_self (List.getElem?_eq_some_iff.mp hb).1, hb]
      have hoff : p.off ≠ q.off := fun ho => hq (by cases p; cases q; simp_all)
      by_cases hq0 : 0 ≤ q.off
      · simp only [hq0, if_true]
        rw [List.getElem?_set_ne (by omega)]
      · simp [hq0]
    · simp [List.getElem?_set_ne hblk]

/-- An allocation keeps the blocks there. -/
theorem Mem.load_append {m : Mem α} {p : Ptr} (cells : List α) (hp : p.blk < m.length) :
    (m ++ [cells]).load p = m.load p := by
  unfold Mem.load
  rw [List.getElem?_append_left hp]

/-! ## Reading a run of cells -/

/-- The cells from `p` on are `l`. -/
def Mem.Reads (m : Mem α) (p : Ptr) (l : List α) : Prop :=
  ∀ i (h : i < l.length), m.load (p.add i) = some l[i]

theorem Mem.Reads.cons_iff {m : Mem α} {p : Ptr} {x : α} {l : List α} :
    m.Reads p (x :: l) ↔ m.load p = some x ∧ m.Reads (p.add 1) l := by
  constructor
  · intro h
    have h0 := h 0 (by simp)
    rw [List.getElem_cons_zero, Int.natCast_zero, Ptr.add_zero] at h0
    refine ⟨h0, fun i hi => ?_⟩
    have hi' := h (i + 1) (by simpa using hi)
    rw [List.getElem_cons_succ, Int.natCast_add, Int.natCast_one, Int.add_comm, ← Ptr.add_add] at hi'
    exact hi'
  · rintro ⟨h0, h⟩ i hi
    cases i with
    | zero => rwa [List.getElem_cons_zero, Int.natCast_zero, Ptr.add_zero]
    | succ i =>
      rw [List.getElem_cons_succ, Int.natCast_add, Int.natCast_one, Int.add_comm, ← Ptr.add_add]
      exact h i (by simpa using hi)

/-- A load of a cell that holds a value. -/
theorem load_run_of_load {m : Mem α} {p : Ptr} {i : Int} {v : α} (h : m.load (p.add i) = some v) :
    (load p i).run m = some (v, m) := by
  simp [load, StateT.run, h]

/-- A load inside a run that is read. -/
theorem load_run_of_reads {m : Mem α} {p : Ptr} {l : List α} (h : m.Reads p l) {i : Nat}
    (hi : i < l.length) : (load p i).run m = some (l[i], m) := by
  simp [load, StateT.run, h i hi]

theorem Mem.Reads.nil {m : Mem α} {p : Ptr} : m.Reads p [] := fun _ h => absurd h (by simp)

/-- The cells of a run that agree with those of another memory are read there too. -/
theorem Mem.Reads.congr {m m' : Mem α} {p : Ptr} {l : List α} (h : m.Reads p l)
    (hm : ∀ i < l.length, m'.load (p.add i) = m.load (p.add i)) : m'.Reads p l :=
  fun i hi => (hm i hi).trans (h i hi)

/-- `k` cells from `i` of a run. -/
theorem Mem.Reads.sub {m : Mem α} {p : Ptr} {l : List α} (h : m.Reads p l) {i k : Nat}
    (hik : i + k ≤ l.length) : m.Reads (p.add i) ((l.drop i).take k) := by
  intro j hj
  have hj' : j < k := by
    simp only [List.length_take, List.length_drop] at hj
    omega
  have hij := h (i + j) (by omega)
  rw [Ptr.add_add, List.getElem_take, List.getElem_drop, ← Int.natCast_add]
  exact hij

theorem Mem.Reads.append_iff {m : Mem α} {p : Ptr} {l₁ l₂ : List α} :
    m.Reads p (l₁ ++ l₂) ↔ m.Reads p l₁ ∧ m.Reads (p.add l₁.length) l₂ := by
  induction l₁ generalizing p with
  | nil =>
    rw [List.nil_append, List.length_nil, Int.natCast_zero, Ptr.add_zero]
    exact ⟨fun h => ⟨Mem.Reads.nil, h⟩, fun h => h.2⟩
  | cons x l ih =>
    rw [List.cons_append, Mem.Reads.cons_iff, Mem.Reads.cons_iff, ih, Ptr.add_add,
      List.length_cons, Int.natCast_add, Int.natCast_one, Int.add_comm 1, and_assoc]

/-- The block an allocation adds reads its cells. -/
theorem Mem.reads_append_self (m : Mem α) (cells : List α) :
    (m ++ [cells]).Reads ⟨m.length, 0⟩ cells := by
  intro i hi
  simp [Mem.load, Ptr.add, hi]

/-- A run of cells that can be read lies in a block that is there. -/
theorem Mem.Reads.blk_lt {m : Mem α} {p : Ptr} {l : List α} (h : m.Reads p l) (hne : l ≠ []) :
    p.blk < m.length := by
  obtain ⟨x, l', rfl⟩ := List.exists_cons_of_ne_nil hne
  obtain ⟨b, hb, -⟩ := Mem.load_eq_some.mp (Mem.Reads.cons_iff.mp h).1
  exact (List.getElem?_eq_some_iff.mp hb).1

/-- Cells read before an allocation are read after it. -/
theorem Mem.Reads.append_block {m : Mem α} {p : Ptr} {l : List α} (h : m.Reads p l)
    (cells : List α) : (m ++ [cells]).Reads p l := by
  rcases eq_or_ne l [] with rfl | hne
  · exact Mem.Reads.nil
  · exact h.congr fun i _ => Mem.load_append cells (by simpa using h.blk_lt hne)

theorem loadN_run_of_reads {m : Mem α} {p : Ptr} {l : List α} (h : m.Reads p l) :
    (loadN p l.length).run m = some (l, m) := by
  induction l generalizing p with
  | nil => rfl
  | cons x l ih =>
    obtain ⟨hx, hl⟩ := Mem.Reads.cons_iff.mp h
    have hload : (load p 0).run m = some (x, m) := by simp [load, StateT.run, hx]
    simp only [List.length_cons, loadN, StateT.run_bind, hload, Option.bind_eq_bind,
      Option.bind_some, ih hl]
    rfl

/-- `q` is not one of the `n` cells from `p`. -/
def Ptr.Outside (p : Ptr) (n : Nat) (q : Ptr) : Prop :=
  q.blk ≠ p.blk ∨ q.off < p.off ∨ p.off + n ≤ q.off

/-- A cell that can be read can be written. -/
theorem Mem.store_of_load {m : Mem α} {p : Ptr} {w : α} (h : m.load p = some w) (v : α) :
    ∃ m', m.store p v = some m' := by
  obtain ⟨b, hb, h0, hw⟩ := Mem.load_eq_some.mp h
  exact ⟨_, Mem.store_eq_some.mpr ⟨b, hb, h0, (List.getElem?_eq_some_iff.mp hw).1, rfl⟩⟩

/-- Writing over a run that can be read: the run reads what was written, and every other cell
is as it was. -/
theorem storeN_run {m : Mem α} {p : Ptr} {old new : List α} (h : m.Reads p old)
    (hl : new.length = old.length) :
    ∃ m', (storeN p new).run m = some ((), m') ∧ m'.Reads p new ∧
      ∀ q, p.Outside new.length q → m'.load q = m.load q := by
  induction new generalizing p old m with
  | nil => exact ⟨m, rfl, Mem.Reads.nil, fun _ _ => rfl⟩
  | cons v vs ih =>
    cases old with
    | nil => cases hl
    | cons o os =>
      obtain ⟨ho, hos⟩ := Mem.Reads.cons_iff.mp h
      obtain ⟨m₁, hs⟩ := Mem.store_of_load ho v
      -- after the first store, the rest of the run is as it was
      have hos₁ : m₁.Reads (p.add 1) os := by
        refine hos.congr fun i _ => ?_
        rw [Mem.load_store hs, if_neg]
        intro heq
        have hoff := congrArg Ptr.off heq
        simp only [Ptr.add_off] at hoff
        omega
      obtain ⟨m', hrun, hreads, hframe⟩ := ih hos₁ (by simpa using hl)
      have hstore : (store p 0 v).run m = some ((), m₁) := by
        simp [store, StateT.run, hs]
      refine ⟨m', ?_, ?_, ?_⟩
      · simp only [storeN, StateT.run_bind, hstore, Option.bind_eq_bind, Option.bind_some, hrun]
      · refine Mem.Reads.cons_iff.mpr ⟨?_, hreads⟩
        rw [hframe p (.inr (.inl (by simp only [Ptr.add_off]; omega))), Mem.load_store hs, if_pos rfl]
      · intro q hq
        have hq' : (p.add 1).Outside vs.length q := by
          simp only [Ptr.Outside, Ptr.add_blk, Ptr.add_off, List.length_cons] at hq ⊢
          omega
        rw [hframe q hq', Mem.load_store hs, if_neg]
        rintro rfl
        simp only [Ptr.Outside, ne_eq, not_true_eq_false, false_or, List.length_cons] at hq
        omega

/-- A store at `p[i]` is a store at `(p + i)[0]`. -/
theorem store_add_zero (p : Ptr) (i : Int) (v : α) : store (p.add i) 0 v = store p i v := by
  unfold store
  rw [Ptr.add_zero]

/-- A store into a cell that can be read: the cell reads the value stored, and every other cell
is as it was. -/
theorem store_run_of_load {m : Mem α} {p : Ptr} {i : Int} {w : α} (h : m.load (p.add i) = some w)
    (v : α) : ∃ m', (store p i v).run m = some ((), m') ∧ m'.load (p.add i) = some v ∧
      ∀ q, q ≠ p.add i → m'.load q = m.load q := by
  obtain ⟨m', hs⟩ := Mem.store_of_load h v
  refine ⟨m', by simp [store, StateT.run, hs], ?_, fun q hq => ?_⟩
  · rw [Mem.load_store hs, if_pos rfl]
  · rw [Mem.load_store hs, if_neg hq]

/-- Storing the value a cell holds leaves the memory as it was. -/
theorem store_run_self {m : Mem α} {p : Ptr} {i : Int} {v : α} (h : m.load (p.add i) = some v) :
    (store p i v).run m = some ((), m) := by
  obtain ⟨b, hb, h0, hv⟩ := Mem.load_eq_some.mp h
  obtain ⟨hlt, hbv⟩ := List.getElem?_eq_some_iff.mp hv
  obtain ⟨hblt, hmb⟩ := List.getElem?_eq_some_iff.mp hb
  have hs : m.store (p.add i) v = some m := by
    refine Mem.store_eq_some.mpr ⟨b, hb, h0, hlt, ?_⟩
    rw [← hbv, List.set_getElem_self, ← hmb, List.set_getElem_self]
  simp [store, StateT.run, hs]

/-! ## Programs that keep every block -/

/-- `m'` has every block of `m`, with its length. -/
def Mem.Extends (m m' : Mem α) : Prop :=
  ∀ k L : Nat, (m[k]?).map List.length = some L → (m'[k]?).map List.length = some L

theorem Mem.Extends.refl (m : Mem α) : m.Extends m := fun _ _ h => h

theorem Mem.Extends.trans {m₁ m₂ m₃ : Mem α} (h₁ : m₁.Extends m₂) (h₂ : m₂.Extends m₃) :
    m₁.Extends m₃ := fun k L h => h₂ k L (h₁ k L h)

/-- A run of `x` loses no block and resizes none. -/
def Prog.Keeps {β : Type} (x : Prog α β) : Prop :=
  ∀ m b m', x.run m = some (b, m') → m.Extends m'

/-- A cell that can be read can still be read in a memory that keeps every block. -/
theorem Mem.Extends.load {m m' : Mem α} (h : m.Extends m') {p : Ptr} {v : α}
    (hv : m.load p = some v) : ∃ v', m'.load p = some v' := by
  obtain ⟨b, hb, h0, hbv⟩ := Mem.load_eq_some.mp hv
  obtain ⟨b', hb', hlen⟩ := Option.map_eq_some_iff.mp (h p.blk b.length (by rw [hb]; rfl))
  have hlt : p.off.toNat < b'.length := hlen ▸ (List.getElem?_eq_some_iff.mp hbv).1
  exact ⟨b'[p.off.toNat], Mem.load_eq_some.mpr ⟨b', hb', h0, List.getElem?_eq_getElem hlt⟩⟩

/-- A run of cells that can be read can still be read, maybe with other values, in a memory that
keeps every block. -/
theorem Mem.Extends.reads {m m' : Mem α} (h : m.Extends m') {p : Ptr} {l : List α}
    (hl : m.Reads p l) : ∃ l', l'.length = l.length ∧ m'.Reads p l' := by
  induction l generalizing p with
  | nil => exact ⟨[], rfl, Mem.Reads.nil⟩
  | cons x l ih =>
    obtain ⟨hx, hl⟩ := Mem.Reads.cons_iff.mp hl
    obtain ⟨x', hx'⟩ := h.load hx
    obtain ⟨l', hlen, hl'⟩ := ih hl
    exact ⟨x' :: l', by rw [List.length_cons, hlen, List.length_cons],
      Mem.Reads.cons_iff.mpr ⟨hx', hl'⟩⟩

namespace Prog.Keeps

variable {β γ : Type}

theorem pure (b : β) : Keeps (Pure.pure b : Prog α β) := by
  intro m b' m' h
  simp only [StateT.run_pure, Option.pure_def, Option.some.injEq, Prod.mk.injEq] at h
  rw [← h.2]
  exact Mem.Extends.refl m

theorem bind {x : Prog α β} {f : β → Prog α γ} (hx : Keeps x) (hf : ∀ b, Keeps (f b)) :
    Keeps (x >>= f) := by
  intro m c m' h
  simp only [StateT.run_bind, Option.bind_eq_bind, Option.bind_eq_some_iff, Prod.exists] at h
  obtain ⟨b, m₁, h₁, h₂⟩ := h
  exact (hx m b m₁ h₁).trans (hf b m₁ c m' h₂)

theorem ite {c : Prop} [Decidable c] {x y : Prog α β} (hx : Keeps x) (hy : Keeps y) :
    Keeps (if c then x else y) := by
  split
  · exact hx
  · exact hy

theorem forIn {ι : Type} (l : List ι) (init : β) {f : ι → β → Prog α (ForInStep β)}
    (hf : ∀ i b, Keeps (f i b)) : Keeps (ForIn.forIn l init f) := by
  induction l generalizing init with
  | nil => exact pure init
  | cons i l ih =>
    rw [List.forIn_cons]
    refine bind (hf i init) fun r => ?_
    cases r with
    | done b => exact pure b
    | yield b => exact ih b

theorem fail : Keeps (fun _ => none : Prog α β) := by
  intro m b m' h
  cases h

theorem load (p : Ptr) (i : Int) : Keeps (Blocks.load p i : Prog α α) := by
  intro m v m' h
  simp only [Blocks.load, StateT.run, Option.map_eq_some_iff, Prod.mk.injEq] at h
  obtain ⟨_, _, _, rfl⟩ := h
  exact Mem.Extends.refl m

theorem store (p : Ptr) (i : Int) (v : α) : Keeps (Blocks.store p i v) := by
  intro m u m' h
  simp only [Blocks.store, StateT.run, Option.map_eq_some_iff, Prod.mk.injEq] at h
  obtain ⟨m₁, hs, -, rfl⟩ := h
  intro k L hk
  rw [Mem.store_length hs k]
  exact hk

theorem alloca (cells : List α) : Keeps (Blocks.alloca cells) := by
  intro m q m' h
  simp only [Blocks.alloca, StateT.run, Option.some.injEq, Prod.mk.injEq] at h
  obtain ⟨-, rfl⟩ := h
  intro k L hk
  have hlt : k < m.length := by
    by_contra hge
    rw [List.getElem?_eq_none (by omega)] at hk
    cases hk
  rw [List.getElem?_append_left hlt]
  exact hk

theorem loadN (p : Ptr) (n : Nat) : Keeps (Blocks.loadN p n : Prog α (List α)) := by
  induction n generalizing p with
  | zero => exact pure []
  | succ n ih => exact bind (load p 0) fun _ => bind (ih (p.add 1)) fun _ => pure _

end Prog.Keeps

/-- A run that fails after every outcome of its first part fails. -/
theorem Prog.run_bind_none {β γ : Type} {x : Prog α β} {f : β → Prog α γ} {m : Mem α}
    (hf : ∀ b m', x.run m = some (b, m') → (f b).run m' = none) : (x >>= f).run m = none := by
  simp only [StateT.run_bind, Option.bind_eq_bind, Option.bind_eq_none_iff]
  rintro ⟨b, m'⟩ h
  exact hf b m' h

/-- A run whose first part fails fails. -/
theorem Prog.run_bind_of_none {β γ : Type} {x : Prog α β} {f : β → Prog α γ} {m : Mem α}
    (hx : x.run m = none) : (x >>= f).run m = none := by
  simp only [StateT.run_bind, hx, Option.bind_eq_bind, Option.bind_none]

/-- A store at or past the end of its block fails. -/
theorem store_run_none {m : Mem α} {p : Ptr} {i : Int} {L : Nat} (v : α)
    (hL : (m[p.blk]?).map List.length = some L) (hi : (L : Int) ≤ p.off + i) :
    (store p i v).run m = none := by
  obtain ⟨b, hb, rfl⟩ := Option.map_eq_some_iff.mp hL
  have hout : ¬ (0 ≤ (p.add i).off ∧ (p.add i).off.toNat < b.length) := by
    simp only [Ptr.add_off]
    omega
  simp only [store, StateT.run, Option.map_eq_none_iff, Mem.store, Ptr.add_blk, hb, hout,
    if_false]

/-! ## Loops over a range of indices -/

/-- A `for` loop over `List.range' first count` that keeps no state of its own, whose pass `i`,
run from a memory where `I i` holds, returns and leaves one where `I (i + 1)` holds: the loop
returns, and `I (first + count)` holds after it. -/
theorem forIn_range'_run (I : Nat → Mem α → Prop) (f : Nat → Unit → Prog α (ForInStep Unit))
    (count first : Nat)
    (hf : ∀ i m, first ≤ i → i < first + count → I i m →
      ∃ m', (f i ()).run m = some (ForInStep.yield (), m') ∧ I (i + 1) m')
    {m : Mem α} (hm : I first m) :
    ∃ m', (forIn (List.range' first count) () f).run m = some ((), m') ∧ I (first + count) m' := by
  induction count generalizing first m with
  | zero => exact ⟨m, rfl, hm⟩
  | succ count ih =>
    obtain ⟨m₁, h₁, hI₁⟩ := hf first m (Nat.le_refl _) (by omega) hm
    obtain ⟨m', h', hI'⟩ := ih (first + 1) (fun i m hi hi' => hf i m (by omega) (by omega)) hI₁
    refine ⟨m', ?_, by rwa [Nat.add_right_comm, Nat.add_assoc] at hI'⟩
    rw [List.range'_succ, List.forIn_cons, StateT.run_bind, h₁]
    exact h'

/-- Pass `i` of `f` maps cell `p + i` by `g`: from a memory where the cell holds `v`, it yields,
and leaves the cell holding `g v` and every other cell as it was. -/
def MapsCell (p : Ptr) (g : α → α) (f : Nat → Unit → Prog α (ForInStep Unit)) : Prop :=
  ∀ i m v, m.load (p.add (i : Nat)) = some v →
    ∃ m', (f i ()).run m = some (ForInStep.yield (), m') ∧ m'.load (p.add (i : Nat)) = some (g v) ∧
      ∀ q, q ≠ p.add (i : Nat) → m'.load q = m.load q

theorem Ptr.add_ne_add {p : Ptr} {i j : Nat} (h : j ≠ i) : p.add (j : Nat) ≠ p.add (i : Nat) := by
  intro heq
  have := congrArg Ptr.off heq
  simp only [Ptr.add_off] at this
  omega

theorem Ptr.Outside.ne_add {p q : Ptr} {n i : Nat} (h : p.Outside n q) (hi : i < n) :
    q ≠ p.add (i : Nat) := by
  rintro rfl
  simp only [Ptr.Outside, Ptr.add_blk, Ptr.add_off, ne_eq, not_true_eq_false, false_or] at h
  omega

/-- A loop over the cells of a run, each pass mapping its cell by `g`: the run reads the mapped
cells, and no cell outside it changes. -/
theorem forIn_mapsCell_run {p : Ptr} {g : α → α} {f : Nat → Unit → Prog α (ForInStep Unit)}
    (h : MapsCell p g f) {m : Mem α} {l : List α} (hr : m.Reads p l) :
    ∃ m', (forIn (List.range l.length) () f).run m = some ((), m') ∧ m'.Reads p (l.map g) ∧
      ∀ q, p.Outside l.length q → m'.load q = m.load q := by
  -- after `i` passes the cells below `i` are mapped and the others are as they were
  obtain ⟨m', hrun, hcells, hframe⟩ := forIn_range'_run
    (fun i m' => (∀ j (hj : j < l.length), m'.load (p.add (j : Nat)) =
        some (if j < i then g l[j] else l[j])) ∧
      ∀ q, p.Outside l.length q → m'.load q = m.load q)
    f l.length 0
    (fun i m₁ _ hi ⟨hcells, hout⟩ => by
      have hcell : m₁.load (p.add (i : Nat)) = some l[i] := by
        rw [hcells i (by omega), if_neg (Nat.lt_irrefl i)]
      obtain ⟨m₂, hrun, hv, hother⟩ := h i m₁ l[i] hcell
      refine ⟨m₂, hrun, fun j hj => ?_, fun q hq => ?_⟩
      · by_cases hji : j = i
        · subst hji
          rw [hv, if_pos (Nat.lt_succ_self j)]
        · rw [hother _ (Ptr.add_ne_add hji), hcells j hj]
          congr 1
          by_cases hlt : j < i
          · rw [if_pos hlt, if_pos (by omega)]
          · rw [if_neg hlt, if_neg (by omega)]
      · rw [hother q (hq.ne_add (by omega)), hout q hq])
    ⟨fun j hj => by rw [if_neg (Nat.not_lt_zero j)]; exact hr j hj, fun _ _ => rfl⟩
  refine ⟨m', by rwa [List.range_eq_range'], fun j hj => ?_, hframe⟩
  rw [List.length_map] at hj
  rw [hcells j hj, if_pos (by omega), List.getElem_map]

/-- A fold in `Option` over `List.range' first count` whose step, from a value where `I i` holds,
returns one where `I (i + 1)` holds: the fold returns, with `I (first + count)`. -/
theorem foldlM_range'_some {β : Type} (I : Nat → β → Prop) (f : β → Nat → Option β)
    (count first : Nat)
    (hf : ∀ i b, first ≤ i → i < first + count → I i b → ∃ b', f b i = some b' ∧ I (i + 1) b')
    {b : β} (hb : I first b) :
    ∃ b', (List.range' first count).foldlM f b = some b' ∧ I (first + count) b' := by
  induction count generalizing first b with
  | zero => exact ⟨b, rfl, hb⟩
  | succ count ih =>
    obtain ⟨b₁, h₁, hI₁⟩ := hf first b (Nat.le_refl _) (by omega) hb
    obtain ⟨b', h', hI'⟩ := ih (first + 1) (fun i b hi hi' => hf i b (by omega) (by omega)) hI₁
    refine ⟨b', ?_, by rwa [Nat.add_right_comm, Nat.add_assoc] at hI'⟩
    rw [List.range'_succ, List.foldlM_cons, h₁]
    exact h'

/-- A fold in `Option` whose every step returns `f`'s value is `f`'s fold. -/
theorem foldlM_eq_some_foldl {β ι : Type} (g : β → ι → Option β) (f : β → ι → β) (l : List ι)
    (h : ∀ b, ∀ i ∈ l, g b i = some (f b i)) (b : β) : l.foldlM g b = some (l.foldl f b) := by
  induction l generalizing b with
  | nil => rfl
  | cons i l ih =>
    rw [List.foldlM_cons, h b i List.mem_cons_self, List.foldl_cons]
    exact ih (fun b j hj => h b j (List.mem_cons_of_mem i hj)) (f b i)

end Blocks
