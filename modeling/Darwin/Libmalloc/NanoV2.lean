import Darwin.Lib.Chain
import Mathlib.Data.Int.Interval

/-!
# Nano V2 block slot accounting (`libmalloc/src/nanov2_malloc.c`)

A Nano V2 block of size class `c` has `N = slots_by_size_class[c]` slots. Its whole state is one
32-bit metadata word (`nanov2_block_meta_t`, `nanov2_zone.h:147`) and, in each free slot on the
free list, the `next_slot` field of a `nanov2_free_slot_t`. Every change of the word is a load,
a computation and a compare-and-swap; a transition here is one such swap that succeeds:

- activation by `nanov2_find_block_in_arena` (`:2398-2419`, `find_block_activate`);
- `nanov2_allocate_from_block` (`:2126`), which pops the free list or takes the next never-used
  slot `N - free_count - 1`;
- `nanov2_free_to_block` (`:2650`), which pushes the slot, or, when it frees the last allocated
  slot, drops the list and puts the block back to `SLOT_BUMP` (or `SLOT_CAN_MADVISE` when no
  context uses it);
- `nanov2_turn_off_in_use` (`:575`) and the two swaps of `nanov2_madvise_block` (`:1992`).

`free_count` is "free slots minus one" in 10 bits: it wraps to `0x3ff` when the block fills and
back to `0` on the first free of a full block. `Inv` says what the word means for the set `A`
of allocated slots in each state, and `Reachable.inv` proves it over every run, with the
program's own writes to its allocated slots in between. The `SLOT_CAN_MADVISE` branch of the
allocation is dead: the allocation needs `in_use`, and a block waiting to be madvised has it
clear.
-/

namespace Libmalloc.NanoV2

/-! ## The model -/

/-- `NANOV2_BLOCK_SIZE` (`nanov2_zone.h:55`, with `NANOV2_OFFSET_BITS = 14`). -/
def NANOV2_BLOCK_SIZE : Nat := 2 ^ 14

/-- `NANO_REGIME_QUANTA_SIZE` (`nano_zone_common.h:29`). -/
def NANO_REGIME_QUANTA_SIZE : Nat := 16

/-- `slots_by_size_class` (`:183`), for the `NANO_SIZE_CLASSES = 16` size classes. -/
def slots_by_size_class (size_class : Fin 16) : Nat :=
  NANOV2_BLOCK_SIZE / ((size_class.val + 1) * NANO_REGIME_QUANTA_SIZE)

/-- The distinguished values of `next_slot` (`nanov2_zone.h:157-163`). -/
def SLOT_NULL : BitVec 11 := 0

def SLOT_GUARD : BitVec 11 := 0x7fa

def SLOT_BUMP : BitVec 11 := 0x7fb

def SLOT_FULL : BitVec 11 := 0x7fc

def SLOT_CAN_MADVISE : BitVec 11 := 0x7fd

def SLOT_MADVISING : BitVec 11 := 0x7fe

def SLOT_MADVISED : BitVec 11 := 0x7ff

/-- `nanov2_block_meta_t`: the bit-fields of the word at their widths. -/
structure nanov2_block_meta_t where
  /-- the next slot on the free list, 1-based, or a `SLOT_*` value -/
  next_slot : BitVec 11
  /-- the free slots of the block, minus one -/
  free_count : BitVec 10
  gen_count : BitVec 10
  in_use : Bool
  deriving DecidableEq, Repr

/-- A block as its metadata code sees it: the word, and by slot index the `next_slot` field of
the `nanov2_free_slot_t` laid over the slot (`nanov2_zone.h:182`). Its `double_free_guard` is
checked on a pop but never followed, and is left out. -/
structure Block where
  block_meta : nanov2_block_meta_t
  slot_next : Int → UInt16

/-- `nanov2_can_allocate_from_block` (`:258`). -/
def nanov2_can_allocate_from_block (block_meta : nanov2_block_meta_t) : Bool :=
  block_meta.in_use && block_meta.next_slot != SLOT_FULL

/-- `nanov2_allocate_from_block` from its load to its compare-and-swap: the slot it takes and
the word it swaps in, `none` when it returns `NULL`. `slots` is `slots_by_size_class[size_class]`. -/
def nanov2_allocate_from_block (slots : Nat) (old : nanov2_block_meta_t)
    (slot_next : Int → UInt16) : Option (Int × nanov2_block_meta_t) :=
  if !nanov2_can_allocate_from_block old then none
  else
    let free_count := old.free_count - 1
    let gen_count := old.gen_count + 1
    let slot_full := old.free_count == 0
    if old.next_slot == SLOT_BUMP || old.next_slot == SLOT_CAN_MADVISE then
      -- the free list is empty: the next never-used slot
      some ((slots : Int) - old.free_count.toNat - 1,
        ⟨if slot_full then SLOT_FULL else SLOT_BUMP, free_count, gen_count, true⟩)
    else
      let slot : Int := (old.next_slot.toNat : Int) - 1
      -- the stored `uint16_t` goes back into the 11-bit field
      some (slot, ⟨if slot_full then SLOT_FULL else BitVec.ofNat 11 (slot_next slot).toNat,
        free_count, gen_count, true⟩)

/-- `nanov2_free_to_block` from its load to its compare-and-swap, freeing the slot
`slot_index`: the store into the slot comes before the swap. -/
def nanov2_free_to_block (slots : Nat) (b : Block) (slot_index : Int) : Block :=
  let old := b.block_meta
  let was_full := old.next_slot == SLOT_FULL
  let free_count := old.free_count + 1
  let gen_count := old.gen_count + 1
  let freeing_last_active_slot :=
    !was_full && ((free_count.toNat : Int) == (slots : Int) - 1)
  if freeing_last_active_slot then
    { b with block_meta :=
        ⟨if old.in_use then SLOT_BUMP else SLOT_CAN_MADVISE, free_count, gen_count, old.in_use⟩ }
  else
    ⟨⟨BitVec.ofInt 11 (slot_index + 1), free_count, gen_count, old.in_use⟩,
      Function.update b.slot_next slot_index
        (UInt16.ofNat (if was_full then SLOT_BUMP else old.next_slot).toNat)⟩

/-- The compare-and-swap with which `nanov2_find_block_in_arena` activates the block it found
(`:2398-2419`); `none` where it goes back to `retry`. -/
def find_block_activate (slots_in_block : Nat) (old : nanov2_block_meta_t) :
    Option nanov2_block_meta_t :=
  if old.next_slot == SLOT_MADVISING then none
  else
    let reset_slot := old.next_slot == SLOT_NULL || old.next_slot == SLOT_CAN_MADVISE ||
      old.next_slot == SLOT_MADVISED
    some ⟨if reset_slot then SLOT_BUMP else old.next_slot,
      if reset_slot then BitVec.ofInt 10 ((slots_in_block : Int) - 1) else old.free_count,
      if reset_slot then 0 else old.gen_count + 1, true⟩

/-- `nanov2_turn_off_in_use`: an atomic `and` with a mask that keeps every field but `in_use`. -/
def nanov2_turn_off_in_use (block_meta : nanov2_block_meta_t) : nanov2_block_meta_t :=
  { block_meta with in_use := false }

/-- The first swap of `nanov2_madvise_block`, from `SLOT_CAN_MADVISE` to `SLOT_MADVISING`
(`:2000-2013`); `none` when the block is in another state and nothing is done. The fields the
initializer leaves out are zero. -/
def nanov2_madvise_block_mark (old : nanov2_block_meta_t) : Option nanov2_block_meta_t :=
  if old.next_slot == SLOT_CAN_MADVISE then some ⟨SLOT_MADVISING, 0, old.gen_count + 1, false⟩
  else none

/-- The second swap of `nanov2_madvise_block`, once the pages are given back (`:2025-2037`). -/
def nanov2_madvise_block_done (new_meta : nanov2_block_meta_t) : nanov2_block_meta_t :=
  ⟨SLOT_MADVISED, 0, new_meta.gen_count + 1, false⟩

/-! ## Runs of one block

`A` is the set of allocated slots: an allocation adds the slot it returns, a free takes one
out. Between the swaps the program writes to its allocated slots, and `madvise` gives the pages
back, after which their contents are arbitrary. -/

/-- One successful swap, or a write of the program to an allocated slot. -/
inductive Step (slots : Nat) : Block → Finset Int → Block → Finset Int → Prop
  | activate {b A m} : find_block_activate slots b.block_meta = some m →
      Step slots b A { b with block_meta := m } A
  | allocate {b A slot m} : nanov2_allocate_from_block slots b.block_meta b.slot_next = some (slot, m) →
      Step slots b A { b with block_meta := m } (insert slot A)
  | free {b A slot} : slot ∈ A → Step slots b A (nanov2_free_to_block slots b slot) (A.erase slot)
  | write {b A slot v} : slot ∈ A →
      Step slots b A { b with slot_next := Function.update b.slot_next slot v } A
  | turnOffInUse {b A} : Step slots b A { b with block_meta := nanov2_turn_off_in_use b.block_meta } A
  | madviseMark {b A m} (mem : Int → UInt16) : nanov2_madvise_block_mark b.block_meta = some m →
      Step slots b A ⟨m, mem⟩ A
  | madviseDone {b A} : b.block_meta.next_slot = SLOT_MADVISING →
      Step slots b A { b with block_meta := nanov2_madvise_block_done b.block_meta } A

/-- The states of a block with `slots` slots, from a never-used block (its word zero). -/
inductive Reachable (slots : Nat) : Block → Finset Int → Prop
  | init (mem : Int → UInt16) : Reachable slots ⟨⟨SLOT_NULL, 0, 0, false⟩, mem⟩ ∅
  | step {b A b' A'} : Reachable slots b A → Step slots b A b' A' → Reachable slots b' A'

/-! ## What the word says about the slots -/

/-- The free list from the 1-based slot number `n`: slot `n - 1`, then the list from the
`next_slot` stored in that slot, up to `SLOT_BUMP`. -/
def FreeList (slots : Nat) (slot_next : Int → UInt16) (n : Nat) (l : List Int) : Prop :=
  LinkChain (fun n => 1 ≤ n ∧ n ≤ slots) (fun n => (n : Int) - 1) (fun s => (slot_next s).toNat)
    SLOT_BUMP.toNat n l

/-- The states in which a block holds no allocation. -/
def EmptyState (next_slot : BitVec 11) : Bool :=
  next_slot == SLOT_NULL || next_slot == SLOT_CAN_MADVISE || next_slot == SLOT_MADVISING ||
    next_slot == SLOT_MADVISED

/-- The free slots of a block in bump or free-list mode, `A` allocated: the free list `l` from
`next_slot`, then the top `bump` slots, unused since the block was last reset. -/
structure Avail (slots : Nat) (b : Block) (A : Finset Int) (l : List Int) (bump : Nat) : Prop where
  chain : FreeList slots b.slot_next b.block_meta.next_slot.toNat l
  nodup : l.Nodup
  free : ∀ s ∈ l, s ∉ A
  top : ∀ s : Int, 0 ≤ s → s < slots → (s ∉ A ∧ s ∉ l ↔ (slots : Int) - bump ≤ s)
  free_count : b.block_meta.free_count.toNat + 1 = slots - A.card
  length : slots - A.card = l.length + bump

/-- The block invariant: what `next_slot` says about the allocated slots `A`. -/
structure Inv (slots : Nat) (b : Block) (A : Finset Int) : Prop where
  allocated : ∀ s ∈ A, 0 ≤ s ∧ s < slots
  full : b.block_meta.next_slot = SLOT_FULL → b.block_meta.free_count = 0x3ff ∧ A.card = slots
  empty : EmptyState b.block_meta.next_slot = true → A = ∅ ∧ b.block_meta.in_use = false
  active : b.block_meta.next_slot ≠ SLOT_FULL → EmptyState b.block_meta.next_slot = false →
    ∃ l bump, Avail slots b A l bump

section FreeList

variable {slots : Nat} {mem mem' : Int → UInt16} {n : Nat} {l : List Int}

theorem FreeList.head (h : FreeList slots mem n l) : n = SLOT_BUMP.toNat ∨ 1 ≤ n ∧ n ≤ slots := by
  rcases LinkChain.head_cases h with ⟨rfl, -⟩ | ⟨hv, -⟩
  · exact .inl rfl
  · exact .inr hv

theorem FreeList.mem_range (h : FreeList slots mem n l) : ∀ s ∈ l, 0 ≤ s ∧ s < slots := by
  intro s hs
  obtain ⟨m, ⟨h1, h2⟩, rfl⟩ := LinkChain.mem h s hs
  omega

theorem FreeList.eq_nil (h1 : slots ≤ 1024) (h : FreeList slots mem SLOT_BUMP.toNat l) : l = [] :=
  LinkChain.eq_nil_of_stop (by simp [SLOT_BUMP]; omega) h

/-- A list that starts at a slot number: its first slot and the rest. -/
theorem FreeList.pop (h : FreeList slots mem n l) (hn : n ≠ SLOT_BUMP.toNat) :
    1 ≤ n ∧ n ≤ slots ∧ ∃ l', l = ((n : Int) - 1) :: l' ∧
      FreeList slots mem (mem ((n : Int) - 1)).toNat l' := by
  rcases LinkChain.head_cases h with ⟨rfl, -⟩ | ⟨⟨h1, h2⟩, l', rfl, hl'⟩
  · exact absurd rfl hn
  · exact ⟨h1, h2, l', rfl, hl'⟩

/-- Freeing slot `s` pushes it. -/
theorem FreeList.push {s : Int} (hs : 0 ≤ s ∧ s < slots) (h : FreeList slots mem (mem s).toNat l) :
    FreeList slots mem (s + 1).toNat (s :: l) := by
  have hs' : (((s + 1).toNat : Nat) : Int) - 1 = s := by omega
  have hc : FreeList slots mem (s + 1).toNat (((((s + 1).toNat : Nat) : Int) - 1) :: l) :=
    LinkChain.cons ⟨by omega, by omega⟩ (by
      show FreeList slots mem (mem ((((s + 1).toNat : Nat) : Int) - 1)).toNat l
      rw [hs']
      exact h)
  rwa [hs'] at hc

theorem FreeList.frame (h : FreeList slots mem n l) (hm : ∀ s ∈ l, mem' s = mem s) :
    FreeList slots mem' n l :=
  LinkChain.frame h fun s hs => by simp only [hm s hs]

end FreeList

/-! ## The arithmetic of the bit-fields -/

section Fields

variable {slots : Nat}

@[simp] theorem toNat_SLOT_NULL : SLOT_NULL.toNat = 0 := rfl

@[simp] theorem toNat_SLOT_BUMP : SLOT_BUMP.toNat = 2043 := rfl

@[simp] theorem toNat_SLOT_FULL : SLOT_FULL.toNat = 2044 := rfl

@[simp] theorem toNat_SLOT_CAN_MADVISE : SLOT_CAN_MADVISE.toNat = 2045 := rfl

@[simp] theorem toNat_SLOT_MADVISING : SLOT_MADVISING.toNat = 2046 := rfl

@[simp] theorem toNat_SLOT_MADVISED : SLOT_MADVISED.toNat = 2047 := rfl

theorem toNat_ofInt_slots_pred (h0 : 0 < slots) (h1 : slots ≤ 1024) :
    (BitVec.ofInt 10 ((slots : Int) - 1)).toNat = slots - 1 := by
  rw [BitVec.toNat_ofInt]
  omega

theorem toNat_add_one_of_lt {x : BitVec 10} (h : x.toNat < 1023) : (x + 1).toNat = x.toNat + 1 := by
  bv_omega

theorem toNat_sub_one_of_ne {x : BitVec 10} (h : x ≠ 0) : (x - 1).toNat = x.toNat - 1 := by
  bv_omega

theorem toNat_ofInt_succ {s : Int} (h0 : 0 ≤ s) (h : s < 1024) :
    (BitVec.ofInt 11 (s + 1)).toNat = (s + 1).toNat := by
  rw [BitVec.toNat_ofInt]
  omega

theorem toNat_ofNat_of_lt {v : Nat} (h : v < 2048) : (BitVec.ofNat 11 v).toNat = v := by
  rw [BitVec.toNat_ofNat]
  omega

theorem toNat_uint16_ofNat_of_lt {v : Nat} (h : v < 2048) : (UInt16.ofNat v).toNat = v := by
  rw [UInt16.toNat_ofNat']
  omega

theorem ne_full_of_toNat_lt {ns : BitVec 11} (h : ns.toNat < 2044) : ns ≠ SLOT_FULL := by
  rintro rfl
  simp at h

theorem emptyState_eq_false {ns : BitVec 11} (h0 : 0 < ns.toNat) (h : ns.toNat < 2045) :
    EmptyState ns = false := by
  simp only [EmptyState, Bool.or_eq_false_iff, beq_eq_false_iff_ne, ne_eq, BitVec.toNat_eq,
    toNat_SLOT_NULL, toNat_SLOT_CAN_MADVISE, toNat_SLOT_MADVISING, toNat_SLOT_MADVISED]
  omega

/-- The start of a free list is `SLOT_BUMP` or a slot number. -/
theorem FreeList.toNat_bounds {mem : Int → UInt16} {n : Nat} {l : List Int} (h1 : slots ≤ 1024)
    (h : FreeList slots mem n l) : 0 < n ∧ n < 2044 := by
  rcases h.head with h | h
  · simp only [h, toNat_SLOT_BUMP]
    omega
  · omega

/-- So it is neither a full nor an empty state. -/
theorem FreeList.next_cases {mem : Int → UInt16} {ns : BitVec 11} {l : List Int}
    (h1 : slots ≤ 1024) (h : FreeList slots mem ns.toNat l) :
    ns ≠ SLOT_FULL ∧ EmptyState ns = false := by
  have hb := h.toNat_bounds h1
  exact ⟨ne_full_of_toNat_lt hb.2, emptyState_eq_false hb.1 (by omega)⟩

end Fields

/-! ## How the free slots move -/

section Avail

variable {slots : Nat} {b b' : Block} {A : Finset Int} {l : List Int} {bump : Nat}

/-- The word of a freshly reset block: nothing allocated, every slot above the empty list. -/
theorem Avail.reset (hn : b.block_meta.next_slot = SLOT_BUMP)
    (hf : b.block_meta.free_count.toNat + 1 = slots) : Avail slots b ∅ [] slots := by
  refine ⟨?_, List.nodup_nil, by simp, ?_, by simpa using hf, by simp⟩
  · rw [hn]
    exact LinkChain.stop
  · intro s h0 _
    simp only [Finset.notMem_empty, not_false_eq_true, List.not_mem_nil, and_self, true_iff]
    omega

/-- The same free slots under a word with the same `next_slot` and `free_count`. -/
theorem Avail.congr (hav : Avail slots b A l bump)
    (hn : b'.block_meta.next_slot = b.block_meta.next_slot)
    (hf : b'.block_meta.free_count = b.block_meta.free_count) (hm : b'.slot_next = b.slot_next) :
    Avail slots b' A l bump := by
  obtain ⟨hc, hnd, hfr, ht, hfc, hl⟩ := hav
  exact ⟨by rw [hn, hm]; exact hc, hnd, hfr, ht, by rw [hf]; exact hfc, hl⟩

/-- A write to an allocated slot leaves the free list alone. -/
theorem Avail.write {s : Int} {v : UInt16} (hav : Avail slots b A l bump) (hs : s ∈ A) :
    Avail slots { b with slot_next := Function.update b.slot_next s v } A l bump := by
  obtain ⟨hc, hnd, hfr, ht, hfc, hl⟩ := hav
  refine ⟨hc.frame fun x hx => ?_, hnd, hfr, ht, hfc, hl⟩
  have hne : x ≠ s := fun he => hfr x hx (he ▸ hs)
  simp [Function.update_of_ne hne]

/-- With an empty list the next slot to hand out is the lowest of the top ones, `N - bump`. -/
theorem Avail.bump_slot (hav : Avail slots b A [] bump) :
    let slot := (slots : Int) - b.block_meta.free_count.toNat - 1
    0 ≤ slot ∧ slot < slots ∧ slot ∉ A ∧ (slots : Int) - bump = slot := by
  intro slot
  have hfc := hav.free_count
  have hl := hav.length
  simp only [List.length_nil, Nat.zero_add] at hl
  have hsl : (slots : Int) - bump = slot := by omega
  refine ⟨by omega, by omega, ?_, hsl⟩
  exact ((hav.top slot (by omega) (by omega)).mpr (le_of_eq hsl)).1

/-- Taking the lowest top slot: the list stays empty and one top slot fewer is left. -/
theorem Avail.take_bump (hav : Avail slots b A [] bump)
    (hn : b'.block_meta.next_slot = SLOT_BUMP) (hm : b'.slot_next = b.slot_next)
    (hf : b'.block_meta.free_count.toNat + 1 = b.block_meta.free_count.toNat) :
    Avail slots b' (insert ((slots : Int) - b.block_meta.free_count.toNat - 1) A) [] (bump - 1) := by
  obtain ⟨h0, hlt, hnot, hsl⟩ := hav.bump_slot
  have hfc := hav.free_count
  have hl := hav.length
  simp only [List.length_nil, Nat.zero_add] at hl
  have hcard := Finset.card_insert_of_notMem hnot
  refine ⟨?_, List.nodup_nil, by simp, fun s hs0 hs1 => ?_, by omega, by simp; omega⟩
  · rw [hn, hm]
    exact LinkChain.stop
  · have ht := hav.top s hs0 hs1
    simp only [List.not_mem_nil, not_false_eq_true, and_true] at ht ⊢
    rw [Finset.mem_insert, not_or]
    constructor
    · rintro ⟨hne, hA⟩
      have := ht.mp hA
      omega
    · intro hle
      exact ⟨by omega, ht.mpr (by omega)⟩

/-- Popping the head of the list: the top slots stay as they are. -/
theorem Avail.pop {s : Int} (hav : Avail slots b A (s :: l) bump)
    (hc : FreeList slots b'.slot_next b'.block_meta.next_slot.toNat l)
    (hf : b'.block_meta.free_count.toNat + 1 = b.block_meta.free_count.toNat) :
    Avail slots b' (insert s A) l bump := by
  have hnot : s ∉ A := hav.free s List.mem_cons_self
  have hsl : s ∉ l := (List.nodup_cons.mp hav.nodup).1
  have hcard := Finset.card_insert_of_notMem hnot
  have hfc := hav.free_count
  have hl := hav.length
  simp only [List.length_cons] at hl
  refine ⟨hc, (List.nodup_cons.mp hav.nodup).2, fun x hx => ?_, fun x hx0 hx1 => ?_, by omega,
    by omega⟩
  · rw [Finset.mem_insert, not_or]
    exact ⟨fun he => hsl (he ▸ hx), hav.free x (List.mem_cons_of_mem _ hx)⟩
  · rw [← hav.top x hx0 hx1, Finset.mem_insert, not_or, List.mem_cons, not_or]
    tauto

/-- Pushing an allocated slot. -/
theorem Avail.push {s : Int} (hav : Avail slots b A l bump) (hs : s ∈ A)
    (hc : FreeList slots b'.slot_next b'.block_meta.next_slot.toNat (s :: l))
    (hf : b'.block_meta.free_count.toNat = b.block_meta.free_count.toNat + 1) :
    Avail slots b' (A.erase s) (s :: l) bump := by
  have hsl : s ∉ l := fun h => hav.free s h hs
  have hcard := Finset.card_erase_of_mem hs
  have hpos : 0 < A.card := Finset.card_pos.mpr ⟨s, hs⟩
  have hfc := hav.free_count
  have hl := hav.length
  refine ⟨hc, List.nodup_cons.mpr ⟨hsl, hav.nodup⟩, fun x hx => ?_, fun x hx0 hx1 => ?_, by omega,
    by simp; omega⟩
  · rw [Finset.mem_erase, not_and_or]
    rcases List.mem_cons.mp hx with rfl | hx
    · exact .inl (not_not.mpr rfl)
    · exact .inr (hav.free x hx)
  · rw [← hav.top x hx0 hx1, Finset.mem_erase, List.mem_cons]
    by_cases hxs : x = s
    · subst hxs
      simp [hs]
    · simp [hxs]

end Avail

/-! ## The invariant in each kind of state -/

section Inv

variable {slots : Nat} {b : Block} {A : Finset Int}

theorem Inv.of_avail {l : List Int} {bump : Nat} (h1 : slots ≤ 1024)
    (hA : ∀ s ∈ A, 0 ≤ s ∧ s < slots) (hav : Avail slots b A l bump) : Inv slots b A := by
  obtain ⟨hfull, hempty⟩ := hav.chain.next_cases h1
  refine ⟨hA, fun h => absurd h hfull, fun h => ?_, fun _ _ => ⟨l, bump, hav⟩⟩
  rw [hempty] at h
  cases h

theorem Inv.of_full (hA : ∀ s ∈ A, 0 ≤ s ∧ s < slots) (hn : b.block_meta.next_slot = SLOT_FULL)
    (hf : b.block_meta.free_count = 0x3ff) (hc : A.card = slots) : Inv slots b A := by
  refine ⟨hA, fun _ => ⟨hf, hc⟩, fun h => ?_, fun h => absurd hn h⟩
  rw [hn] at h
  cases h

theorem Inv.of_empty (hn : EmptyState b.block_meta.next_slot = true)
    (hu : b.block_meta.in_use = false) : Inv slots b ∅ := by
  refine ⟨by simp, fun h => ?_, fun _ => ⟨rfl, hu⟩, fun _ h => ?_⟩
  · rw [h] at hn
    cases hn
  · rw [hn] at h
    cases h

/-- A word with the same `next_slot` and `free_count` over the same slots: only `in_use` or
`gen_count` moved. -/
theorem Inv.congr (hI : Inv slots b A) {b' : Block}
    (hn : b'.block_meta.next_slot = b.block_meta.next_slot)
    (hf : b'.block_meta.free_count = b.block_meta.free_count) (hm : b'.slot_next = b.slot_next)
    (hu : EmptyState b.block_meta.next_slot = true → b'.block_meta.in_use = false) :
    Inv slots b' A := by
  refine ⟨hI.allocated, fun h => ?_, fun h => ?_, fun h h' => ?_⟩
  · rw [hf]
    exact hI.full (hn ▸ h)
  · exact ⟨(hI.empty (hn ▸ h)).1, hu (hn ▸ h)⟩
  · obtain ⟨l, bump, hav⟩ := hI.active (hn ▸ h) (hn ▸ h')
    exact ⟨l, bump, hav.congr hn hf hm⟩

/-- The allocated slots fill the block when there are `slots` of them. -/
theorem mem_of_card_eq (hA : ∀ s ∈ A, 0 ≤ s ∧ s < slots) (hc : A.card = slots) {s : Int}
    (h0 : 0 ≤ s) (h : s < slots) : s ∈ A := by
  have hsub : A ⊆ Finset.Ico 0 (slots : Int) := fun x hx => Finset.mem_Ico.mpr (hA x hx)
  have heq : A = Finset.Ico 0 (slots : Int) :=
    Finset.eq_of_subset_of_card_le hsub (by simp [hc])
  rw [heq]
  exact Finset.mem_Ico.mpr ⟨h0, h⟩

end Inv

/-! ## What each swap can do -/

section Cases

variable {slots : Nat} {old m : nanov2_block_meta_t}

theorem find_block_activate_cases (h : find_block_activate slots old = some m) :
    (EmptyState old.next_slot = true ∧
        m = ⟨SLOT_BUMP, BitVec.ofInt 10 ((slots : Int) - 1), 0, true⟩) ∨
      (EmptyState old.next_slot = false ∧ m.next_slot = old.next_slot ∧
        m.free_count = old.free_count) := by
  unfold find_block_activate at h
  split at h
  · cases h
  · rename_i hmad
    simp only [Option.some.injEq] at h
    subst h
    cases hr : (old.next_slot == SLOT_NULL || old.next_slot == SLOT_CAN_MADVISE ||
        old.next_slot == SLOT_MADVISED)
    · -- an active block: only `in_use` and `gen_count` change
      right
      have he : EmptyState old.next_slot = false := by
        simp only [Bool.or_eq_false_iff] at hr
        simp only [EmptyState, hr.1.1, hr.1.2, hr.2, Bool.eq_false_iff.mpr hmad, Bool.or_self]
      simp [he]
    · -- a never-used or madvised block starts over
      left
      have he : EmptyState old.next_slot = true := by
        simp only [Bool.or_eq_true] at hr
        simp only [EmptyState, Bool.or_eq_true]
        tauto
      simp [he]

theorem nanov2_allocate_from_block_cases {mem : Int → UInt16} {slot : Int}
    (h : nanov2_allocate_from_block slots old mem = some (slot, m)) :
    old.in_use = true ∧ old.next_slot ≠ SLOT_FULL ∧ m.free_count = old.free_count - 1 ∧
      m.in_use = true ∧
      ((old.next_slot = SLOT_BUMP ∨ old.next_slot = SLOT_CAN_MADVISE) ∧
          slot = (slots : Int) - old.free_count.toNat - 1 ∧
          m.next_slot = (if old.free_count = 0 then SLOT_FULL else SLOT_BUMP) ∨
        old.next_slot ≠ SLOT_BUMP ∧ slot = (old.next_slot.toNat : Int) - 1 ∧
          m.next_slot = (if old.free_count = 0 then SLOT_FULL
            else BitVec.ofNat 11 (mem slot).toNat)) := by
  unfold nanov2_allocate_from_block nanov2_can_allocate_from_block at h
  split at h
  · cases h
  · rename_i hcan
    simp only [Bool.not_eq_true', Bool.and_eq_false_iff, bne_eq_false_iff_eq, not_or,
      Bool.not_eq_false] at hcan
    obtain ⟨hu, hf⟩ := hcan
    refine ⟨hu, by simpa using hf, ?_⟩
    split at h
    · -- the free list is empty
      rename_i hb
      simp only [Option.some.injEq, Prod.mk.injEq] at h
      obtain ⟨rfl, rfl⟩ := h
      simp only [Bool.or_eq_true, beq_iff_eq] at hb
      refine ⟨rfl, rfl, .inl ⟨hb, rfl, ?_⟩⟩
      simp only [beq_iff_eq]
    · -- the head of the free list
      rename_i hb
      simp only [Option.some.injEq, Prod.mk.injEq] at h
      obtain ⟨rfl, rfl⟩ := h
      simp only [Bool.or_eq_true, beq_iff_eq, not_or] at hb
      refine ⟨rfl, rfl, .inr ⟨hb.1, rfl, ?_⟩⟩
      simp only [beq_iff_eq]

theorem nanov2_free_to_block_cases (b : Block) (s : Int) :
    (b.block_meta.next_slot ≠ SLOT_FULL ∧
        ((b.block_meta.free_count + 1).toNat : Int) = (slots : Int) - 1 ∧
        nanov2_free_to_block slots b s = { b with block_meta :=
          ⟨if b.block_meta.in_use then SLOT_BUMP else SLOT_CAN_MADVISE,
            b.block_meta.free_count + 1, b.block_meta.gen_count + 1, b.block_meta.in_use⟩ }) ∨
      ((b.block_meta.next_slot = SLOT_FULL ∨
          ((b.block_meta.free_count + 1).toNat : Int) ≠ (slots : Int) - 1) ∧
        nanov2_free_to_block slots b s =
          ⟨⟨BitVec.ofInt 11 (s + 1), b.block_meta.free_count + 1, b.block_meta.gen_count + 1,
            b.block_meta.in_use⟩,
          Function.update b.slot_next s (UInt16.ofNat
            (if b.block_meta.next_slot = SLOT_FULL then SLOT_BUMP else b.block_meta.next_slot).toNat)⟩) := by
  by_cases hlast : (!(b.block_meta.next_slot == SLOT_FULL) &&
      (((b.block_meta.free_count + 1).toNat : Int) == (slots : Int) - 1)) = true
  · -- `freeing_last_active_slot`
    refine .inl ⟨?_, ?_, ?_⟩
    · simpa using (Bool.and_eq_true _ _).mp hlast |>.1
    · simpa using (Bool.and_eq_true _ _).mp hlast |>.2
    · simp only [nanov2_free_to_block, hlast, if_true]
  · refine .inr ⟨?_, ?_⟩
    · simp only [Bool.and_eq_true, Bool.not_eq_true', beq_eq_false_iff_ne, beq_iff_eq,
        not_and_or, ne_eq, not_not] at hlast
      exact hlast
    · simp only [nanov2_free_to_block, Bool.eq_false_iff.mpr hlast, beq_iff_eq, Bool.false_eq_true,
        if_false]

end Cases

/-! ## Each swap keeps the invariant -/

section Steps

variable {slots : Nat} {b : Block} {A : Finset Int} {m : nanov2_block_meta_t}

/-- The first free of a full block: a list of that one slot and no top slots. -/
theorem Avail.first_free {b' : Block} {s : Int} (hA : ∀ x ∈ A, 0 ≤ x ∧ x < slots)
    (hc : A.card = slots) (hs : s ∈ A)
    (hchain : FreeList slots b'.slot_next b'.block_meta.next_slot.toNat [s])
    (hf : b'.block_meta.free_count.toNat = 0) : Avail slots b' (A.erase s) [s] 0 := by
  have hcard := Finset.card_erase_of_mem hs
  have hpos : 0 < A.card := Finset.card_pos.mpr ⟨s, hs⟩
  refine ⟨hchain, List.nodup_singleton s, fun x hx => ?_, fun x hx0 hx1 => ?_, by omega, by simp; omega⟩
  · rw [List.mem_singleton.mp hx]
    exact Finset.notMem_erase s A
  · -- every slot is allocated or is `s`, and there is no top slot
    have hx := mem_of_card_eq hA hc hx0 hx1
    simp only [Finset.mem_erase, List.mem_singleton, Nat.cast_zero, Int.sub_zero]
    constructor
    · rintro ⟨hne, hxs⟩
      exact absurd ⟨hxs, hx⟩ hne
    · intro h
      omega

theorem Inv.activate (h0 : 0 < slots) (h1 : slots ≤ 1024) (hI : Inv slots b A)
    (h : find_block_activate slots b.block_meta = some m) :
    Inv slots { b with block_meta := m } A := by
  rcases find_block_activate_cases h with ⟨he, rfl⟩ | ⟨he, hn, hf⟩
  · -- a reset: nothing was allocated, and every slot is above the empty list
    obtain ⟨rfl, -⟩ := hI.empty he
    exact Inv.of_avail h1 (by simp) (Avail.reset rfl (by simp [toNat_ofInt_slots_pred h0 h1]; omega))
  · exact hI.congr hn hf rfl fun h => by rw [he] at h; cases h

theorem allocated_insert (hA : ∀ x ∈ A, 0 ≤ x ∧ x < slots) {s : Int} (hs : 0 ≤ s ∧ s < slots) :
    ∀ x ∈ insert s A, 0 ≤ x ∧ x < slots := by
  intro x hx
  rcases Finset.mem_insert.mp hx with rfl | hx
  · exact hs
  · exact hA x hx

/-- A block that can be allocated from is in bump or free-list mode. -/
theorem Inv.emptyState_of_in_use (hI : Inv slots b A) (hu : b.block_meta.in_use = true) :
    EmptyState b.block_meta.next_slot = false := by
  cases he : EmptyState b.block_meta.next_slot
  · rfl
  · rw [(hI.empty he).2] at hu
    cases hu

/-- An allocation hands out a free slot of the block, and keeps the invariant. -/
theorem Inv.allocate (h1 : slots ≤ 1024) (hI : Inv slots b A) {slot : Int}
    (h : nanov2_allocate_from_block slots b.block_meta b.slot_next = some (slot, m)) :
    (0 ≤ slot ∧ slot < slots ∧ slot ∉ A) ∧
      Inv slots { b with block_meta := m } (insert slot A) := by
  obtain ⟨hu, hnf, hfc, -, hcase⟩ := nanov2_allocate_from_block_cases h
  have hne := hI.emptyState_of_in_use hu
  obtain ⟨l, bump, hav⟩ := hI.active hnf hne
  have hcount := hav.free_count
  rcases hcase with ⟨hb, rfl, hm⟩ | ⟨hb, rfl, hm⟩
  · -- the list is empty (`SLOT_CAN_MADVISE` is an empty state): the lowest top slot
    have hbump : b.block_meta.next_slot = SLOT_BUMP := hb.resolve_right fun hc => by
      rw [hc] at hne
      cases hne
    have hl : l = [] := by
      have hc := hav.chain
      rw [hbump] at hc
      exact hc.eq_nil h1
    subst hl
    obtain ⟨h0, hlt, hnot, -⟩ := hav.bump_slot
    have hA := allocated_insert hI.allocated ⟨h0, hlt⟩
    have hcard := Finset.card_insert_of_notMem hnot
    refine ⟨⟨h0, hlt, hnot⟩, ?_⟩
    by_cases hz : b.block_meta.free_count = 0
    · -- it was the last free slot
      rw [if_pos hz] at hm
      have hz' : b.block_meta.free_count.toNat = 0 := by simp [hz]
      exact Inv.of_full hA hm (by rw [hfc, hz]; decide) (by omega)
    · rw [if_neg hz] at hm
      have hz' : b.block_meta.free_count.toNat ≠ 0 := fun h => hz (BitVec.eq_of_toNat_eq h)
      exact Inv.of_avail h1 hA
        (hav.take_bump hm rfl (by simp only; rw [hfc, toNat_sub_one_of_ne hz]; omega))
  · -- the head of the free list
    have hb' : b.block_meta.next_slot.toNat ≠ SLOT_BUMP.toNat := fun h => hb (BitVec.eq_of_toNat_eq h)
    obtain ⟨hv1, hv2, l', rfl, hl'⟩ := hav.chain.pop hb'
    have hnot := hav.free _ List.mem_cons_self
    have hA := allocated_insert hI.allocated (s := (b.block_meta.next_slot.toNat : Int) - 1)
      ⟨by omega, by omega⟩
    have hcard := Finset.card_insert_of_notMem hnot
    refine ⟨⟨by omega, by omega, hnot⟩, ?_⟩
    by_cases hz : b.block_meta.free_count = 0
    · -- it was the last free slot
      rw [if_pos hz] at hm
      have hz' : b.block_meta.free_count.toNat = 0 := by simp [hz]
      have hlen := hav.length
      simp only [List.length_cons] at hlen
      exact Inv.of_full hA hm (by rw [hfc, hz]; decide) (by omega)
    · rw [if_neg hz] at hm
      have hz' : b.block_meta.free_count.toNat ≠ 0 := fun h => hz (BitVec.eq_of_toNat_eq h)
      -- the link stored in the slot goes back into the 11-bit field unchanged
      have hnext : m.next_slot.toNat = (b.slot_next ((b.block_meta.next_slot.toNat : Int) - 1)).toNat := by
        rw [hm, toNat_ofNat_of_lt (by have := hl'.toNat_bounds h1; omega)]
      refine Inv.of_avail h1 hA (hav.pop ?_ ?_)
      · simp only
        rw [hnext]
        exact hl'
      · simp only
        rw [hfc, toNat_sub_one_of_ne hz]
        omega

theorem Inv.free (h1 : slots ≤ 1024) (hI : Inv slots b A) {s : Int} (hs : s ∈ A) :
    Inv slots (nanov2_free_to_block slots b s) (A.erase s) := by
  have hsr := hI.allocated s hs
  have hA : ∀ x ∈ A.erase s, 0 ≤ x ∧ x < slots :=
    fun x hx => hI.allocated x (Finset.mem_of_mem_erase hx)
  -- a block with an allocated slot is full or active
  have hne : EmptyState b.block_meta.next_slot = false := by
    cases he : EmptyState b.block_meta.next_slot
    · rfl
    · rw [(hI.empty he).1] at hs
      simp at hs
  have hcard := Finset.card_erase_of_mem hs
  have hpos : 0 < A.card := Finset.card_pos.mpr ⟨s, hs⟩
  rcases nanov2_free_to_block_cases b s with ⟨hnf, hlast, heq⟩ | ⟨hcase, heq⟩
  · -- the last allocated slot: the list is dropped
    rw [heq]
    obtain ⟨l, bump, hav⟩ := hI.active hnf hne
    have hcount := hav.free_count
    have hlt : b.block_meta.free_count.toNat < 1023 := by omega
    rw [toNat_add_one_of_lt hlt] at hlast
    have hAe : A.erase s = ∅ := Finset.card_eq_zero.mp (by omega)
    rw [hAe]
    cases hu : b.block_meta.in_use
    · exact Inv.of_empty rfl rfl
    · exact Inv.of_avail h1 (by simp)
        (Avail.reset rfl (by simp only; rw [toNat_add_one_of_lt hlt]; omega))
  · rw [heq]
    by_cases hfull : b.block_meta.next_slot = SLOT_FULL
    · -- the first free of a full block: a list of one slot
      obtain ⟨hf, hc⟩ := hI.full hfull
      refine Inv.of_avail h1 hA (Avail.first_free hI.allocated hc hs ?_ ?_)
      · simp only
        rw [toNat_ofInt_succ hsr.1 (by omega)]
        refine FreeList.push hsr ?_
        simp only [Function.update_self, hfull, if_true, toNat_SLOT_BUMP]
        rw [toNat_uint16_ofNat_of_lt (by omega)]
        exact LinkChain.stop
      · simp only [hf]
        decide
    · -- push onto the free list
      obtain ⟨l, bump, hav⟩ := hI.active hfull hne
      have hcount := hav.free_count
      have hlt : b.block_meta.free_count.toNat < 1023 := by omega
      have hb := hav.chain.toNat_bounds h1
      refine Inv.of_avail h1 hA (hav.push hs ?_ (by simp only; rw [toNat_add_one_of_lt hlt]))
      simp only
      rw [toNat_ofInt_succ hsr.1 (by omega)]
      refine FreeList.push hsr ?_
      simp only [Function.update_self, hfull, if_false]
      rw [toNat_uint16_ofNat_of_lt (by omega)]
      exact hav.chain.frame fun x hx => Function.update_of_ne (fun (he : x = s) => hav.free x hx (he ▸ hs)) _ _

theorem Inv.write (hI : Inv slots b A) {s : Int} {v : UInt16} (hs : s ∈ A) :
    Inv slots { b with slot_next := Function.update b.slot_next s v } A := by
  refine ⟨hI.allocated, hI.full, hI.empty, fun h h' => ?_⟩
  obtain ⟨l, bump, hav⟩ := hI.active h h'
  exact ⟨l, bump, hav.write hs⟩

theorem Inv.turnOffInUse (hI : Inv slots b A) :
    Inv slots { b with block_meta := nanov2_turn_off_in_use b.block_meta } A :=
  hI.congr rfl rfl rfl fun _ => rfl

/-- A block is only marked for madvise when it holds no allocation. -/
theorem Inv.madviseMark (hI : Inv slots b A) (mem : Int → UInt16)
    (h : nanov2_madvise_block_mark b.block_meta = some m) : A = ∅ ∧ Inv slots ⟨m, mem⟩ A := by
  unfold nanov2_madvise_block_mark at h
  split at h
  · rename_i hc
    simp only [Option.some.injEq] at h
    subst h
    have he : EmptyState b.block_meta.next_slot = true := by
      simp only [beq_iff_eq] at hc
      rw [hc]
      rfl
    obtain ⟨rfl, -⟩ := hI.empty he
    exact ⟨rfl, Inv.of_empty rfl rfl⟩
  · cases h

theorem Inv.madviseDone (hI : Inv slots b A) (h : b.block_meta.next_slot = SLOT_MADVISING) :
    Inv slots { b with block_meta := nanov2_madvise_block_done b.block_meta } A := by
  obtain ⟨rfl, -⟩ := hI.empty (by rw [h]; rfl)
  exact Inv.of_empty rfl rfl

theorem Step.inv (h0 : 0 < slots) (h1 : slots ≤ 1024) {b' : Block} {A' : Finset Int}
    (hs : Step slots b A b' A') (hI : Inv slots b A) : Inv slots b' A' := by
  cases hs with
  | activate h => exact hI.activate h0 h1 h
  | allocate h => exact (hI.allocate h1 h).2
  | free h => exact hI.free h1 h
  | write h => exact hI.write h
  | turnOffInUse => exact hI.turnOffInUse
  | madviseMark mem h => exact (hI.madviseMark mem h).2
  | madviseDone h => exact hI.madviseDone h

theorem Reachable.inv (h0 : 0 < slots) (h1 : slots ≤ 1024) (h : Reachable slots b A) :
    Inv slots b A := by
  induction h with
  | init mem => exact Inv.of_empty rfl rfl
  | step _ hs ih => exact hs.inv h0 h1 ih

end Steps

/-! ## Slot accounting over every run -/

/-- What the word says of a block with `slots` slots and allocated slots `A`: a full block has
every slot allocated; in bump or free-list mode the list from `next_slot` is made of distinct
free slots, the other free slots are the top `bump` ones and `free_count + 1` counts them all;
an unused, madvisable or madvised block holds nothing. Hence an allocation returns a free slot
of the block, and a block is only madvised empty. -/
def SlotAccounting (slots : Nat) (b : Block) (A : Finset Int) : Prop :=
  (b.block_meta.next_slot = SLOT_FULL → A.card = slots) ∧
  (b.block_meta.next_slot = SLOT_BUMP ∨
      1 ≤ b.block_meta.next_slot.toNat ∧ b.block_meta.next_slot.toNat ≤ slots →
    ∃ (l : List Int) (bump : Nat), FreeList slots b.slot_next b.block_meta.next_slot.toNat l ∧
      l.Nodup ∧
      (∀ s ∈ l, s ∉ A) ∧
      (∀ s : Int, 0 ≤ s → s < slots → (s ∉ A ∧ s ∉ l ↔ (slots : Int) - bump ≤ s)) ∧
      b.block_meta.free_count.toNat + 1 = slots - A.card ∧ slots - A.card = l.length + bump) ∧
  (b.block_meta.next_slot = SLOT_CAN_MADVISE ∨ b.block_meta.next_slot = SLOT_MADVISING ∨
      b.block_meta.next_slot = SLOT_MADVISED ∨ b.block_meta.next_slot = SLOT_NULL → A = ∅) ∧
  (∀ slot m, nanov2_allocate_from_block slots b.block_meta b.slot_next = some (slot, m) →
      0 ≤ slot ∧ slot < slots ∧ slot ∉ A) ∧
  (∀ m, nanov2_madvise_block_mark b.block_meta = some m → A = ∅)

/-- Every size class has between one and `0x400` slots, so `free_count` holds `N - 1`. -/
theorem slots_by_size_class_bounds (size_class : Fin 16) :
    0 < slots_by_size_class size_class ∧ slots_by_size_class size_class ≤ 1024 := by
  revert size_class
  decide

theorem Inv.slotAccounting {slots : Nat} {b : Block} {A : Finset Int} (h1 : slots ≤ 1024)
    (hI : Inv slots b A) : SlotAccounting slots b A := by
  refine ⟨fun hf => (hI.full hf).2, fun hn => ?_, fun hn => ?_,
    fun _ _ ha => (hI.allocate h1 ha).1, fun _ hm => (hI.madviseMark b.slot_next hm).1⟩
  · -- `SLOT_BUMP` and the slot numbers are neither full nor empty
    have hb : 0 < b.block_meta.next_slot.toNat ∧ b.block_meta.next_slot.toNat < 2044 := by
      rcases hn with hn | hn
      · simp [hn]
      · omega
    obtain ⟨l, bump, hav⟩ :=
      hI.active (ne_full_of_toNat_lt hb.2) (emptyState_eq_false hb.1 (by omega))
    exact ⟨l, bump, hav.chain, hav.nodup, hav.free, hav.top, hav.free_count, hav.length⟩
  · refine (hI.empty ?_).1
    rcases hn with hn | hn | hn | hn <;> rw [hn] <;> rfl

theorem reachable_slot_accounting (size_class : Fin 16) {b : Block} {A : Finset Int}
    (h : Reachable (slots_by_size_class size_class) b A) :
    SlotAccounting (slots_by_size_class size_class) b A := by
  obtain ⟨h0, h1⟩ := slots_by_size_class_bounds size_class
  exact (h.inv h0 h1).slotAccounting h1

/-- A block of the largest size class (`64` slots) used twice. Activated, two slots taken,
retired, both freed, so that it becomes madvisable; madvised, with its pages' contents gone;
activated again, three slots taken and the middle one freed. It then holds slots `0` and `2`, its
free list is slot `1`, and the top `61` slots are unused. -/
theorem reused_block_slot_accounting :
    let N := slots_by_size_class 15
    let b₇ : Block := ⟨⟨SLOT_MADVISING, 0, 5, false⟩, fun _ => 0xffff⟩
    let b₈ : Block := { b₇ with block_meta := nanov2_madvise_block_done b₇.block_meta }
    let b₉ : Block := { b₈ with block_meta := ⟨SLOT_BUMP, 63, 0, true⟩ }
    let b₁₀ : Block := { b₉ with block_meta := ⟨SLOT_BUMP, 62, 1, true⟩ }
    let b₁₁ : Block := { b₁₀ with block_meta := ⟨SLOT_BUMP, 61, 2, true⟩ }
    let b₁₂ : Block := { b₁₁ with block_meta := ⟨SLOT_BUMP, 60, 3, true⟩ }
    let b₁₃ := nanov2_free_to_block N b₁₂ 1
    Reachable N b₁₃ {2, 0} ∧ SlotAccounting N b₁₃ {2, 0} := by
  intro N b₇ b₈ b₉ b₁₀ b₁₁ b₁₂ b₁₃
  -- first use, from a fresh block
  let b₀ : Block := ⟨⟨SLOT_NULL, 0, 0, false⟩, fun _ => 0⟩
  let b₁ : Block := { b₀ with block_meta := ⟨SLOT_BUMP, 63, 0, true⟩ }
  let b₂ : Block := { b₁ with block_meta := ⟨SLOT_BUMP, 62, 1, true⟩ }
  let b₃ : Block := { b₂ with block_meta := ⟨SLOT_BUMP, 61, 2, true⟩ }
  let b₄ : Block := { b₃ with block_meta := nanov2_turn_off_in_use b₃.block_meta }
  have r₁ : Reachable N b₁ ∅ := .step (.init _) (.activate (by decide))
  have r₂ : Reachable N b₂ {0} := .step r₁ (.allocate (by decide))
  have r₃ : Reachable N b₃ {1, 0} := .step r₂ (.allocate (by decide))
  have r₄ : Reachable N b₄ {1, 0} := .step r₃ .turnOffInUse
  have r₅ : Reachable N (nanov2_free_to_block N b₄ 0) (({1, 0} : Finset Int).erase 0) :=
    .step r₄ (.free (by decide))
  have r₆ : Reachable N (nanov2_free_to_block N (nanov2_free_to_block N b₄ 0) 1)
      ((({1, 0} : Finset Int).erase 0).erase 1) :=
    .step r₅ (.free (by decide))
  rw [show ((({1, 0} : Finset Int).erase 0).erase 1) = ∅ by decide] at r₆
  -- the last free of a retired block makes it madvisable
  have r₇ : Reachable N b₇ ∅ := .step r₆ (.madviseMark _ (by decide))
  have r₈ : Reachable N b₈ ∅ := .step r₇ (.madviseDone rfl)
  -- second use
  have r₉ : Reachable N b₉ ∅ := .step r₈ (.activate (by decide))
  have r₁₀ : Reachable N b₁₀ {0} := .step r₉ (.allocate (by decide))
  have r₁₁ : Reachable N b₁₁ {1, 0} := .step r₁₀ (.allocate (by decide))
  have r₁₂ : Reachable N b₁₂ {2, 1, 0} := .step r₁₁ (.allocate (by decide))
  have r₁₃ : Reachable N b₁₃ (({2, 1, 0} : Finset Int).erase 1) := .step r₁₂ (.free (by decide))
  rw [show ({2, 1, 0} : Finset Int).erase 1 = {2, 0} by decide] at r₁₃
  exact ⟨r₁₃, reachable_slot_accounting 15 r₁₃⟩

end Libmalloc.NanoV2
