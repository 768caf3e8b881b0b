import Darwin.Lib.Chain
import Mathlib

/-!
# The randomised free list of an IPC space (`osfmk/ipc/ipc_space.c`)

| here | there |
| --- | --- |
| `ipc_entry`, `IE_BITS_GEN_MASK`, `IO_NULL` | `ipc/ipc_entry.h:111-136`, `ipc/ipc_object.h:134` |
| `NUM_SEQ_ENTRIES` | `ipc_space.c:90-93`, with `CONFIG_SEMI_RANDOM_ENTRIES` defined |
| `pick`, `randFreelistLoop` | the loop of `ipc_space_rand_freelist` (`:174-215`) |
| `ipc_space_rand_freelist` | `ipc_space_rand_freelist` (`:147-222`) |

`ipc_space_rand_freelist(space, table, bottom, top)` threads the entries `[bottom, top)` of a
table into a free list through `ie_next`, in an order drawn from the space's entropy pool: each
round takes the next entry from the top or the bottom of the window still left. The bits
`random_bool_gen_bits(&space->bool_gen, …, 1)` returns are an arbitrary stream `random`, read in
order; on a new table (`bottom == 0`) the first `NUM_SEQ_ENTRIES` rounds take the bottom without
drawing.

An index is a `mach_port_index_t`, a `UInt32`. The loop is given fuel: `2 ^ 32` rounds are more
than a window of `UInt32` indices has, and the fuel runs out only where the C loop would not stop.
-/

namespace Ipc.Space

/-- `struct ipc_entry` (`ipc_entry.h:111-120`); `ie_next` is the `index.next` member. -/
structure ipc_entry where
  ie_object : Nat
  ie_bits : UInt32
  ie_dist : Nat
  ie_index : Nat
  ie_next : UInt32

def IE_BITS_GEN_MASK : UInt32 := 0xff000000

def IO_NULL : Nat := 0

def NUM_SEQ_ENTRIES : Nat := 8

/-- The free entry that each round writes at `curr` (`:209-213`), and the last one (`:216-220`),
linked to `next`. -/
def freeEntry (next : UInt32) : ipc_entry := ⟨IO_NULL, IE_BITS_GEN_MASK, 0, 0, next⟩

/-- One round's choice (`:193-199`): `next`, `bottom` and `top` after it. -/
def pick (which : Bool) (bottom top : UInt32) : UInt32 × UInt32 × UInt32 :=
  if which then (top, bottom, top - 1) else (bottom, bottom + 1, top)

/-- The loop (`:174-215`) for at most `fuel` rounds: the table and `curr` when `bottom > top`.
`total` counts the rounds of a new table, `drawn` the bits drawn. -/
def randFreelistLoop (random : Nat → Bool) (at_start : Bool) :
    Nat → (Nat → ipc_entry) → UInt32 → UInt32 → UInt32 → Nat → Nat →
      Option ((Nat → ipc_entry) × UInt32)
  | 0, _, _, _, _, _, _ => none
  | fuel + 1, table, curr, bottom, top, total, drawn =>
    if bottom ≤ top then
      -- `at_start && total++ < NUM_SEQ_ENTRIES` draws no bit
      let seq := at_start && decide (total < NUM_SEQ_ENTRIES)
      let total := if at_start then total + 1 else total
      let which := if seq then false else random drawn
      let drawn := if seq then drawn else drawn + 1
      let p := pick which bottom top
      randFreelistLoop random at_start fuel (Function.update table curr.toNat (freeEntry p.1))
        p.1 p.2.1 p.2.2 total drawn
    else some (table, curr)

/-- `ipc_space_rand_freelist` (`:147-222`): the table after it. -/
def ipc_space_rand_freelist (random : Nat → Bool) (table : Nat → ipc_entry)
    (bottom top : UInt32) : Option (Nat → ipc_entry) := do
  let at_start := bottom == 0
  let (table, curr) ← randFreelistLoop random at_start (2 ^ 32) table bottom (bottom + 1) (top - 1) 0 0
  let table := Function.update table curr.toNat (freeEntry 0)
  -- the head of a new table's free list has generation 0
  pure (if at_start then Function.update table 0 { table 0 with ie_bits := 0 } else table)

/-! ## One round -/

/-- An index of the range `[b0, t0)`. -/
def InRange (b0 t0 i : Nat) : Prop := b0 ≤ i ∧ i < t0

/-- The index an entry links to. -/
def links (table : Nat → ipc_entry) (i : Nat) : Nat := (table i).ie_next.toNat

/-- The indices `[bottom, top]` not yet linked. -/
def window (bottom top : UInt32) : List Nat :=
  List.range' bottom.toNat (top.toNat + 1 - bottom.toNat)

section Loop

variable {random : Nat → Bool} {at_start : Bool} {fuel : Nat} {table : Nat → ipc_entry}
  {curr bottom top : UInt32} {total drawn : Nat}

theorem randFreelistLoop_done (h : ¬bottom ≤ top) :
    randFreelistLoop random at_start (fuel + 1) table curr bottom top total drawn =
      some (table, curr) := by
  rw [randFreelistLoop, if_neg h]

/-- A round links `curr` to the index it picks, whichever end the bit chose. -/
theorem randFreelistLoop_round (h : bottom ≤ top) :
    ∃ which total' drawn', randFreelistLoop random at_start (fuel + 1) table curr bottom top total
        drawn =
      randFreelistLoop random at_start fuel
        (Function.update table curr.toNat (freeEntry (pick which bottom top).1))
        (pick which bottom top).1 (pick which bottom top).2.1 (pick which bottom top).2.2 total'
        drawn' := by
  refine ⟨if at_start && decide (total < NUM_SEQ_ENTRIES) then false else random drawn,
    if at_start then total + 1 else total,
    if at_start && decide (total < NUM_SEQ_ENTRIES) then drawn else drawn + 1, ?_⟩
  rw [randFreelistLoop, if_pos h]

end Loop

/-- A round takes an index from one end of the window: that index and the window left are the
window, which has shrunk by one. -/
theorem pick_window (which : Bool) {bottom top : UInt32} (h0 : 0 < bottom.toNat)
    (hle : bottom.toNat ≤ top.toNat) (htop : top.toNat + 1 < 2 ^ 32) :
    ((pick which bottom top).1.toNat ::
        window (pick which bottom top).2.1 (pick which bottom top).2.2).Perm (window bottom top) ∧
      bottom.toNat ≤ (pick which bottom top).2.1.toNat ∧
      (pick which bottom top).2.1.toNat ≤ (pick which bottom top).2.2.toNat + 1 ∧
      (pick which bottom top).2.2.toNat ≤ top.toNat ∧
      (pick which bottom top).2.2.toNat + 1 - (pick which bottom top).2.1.toNat + 1 =
        top.toNat + 1 - bottom.toNat := by
  cases which with
  | true =>
    -- the top leaves the window
    have ht : (top - 1).toNat = top.toNat - 1 := by
      rw [UInt32.toNat_sub_of_le _ _ (by rw [UInt32.le_iff_toNat_le]; simp; omega)]
      rfl
    simp only [pick, if_true, window, ht]
    refine ⟨?_, by omega, by omega, by omega, by omega⟩
    have hw : top.toNat + 1 - bottom.toNat = top.toNat - 1 + 1 - bottom.toNat + 1 := by omega
    rw [hw, List.range'_concat]
    rw [show bottom.toNat + 1 * (top.toNat - 1 + 1 - bottom.toNat) = top.toNat by omega]
    exact List.perm_append_singleton _ _ |>.symm
  | false =>
    -- the bottom leaves the window
    have hb : (bottom + 1).toNat = bottom.toNat + 1 := by
      rw [UInt32.toNat_add, UInt32.toNat_one]
      omega
    simp only [pick, Bool.false_eq_true, if_false, window, hb]
    refine ⟨?_, by omega, by omega, by omega, by omega⟩
    rw [show top.toNat + 1 - bottom.toNat = top.toNat + 1 - (bottom.toNat + 1) + 1 by omega,
      List.range'_succ]

/-- What holds before each round, for the range `[b0, t0)`: the entries linked so far, `l`, lead
from `b0` to `curr`; they, `curr` and the window left are the range; and none of them holds an
object. -/
structure LoopInv (b0 t0 : Nat) (table : Nat → ipc_entry) (curr bottom top : UInt32)
    (l : List Nat) : Prop where
  t0_lt : t0 < 2 ^ 32
  lt_bottom : b0 < bottom.toNat
  bottom_le : bottom.toNat ≤ top.toNat + 1
  top_lt : top.toNat < t0
  chain : LinkChain (InRange b0 t0) id (links table) curr.toNat b0 l
  perm : (l ++ curr.toNat :: window bottom top).Perm (List.range' b0 (t0 - b0))
  null : ∀ i ∈ l, (table i).ie_object = IO_NULL

/-- A linked entry is in the range and is not linked twice. -/
theorem LoopInv.curr_fresh {b0 t0 : Nat} {table : Nat → ipc_entry} {curr bottom top : UInt32}
    {l : List Nat} (hi : LoopInv b0 t0 table curr bottom top l) :
    InRange b0 t0 curr.toNat ∧ curr.toNat ∉ l := by
  have hmem : curr.toNat ∈ List.range' b0 (t0 - b0) :=
    hi.perm.mem_iff.mp (List.mem_append_right _ List.mem_cons_self)
  have hnd : (l ++ curr.toNat :: window bottom top).Nodup := hi.perm.nodup_iff.mpr List.nodup_range'
  rw [List.mem_range'_1] at hmem
  refine ⟨⟨hmem.1, by omega⟩, fun hl => ?_⟩
  exact (List.nodup_append.mp hnd).2.2 _ hl _ List.mem_cons_self rfl

/-- A round keeps the invariant, whichever end it takes. -/
theorem LoopInv.round {b0 t0 : Nat} {table : Nat → ipc_entry} {curr bottom top : UInt32}
    {l : List Nat} (hi : LoopInv b0 t0 table curr bottom top l) (h : bottom ≤ top) (which : Bool) :
    LoopInv b0 t0 (Function.update table curr.toNat (freeEntry (pick which bottom top).1))
      (pick which bottom top).1 (pick which bottom top).2.1 (pick which bottom top).2.2
      (l ++ [curr.toNat]) := by
  rw [UInt32.le_iff_toNat_le] at h
  obtain ⟨hperm, hb, hbt, ht, -⟩ :=
    pick_window which (by have := hi.lt_bottom; omega) h (by have := hi.top_lt; have := hi.t0_lt; omega)
  obtain ⟨hvalid, hfresh⟩ := hi.curr_fresh
  -- entries linked earlier are not `curr`, so the write leaves their links and objects
  have hother : ∀ i ∈ l, Function.update table curr.toNat (freeEntry (pick which bottom top).1) i =
      table i := by
    intro i hl
    have hne : i ≠ curr.toNat := fun he => hfresh (he ▸ hl)
    exact Function.update_of_ne hne _ _
  refine ⟨hi.t0_lt, by have := hi.lt_bottom; omega, hbt, by have := hi.top_lt; omega, ?_, ?_, ?_⟩
  · refine (hi.chain.frame fun i hl => ?_).snoc hvalid ?_
    · simp only [links, hother i hl]
    · simp only [links, id, Function.update_self, freeEntry]
  · rw [List.append_assoc, List.singleton_append]
    exact ((hperm.cons _).append_left l).trans hi.perm
  · intro i hl
    rcases List.mem_append.mp hl with hl | hl
    · rw [hother i hl]
      exact hi.null i hl
    · rw [List.mem_singleton.mp hl, Function.update_self]
      rfl

/-! ## The whole loop -/

/-- From a state that keeps the invariant, with a round of fuel to spare, the loop stops having
linked every index of the range but the last, `curr'`, from `b0` on to it. -/
theorem randFreelistLoop_spec {random : Nat → Bool} {at_start : Bool} {b0 t0 : Nat} :
    ∀ (fuel : Nat) (table : Nat → ipc_entry) (curr bottom top : UInt32) (total drawn : Nat)
      (l : List Nat), LoopInv b0 t0 table curr bottom top l →
      top.toNat + 2 - bottom.toNat ≤ fuel →
      ∃ table' curr' l', randFreelistLoop random at_start fuel table curr bottom top total drawn =
          some (table', curr') ∧
        LinkChain (InRange b0 t0) id (links table') curr'.toNat b0 l' ∧
        (l' ++ [curr'.toNat]).Perm (List.range' b0 (t0 - b0)) ∧
        ∀ i ∈ l', (table' i).ie_object = IO_NULL
  | 0, _, _, bottom, top, _, _, _, hi, hfuel => by
    have := hi.bottom_le
    omega
  | fuel + 1, table, curr, bottom, top, total, drawn, l, hi, hfuel => by
    by_cases h : bottom ≤ top
    · -- one more round, with one index fewer in the window
      obtain ⟨which, total', drawn', heq⟩ :=
        @randFreelistLoop_round random at_start fuel table curr bottom top total drawn h
      rw [heq]
      rw [UInt32.le_iff_toNat_le] at h
      have hshrink := (pick_window which (by have := hi.lt_bottom; omega) h
        (by have := hi.top_lt; have := hi.t0_lt; omega)).2.2.2.2
      exact randFreelistLoop_spec fuel _ _ _ _ _ _ _ (hi.round (UInt32.le_iff_toNat_le.mpr h) which)
        (by omega)
    · -- the window is empty: `l` and `curr` are the whole range
      rw [randFreelistLoop_done h]
      rw [UInt32.le_iff_toNat_le] at h
      have hw : window bottom top = [] := by
        rw [window, show top.toNat + 1 - bottom.toNat = 0 by omega, List.range'_zero]
      have hperm := hi.perm
      rw [hw] at hperm
      exact ⟨table, curr, l, rfl, hi.chain, hperm, hi.null⟩

/-- The start of the loop: `curr` is `bottom`, nothing linked, the window the rest of the
range. -/
theorem loopInv_start (table : Nat → ipc_entry) {bottom top : UInt32} (h : bottom < top) :
    LoopInv bottom.toNat top.toNat table bottom (bottom + 1) (top - 1) [] := by
  rw [UInt32.lt_iff_toNat_lt] at h
  have ht := top.toNat_lt
  have hb : (bottom + 1).toNat = bottom.toNat + 1 := by
    rw [UInt32.toNat_add, UInt32.toNat_one]
    omega
  have ht' : (top - 1).toNat = top.toNat - 1 := by
    rw [UInt32.toNat_sub_of_le _ _ (by rw [UInt32.le_iff_toNat_le]; simp; omega)]
    rfl
  refine ⟨ht, by omega, by omega, by omega, .stop, ?_, fun _ h => absurd h List.not_mem_nil⟩
  rw [List.nil_append, window, hb, ht',
    show top.toNat - bottom.toNat = top.toNat - 1 + 1 - (bottom.toNat + 1) + 1 by omega,
    List.range'_succ]

/-- The last write and the head's generation change no link and no object. -/
theorem links_head_bits (c : Bool) (table : Nat → ipc_entry) :
    links (if c then Function.update table 0 { table 0 with ie_bits := 0 } else table) =
      links table := by
  funext i
  cases c with
  | false => rfl
  | true =>
    by_cases hi : i = 0
    · subst hi
      simp only [links, if_true, Function.update_self]
    · simp only [links, if_true, Function.update_of_ne hi]

theorem object_head_bits (c : Bool) (table : Nat → ipc_entry) (i : Nat) :
    ((if c then Function.update table 0 { table 0 with ie_bits := 0 } else table) i).ie_object =
      (table i).ie_object := by
  cases c with
  | false => rfl
  | true =>
    by_cases hi : i = 0
    · subst hi
      simp only [if_true, Function.update_self]
    · simp only [if_true, Function.update_of_ne hi]

/-- `ipc_space_rand_freelist` on `[bottom, top)` returns, for every stream of random bits, a
table whose free list starts at `bottom`, goes through every index of the range exactly once and
ends in `0`; no entry of the range holds an object, and on a new table the head has generation
`0`. -/
theorem ipc_space_rand_freelist_permutes (random : Nat → Bool) (table : Nat → ipc_entry)
    (bottom top : UInt32) (h : bottom < top) :
    ∃ table', ipc_space_rand_freelist random table bottom top = some table' ∧
      (∃ l, l.Perm (List.range' bottom.toNat (top.toNat - bottom.toNat)) ∧
        LinkChain (InRange bottom.toNat top.toNat) id (links table') 0 bottom.toNat l) ∧
      (∀ i, bottom.toNat ≤ i → i < top.toNat → (table' i).ie_object = IO_NULL) ∧
      (bottom = 0 → (table' 0).ie_bits = 0) := by
  have hi := loopInv_start table h
  have hfuel : (top - 1).toNat + 2 - (bottom + 1).toNat ≤ 2 ^ 32 := by
    have h1 := hi.top_lt
    have h2 := hi.t0_lt
    have h3 := hi.lt_bottom
    omega
  obtain ⟨table', curr', l', hloop, hchain, hperm, hnull⟩ :=
    @randFreelistLoop_spec random (bottom == 0) _ _ (2 ^ 32) table bottom
      (bottom + 1) (top - 1) 0 0 [] hi hfuel
  -- the last entry, `curr'`, is in the range and linked nowhere before
  have hfresh : curr'.toNat ∉ l' := by
    have hnd := hperm.nodup_iff.mpr List.nodup_range'
    exact fun hl => (List.nodup_append.mp hnd).2.2 _ hl _ List.mem_cons_self rfl
  have hne : ∀ i ∈ l', i ≠ curr'.toNat := fun i hl he => hfresh (he ▸ hl)
  have hvalid : InRange bottom.toNat top.toNat curr'.toNat := by
    have hmem := hperm.mem_iff.mp (List.mem_append_right _ List.mem_cons_self)
    rw [List.mem_range'_1] at hmem
    exact ⟨hmem.1, by omega⟩
  refine ⟨if (bottom == 0) = true then
      Function.update (Function.update table' curr'.toNat (freeEntry 0)) 0
        { Function.update table' curr'.toNat (freeEntry 0) 0 with ie_bits := 0 }
    else Function.update table' curr'.toNat (freeEntry 0), ?_, ⟨l' ++ [curr'.toNat], hperm, ?_⟩,
    fun i hb ht => ?_, fun h0 => ?_⟩
  · simp only [ipc_space_rand_freelist, hloop]
    rfl
  · -- the last write links `curr'` to `0`
    rw [links_head_bits]
    refine (hchain.frame fun i hl => ?_).snoc hvalid ?_
    · simp only [links, Function.update_of_ne (hne i hl)]
    · simp only [links, id, Function.update_self, freeEntry, UInt32.toNat_zero]
  · rw [object_head_bits]
    have hmem : i ∈ l' ++ [curr'.toNat] :=
      hperm.mem_iff.mpr (List.mem_range'_1.mpr ⟨hb, by omega⟩)
    rcases List.mem_append.mp hmem with hl | hl
    · rw [Function.update_of_ne (hne i hl)]
      exact hnull i hl
    · rw [List.mem_singleton.mp hl, Function.update_self]
      rfl
  · subst h0
    simp only [beq_self_eq_true, if_true, Function.update_self]

/-- A table of three entries, every bit set: the list runs through all three. -/
theorem ipc_space_rand_freelist_three :
    (0 : UInt32) < 3 ∧ ∃ table', ipc_space_rand_freelist (fun _ => true)
      (fun _ => ⟨1, 0, 0, 0, 0⟩) 0 3 = some table' ∧ (table' 0).ie_bits = 0 := by
  obtain ⟨table', h, -, -, hbits⟩ :=
    ipc_space_rand_freelist_permutes (fun _ => true) (fun _ => ⟨1, 0, 0, 0, 0⟩) 0 3 (by decide)
  exact ⟨by decide, table', h, hbits rfl⟩

end Ipc.Space
