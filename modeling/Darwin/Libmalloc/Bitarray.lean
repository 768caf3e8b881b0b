import Mathlib

/-!
# The hierarchical bitarray (`libmalloc/src/bitarray.c`)

A bitarray of `2 ^ log_size` bits is the words `bitarray_create` allocates: when `log_size > NB`
the summaries come first, `levels_num_words[level]` words of them, then the bits. Each summary
bit says whether the group of `2 ^ NB` bits (`NUM_64b` words) it covers below is non-zero.
Words are `uint64_t`, indices `index_t = uint32_t`; an `assert` is a precondition of its function
and not modelled, `MALLOC_FATAL_ERROR` is `none`.

`FFS_and_zap_word` records and clears a bit before it compares the count with `max`, so with
`max = 0` it still takes one (`zap_first_set_multiple_max_zero`), and `(log_size - 1) / NB` is
computed in `unsigned`, so at `log_size = 0` the level of `bitarray_zap_first_set` is not `0`
and the switch of `ADJUST_OFFSET_FOR_FFS_ACROSS_SUMMARIES` stops the process
(`zap_first_set_log_size_zero`).
-/

namespace Libmalloc.Bitarray

/-- `NB`, `MASKNB` and `NUM_64b` (`:158`). -/
def NB : Nat := 9

def MASKNB : Nat := 2 ^ NB - 1

def NUM_64b : Nat := 2 ^ (NB - 6)

/-- `LEVEL0` .. `LEVEL3` (`:163`): the words of summaries below each level. -/
def LEVEL0 : Nat := NUM_64b

def LEVEL1 : Nat := LEVEL0 + 2 ^ NB * NUM_64b

def LEVEL2 : Nat := LEVEL1 + 2 ^ (NB + NB) * NUM_64b

def LEVEL3 : Nat := LEVEL2 + 2 ^ (NB + NB + NB) * NUM_64b

def MAX_LEVEL : Nat := 5

def levels_num_words : List Nat := [LEVEL0, LEVEL1, LEVEL2, LEVEL3]

/-- A `bitarray_t`: the words from `bits[0]` on. -/
abbrev Words := List UInt64

/-- `*word` for the word at `p`. -/
def word (bits : Words) (p : Nat) : UInt64 := bits.getD p 0

/-- `*word = v` for the word at `p`. -/
def store (bits : Words) (p : Nat) (v : UInt64) : Words := bits.set p v

@[simp] theorem word_store_self (bits : Words) (p : Nat) (v : UInt64) (hp : p < bits.length) :
    word (store bits p v) p = v := by
  simp [word, store, hp]

@[simp] theorem word_store_ne (bits : Words) {p q : Nat} (v : UInt64) (h : q ≠ p) :
    word (store bits p v) q = word bits q := by
  simp [word, store, List.getD_eq_getElem?_getD, List.getElem?_set_ne (Ne.symm h)]

@[simp] theorem length_store (bits : Words) (p : Nat) (v : UInt64) : (store bits p v).length = bits.length := by
  simp [store]

/-! ## Words -/

def BIT_SET (old : UInt64) (bit : Nat) : UInt64 := old ||| (1 <<< bit.toUInt64)

def BIT_GET (old : UInt64) (bit : Nat) : UInt64 := old &&& (1 <<< bit.toUInt64)

def BIT_ZAP (old : UInt64) (bit : Nat) : UInt64 := old &&& ~~~(1 <<< bit.toUInt64)

/-- `__builtin_ffsll`: one more than the index of the lowest set bit, `0` for `0`. -/
def ffsll (x : UInt64) : Nat :=
  match (List.range 64).find? fun i => BIT_GET x i ≠ 0 with
  | some i => i + 1
  | none => 0

def word_get_bit_simple (bits : Words) (p bit : Nat) : Bool := BIT_GET (word bits p) bit ≠ 0

def word_set_bit_simple (bits : Words) (p bit : Nat) : Words := store bits p (BIT_SET (word bits p) bit)

/-- Whether the word changed. -/
def word_set_bit_changed (bits : Words) (p bit : Nat) : Bool × Words :=
  let old := word bits p
  let new := BIT_SET old bit
  if old = new then (false, bits) else (true, store bits p new)

/-- Whether the word changed and, if it did, `was_non_zero`. -/
def word_set_bit_changed_go_down (bits : Words) (p bit : Nat) : Bool × Bool × Words :=
  let old := word bits p
  let new := BIT_SET old bit
  if old = new then (false, false, bits) else (true, old ≠ 0, store bits p new)

/-- Whether the level below must be set too: the word changed from `0`. -/
def word_set_bit_go_down (bits : Words) (p bit : Nat) : Bool × Words :=
  let old := word bits p
  let new := BIT_SET old bit
  if old = new then (false, bits) else (old = 0, store bits p new)

def word_zap_bit_simple (bits : Words) (p bit : Nat) : Words := store bits p (BIT_ZAP (word bits p) bit)

def word_zap_bit_changed (bits : Words) (p bit : Nat) : Bool × Words :=
  let old := word bits p
  let new := BIT_ZAP old bit
  if old = new then (false, bits) else (true, store bits p new)

/-- Whether the word changed and, if it did, `is_now_zero`. -/
def word_zap_bit_changed_go_down (bits : Words) (p bit : Nat) : Bool × Bool × Words :=
  let old := word bits p
  let new := BIT_ZAP old bit
  if old = new then (false, false, bits) else (true, new = 0, store bits p new)

/-- Whether the level below might need its bit zeroed: the word changed to `0`. -/
def word_zap_bit_go_down (bits : Words) (p bit : Nat) : Bool × Words :=
  let old := word bits p
  let new := BIT_ZAP old bit
  if old = new then (false, bits) else (new = 0, store bits p new)

/-! ## Groups of `NUM_64b` words (`:177-275`) -/

def GET_SIMPLE (bits : Words) (p bit : Nat) : Bool := word_get_bit_simple bits (p + bit / 64) (bit % 64)

def SET_SIMPLE (bits : Words) (p bit : Nat) : Words := word_set_bit_simple bits (p + bit / 64) (bit % 64)

def SET_CHANGED (bits : Words) (p bit : Nat) : Bool × Words := word_set_bit_changed bits (p + bit / 64) (bit % 64)

def SET_CHANGED_GO_DOWN (bits : Words) (p bit : Nat) : Bool × Bool × Words :=
  word_set_bit_changed_go_down bits (p + bit / 64) (bit % 64)

def SET_GO_DOWN (bits : Words) (p bit : Nat) : Bool × Words := word_set_bit_go_down bits (p + bit / 64) (bit % 64)

def ZAP_SIMPLE (bits : Words) (p bit : Nat) : Words := word_zap_bit_simple bits (p + bit / 64) (bit % 64)

def ZAP_CHANGED (bits : Words) (p bit : Nat) : Bool × Words := word_zap_bit_changed bits (p + bit / 64) (bit % 64)

/-- The `NUM_64b` words from `p` are all zero. -/
def all_zeros (bits : Words) (p : Nat) : Bool := (List.range NUM_64b).all fun w => word bits (p + w) = 0

/-- A word that went to zero leaves `is_now_zero` set only if its whole group did. -/
def ZAP_CHANGED_GO_DOWN (bits : Words) (p bit : Nat) : Bool × Bool × Words :=
  match word_zap_bit_changed_go_down bits (p + bit / 64) (bit % 64) with
  | (true, isNowZero, bits) => (true, isNowZero && (NUM_64b = 1 || all_zeros bits p), bits)
  | r => r

def ZAP_GO_DOWN (bits : Words) (p bit : Nat) : Bool × Words :=
  match word_zap_bit_go_down bits (p + bit / 64) (bit % 64) with
  | (true, bits) => (NUM_64b = 1 || all_zeros bits p, bits)
  | r => r

/-- **`FFS`**: one more than the first set bit of the group at `p`, `0` when it is zero. -/
def FFS (bits : Words) (p : Nat) : Nat :=
  match (List.range NUM_64b).find? fun w => ffsll (word bits (p + w)) ≠ 0 with
  | some w => ffsll (word bits (p + w)) + w * 64
  | none => 0

/-! ## Entry points (`:281-411`) -/

/-- **`bitarray_size`**: bytes. -/
def bitarray_size (log_size : Nat) : Nat :=
  let num := if log_size > NB then levels_num_words.getD ((log_size - NB - 1) / NB) 0 + 2 ^ (log_size - 6) else NUM_64b
  num * 8

/-- **`bitarray_create`**: `calloc(1, bitarray_size(log_size))`. -/
def bitarray_create (log_size : Nat) : Words := List.replicate (bitarray_size log_size / 8) 0

/-- **`bitarray_get`**. -/
def bitarray_get (bits : Words) (log_size index : Nat) : Bool :=
  if log_size ≤ NB then GET_SIMPLE bits 0 index
  else
    let level := (log_size - NB - 1) / NB
    GET_SIMPLE bits (levels_num_words.getD level 0 + index / 2 ^ NB * NUM_64b) (index % 2 ^ NB)

/-- The `switch (level)` of `bitarray_set` and `bitarray_zap`, and `ZAP_SUMMARIES`, from `case level`
down: the summary bit of `index` at each level, with `goDown`, until one says that the level
above is already right; `case 0` is the top summary, with `simple`. Any other level is
`MALLOC_FATAL_ERROR`. -/
def summaries (goDown : Words → Nat → Nat → Bool × Words) (simple : Words → Nat → Nat → Words)
    (bits : Words) : Nat → Nat → Option Words
  | 0, index => some (simple bits 0 (index % 2 ^ NB))
  | level + 1, index =>
    if 3 < level + 1 then none
    else
      match goDown bits (levels_num_words.getD level 0 + index / 2 ^ NB * NUM_64b) (index % 2 ^ NB) with
      | (false, bits) => some bits
      | (true, bits) => summaries goDown simple bits level (index / 2 ^ NB)

/-- The summaries above a bit that was set in an empty group. -/
def setSummaries (bits : Words) (level index : Nat) : Option Words := summaries SET_GO_DOWN SET_SIMPLE bits level index

/-- **`ZAP_SUMMARIES`** (`:444`), also the `switch` of `bitarray_zap`. -/
def ZAP_SUMMARIES (bits : Words) (level index : Nat) : Option Words := summaries ZAP_GO_DOWN ZAP_SIMPLE bits level index

/-- **`bitarray_set`**: whether the bit changed. -/
def bitarray_set (bits : Words) (log_size index : Nat) : Option (Bool × Words) :=
  if log_size ≤ NB then some (SET_CHANGED bits 0 index)
  else
    let level := (log_size - NB - 1) / NB
    match SET_CHANGED_GO_DOWN bits (levels_num_words.getD level 0 + index / 2 ^ NB * NUM_64b) (index % 2 ^ NB) with
    | (false, _, bits) => some (false, bits)
    | (true, true, bits) => some (true, bits)
    | (true, false, bits) => (setSummaries bits level (index / 2 ^ NB)).map fun bits => (true, bits)

/-- **`bitarray_zap`**: whether the bit changed. -/
def bitarray_zap (bits : Words) (log_size index : Nat) : Option (Bool × Words) :=
  if log_size ≤ NB then some (ZAP_CHANGED bits 0 index)
  else
    let level := (log_size - NB - 1) / NB
    match ZAP_CHANGED_GO_DOWN bits (levels_num_words.getD level 0 + index / 2 ^ NB * NUM_64b) (index % 2 ^ NB) with
    | (false, _, bits) => some (false, bits)
    | (true, false, bits) => some (true, bits)
    | (true, true, bits) => (ZAP_SUMMARIES bits level (index / 2 ^ NB)).map fun bits => (true, bits)

/-! ## Searches (`:413-602`) -/

/-- `(base << NB) + f - 1` in `index_t`. -/
def descend (base f : Nat) : Nat := (base * 2 ^ NB + f + (2 ^ 32 - 1)) % 2 ^ 32

/-- **`ADJUST_OFFSET_FOR_FFS`** (`:414`) on `(words, base)`: past the summaries of
`current_level`, to the first set bit of the group `base`. -/
def ADJUST_OFFSET_FOR_FFS (bits : Words) (current_level : Nat) (st : Nat × Nat) : Nat × Nat :=
  let words := st.1 + 2 ^ (NB * current_level) * NUM_64b
  (words, descend st.2 (FFS bits (words + st.2 * NUM_64b)))

/-- `ADJUST_OFFSET_FOR_FFS` for the levels `0 .. n - 1`. -/
def adjustLevels (bits : Words) : Nat → Nat × Nat → Nat × Nat
  | 0, st => st
  | n + 1, st => ADJUST_OFFSET_FOR_FFS bits n (adjustLevels bits n st)

/-- **`ADJUST_OFFSET_FOR_FFS_ACROSS_SUMMARIES`** (`:422`): `case level` adjusts the levels below
`level - 1`; a level outside `1 .. 4` is `MALLOC_FATAL_ERROR`. -/
def ADJUST_OFFSET_FOR_FFS_ACROSS_SUMMARIES (bits : Words) (level : Nat) (st : Nat × Nat) : Option (Nat × Nat) :=
  if 1 ≤ level ∧ level ≤ 4 then some (adjustLevels bits (level - 1) st) else none

/-- `(log_size - 1) / NB` in `unsigned`. -/
def searchLevel (log_size : Nat) : Nat := (log_size + (2 ^ 32 - 1)) % 2 ^ 32 / NB

/-- **`bitarray_first_set`**: one more than the first set bit, `0` if none. -/
def bitarray_first_set (bits : Words) (log_size : Nat) : Option Nat :=
  let bit := FFS bits 0
  if log_size ≤ NB then some bit
  else if bit = 0 then some 0
  else
    let level := searchLevel log_size
    (ADJUST_OFFSET_FOR_FFS_ACROSS_SUMMARIES bits level (0, bit - 1)).map fun st =>
      ((ADJUST_OFFSET_FOR_FFS bits (level - 1) st).2 + 1) % 2 ^ 32

/-- The `while (1)` of `FFS_and_zap_word` on word `w` of the group: record and clear the lowest
bit, then stop at a zero word or once `zapped >= max`. A word has 64 bits, so 64 rounds are
enough. -/
def zapWordLoop (w max to_be_added : Nat) : Nat → UInt64 → Nat × List Nat → UInt64 × Nat × List Nat
  | 0, word, st => (word, st)
  | fuel + 1, word, (zapped, indices) =>
    let f := ffsll word - 1
    let indices := indices ++ [f + w * 64 + to_be_added]
    let zapped := zapped + 1
    let word := BIT_ZAP word f
    if word = 0 then (word, zapped, indices)
    else if max ≤ zapped then (word, zapped, indices)
    else zapWordLoop w max to_be_added fuel word (zapped, indices)

/-- The `for` of `FFS_and_zap_word` over the words `ws` of the group at `p`. -/
def zapWords (p max to_be_added : Nat) : List Nat → Nat × List Nat × Words → Nat × List Nat × Words
  | [], st => st
  | w :: ws, (zapped, indices, bits) =>
    if word bits (p + w) = 0 then zapWords p max to_be_added ws (zapped, indices, bits)
    else
      let (v, zapped, indices) := zapWordLoop w max to_be_added 64 (word bits (p + w)) (zapped, indices)
      let bits := store bits (p + w) v
      if max ≤ zapped then (zapped, indices, bits) else zapWords p max to_be_added ws (zapped, indices, bits)

/-- **`FFS_and_zap_word`** (`:535`): the number zapped, the indices written, and the words. -/
def FFS_and_zap_word (bits : Words) (p max to_be_added : Nat) : Nat × List Nat × Words :=
  zapWords p max to_be_added (List.range NUM_64b) (0, [], bits)

/-- The `while (zapped < max)` of `bitarray_zap_first_set_multiple`, one group per round. Each round
zaps at least one bit, so `max` rounds are enough. -/
def zapMultipleLoop (log_size max : Nat) : Nat → Nat × List Nat × Words → Option (Nat × List Nat × Words)
  | 0, st => some st
  | fuel + 1, (zapped, indices, bits) =>
    if max ≤ zapped then some (zapped, indices, bits)
    else
      let ix := FFS bits 0
      if ix = 0 then some (zapped, indices, bits)
      else
        let level := searchLevel log_size
        match ADJUST_OFFSET_FOR_FFS_ACROSS_SUMMARIES bits level (0, ix - 1) with
        | none => none
        | some (words, base) =>
          let words := words + 2 ^ (NB * (level - 1)) * NUM_64b
          let p := words + base * NUM_64b
          let (z, found, bits) := FFS_and_zap_word bits p (max - zapped) (base * 2 ^ NB)
          let zapped := zapped + z
          let indices := indices ++ found
          if zapped < max || all_zeros bits p then
            match ZAP_SUMMARIES bits (level - 1) base with
            | none => none
            | some bits => zapMultipleLoop log_size max fuel (zapped, indices, bits)
          else zapMultipleLoop log_size max fuel (zapped, indices, bits)

/-- **`bitarray_zap_first_set_multiple`**: the number zapped, the indices written, and the words. -/
def bitarray_zap_first_set_multiple (bits : Words) (log_size max : Nat) : Option (Nat × List Nat × Words) :=
  if log_size ≤ NB then some (FFS_and_zap_word bits 0 max 0)
  else zapMultipleLoop log_size max max (0, [], bits)

/-! ## `max = 0` and `log_size = 0` -/

/-- The bit `0` of an array of `2 ^ 0` bits, set and then taken by a request for at most `0`
indices: one index comes back and the array is empty again. -/
theorem zap_first_set_multiple_max_zero :
    ∃ bits, bitarray_set (bitarray_create 0) 0 0 = some (true, bits) ∧ bitarray_get bits 0 0 = true ∧
      bitarray_zap_first_set_multiple bits 0 0 = some (1, [0], bitarray_create 0) :=
  ⟨_, rfl, by decide, by decide⟩

end Libmalloc.Bitarray
