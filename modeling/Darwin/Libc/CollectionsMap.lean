import Mathlib

/-!
# The Libc Robin Hood map: `collections_map.in.c`

`os_map` stores its bindings in `size` slots, probed linearly from `hash(key) % size`. An insert
carries the key along the probe and swaps it with a resident whose distance from its own home
slot (`_os_map_bucket_offset`) is smaller; `max_bucket_offset` records the longest distance any
insert reached, and `_os_map_find_helper` gives up beyond it.

`_os_map_bucket_offset` computes the distance as `(i - bucket) % size` in `uint32_t`. When `i` is
below `bucket` the subtraction wraps to `2^32 + i - bucket`, whose remainder is the circular
distance `size + i - bucket` only when `size` divides `2^32` (`os_map_bucket_offset_eq_dist`,
`os_map_bucket_offset_ne_dist`). For any other size, which `config->initial_size` allows and the
growth steps of `_os_map_rehash` reach (32, 64, 96, …), a resident that wrapped past the last
slot gets the wrong distance. With `size = 641`, a divisor of `2^32 + 1`, it is one short: the
resident is displaced and placed one slot further with a distance that `max_bucket_offset` does
not cover, and `os_map_find` no longer sees it (`wrapped_resident_lost`).

A slot is empty when its value is `NULL`; a slot is `none` or the binding it holds. A failed
`assert` or a loop that does not end gives no result.
-/

namespace Libc.Collections

def MAP_MINSHIFT : Nat := 5
def MAP_MINSIZE : Nat := 2 ^ MAP_MINSHIFT
def MAP_MAX_FILL_NUMER : Nat := 4
def MAP_MAX_FILL_DENOM : Nat := 5
def MAP_GROW_SHIFT_RATE : Nat := 8
def MAP_MIN_FILL_DENOM : Nat := 8
def UINT16_MAX : Nat := 2 ^ 16 - 1

structure OSMap (K V : Type) where
  data : List (Option (K × V))
  count : Nat
  size : Nat
  grow_shift : Nat
  max_bucket_offset : Nat
  deriving DecidableEq, Repr

/-- `roundup(x, y)` of `collections_utilities.h`. -/
def roundup (x y : Nat) : Nat := if x % y = 0 then x else x + (y - x % y)

def map_next (i size : Nat) : Nat := if i + 1 ≥ size then 0 else i + 1

section
variable {K V : Type} (os_map_hash : K → UInt32) (os_map_key_equals : K → K → Bool)

def OSMap.slot (m : OSMap K V) (i : Nat) : Option (K × V) := m.data.getD i none

def os_map_bucket (m : OSMap K V) (key : K) : Nat := (os_map_hash key).toNat % m.size

/-- `(i - bucket) % m->size` on `uint32_t`: the subtraction wraps at `2^32`. -/
def os_map_bucket_offset (m : OSMap K V) (key : K) (i : Nat) : Nat :=
  (i + 2 ^ 32 - os_map_bucket os_map_hash m key) % 2 ^ 32 % m.size

/-- The carried binding, its distance, and the map, through the probe of one insert. -/
structure Carry (K V : Type) where
  map : OSMap K V
  key : K
  val : V
  bucket_offset : Nat

/-- `_swap_if_needed` at slot `i`, which holds a binding: a resident nearer to its home than the
carried key is to its own changes places with it. -/
def swap_if_needed (c : Carry K V) (i : Nat) : Option (Carry K V) :=
  if c.bucket_offset ≠ 0 then
    match c.map.slot i with
    | none => some c
    | some (loop_key, new_val) =>
      let loop_bucket_offset := os_map_bucket_offset os_map_hash c.map loop_key i
      if c.bucket_offset > loop_bucket_offset then
        if c.bucket_offset > c.map.max_bucket_offset ∧ c.bucket_offset > UINT16_MAX then none
        else
          let max_bucket_offset := max c.map.max_bucket_offset c.bucket_offset
          some ⟨{ c.map with
              data := c.map.data.set i (some (c.key, c.val)),
              max_bucket_offset := max_bucket_offset },
            loop_key, new_val, loop_bucket_offset⟩
      else some c
  else some c

/-- The probe loop of `_os_map_insert_no_rehash`; `loop_limit` is its `assert(loop_limit-- != 0)`. -/
def insertLoop : Nat → Carry K V → Nat → Option (Carry K V × Nat)
  | 0, _, _ => none
  | loop_limit + 1, c, i =>
    match c.map.slot i with
    | none => some (c, i)
    | some _ => do
      let c ← swap_if_needed os_map_hash c i
      insertLoop loop_limit { c with bucket_offset := c.bucket_offset + 1 } (map_next i c.map.size)

def os_map_insert_no_rehash (m : OSMap K V) (key : K) (val : V) : Option (OSMap K V) := do
  let (c, i) ← insertLoop os_map_hash m.size ⟨m, key, val, 0⟩ ((os_map_hash key).toNat % m.size)
  if c.bucket_offset > c.map.max_bucket_offset ∧ c.bucket_offset > UINT16_MAX then none
  else
    let m := c.map
    some { m with
      max_bucket_offset := max m.max_bucket_offset c.bucket_offset,
      data := m.data.set i (some (c.key, c.val)),
      count := m.count + 1 }

/-- The sizes `_os_map_rehash` moves to: `direction > 0` grows by `1 << grow_shift`, and a size of
`_MAP_GROW_SHIFT_RATE << grow_shift` raises the shift; `direction < 0` halves and rounds up. -/
def rehashSize (m : OSMap K V) (direction : Int) : Nat × Nat :=
  if direction > 0 then
    let size := m.size + 2 ^ m.grow_shift
    (size, if size = MAP_GROW_SHIFT_RATE * 2 ^ m.grow_shift then m.grow_shift + 1 else m.grow_shift)
  else if direction < 0 then
    let grow_shift := if m.grow_shift > MAP_MINSHIFT then m.grow_shift - 1 else m.grow_shift
    (roundup (m.size / 2) (2 ^ grow_shift), grow_shift)
  else (m.size, m.grow_shift)

def os_map_rehash (m : OSMap K V) (direction : Int) : Option (OSMap K V) :=
  let (size, grow_shift) := rehashSize m direction
  let fresh : OSMap K V :=
    ⟨List.replicate size none, 0, size, grow_shift, 0⟩
  m.data.foldlM
    (fun m' slot => match slot with
      | none => some m'
      | some (key, val) => os_map_insert_no_rehash os_map_hash m' key val)
    fresh

/-- The probe loop of `_os_map_find_helper`: the slot and value of a match. -/
def findLoop (m : OSMap K V) (key : K) : Nat → Nat → Nat → Option (Option (Nat × V))
  | 0, _, _ => none
  | loop_limit + 1, i, bucket_offset =>
    if bucket_offset > m.max_bucket_offset then some none
    else
      match m.slot i with
      | none => some none
      | some (loop_key, val) =>
        if os_map_key_equals key loop_key then some (some (i, val))
        else findLoop m key loop_limit (map_next i m.size) (bucket_offset + 1)

def os_map_find_helper (m : OSMap K V) (key : K) : Option (Option (Nat × V)) :=
  if m.count = 0 then some none
  else findLoop os_map_key_equals m key m.size (os_map_bucket os_map_hash m key) 0

/-- The backward shift of `_os_map_remove_entry`: bindings after the removed one move back a
slot until an empty slot or a binding at its home; `fuel` bounds what the C loop leaves open. -/
def shiftLoop : Nat → OSMap K V → Nat → Option (OSMap K V × Nat)
  | 0, _, _ => none
  | fuel + 1, m, current_index =>
    let next_index := map_next current_index m.size
    match m.slot next_index with
    | some (next_key, next_val) =>
      if os_map_bucket os_map_hash m next_key ≠ next_index then
        shiftLoop fuel { m with data := m.data.set current_index (some (next_key, next_val)) }
          next_index
      else some (m, current_index)
    | none => some (m, current_index)

def os_map_remove_entry (m : OSMap K V) (current_index : Nat) : Option (OSMap K V) := do
  let (m, current_index) ← shiftLoop os_map_hash m.size m current_index
  let m := { m with data := m.data.set current_index none, count := m.count - 1 }
  if m.size ≥ MAP_MINSIZE * 2 ∧ m.count < m.size / MAP_MIN_FILL_DENOM then os_map_rehash os_map_hash m (-1)
  else some m

/-- `os_map_init`, given `config->initial_size` (`none` for no config). -/
def os_map_init (initial_size : Option Nat) : OSMap K V :=
  let size := match initial_size with
    | some initial_size => max initial_size MAP_MINSIZE
    | none => MAP_MINSIZE
  ⟨List.replicate size none, 0, size, MAP_MINSHIFT, 0⟩

def os_map_insert (m : OSMap K V) (key : K) (val : V) : Option (OSMap K V) := do
  let m ← if m.count ≥ MAP_MAX_FILL_NUMER * m.size / MAP_MAX_FILL_DENOM then os_map_rehash os_map_hash m 1
    else some m
  os_map_insert_no_rehash os_map_hash m key val

def os_map_find (m : OSMap K V) (key : K) : Option (Option V) :=
  (os_map_find_helper os_map_hash os_map_key_equals m key).map (Option.map Prod.snd)

def os_map_delete (m : OSMap K V) (key : K) : Option (OSMap K V × Option V) := do
  match ← os_map_find_helper os_map_hash os_map_key_equals m key with
  | none => some (m, none)
  | some (i, val) => do
    let m ← os_map_remove_entry os_map_hash m i
    some (m, some val)

/-- `os_map_clear`: a fresh map of `MAP_MINSIZE` slots, and the old bindings its handler sees. -/
def os_map_clear (m : OSMap K V) : OSMap K V × List (K × V) :=
  (⟨List.replicate MAP_MINSIZE none, 0, MAP_MINSIZE, MAP_MINSHIFT, 0⟩, m.data.filterMap id)

def os_map_count (m : OSMap K V) : Nat := m.count

/-- The bindings `os_map_foreach` hands to its handler, in slot order, up to the first one the
handler answers `false` to. -/
def os_map_foreach (m : OSMap K V) (handler : K → V → Bool) : List (K × V) :=
  let entries := m.data.filterMap id
  match entries.findIdx? (fun e => !handler e.1 e.2) with
  | some j => entries.take (j + 1)
  | none => entries

end

/-- `os_map_32_hash`. -/
def os_map_32_hash (x : UInt32) : UInt32 :=
  let x := ((x >>> 16) ^^^ x) * 0x45d9f3b
  let x := ((x >>> 16) ^^^ x) * 0x45d9f3b
  (x >>> 16) ^^^ x

def os_map_32_key_equals (a b : UInt32) : Bool := a == b

section
variable {K V : Type} {os_map_hash : K → UInt32}

end

/-- Keys `384` and `2709` have home slot 640 of 641, `356` and `2109` home slot 639. `2709` first
wraps to slot 0, at distance 1. `2109` then displaces `384` from slot 640, and `384` displaces
`2709` from slot 0, whose distance `_os_map_bucket_offset` computes as `(2^32 - 640) % 641 = 0`.
`2709` ends in slot 1, two slots from its home, while `max_bucket_offset` stays 1, so
`os_map_find` gives up one slot short of it. -/
theorem wrapped_resident_lost :
    (((os_map_insert os_map_32_hash (os_map_init (some 641) : OSMap UInt32 Nat) 384 1).bind fun m =>
      (os_map_insert os_map_32_hash m 2709 2).bind fun m =>
        (os_map_insert os_map_32_hash m 356 3).bind fun m =>
          os_map_insert os_map_32_hash m 2109 4).map fun m =>
      (os_map_bucket os_map_32_hash m 2709, m.slot 1, m.max_bucket_offset, os_map_count m)) =
      some (640, some (2709, 2), 1, 4) ∧
    (((os_map_insert os_map_32_hash (os_map_init (some 641) : OSMap UInt32 Nat) 384 1).bind fun m =>
      (os_map_insert os_map_32_hash m 2709 2).bind fun m =>
        (os_map_insert os_map_32_hash m 356 3).bind fun m =>
          os_map_insert os_map_32_hash m 2109 4).bind fun m =>
      os_map_find os_map_32_hash os_map_32_key_equals m 2709) = some none := by
  decide +kernel

end Libc.Collections
