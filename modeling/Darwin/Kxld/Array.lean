import Mathlib.Data.List.Basic

/-!
# The kxld pooled array: `kxld_array.c`

A `KXLDArray` keeps its items in a list of equally sized pools of `pool_capacity` bytes, each
holding up to `pool_maxitems = pool_capacity / itemsize` items; `kxld_array_get_item` walks the
pools, subtracting `pool_maxitems` for every pool it passes. `kxld_array_resize` grows the array by
appending pools, so the pools stay where they are.

`kxld_array_init` on an array with pools that are too small for the new count (`kxld_array.c:
88-120`) allocates one new pool of `round_page(itemsize * nitems)` bytes and copies every old pool
into it whole, `pool_capacity` bytes after `pool_capacity` bytes. Item `i` of the old pool `k`
then lies at `k * pool_capacity + (i - k * pool_maxitems) * itemsize` of the new pool, not at
`i * itemsize` where `kxld_array_get_item` looks, unless `itemsize` divides `pool_capacity`; and
`npools * pool_capacity` bytes can be more than the new pool holds (`init_regrow_misplaces_items`).

A pointer is a pool's position in the list and an offset in its buffer. A call whose C code
would write outside a buffer, or run forever, has no result (`none`); a call that returns with
a `kern_return_t` gives that code and the array it leaves. Allocations succeed and are zero-filled
(`kxld_page_alloc`).
-/

namespace Kxld

/-- The `kern_return_t` values these functions return. -/
inductive KernReturn
  | KERN_SUCCESS
  | KERN_FAILURE
  | KERN_INVALID_ARGUMENT
  | KERN_NOT_SUPPORTED
  deriving DecidableEq, Repr

open KernReturn

/-- The page size of the x86_64 kernel. -/
def PAGE_SIZE : Nat := 4096

/-- `round_page`: `(x + PAGE_MASK) & ~PAGE_MASK`. -/
def round_page (x : Nat) : Nat := (x + (PAGE_SIZE - 1)) / PAGE_SIZE * PAGE_SIZE

structure KXLDArrayPool where
  buffer : List UInt8
  nitems : Nat
  deriving DecidableEq, Repr

structure KXLDArray where
  pools : List KXLDArrayPool
  itemsize : Nat
  pool_capacity : Nat
  pool_maxitems : Nat
  nitems : Nat
  maxitems : Nat
  npools : Nat
  deriving DecidableEq, Repr

/-- A zeroed `KXLDArray`, as `bzero(array, sizeof(*array))` leaves it. -/
def KXLDArray.zero : KXLDArray := ⟨[], 0, 0, 0, 0, 0, 0⟩

/-- `pool_create`: a zero-filled buffer of `capacity` bytes. -/
def pool_create (capacity : Nat) : KXLDArrayPool := ⟨List.replicate capacity 0, 0⟩

/-- `memcpy(dst + off, src, n)` for `n = src.length`; `none` when it would leave `dst`. -/
def memcpy (dst : List UInt8) (off : Nat) (src : List UInt8) : Option (List UInt8) :=
  if off + src.length ≤ dst.length then
    some (dst.take off ++ src ++ dst.drop (off + src.length))
  else none

/-- The `n` bytes at `off` of `buf`; `none` when they are not all inside it. -/
def readBytes (buf : List UInt8) (off n : Nat) : Option (List UInt8) :=
  if off + n ≤ buf.length then some ((buf.drop off).take n) else none

def kxld_array_reset (array : KXLDArray) : KXLDArray :=
  { array with pools := array.pools.map fun pool => { pool with nitems := 0 }, nitems := 0 }

def kxld_array_clear (array : KXLDArray) : KXLDArray :=
  let array := kxld_array_reset array
  { array with
    pools := array.pools.map fun pool => { pool with buffer := List.replicate array.pool_capacity 0 } }

/-- `kxld_array_deinit`: the pools are freed and the structure zeroed. -/
def kxld_array_deinit (_ : KXLDArray) : KXLDArray := KXLDArray.zero

/-- The loop of `reinit_pools`: full pools while items remain, then the rest, then empty ones;
returns the pools and the items that did not fit. -/
def reinitLoop (pool_maxitems : Nat) : List KXLDArrayPool → Nat → List KXLDArrayPool × Nat
  | [], pool_nitems => ([], pool_nitems)
  | pool :: pools, pool_nitems =>
    if pool_nitems > pool_maxitems then
      let (pools, rest) := reinitLoop pool_maxitems pools (pool_nitems - pool_maxitems)
      ({ pool with nitems := pool_maxitems } :: pools, rest)
    else
      let (pools, rest) := reinitLoop pool_maxitems pools 0
      ({ pool with nitems := pool_nitems } :: pools, rest)

def reinit_pools (array : KXLDArray) (nitems : Nat) : KXLDArray × Nat :=
  let (pools, rest) := reinitLoop array.pool_maxitems array.pools nitems
  ({ array with pools := pools, nitems := nitems }, rest)

/-- `array_init`, for an array with no pool or exactly one. -/
def array_init (array : KXLDArray) (itemsize nitems : Nat) : KernReturn × KXLDArray :=
  if itemsize = 0 then (KERN_INVALID_ARGUMENT, array)
  else if array.npools ≥ 2 then (KERN_INVALID_ARGUMENT, array)
  else
    let array := { array with itemsize := itemsize }
    let made : Option KXLDArray :=
      match array.pools with
      | _ :: pools =>
        if ¬ itemsize * nitems < array.pool_capacity then none
        else if array.npools ≠ 1 then none
        else some { array with
          pools := ⟨List.replicate array.pool_capacity 0, nitems⟩ :: pools }
      | [] =>
        let pool_capacity := round_page (itemsize * nitems)
        some { array with
          pool_capacity := pool_capacity,
          pools := [{ pool_create pool_capacity with nitems := nitems }] }
    match made with
    | none => (KERN_FAILURE, array)
    | some array =>
      let pool_maxitems := array.pool_capacity / itemsize
      (KERN_SUCCESS, { array with
        pool_maxitems := pool_maxitems, maxitems := pool_maxitems, nitems := nitems, npools := 1 })

/-- The copy loop of `kxld_array_init`: each old pool whole, `srcpool_capacity` bytes apart. -/
def copyPools (srcpool_capacity : Nat) : List UInt8 → Nat → List KXLDArrayPool → Option (List UInt8)
  | dst, _, [] => some dst
  | dst, offset, srcpool :: srcpools => do
    let dst ← memcpy dst offset (srcpool.buffer.take srcpool_capacity)
    copyPools srcpool_capacity dst (offset + srcpool_capacity) srcpools

def kxld_array_init (array : KXLDArray) (itemsize nitems : Nat) : Option (KernReturn × KXLDArray) :=
  if nitems = 0 then some (KERN_SUCCESS, kxld_array_reset array)
  else if itemsize = 0 then some (KERN_INVALID_ARGUMENT, kxld_array_deinit array)
  else
    -- with pools: either keep them (enough room) or set them aside and zero the array
    let kept : Option (KXLDArray × List KXLDArrayPool × Nat) :=
      if array.npools ≠ 0 then
        let pool_maxitems := array.pool_capacity / itemsize
        let array := { array with
          pool_maxitems := pool_maxitems, maxitems := pool_maxitems * array.pools.length }
        if array.maxitems < nitems then some (KXLDArray.zero, array.pools, array.pool_capacity)
        else
          let (array, rest) := reinit_pools array nitems
          if rest ≠ 0 then none else some (array, [], 0)
      else some (array, [], 0)
    match kept with
    | none => some (KERN_FAILURE, kxld_array_deinit array)
    | some (array, srcpools, srcpool_capacity) =>
      let array := { array with itemsize := itemsize }
      if array.maxitems = 0 then
        match array_init array itemsize nitems with
        | (KERN_SUCCESS, array) =>
          match array.pools with
          | dstpool :: pools => do
            let buffer ← copyPools srcpool_capacity dstpool.buffer 0 srcpools
            some (KERN_SUCCESS, { array with pools := { dstpool with buffer := buffer } :: pools })
          | [] => some (KERN_FAILURE, kxld_array_deinit array)
        | (rval, array) => some (rval, kxld_array_deinit array)
      else some (KERN_SUCCESS, array)

/-- A pointer into an array: a pool's position in the list and a byte offset in its buffer. -/
structure ItemPtr where
  pool : Nat
  offset : Nat
  deriving DecidableEq, Repr

/-- The pool walk of `kxld_array_get_item`. -/
def getItemLoop (array : KXLDArray) : List KXLDArrayPool → Nat → Nat → Option ItemPtr
  | [], _, _ => none
  | pool :: pools, k, idx =>
    if idx < pool.nitems then some ⟨k, array.itemsize * idx⟩
    else getItemLoop array pools (k + 1) (idx - array.pool_maxitems)

def kxld_array_get_item (array : KXLDArray) (idx : Nat) : Option ItemPtr :=
  if idx ≥ array.nitems then none else getItemLoop array array.pools 0 idx

/-- The pool walk of `kxld_array_get_slot`: like `get_item`, against `pool_maxitems`. -/
def getSlotLoop (array : KXLDArray) : List KXLDArrayPool → Nat → Nat → Option ItemPtr
  | [], _, _ => none
  | _ :: pools, k, idx =>
    if idx < array.pool_maxitems then some ⟨k, array.itemsize * idx⟩
    else getSlotLoop array pools (k + 1) (idx - array.pool_maxitems)

def kxld_array_get_slot (array : KXLDArray) (idx : Nat) : Option ItemPtr :=
  if idx ≥ array.maxitems then none else getSlotLoop array array.pools 0 idx

/-- `kxld_array_get_index`: the pool whose buffer holds the pointer, and the item there. -/
def kxld_array_get_index (array : KXLDArray) (item : ItemPtr) : Option Nat :=
  if item.pool < array.pools.length ∧ item.offset < array.pool_capacity then
    some (item.offset / array.itemsize + item.pool * array.pool_maxitems)
  else none

/-- The growth loop of `kxld_array_resize`; `fuel` counts the pools it may still add, and a
loop that adds none (`pool_maxitems = 0`) never ends. -/
def growPools : Nat → KXLDArray → Nat → Option KXLDArray
  | 0, array, nitems => if nitems > array.maxitems then none else some array
  | fuel + 1, array, nitems =>
    if nitems > array.maxitems then
      growPools fuel { array with
        pools := array.pools ++ [pool_create array.pool_capacity],
        maxitems := array.maxitems + array.pool_maxitems, npools := array.npools + 1 } nitems
    else some array

def kxld_array_resize (array : KXLDArray) (nitems : Nat) : Option (KernReturn × KXLDArray) := do
  let array ← growPools nitems array nitems
  let (array, rest) := reinit_pools array nitems
  some (if rest = 0 then KERN_SUCCESS else KERN_FAILURE, array)

def kxld_array_remove (array : KXLDArray) (idx : Nat) : Option (KernReturn × KXLDArray) :=
  if idx ≥ array.nitems then some (KERN_SUCCESS, array)
  else if ¬ (array.npools < 2 ∨ array.nitems < array.pool_maxitems) then
    some (KERN_NOT_SUPPORTED, array)
  else
    match array.pools with
    | [] => some (KERN_FAILURE, array)
    | pool :: pools => do
      let s := array.itemsize
      -- `memmove` of the items after `idx` one place down
      let moved ← readBytes pool.buffer ((idx + 1) * s) (s * (pool.nitems - idx - 1))
      let buffer ← memcpy pool.buffer (idx * s) moved
      let pool_nitems := pool.nitems - 1
      let buffer ← memcpy buffer (pool_nitems * s) (List.replicate s 0)
      some (KERN_SUCCESS, { array with
        pools := ⟨buffer, pool_nitems⟩ :: pools, nitems := array.nitems - 1 })

/-- The copy loop of `kxld_array_copy`: `nitems * itemsize` bytes of each source pool, back to back. -/
def copyItems (itemsize : Nat) : List UInt8 → Nat → List KXLDArrayPool → Option (List UInt8)
  | dst, _, [] => some dst
  | dst, offset, srcpool :: srcpools => do
    let copysize := srcpool.nitems * itemsize
    let dst ← memcpy dst offset (srcpool.buffer.take copysize)
    copyItems itemsize dst (offset + copysize) srcpools

def kxld_array_copy (dstarray srcarray : KXLDArray) : Option (KernReturn × KXLDArray) :=
  let needed_capacity := round_page (srcarray.nitems * srcarray.itemsize)
  let current_capacity := dstarray.npools * dstarray.pool_capacity
  let dstarray :=
    if dstarray.npools > 1 ∨ needed_capacity > current_capacity then kxld_array_deinit dstarray
    else dstarray
  match array_init dstarray srcarray.itemsize srcarray.nitems with
  | (KERN_SUCCESS, dstarray) =>
    match dstarray.pools with
    | dstpool :: pools => do
      let buffer ← copyItems srcarray.itemsize dstpool.buffer 0 srcarray.pools
      some (KERN_SUCCESS, { dstarray with pools := { dstpool with buffer := buffer } :: pools })
    | [] => some (KERN_FAILURE, dstarray)
  | (rval, dstarray) => some (rval, dstarray)

/-- The `itemsize` bytes a caller reads through `kxld_array_get_item(array, idx)`. -/
def itemBytes (array : KXLDArray) (idx : Nat) : Option (List UInt8) := do
  let p ← kxld_array_get_item array idx
  let pool ← array.pools[p.pool]?
  readBytes pool.buffer p.offset array.itemsize

/-- A caller's store of `bytes` through `kxld_array_get_item(array, idx)`. -/
def setItem (array : KXLDArray) (idx : Nat) (bytes : List UInt8) : Option KXLDArray := do
  let p ← kxld_array_get_item array idx
  let pool ← array.pools[p.pool]?
  let buffer ← memcpy pool.buffer p.offset (bytes.take array.itemsize)
  some { array with pools := array.pools.set p.pool { pool with buffer := buffer } }

end Kxld

namespace Kxld

open KernReturn

/-- Items of 2100 bytes in pools of one page hold one item each, and 4096 is no multiple of 2100.
Regrowing a two-pool array to three items copies pool 1 to offset 4096 of the new pool, where
item 1 is read at offset 2100: its bytes become the zero tail of pool 0 and the head of pool 1.
Regrowing a four-pool array to five items copies 16384 bytes into a pool of `round_page(10500)
= 12288`. -/
theorem init_regrow_misplaces_items :
    ((kxld_array_init KXLDArray.zero 2100 1).bind fun (r₁, a) =>
      (kxld_array_resize a 2).bind fun (r₂, a) =>
        (setItem a 1 (List.replicate 2100 7)).bind fun a =>
          (kxld_array_init a 2100 3).map fun (r₃, a') => ([r₁, r₂, r₃], itemBytes a 1, itemBytes a' 1)) =
      some ([KERN_SUCCESS, KERN_SUCCESS, KERN_SUCCESS], some (List.replicate 2100 7),
        some (List.replicate 1996 0 ++ List.replicate 104 7)) ∧
    ((kxld_array_init KXLDArray.zero 2100 1).bind fun (r₁, a) =>
      (kxld_array_resize a 4).bind fun (r₂, a) =>
        if r₁ = KERN_SUCCESS ∧ r₂ = KERN_SUCCESS then kxld_array_init a 2100 5 else none) = none := by
  decide +kernel

end Kxld
