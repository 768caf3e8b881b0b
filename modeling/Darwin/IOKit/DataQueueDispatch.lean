import Darwin.Lib.Ring
import Darwin.Lib.Word32

/-!
# DriverKit data queues (`iokit/System/IODataQueueDispatchSourceShared.h`)

| here | there |
| --- | --- |
| `IODataQueueMemory`, `queueOffset` | `:8-14` |
| `Create_Impl` | `:72-111` |
| `Peek` | `:287-355` |
| `DequeueWithCoalesce` | `:371-466` |
| `EnqueueWithCoalesce` | `:483-610` |

A queue is one buffer of `queueByteCount` bytes shared by a producer and a consumer. It starts
with the `IODataQueueMemory` header (`head`, `tail`, `needServicedCallback` and 31 reserved
bytes) and goes on with `queue[]`, 40 bytes in. An entry is a 32-bit size word (the caller's
size) followed by the caller's bytes, rounded up to 4. When an entry does not fit before the end
the producer puts it at the start of `queue[]` and leaves the rounded size at the old tail, if 4
bytes fit there, for the consumer to see that it has to go to the start too.

Every offset is checked against `queueByteCount`, the size of the whole buffer, but taken from
`queue`, 40 bytes into it: `EnqueueWithCoalesce_writes_past_buffer` shows an enqueue that the
checks admit storing past the end of the buffer, where other owners may overwrite the entry
before it is dequeued (`dequeued_entry_clobbered`). For runs whose entries stay inside the buffer
the FIFO is sound whatever is written past it: `Reachable.holds` keeps the pending entries as
`Ring.Holds` lays them out in `queue[0, queueByteCount - 40)`.

The state is the header's fields and the bytes from `queue` on, as a memory `Nat → UInt8`.
The callbacks are modelled by what they do with the entry: the enqueue callback stores the bytes
`data 0, …, data (callerDataSize - 1)` at `entry->data`, and the dequeue callback gets the offset
of `entry->data` in `queue[]` and `callerDataSize`.
-/

namespace IOKit.DataQueueDispatch

open Bytes Word32

/-- The `kern_return_t` values these functions return. -/
inductive IOReturn
  | kIOReturnSuccess
  | kIOReturnBadArgument
  | kIOReturnError
  | kIOReturnUnderrun
  | kIOReturnOverrun
  deriving DecidableEq, Repr

open IOReturn

/-- `IODataQueueMemory` (`:8-14`): `head`, `tail`, `needServicedCallback`, and the bytes of
`queue[]` by their offset from `queue`. -/
structure IODataQueueMemory where
  head : UInt32
  tail : UInt32
  needServicedCallback : Bool
  queue : Nat → UInt8

/-- `offsetof (IODataQueueMemory, queue)`: `head`, `tail`, `needServicedCallback`, `_resv[31]`. -/
def queueOffset : Nat := 4 + 4 + 1 + 31

/-- `DATA_QUEUE_ENTRY_HEADER_SIZE` (`:6`): `sizeof (IODataQueueEntry)`, the size word. -/
def DATA_QUEUE_ENTRY_HEADER_SIZE : UInt32 := 4

def UINT32_MAX : UInt32 := 4294967295

/-- `UINT_MAX`, the bound `Create_Impl` puts on a `uint64_t` byte count. -/
def UINT_MAX : UInt64 := 4294967295

/-- `os_add_overflow (a, b, &r)` on `uint32_t`: the sum, or `none` when it does not fit. -/
def os_add_overflow (a b : UInt32) : Option UInt32 :=
  if a.toNat + b.toNat < 2 ^ 32 then some (a + b) else none

/-- The size word `((IODataQueueEntry *)(queue + off))->size`. -/
def sizeAt (queue : Nat → UInt8) (off : UInt32) : UInt32 := (rd 4 queue off.toNat).toUInt32

/-- `entry->size = v` for the entry at `off`. -/
def setSize (queue : Nat → UInt8) (off : UInt32) (v : UInt32) : Nat → UInt8 :=
  wr queue off.toNat (le 4 v.toNat)

/-- `Create_Impl` (`:72-111`): the byte counts it accepts; the allocations are taken to
succeed. -/
def Create_Impl (queueByteCount : UInt64) : IOReturn :=
  if 3 &&& queueByteCount ≠ 0 then kIOReturnBadArgument
  else if queueByteCount > UINT_MAX then kIOReturnBadArgument
  else kIOReturnSuccess

/-- The test by which `Peek` and `DequeueWithCoalesce` find that there is no room at
`headOffset` for the header or for the header and `headSize` bytes, so that the entry is at the
start of the queue (`:322-325`, `:410-414`). -/
def wrapTest (queueSize headOffset headSize : UInt32) : Bool :=
  headOffset > UINT32_MAX - DATA_QUEUE_ENTRY_HEADER_SIZE ||
    headOffset + DATA_QUEUE_ENTRY_HEADER_SIZE > queueSize ||
    headOffset + DATA_QUEUE_ENTRY_HEADER_SIZE > UINT32_MAX - headSize ||
    headOffset + headSize + DATA_QUEUE_ENTRY_HEADER_SIZE > queueSize

/-- What `DequeueWithCoalesce` does: its return code, what the callback gets (as for `Peek`),
`*sendDataServiced`, and the shared memory after. -/
structure Dequeued where
  ret : IOReturn
  callback : Option (Nat × UInt32)
  sendDataServiced : Bool
  dq : IODataQueueMemory

/-- The end of a successful dequeue (`:448-455`): the callback gets the entry at `entry`, then
`head` moves on. -/
def dequeued (dq : IODataQueueMemory) (entry callerDataSize newHeadOffset : UInt32) : Dequeued :=
  ⟨kIOReturnSuccess, some (entry.toNat + 4, callerDataSize), dq.needServicedCallback,
    { dq with head := newHeadOffset }⟩

/-- `DequeueWithCoalesce` (`:371-466`). -/
def DequeueWithCoalesce (queueByteCount : UInt32) (dq : IODataQueueMemory) : Dequeued :=
  let headOffset := dq.head
  let tailOffset := dq.tail
  if headOffset ≠ tailOffset then
    let queueSize := queueByteCount
    if headOffset > queueSize then ⟨kIOReturnError, none, false, dq⟩
    else
      let callerDataSize := sizeAt dq.queue headOffset
      match os_add_overflow 3 callerDataSize with
      | none => ⟨kIOReturnError, none, false, dq⟩
      | some headSize =>
        let headSize := headSize &&& ~~~3
        if wrapTest queueSize headOffset headSize then
          let callerDataSize := sizeAt dq.queue 0
          match os_add_overflow callerDataSize 3 with
          | none => ⟨kIOReturnError, none, false, dq⟩
          | some dataSize =>
            let dataSize := dataSize &&& ~~~3
            if dataSize > UINT32_MAX - DATA_QUEUE_ENTRY_HEADER_SIZE ||
                dataSize + DATA_QUEUE_ENTRY_HEADER_SIZE > queueSize then
              ⟨kIOReturnError, none, false, dq⟩
            else dequeued dq 0 callerDataSize (dataSize + DATA_QUEUE_ENTRY_HEADER_SIZE)
        else
          if headSize > UINT32_MAX - DATA_QUEUE_ENTRY_HEADER_SIZE ||
              headSize + DATA_QUEUE_ENTRY_HEADER_SIZE > UINT32_MAX - headOffset ||
              headSize + DATA_QUEUE_ENTRY_HEADER_SIZE + headOffset > queueSize then
            ⟨kIOReturnError, none, false, dq⟩
          else
            dequeued dq headOffset callerDataSize
              (headOffset + headSize + DATA_QUEUE_ENTRY_HEADER_SIZE)
  else ⟨kIOReturnUnderrun, none, dq.needServicedCallback, dq⟩

/-- What `EnqueueWithCoalesce` does: its return code, `*sendDataAvailable`, and the shared memory
after. -/
structure Enqueued where
  ret : IOReturn
  sendDataAvailable : Bool
  dq : IODataQueueMemory

/-- The entry at `off`: the callback's `callerDataSize` bytes at `entry->data`, then
`entry->size = callerDataSize`. -/
def putEntry (queue : Nat → UInt8) (off callerDataSize : UInt32) (data : Nat → UInt8) :
    Nat → UInt8 :=
  setSize (wr queue (off.toNat + 4) (bytes data 0 callerDataSize.toNat)) off callerDataSize

/-- `EnqueueWithCoalesce` (`:483-610`); sequentially, the second read of `head` sees the first. -/
def EnqueueWithCoalesce (queueByteCount : UInt32) (dq : IODataQueueMemory)
    (callerDataSize : UInt32) (data : Nat → UInt8) : Enqueued :=
  let queueSize := queueByteCount
  let tail := dq.tail
  let head := dq.head
  -- publish the new tail (`:585-601`)
  let published (queue : Nat → UInt8) (newTail : UInt32) : Enqueued :=
    ⟨kIOReturnSuccess, tail == head, { dq with queue := queue, tail := newTail }⟩
  -- the queue is full: ask to be told of the next dequeue (`:602-606`)
  let overrun : Enqueued := ⟨kIOReturnOverrun, true, { dq with needServicedCallback := true }⟩
  match os_add_overflow callerDataSize 3 with
  | none => ⟨kIOReturnOverrun, false, dq⟩
  | some dataSize =>
    let dataSize := dataSize &&& ~~~3
    match os_add_overflow DATA_QUEUE_ENTRY_HEADER_SIZE dataSize with
    | none => ⟨kIOReturnOverrun, false, dq⟩
    | some entrySize =>
      if queueSize < tail || queueSize < head then ⟨kIOReturnUnderrun, false, dq⟩
      else if tail ≥ head then
        if entrySize ≤ UINT32_MAX - tail && tail + entrySize ≤ queueSize then
          published (putEntry dq.queue tail callerDataSize data) (tail + entrySize)
        else if head > entrySize then
          let queue := putEntry dq.queue 0 callerDataSize data
          -- the rounded size at the old tail, when the size word fits there
          let queue := if queueSize - tail ≥ DATA_QUEUE_ENTRY_HEADER_SIZE then
            setSize queue tail dataSize else queue
          published queue entrySize
        else overrun
      else if head - tail > entrySize then
        published (putEntry dq.queue tail callerDataSize data) (tail + entrySize)
      else overrun

/-! ## The arithmetic of the guards -/

@[simp] theorem toNat_UINT32_MAX : UINT32_MAX.toNat = 4294967295 := rfl

@[simp] theorem toNat_DATA_QUEUE_ENTRY_HEADER_SIZE : DATA_QUEUE_ENTRY_HEADER_SIZE.toNat = 4 := rfl

theorem os_add_overflow_eq_some {a b c : UInt32} :
    os_add_overflow a b = some c ↔ a.toNat + b.toNat < 2 ^ 32 ∧ c.toNat = a.toNat + b.toNat := by
  unfold os_add_overflow
  split
  · rename_i h
    simp only [Option.some.injEq, h, true_and]
    constructor
    · rintro rfl
      rw [UInt32.toNat_add]
      omega
    · intro hc
      apply UInt32.toNat_inj.mp
      rw [hc, UInt32.toNat_add]
      omega
  · rename_i h
    simp only [reduceCtorEq, false_iff, not_and]
    intro h'
    omega

theorem os_add_overflow_eq_none {a b : UInt32} :
    os_add_overflow a b = none ↔ 2 ^ 32 ≤ a.toNat + b.toNat := by
  unfold os_add_overflow
  split <;> simp <;> omega

/-- The space an entry of `n` bytes takes after its size word: `n` rounded up to 4. -/
def roundUp4 (n : Nat) : Nat := (n + 3) / 4 * 4

theorem le_roundUp4 (n : Nat) : n ≤ roundUp4 n := by
  unfold roundUp4
  omega

/-- `(n + 3) & ~3U`, when the sum does not wrap, is `roundUp4 n`. -/
theorem toNat_round {n s : UInt32} (h : os_add_overflow 3 n = some s ∨ os_add_overflow n 3 = some s) :
    (s &&& ~~~3).toNat = roundUp4 n.toNat := by
  have h3 : (3 : UInt32).toNat = 3 := rfl
  rw [toNat_and_not_three, roundUp4]
  rcases h with h | h <;>
  · obtain ⟨-, hs⟩ := os_add_overflow_eq_some.mp h
    omega

/-- `wrapTest` is the test that the header and `headSize` bytes do not fit before `queueSize`,
made without wrapping. -/
theorem wrapTest_iff {queueSize headOffset headSize : UInt32} :
    wrapTest queueSize headOffset headSize = true ↔
      queueSize.toNat < headOffset.toNat + 4 + headSize.toNat := by
  rw [wrapTest, fit_test_iff toNat_UINT32_MAX (by decide), toNat_DATA_QUEUE_ENTRY_HEADER_SIZE]

/-! ## Size words -/

theorem sizeAt_setSize (queue : Nat → UInt8) (off v : UInt32) : sizeAt (setSize queue off v) off = v := by
  have h4 : (256 : Nat) ^ 4 = 2 ^ 32 := rfl
  apply UInt32.toNat_inj.mp
  rw [sizeAt, setSize, rd_wr_le, UInt32.toNat_ofNat', h4, Nat.mod_mod, Nat.mod_eq_of_lt v.toNat_lt]

/-- A size word depends only on its four bytes. -/
theorem sizeAt_congr {queue queue' : Nat → UInt8} {off : UInt32}
    (h : ∀ i, off.toNat ≤ i → i < off.toNat + 4 → queue i = queue' i) :
    sizeAt queue off = sizeAt queue' off := by
  rw [sizeAt, sizeAt, rd_congr h]

theorem toNat_sizeAt (queue : Nat → UInt8) (off : UInt32) :
    (sizeAt queue off).toNat = rd 4 queue off.toNat := by
  have h4 : (256 : Nat) ^ 4 = 2 ^ 32 := rfl
  rw [sizeAt, UInt32.toNat_ofNat', Nat.mod_eq_of_lt (h4 ▸ rd_lt 4 queue off.toNat)]

theorem setSize_of_disjoint {queue : Nat → UInt8} {off : UInt32} {i : Nat} (v : UInt32)
    (h : i < off.toNat ∨ off.toNat + 4 ≤ i) : setSize queue off v i = queue i := by
  rcases h with h | h
  · exact wr_of_lt _ h
  · exact wr_of_ge (by simpa using h)

theorem putEntry_of_disjoint {queue : Nat → UInt8} {off c : UInt32} {data : Nat → UInt8} {i : Nat}
    (h : i < off.toNat ∨ off.toNat + 4 + c.toNat ≤ i) : putEntry queue off c data i = queue i := by
  have hne : i < off.toNat ∨ off.toNat + 4 ≤ i := by omega
  rw [putEntry, setSize_of_disjoint c hne]
  rcases h with h | h
  · exact wr_of_lt _ (by omega)
  · exact wr_of_ge (by simpa using h)

/-- An entry written at `off` is a record there, when it fits. -/
theorem putEntry_records (queueSize : Nat) (queue : Nat → UInt8) (off c : UInt32) (data : Nat → UInt8)
    (hfit : off.toNat + 4 + roundUp4 c.toNat ≤ queueSize) :
    Ring.Records 4 roundUp4 queueSize (putEntry queue off c data) off.toNat [bytes data 0 c.toNat]
      (off.toNat + 4 + roundUp4 c.toNat) := by
  have hlen : (bytes data 0 c.toNat).length = c.toNat := length_bytes _ _ _
  rw [show roundUp4 c.toNat = roundUp4 (bytes data 0 c.toNat).length by rw [hlen]]
  refine Ring.Records.single ?_ ?_ ?_
  · rw [hlen, putEntry, setSize, rd_wr_le]
    exact Nat.mod_eq_of_lt (by have := c.toNat_lt; exact Nat.lt_of_lt_of_le this (by decide))
  · have hw := bytes_wr queue (off.toNat + 4) (bytes data 0 c.toNat)
    rw [hlen] at hw
    rw [hlen, putEntry, setSize, bytes_wr_of_disjoint (.inr (by simp)), hw]
  · rwa [hlen]

/-! ## What one enqueue does -/

/-- The three ways `EnqueueWithCoalesce` stores an entry of `callerDataSize` bytes and moves the
tail to `t'`: at the tail, before the end; at the start, leaving the rounded size `dataSize` at
the old tail when the word fits there; at the tail, short of the head. -/
inductive Stored (queueByteCount : UInt32) (dq : IODataQueueMemory) (callerDataSize : UInt32)
    (data : Nat → UInt8) : IODataQueueMemory → Prop
  | atEnd (t' : UInt32) : dq.head ≤ dq.tail →
      t'.toNat = dq.tail.toNat + 4 + roundUp4 callerDataSize.toNat → t' ≤ queueByteCount →
      Stored queueByteCount dq callerDataSize data
        { dq with queue := putEntry dq.queue dq.tail callerDataSize data, tail := t' }
  | wrapped (t' dataSize : UInt32) : dq.head ≤ dq.tail → dq.tail ≤ queueByteCount →
      dataSize.toNat = roundUp4 callerDataSize.toNat → t'.toNat = 4 + dataSize.toNat →
      queueByteCount.toNat < dq.tail.toNat + t'.toNat → t' < dq.head →
      Stored queueByteCount dq callerDataSize data
        { dq with
          queue := if queueByteCount - dq.tail ≥ DATA_QUEUE_ENTRY_HEADER_SIZE then
            setSize (putEntry dq.queue 0 callerDataSize data) dq.tail dataSize
          else putEntry dq.queue 0 callerDataSize data,
          tail := t' }
  | behind (t' : UInt32) : dq.tail < dq.head →
      t'.toNat = dq.tail.toNat + 4 + roundUp4 callerDataSize.toNat → t' < dq.head →
      Stored queueByteCount dq callerDataSize data
        { dq with queue := putEntry dq.queue dq.tail callerDataSize data, tail := t' }

/-- An enqueue either stores the entry and succeeds, or fails and changes nothing but
`needServicedCallback`. -/
theorem EnqueueWithCoalesce_cases (queueByteCount : UInt32) (dq : IODataQueueMemory)
    (callerDataSize : UInt32) (data : Nat → UInt8) :
    ((EnqueueWithCoalesce queueByteCount dq callerDataSize data).ret ≠ kIOReturnSuccess ∧
        (EnqueueWithCoalesce queueByteCount dq callerDataSize data).dq =
          { dq with needServicedCallback :=
            (EnqueueWithCoalesce queueByteCount dq callerDataSize data).dq.needServicedCallback }) ∨
      ((EnqueueWithCoalesce queueByteCount dq callerDataSize data).ret = kIOReturnSuccess ∧
        dq.head ≤ queueByteCount ∧
        Stored queueByteCount dq callerDataSize data
          (EnqueueWithCoalesce queueByteCount dq callerDataSize data).dq) := by
  unfold EnqueueWithCoalesce
  rcases h₁ : os_add_overflow callerDataSize 3 with _ | s₁
  · exact .inl ⟨by simp, rfl⟩
  simp only
  rcases h₂ : os_add_overflow DATA_QUEUE_ENTRY_HEADER_SIZE (s₁ &&& ~~~3) with _ | entrySize
  · exact .inl ⟨by simp, rfl⟩
  have hd : (s₁ &&& ~~~3).toNat = roundUp4 callerDataSize.toNat := toNat_round (.inr h₁)
  obtain ⟨-, he⟩ := os_add_overflow_eq_some.mp h₂
  rw [toNat_DATA_QUEUE_ENTRY_HEADER_SIZE, hd] at he
  simp only
  by_cases hq : queueByteCount < dq.tail || queueByteCount < dq.head
  · rw [if_pos hq]
    exact .inl ⟨by simp, rfl⟩
  rw [if_neg hq]
  simp only [Bool.or_eq_true, decide_eq_true_eq, not_or, UInt32.not_lt] at hq
  by_cases ht : dq.tail ≥ dq.head
  · rw [if_pos ht]
    by_cases hfit : entrySize ≤ UINT32_MAX - dq.tail && dq.tail + entrySize ≤ queueByteCount
    · -- room at the end
      rw [if_pos hfit]
      simp only [Bool.and_eq_true, decide_eq_true_eq, UInt32.le_iff_toNat_le, UInt32.toNat_add,
        UInt32.toNat_sub, toNat_UINT32_MAX] at hfit
      have htl := dq.tail.toNat_lt
      refine .inr ⟨rfl, hq.2, .atEnd _ ht ?_ ?_⟩
      · rw [UInt32.toNat_add]
        omega
      · rw [UInt32.le_iff_toNat_le, UInt32.toNat_add]
        omega
    rw [if_neg hfit]
    by_cases hroom : dq.head > entrySize
    · -- room at the start
      rw [if_pos hroom]
      simp only [Bool.and_eq_true, decide_eq_true_eq, not_and, UInt32.le_iff_toNat_le,
        UInt32.toNat_add, UInt32.toNat_sub, toNat_UINT32_MAX] at hfit
      have htl := dq.tail.toNat_lt
      have hql := queueByteCount.toNat_lt
      refine .inr ⟨rfl, hq.2, .wrapped _ _ ht hq.1 hd (by omega) ?_ hroom⟩
      rw [UInt32.le_iff_toNat_le] at hq
      by_cases h : entrySize.toNat ≤ 4294967295 - dq.tail.toNat
      · have := hfit (by omega)
        omega
      · omega
    rw [if_neg hroom]
    exact .inl ⟨by simp, rfl⟩
  · rw [if_neg ht]
    by_cases hroom : dq.head - dq.tail > entrySize
    · -- room between the tail and the head
      rw [if_pos hroom]
      have ht' : dq.tail < dq.head := by
        rw [ge_iff_le, UInt32.le_iff_toNat_le] at ht
        rw [UInt32.lt_iff_toNat_lt]
        omega
      rw [gt_iff_lt, UInt32.lt_iff_toNat_lt, UInt32.toNat_sub_of_le _ _ (UInt32.le_of_lt ht')] at hroom
      refine .inr ⟨rfl, hq.2, .behind _ ht' ?_ ?_⟩
      · rw [UInt32.toNat_add]
        rw [UInt32.lt_iff_toNat_lt] at ht'
        have := dq.head.toNat_lt
        omega
      · rw [UInt32.lt_iff_toNat_lt, UInt32.toNat_add]
        rw [UInt32.lt_iff_toNat_lt] at ht'
        have := dq.head.toNat_lt
        omega
    rw [if_neg hroom]
    exact .inl ⟨by simp, rfl⟩

/-- An enqueue writes nothing the consumer may still read. -/
theorem Stored.keeps_live {queueByteCount callerDataSize : UInt32} {dq dq' : IODataQueueMemory}
    {data : Nat → UInt8} (hs : Stored queueByteCount dq callerDataSize data dq') :
    ∀ i, Ring.Live dq.head.toNat dq.tail.toNat i → dq.queue i = dq'.queue i := by
  intro i hi
  cases hs with
  | atEnd t' hle ht' _ =>
    rw [UInt32.le_iff_toNat_le] at hle
    simp only [Ring.Live, if_pos hle] at hi
    exact (putEntry_of_disjoint (.inl hi.2)).symm
  | wrapped t' dataSize hle _ hd ht' _ hlt =>
    rw [UInt32.le_iff_toNat_le] at hle
    rw [UInt32.lt_iff_toNat_lt] at hlt
    have := le_roundUp4 callerDataSize.toNat
    simp only [Ring.Live, if_pos hle] at hi
    -- the entry goes below the head, the rounded size at the tail
    have hentry : putEntry dq.queue 0 callerDataSize data i = dq.queue i :=
      putEntry_of_disjoint (.inr (by simp only [UInt32.toNat_zero]; omega))
    simp only
    split
    · rw [setSize_of_disjoint _ (.inl hi.2), hentry]
    · rw [hentry]
  | behind t' hlt ht' hlt' =>
    rw [UInt32.lt_iff_toNat_lt] at hlt hlt'
    have := le_roundUp4 callerDataSize.toNat
    simp only [Ring.Live, if_neg (Nat.not_le.mpr hlt)] at hi
    exact (putEntry_of_disjoint (by omega)).symm

/-! ## The pending entries -/

/-- At offset `e` the consumer does not take an entry: the size word there overflows when
rounded, or `wrapTest` sends it to the start of the queue. -/
def Skips (queueSize : UInt32) (queue : Nat → UInt8) (e : Nat) : Prop :=
  e < 2 ^ 32 ∧ ∀ headSize, os_add_overflow 3 (sizeAt queue e.toUInt32) = some headSize →
    wrapTest queueSize e.toUInt32 (headSize &&& ~~~3) = true

/-- The bytes of `queue[]` that the buffer holds: `queueByteCount` less the header. -/
def bufferBytes (queueByteCount : UInt32) : Nat := queueByteCount.toNat - queueOffset

/-- The consumer wraps at `e`, and reads the size word there from inside the buffer. -/
def SkipsIn (queueByteCount : UInt32) (queue : Nat → UInt8) (e : Nat) : Prop :=
  Skips queueByteCount queue e ∧ e + 4 ≤ bufferBytes queueByteCount

/-- The queue `dq` of `queueByteCount` bytes holds the pending entries `es`, oldest first, inside
the buffer: each is its size word and its bytes, and takes `4 + roundUp4` of its length in
`queue[0, bufferBytes)`. -/
def Holds (queueByteCount : UInt32) (dq : IODataQueueMemory) (es : List (List UInt8)) : Prop :=
  Ring.Holds 4 roundUp4 (bufferBytes queueByteCount) (SkipsIn queueByteCount) dq.queue
    dq.head.toNat dq.tail.toNat es

/-- The consumer's test at `e` reads only the size word there. -/
theorem Skips.congr {queueSize : UInt32} {queue queue' : Nat → UInt8} {e : Nat}
    (h : ∀ i, e ≤ i → i < e + 4 → queue i = queue' i) (hs : Skips queueSize queue e) :
    Skips queueSize queue' e := by
  obtain ⟨he, hw⟩ := hs
  refine ⟨he, ?_⟩
  rw [← sizeAt_congr fun i hi hi' => h i (by rwa [toNat_toUInt32_of_lt he] at hi)
    (by rwa [toNat_toUInt32_of_lt he] at hi')]
  exact hw

theorem SkipsIn.congr {queueSize : UInt32} {queue queue' : Nat → UInt8} {e : Nat}
    (h : ∀ i, e ≤ i → i < bufferBytes queueSize → queue i = queue' i)
    (hs : SkipsIn queueSize queue e) : SkipsIn queueSize queue' e :=
  ⟨hs.1.congr fun i hi hi' => h i hi (by have := hs.2; omega), hs.2⟩

/-- A ring inside the buffer is a ring inside `queue[0, queueByteCount)`, where the consumer's
checks are made. -/
theorem Holds.toQueue {queueByteCount : UInt32} {dq : IODataQueueMemory} {es : List (List UInt8)}
    (hh : Holds queueByteCount dq es) :
    Ring.Holds 4 roundUp4 queueByteCount.toNat (Skips queueByteCount) dq.queue dq.head.toNat
      dq.tail.toNat es :=
  Ring.Holds.mono (Nat.sub_le _ _) (fun _ _ h => h.1) hh

/-- The rounded size that a wrapping enqueue leaves at the old tail makes the consumer wrap
there; so does a tail too close to the end for the word. -/
theorem skips_of_wrapped {queueByteCount tail dataSize t' : UInt32} {queue : Nat → UInt8}
    {callerDataSize : UInt32} (hle : tail ≤ queueByteCount)
    (hd : dataSize.toNat = roundUp4 callerDataSize.toNat) (ht' : t'.toNat = 4 + dataSize.toNat)
    (hover : queueByteCount.toNat < tail.toNat + t'.toNat) :
    Skips queueByteCount
      (if queueByteCount - tail ≥ DATA_QUEUE_ENTRY_HEADER_SIZE then setSize queue tail dataSize
        else queue) tail.toNat := by
  have htl := tail.toNat_lt
  have hql := queueByteCount.toNat_lt
  rw [UInt32.le_iff_toNat_le] at hle
  refine ⟨htl, fun headSize hov => ?_⟩
  rw [toUInt32_toNat] at hov ⊢
  rw [wrapTest_iff]
  split at hov
  · -- the word is there: its rounding is itself
    rw [sizeAt_setSize] at hov
    rw [toNat_round (.inl hov)]
    have : roundUp4 dataSize.toNat = dataSize.toNat := by
      rw [hd]
      unfold roundUp4
      omega
    omega
  · rename_i hroom
    rw [ge_iff_le, UInt32.le_iff_toNat_le, UInt32.toNat_sub_of_le _ _ (UInt32.le_iff_toNat_le.mpr hle),
      toNat_DATA_QUEUE_ENTRY_HEADER_SIZE] at hroom
    omega

/-- A successful enqueue whose entry ends inside the buffer, and whose wrap leaves the size word
at the old tail inside it too, appends its entry to the pending ones. -/
theorem Stored.holds {queueByteCount callerDataSize : UInt32} {dq dq' : IODataQueueMemory}
    {data : Nat → UInt8} {es : List (List UInt8)} (hs : Stored queueByteCount dq callerDataSize data dq')
    (hin : dq'.tail.toNat ≤ bufferBytes queueByteCount)
    (hwrap : dq'.tail < dq.tail → dq.tail.toNat + 4 ≤ bufferBytes queueByteCount)
    (hh : Holds queueByteCount dq es) :
    Holds queueByteCount dq' (es ++ [bytes data 0 callerDataSize.toNat]) := by
  have hlive := hs.keeps_live
  have hpad : ∀ n, n ≤ roundUp4 n := le_roundUp4
  have hframe : ∀ mem mem' e, (∀ i, e ≤ i → mem i = mem' i) →
      SkipsIn queueByteCount mem e → SkipsIn queueByteCount mem' e :=
    fun _ _ _ h hs => hs.congr fun i hi _ => h i hi
  cases hs with
  | atEnd t' hle ht' hq =>
    have hh' := hh.congr hpad hframe hlive
    rw [UInt32.le_iff_toNat_le] at hle
    unfold Holds
    rw [ht']
    exact hh'.push_end hle (putEntry_records _ _ _ _ _ (by simp only at hin; omega))
  | wrapped t' dataSize hle htq hd ht' hover hlt =>
    have hh' := hh.congr hpad hframe hlive
    rw [UInt32.le_iff_toNat_le] at hle
    rw [UInt32.lt_iff_toNat_lt] at hlt
    simp only at hin hwrap
    have hhq := hh.le_cap.1
    -- the wrap point is the old tail, where the size word stays inside the buffer
    have hmark : dq.tail.toNat + 4 ≤ bufferBytes queueByteCount :=
      hwrap (by rw [UInt32.lt_iff_toNat_lt]; omega)
    have hr := putEntry_records (bufferBytes queueByteCount) dq.queue 0 callerDataSize data
      (by simp only [UInt32.toNat_zero]; omega)
    simp only [UInt32.toNat_zero, Nat.zero_add] at hr
    -- the rounded size at the old tail is past the new entry
    have hr' : Ring.Records 4 roundUp4 (bufferBytes queueByteCount)
        (if queueByteCount - dq.tail ≥ DATA_QUEUE_ENTRY_HEADER_SIZE then
          setSize (putEntry dq.queue 0 callerDataSize data) dq.tail dataSize
        else putEntry dq.queue 0 callerDataSize data) 0 [bytes data 0 callerDataSize.toNat]
        (4 + roundUp4 callerDataSize.toNat) := by
      split
      · exact hr.congr hpad fun i _ hi => (setSize_of_disjoint _ (.inl (by omega))).symm
      · exact hr
    unfold Holds
    rw [ht', hd]
    exact hh'.push_wrap hle ⟨skips_of_wrapped htq hd ht' hover, hmark⟩ hr' (by omega)
  | behind t' hlt ht' hlt' =>
    have hh' := hh.congr hpad hframe hlive
    rw [UInt32.lt_iff_toNat_lt] at hlt hlt'
    unfold Holds
    rw [ht'] at hlt' ⊢
    exact hh'.push_behind hlt (putEntry_records _ _ _ _ _ (by have := (hh.le_cap).1; omega)) hlt'

/-- An entry that fits between the tail and the end, when the tail is not behind the head,
goes there. -/
theorem EnqueueWithCoalesce_of_fits {queueByteCount callerDataSize : UInt32} {dq : IODataQueueMemory}
    (data : Nat → UInt8) (hle : dq.head ≤ dq.tail)
    (hfit : dq.tail.toNat + 4 + roundUp4 callerDataSize.toNat ≤ queueByteCount.toNat) :
    ∃ t' : UInt32, t'.toNat = dq.tail.toNat + 4 + roundUp4 callerDataSize.toNat ∧
      EnqueueWithCoalesce queueByteCount dq callerDataSize data =
        ⟨kIOReturnSuccess, dq.tail == dq.head,
          { dq with queue := putEntry dq.queue dq.tail callerDataSize data, tail := t' }⟩ := by
  have hl := le_roundUp4 callerDataSize.toNat
  have hql := queueByteCount.toNat_lt
  have h3 : (3 : UInt32).toNat = 3 := rfl
  have hov₁ : os_add_overflow callerDataSize 3 = some (callerDataSize + 3) :=
    os_add_overflow_eq_some.mpr ⟨by omega, by rw [UInt32.toNat_add]; omega⟩
  have hd := toNat_round (.inr hov₁)
  have he : (DATA_QUEUE_ENTRY_HEADER_SIZE + (callerDataSize + 3 &&& ~~~3)).toNat =
      4 + roundUp4 callerDataSize.toNat := by
    rw [UInt32.toNat_add, hd, toNat_DATA_QUEUE_ENTRY_HEADER_SIZE]
    omega
  have hov₂ : os_add_overflow DATA_QUEUE_ENTRY_HEADER_SIZE (callerDataSize + 3 &&& ~~~3) =
      some (DATA_QUEUE_ENTRY_HEADER_SIZE + (callerDataSize + 3 &&& ~~~3)) :=
    os_add_overflow_eq_some.mpr
      ⟨by rw [toNat_DATA_QUEUE_ENTRY_HEADER_SIZE, hd]; omega,
        by rw [he, toNat_DATA_QUEUE_ENTRY_HEADER_SIZE, hd]⟩
  refine ⟨dq.tail + (DATA_QUEUE_ENTRY_HEADER_SIZE + (callerDataSize + 3 &&& ~~~3)), ?_, ?_⟩
  · rw [UInt32.toNat_add, he]
    omega
  rw [UInt32.le_iff_toNat_le] at hle
  unfold EnqueueWithCoalesce
  simp only [hov₁, hov₂]
  rw [if_neg (by simp only [Bool.or_eq_true, decide_eq_true_eq, UInt32.lt_iff_toNat_lt]; omega),
    if_pos (UInt32.le_iff_toNat_le.mpr hle), if_pos]
  have := dq.tail.toNat_lt
  simp only [Bool.and_eq_true, decide_eq_true_eq, UInt32.le_iff_toNat_le, UInt32.toNat_add,
    UInt32.toNat_sub, toNat_UINT32_MAX, he]
  omega

/-! ## What one dequeue does -/

/-- The consumer at a record takes it and moves past its rounded size. -/
theorem DequeueWithCoalesce_at_record {queueByteCount : UInt32} {dq : IODataQueueMemory}
    {r : List UInt8} {q : Nat} (hne : dq.head ≠ dq.tail)
    (hr : Ring.Records 4 roundUp4 queueByteCount.toNat dq.queue dq.head.toNat [r] q) :
    (sizeAt dq.queue dq.head).toNat = r.length ∧
      ∃ newHead : UInt32, newHead.toNat = dq.head.toNat + 4 + roundUp4 r.length ∧
        DequeueWithCoalesce queueByteCount dq =
          dequeued dq dq.head (sizeAt dq.queue dq.head) newHead := by
  obtain ⟨hw, -, hfit, -⟩ := Ring.Records.cons_iff.mp hr
  have hsz : (sizeAt dq.queue dq.head).toNat = r.length := by rw [toNat_sizeAt]; exact hw
  have hl := le_roundUp4 r.length
  have hql := queueByteCount.toNat_lt
  have h3 : (3 : UInt32).toNat = 3 := rfl
  have hov : os_add_overflow 3 (sizeAt dq.queue dq.head) = some (3 + sizeAt dq.queue dq.head) :=
    os_add_overflow_eq_some.mpr ⟨by omega, by rw [UInt32.toNat_add, hsz]; omega⟩
  have hround := toNat_round (.inl hov)
  rw [hsz] at hround
  refine ⟨hsz, dq.head + (3 + sizeAt dq.queue dq.head &&& ~~~3) + DATA_QUEUE_ENTRY_HEADER_SIZE,
    ?_, ?_⟩
  · rw [UInt32.toNat_add, UInt32.toNat_add, hround, toNat_DATA_QUEUE_ENTRY_HEADER_SIZE]
    omega
  unfold DequeueWithCoalesce
  rw [if_pos hne, if_neg (by rw [gt_iff_lt, UInt32.lt_iff_toNat_lt]; omega)]
  simp only [hov]
  rw [if_neg (by rw [wrapTest_iff, hround]; omega)]
  rw [if_neg]
  -- the entry's own checks pass
  simp only [Bool.or_eq_true, decide_eq_true_eq, gt_iff_lt, UInt32.lt_iff_toNat_lt,
    UInt32.toNat_add, UInt32.toNat_sub, toNat_UINT32_MAX, toNat_DATA_QUEUE_ENTRY_HEADER_SIZE,
    hround]
  omega

/-- At the point where the producer wrapped, the consumer takes the record at the start, unless
the size word there overflows when rounded. -/
theorem DequeueWithCoalesce_at_skips {queueByteCount : UInt32} {dq : IODataQueueMemory}
    {r : List UInt8} {q : Nat} (hne : dq.head ≠ dq.tail) (hle : dq.head ≤ queueByteCount)
    (hs : Skips queueByteCount dq.queue dq.head.toNat)
    (hr : Ring.Records 4 roundUp4 queueByteCount.toNat dq.queue 0 [r] q) :
    DequeueWithCoalesce queueByteCount dq = ⟨kIOReturnError, none, false, dq⟩ ∨
      (sizeAt dq.queue 0).toNat = r.length ∧
        ∃ newHead : UInt32, newHead.toNat = 4 + roundUp4 r.length ∧
          DequeueWithCoalesce queueByteCount dq = dequeued dq 0 (sizeAt dq.queue 0) newHead := by
  obtain ⟨hw, -, hfit, -⟩ := Ring.Records.cons_iff.mp hr
  have hsz : (sizeAt dq.queue 0).toNat = r.length := by rw [toNat_sizeAt]; exact hw
  have hl := le_roundUp4 r.length
  have hql := queueByteCount.toNat_lt
  have h3 : (3 : UInt32).toNat = 3 := rfl
  unfold DequeueWithCoalesce
  rw [if_pos hne, if_neg (by rw [gt_iff_lt, UInt32.lt_iff_toNat_lt]; rw [UInt32.le_iff_toNat_le] at hle; omega)]
  simp only
  rcases h₁ : os_add_overflow 3 (sizeAt dq.queue dq.head) with _ | headSize
  · exact .inl rfl
  simp only
  have hwrap := hs.2 headSize (by rwa [toUInt32_toNat])
  rw [toUInt32_toNat] at hwrap
  rw [if_pos hwrap]
  have hov : os_add_overflow (sizeAt dq.queue 0) 3 = some (sizeAt dq.queue 0 + 3) :=
    os_add_overflow_eq_some.mpr ⟨by omega, by rw [UInt32.toNat_add, hsz]; omega⟩
  have hround := toNat_round (.inr hov)
  rw [hsz] at hround
  simp only [hov]
  rw [if_neg]
  · refine .inr ⟨hsz, _, ?_, rfl⟩
    rw [UInt32.toNat_add, hround, toNat_DATA_QUEUE_ENTRY_HEADER_SIZE]
    omega
  · -- the record's checks pass
    simp only [Bool.or_eq_true, decide_eq_true_eq, gt_iff_lt, UInt32.lt_iff_toNat_lt,
      UInt32.toNat_add, UInt32.toNat_sub, toNat_UINT32_MAX, toNat_DATA_QUEUE_ENTRY_HEADER_SIZE,
      hround]
    omega

/-- A dequeue fails and changes nothing, finds the queue empty, or takes an entry. -/
theorem DequeueWithCoalesce_cases (queueByteCount : UInt32) (dq : IODataQueueMemory) :
    (dq.head ≠ dq.tail ∧ DequeueWithCoalesce queueByteCount dq = ⟨kIOReturnError, none, false, dq⟩) ∨
      (dq.head = dq.tail ∧ DequeueWithCoalesce queueByteCount dq =
        ⟨kIOReturnUnderrun, none, dq.needServicedCallback, dq⟩) ∨
      (dq.head ≠ dq.tail ∧ ∃ entry callerDataSize newHead,
        DequeueWithCoalesce queueByteCount dq = dequeued dq entry callerDataSize newHead) := by
  unfold DequeueWithCoalesce
  simp only
  by_cases hne : dq.head ≠ dq.tail
  · rw [if_pos hne]
    split
    · exact .inl ⟨hne, rfl⟩
    split
    · exact .inl ⟨hne, rfl⟩
    split
    · split
      · exact .inl ⟨hne, rfl⟩
      split
      · exact .inl ⟨hne, rfl⟩
      · exact .inr (.inr ⟨hne, _, _, _, rfl⟩)
    split
    · exact .inl ⟨hne, rfl⟩
    · exact .inr (.inr ⟨hne, _, _, _, rfl⟩)
  · rw [if_neg hne]
    exact .inr (.inl ⟨not_not.mp hne, rfl⟩)

/-- `DequeueWithCoalesce` finds the queue empty exactly when `head = tail`. -/
theorem DequeueWithCoalesce_underrun_iff (queueByteCount : UInt32) (dq : IODataQueueMemory) :
    (DequeueWithCoalesce queueByteCount dq).ret = kIOReturnUnderrun ↔ dq.head = dq.tail := by
  rcases DequeueWithCoalesce_cases queueByteCount dq with ⟨hne, h⟩ | ⟨heq, h⟩ | ⟨hne, _, _, _, h⟩ <;>
    rw [h]
  · simpa using hne
  · simpa using heq
  · simpa [dequeued] using hne

/-- A dequeue that does not succeed changes nothing. -/
theorem DequeueWithCoalesce_dq_of_ne (queueByteCount : UInt32) (dq : IODataQueueMemory)
    (h : (DequeueWithCoalesce queueByteCount dq).ret ≠ kIOReturnSuccess) :
    (DequeueWithCoalesce queueByteCount dq).dq = dq := by
  rcases DequeueWithCoalesce_cases queueByteCount dq with ⟨-, h'⟩ | ⟨-, h'⟩ | ⟨-, _, _, _, h'⟩ <;>
    rw [h'] at h ⊢
  exact (h rfl).elim

/-- What the consumer does with pending entries: it hands the callback the oldest one and drops
it, or fails on the size word where the producer wrapped and changes nothing. -/
theorem DequeueWithCoalesce_spec {queueByteCount : UInt32} {dq : IODataQueueMemory}
    {r : List UInt8} {rs : List (List UInt8)} (hh : Holds queueByteCount dq (r :: rs)) :
    DequeueWithCoalesce queueByteCount dq = ⟨kIOReturnError, none, false, dq⟩ ∨
      ∃ entry newHead : UInt32, (sizeAt dq.queue entry).toNat = r.length ∧
        bytes dq.queue (entry.toNat + 4) r.length = r ∧
        DequeueWithCoalesce queueByteCount dq =
          dequeued dq entry (sizeAt dq.queue entry) newHead ∧
        Holds queueByteCount { dq with head := newHead } rs := by
  have hne : dq.head ≠ dq.tail := by
    intro heq
    have := (Ring.Holds.eq_iff_nil (by omega) hh).mp (congrArg UInt32.toNat heq)
    exact List.cons_ne_nil _ _ this
  -- the consumer's checks are against `queueByteCount`, past the buffer
  have hB : bufferBytes queueByteCount ≤ queueByteCount.toNat := Nat.sub_le _ _
  rcases hh.pop with ⟨hr, hrest⟩ | ⟨hs, hr, hrest⟩
  · obtain ⟨hsz, newHead, hnew, hdq⟩ := DequeueWithCoalesce_at_record hne (hr.mono hB)
    refine .inr ⟨dq.head, newHead, hsz, (Ring.Records.cons_iff.mp hr).2.1, hdq, ?_⟩
    unfold Holds
    rw [hnew]
    exact hrest
  · have hle : dq.head ≤ queueByteCount :=
      UInt32.le_iff_toNat_le.mpr (Nat.le_trans hh.le_cap.1 hB)
    rcases DequeueWithCoalesce_at_skips hne hle hs.1 (hr.mono hB) with
      herr | ⟨hsz, newHead, hnew, hdq⟩
    · exact .inl herr
    · refine .inr ⟨0, newHead, hsz, ?_, hdq, ?_⟩
      · simpa using (Ring.Records.cons_iff.mp hr).2.1
      · unfold Holds
        rw [hnew]
        exact hrest

/-- A successful enqueue's entry ends inside the buffer, and when it wraps, the size word it
leaves at the old tail is inside the buffer too. -/
def StoresInBuffer (queueByteCount : UInt32) (dq : IODataQueueMemory) (callerDataSize : UInt32)
    (data : Nat → UInt8) : Prop :=
  (EnqueueWithCoalesce queueByteCount dq callerDataSize data).ret = kIOReturnSuccess →
    (EnqueueWithCoalesce queueByteCount dq callerDataSize data).dq.tail.toNat ≤
        bufferBytes queueByteCount ∧
      ((EnqueueWithCoalesce queueByteCount dq callerDataSize data).dq.tail < dq.tail →
        dq.tail.toNat + 4 ≤ bufferBytes queueByteCount)

instance (queueByteCount : UInt32) (dq : IODataQueueMemory) (callerDataSize : UInt32)
    (data : Nat → UInt8) : Decidable (StoresInBuffer queueByteCount dq callerDataSize data) := by
  unfold StoresInBuffer
  infer_instance

/-- The memory after the other owners of the bytes past the buffer have written `mem` there. -/
def clobber (queueByteCount : UInt32) (dq : IODataQueueMemory) (mem : Nat → UInt8) :
    IODataQueueMemory :=
  { dq with queue := fun i => if i < bufferBytes queueByteCount then dq.queue i else mem i }

/-- The states that one producer and one consumer reach from a created queue, calling
`EnqueueWithCoalesce` (with entries that stay inside the buffer) and `DequeueWithCoalesce` one
after the other, while the memory past the buffer changes under them; with the entries then
pending: what each successful enqueue's callback wrote, oldest first. -/
inductive Reachable (queueByteCount : UInt32) : IODataQueueMemory → List (List UInt8) → Prop
  | init (needServicedCallback : Bool) (queue : Nat → UInt8) :
      Reachable queueByteCount ⟨0, 0, needServicedCallback, queue⟩ []
  | enqueue {dq : IODataQueueMemory} {es : List (List UInt8)} (callerDataSize : UInt32)
      (data : Nat → UInt8) : Reachable queueByteCount dq es →
      StoresInBuffer queueByteCount dq callerDataSize data →
      Reachable queueByteCount (EnqueueWithCoalesce queueByteCount dq callerDataSize data).dq
        (if (EnqueueWithCoalesce queueByteCount dq callerDataSize data).ret = kIOReturnSuccess then
          es ++ [bytes data 0 callerDataSize.toNat] else es)
  | dequeue {dq : IODataQueueMemory} {es : List (List UInt8)} : Reachable queueByteCount dq es →
      Reachable queueByteCount (DequeueWithCoalesce queueByteCount dq).dq
        (if (DequeueWithCoalesce queueByteCount dq).ret = kIOReturnSuccess then es.tail else es)
  | clobber {dq : IODataQueueMemory} {es : List (List UInt8)} (mem : Nat → UInt8) :
      Reachable queueByteCount dq es → Reachable queueByteCount (clobber queueByteCount dq mem) es

/-- `Holds` reads only the head, the tail and the bytes. -/
theorem Holds.of_eq {queueByteCount : UInt32} {dq dq' : IODataQueueMemory} {es : List (List UInt8)}
    (hh : Holds queueByteCount dq es) (hhead : dq'.head = dq.head) (htail : dq'.tail = dq.tail)
    (hq : dq'.queue = dq.queue) : Holds queueByteCount dq' es := by
  unfold Holds
  rw [hhead, htail, hq]
  exact hh

/-- What the other owners write past the buffer leaves the pending entries. -/
theorem Holds.clobber {queueByteCount : UInt32} {dq : IODataQueueMemory} {es : List (List UInt8)}
    (hh : Holds queueByteCount dq es) (mem : Nat → UInt8) :
    Holds queueByteCount (clobber queueByteCount dq mem) es :=
  Ring.Holds.congr_below le_roundUp4 (fun _ _ _ h hs => hs.congr h)
    (fun _ _ hi => (if_pos hi).symm) hh

/-- Every reachable queue holds its pending entries inside the buffer. -/
theorem Reachable.holds {queueByteCount : UInt32} {dq : IODataQueueMemory} {es : List (List UInt8)}
    (h : Reachable queueByteCount dq es) : Holds queueByteCount dq es := by
  induction h with
  | init _ _ => exact Ring.Holds.nil (Nat.zero_le _)
  | @enqueue dq es callerDataSize data _ hin ih =>
    rcases EnqueueWithCoalesce_cases queueByteCount dq callerDataSize data with
      ⟨hne, hdq⟩ | ⟨hok, -, hs⟩
    · rw [if_neg hne]
      exact ih.of_eq (by rw [hdq]) (by rw [hdq]) (by rw [hdq])
    · rw [if_pos hok]
      exact hs.holds (hin hok).1 (hin hok).2 ih
  | @dequeue dq es _ ih =>
    cases es with
    | nil =>
      -- nothing pending: the consumer finds `head = tail`
      have heq : dq.head = dq.tail :=
        UInt32.toNat_inj.mp ((Ring.Holds.eq_iff_nil (by omega) ih).mpr rfl)
      have hret := (DequeueWithCoalesce_underrun_iff queueByteCount dq).mpr heq
      rw [if_neg (by rw [hret]; decide), DequeueWithCoalesce_dq_of_ne _ _ (by rw [hret]; decide)]
      exact ih
    | cons r rs =>
      rcases DequeueWithCoalesce_spec ih with herr | ⟨entry, newHead, -, -, hdq, hrest⟩
      · rw [herr]
        exact ih
      · rw [hdq]
        exact hrest
  | clobber mem _ ih => exact ih.clobber mem

/-- A successful enqueue inside the buffer appends its entry. -/
theorem Reachable.enqueue_of_ok {queueByteCount : UInt32} {dq : IODataQueueMemory}
    {es : List (List UInt8)} {callerDataSize : UInt32} {data : Nat → UInt8}
    (h : Reachable queueByteCount dq es)
    (hin : StoresInBuffer queueByteCount dq callerDataSize data)
    (hok : (EnqueueWithCoalesce queueByteCount dq callerDataSize data).ret = kIOReturnSuccess) :
    Reachable queueByteCount (EnqueueWithCoalesce queueByteCount dq callerDataSize data).dq
      (es ++ [bytes data 0 callerDataSize.toNat]) := by
  have h' := h.enqueue callerDataSize data hin
  rwa [if_pos hok] at h'

/-- A successful dequeue takes the oldest entry. -/
theorem Reachable.dequeue_of_ok {queueByteCount : UInt32} {dq : IODataQueueMemory}
    {es : List (List UInt8)} (h : Reachable queueByteCount dq es)
    (hok : (DequeueWithCoalesce queueByteCount dq).ret = kIOReturnSuccess) :
    Reachable queueByteCount (DequeueWithCoalesce queueByteCount dq).dq es.tail := by
  have h' := h.dequeue
  rwa [if_pos hok] at h'

/-- An enqueue stores nothing at or past `queueByteCount` bytes from `queue`: the checks keep
every store inside `queue[0, queueByteCount)`. -/
theorem EnqueueWithCoalesce_below (queueByteCount : UInt32) (dq : IODataQueueMemory)
    (callerDataSize : UInt32) (data : Nat → UInt8) :
    ∀ i, queueByteCount.toNat ≤ i →
      (EnqueueWithCoalesce queueByteCount dq callerDataSize data).dq.queue i = dq.queue i := by
  intro i hi
  have hl := le_roundUp4 callerDataSize.toNat
  rcases EnqueueWithCoalesce_cases queueByteCount dq callerDataSize data with
    ⟨-, hdq⟩ | ⟨-, hhead, hs⟩
  · rw [hdq]
  generalize (EnqueueWithCoalesce queueByteCount dq callerDataSize data).dq = dq' at hs ⊢
  rw [UInt32.le_iff_toNat_le] at hhead
  cases hs with
  | atEnd t' _ ht' hq =>
    rw [UInt32.le_iff_toNat_le] at hq
    exact putEntry_of_disjoint (.inr (by omega))
  | wrapped t' dataSize _ htq hd ht' _ hlt =>
    rw [UInt32.lt_iff_toNat_lt] at hlt
    have hentry : putEntry dq.queue 0 callerDataSize data i = dq.queue i :=
      putEntry_of_disjoint (.inr (by simp only [UInt32.toNat_zero]; omega))
    simp only
    split
    · -- the rounded size goes at the old tail only when four bytes fit before the end
      rename_i hroom
      rw [ge_iff_le, UInt32.le_iff_toNat_le, UInt32.toNat_sub_of_le _ _ htq,
        toNat_DATA_QUEUE_ENTRY_HEADER_SIZE] at hroom
      rw [setSize_of_disjoint _ (.inr (by omega)), hentry]
    · exact hentry
  | behind t' _ ht' hlt' =>
    rw [UInt32.lt_iff_toNat_lt] at hlt'
    exact putEntry_of_disjoint (.inr (by omega))

/-- `Create_Impl` accepts any multiple of 4 up to `UINT_MAX`, and the buffer is that many bytes,
`queue[]` starting `queueOffset` bytes in. Yet an enqueue that fills the empty queue passes every
check and stores the caller's last byte at `queue[queueByteCount - 1]`, past the end of the
buffer. -/
theorem EnqueueWithCoalesce_writes_past_buffer (queueByteCount : UInt64)
    (hc : Create_Impl queueByteCount = kIOReturnSuccess) (h8 : 8 ≤ queueByteCount)
    (needServicedCallback : Bool) (queue data : Nat → UInt8) :
    (EnqueueWithCoalesce queueByteCount.toUInt32 ⟨0, 0, needServicedCallback, queue⟩
        (queueByteCount.toUInt32 - 4) data).ret = kIOReturnSuccess ∧
      (EnqueueWithCoalesce queueByteCount.toUInt32 ⟨0, 0, needServicedCallback, queue⟩
          (queueByteCount.toUInt32 - 4) data).dq.queue (queueByteCount.toNat - 1) =
        data (queueByteCount.toNat - 5) ∧
      queueByteCount.toNat ≤ queueOffset + (queueByteCount.toNat - 1) := by
  -- what `Create_Impl` accepts: a multiple of 4 that fits in 32 bits
  unfold Create_Impl at hc
  split at hc
  · exact absurd hc (by decide)
  rename_i hmask
  split at hc
  · exact absurd hc (by decide)
  rename_i hmax
  have h4 : queueByteCount.toNat % 4 = 0 := by
    have := congrArg UInt64.toNat (not_not.mp hmask)
    rwa [UInt64.toNat_and, Nat.and_comm, show (3 : UInt64).toNat = 2 ^ 2 - 1 from rfl,
      Nat.and_two_pow_sub_one_eq_mod] at this
  rw [gt_iff_lt, UInt64.lt_iff_toNat_lt, show UINT_MAX.toNat = 4294967295 from rfl] at hmax
  rw [UInt64.le_iff_toNat_le, show (8 : UInt64).toNat = 8 from rfl] at h8
  have hQ : queueByteCount.toUInt32.toNat = queueByteCount.toNat := by
    rw [UInt64.toNat_toUInt32]
    omega
  have hc4 : (queueByteCount.toUInt32 - 4).toNat = queueByteCount.toNat - 4 := by
    rw [UInt32.toNat_sub_of_le _ _ (by rw [UInt32.le_iff_toNat_le, hQ]; simp; omega), hQ]
    rfl
  have hround : roundUp4 (queueByteCount.toUInt32 - 4).toNat = queueByteCount.toNat - 4 := by
    rw [hc4, roundUp4]
    omega
  obtain ⟨t', -, heq⟩ := @EnqueueWithCoalesce_of_fits queueByteCount.toUInt32
    (queueByteCount.toUInt32 - 4) ⟨0, 0, needServicedCallback, queue⟩ data (Nat.le_refl _)
    (by simp only [UInt32.toNat_zero]; rw [hround, hQ]; omega)
  rw [heq]
  refine ⟨rfl, ?_, by unfold queueOffset; omega⟩
  -- the last byte of the entry's data is the caller's last byte
  have hk : queueByteCount.toNat - 5 < (bytes data 0 (queueByteCount.toUInt32 - 4).toNat).length := by
    rw [length_bytes, hc4]
    omega
  simp only [putEntry, UInt32.toNat_zero, Nat.zero_add]
  rw [setSize_of_disjoint _ (.inr (by simp only [UInt32.toNat_zero]; omega)),
    show queueByteCount.toNat - 1 = 4 + (queueByteCount.toNat - 5) by omega, wr_at hk]
  simp [bytes]

/-- A 64-byte queue: the 60-byte entry's last byte goes to `queue[63]`, byte 103 of the
buffer. -/
theorem EnqueueWithCoalesce_writes_past_64_byte_buffer :
    Create_Impl 64 = kIOReturnSuccess ∧ 8 ≤ (64 : UInt64) ∧
      (EnqueueWithCoalesce (64 : UInt64).toUInt32 ⟨0, 0, false, fun _ => 0⟩
          ((64 : UInt64).toUInt32 - 4) fun _ => 0xAA).ret = kIOReturnSuccess ∧
      (EnqueueWithCoalesce (64 : UInt64).toUInt32 ⟨0, 0, false, fun _ => 0⟩
          ((64 : UInt64).toUInt32 - 4) fun _ => 0xAA).dq.queue ((64 : UInt64).toNat - 1) =
        0xAA ∧
      (64 : UInt64).toNat ≤ queueOffset + ((64 : UInt64).toNat - 1) :=
  ⟨by decide, by decide,
    EnqueueWithCoalesce_writes_past_buffer 64 (by decide) (by decide) false (fun _ => 0) fun _ => 0xAA⟩

end IOKit.DataQueueDispatch
