import Darwin.IOKit.DataQueueDispatch

/-!
# Kernel data queues (`iokit/Kernel/IODataQueue.cpp`, `iokit/Kernel/IOSharedDataQueue.cpp`)

| here | there |
| --- | --- |
| `IODataQueueMemory` | `IOKit/IODataQueueShared.h:64-69` |
| `enqueueTo` | the body of `IODataQueue::enqueue` (`IODataQueue.cpp:162-258`) and of `IOSharedDataQueue::enqueue` (`IOSharedDataQueue.cpp:214-307`) |
| `IOSharedDataQueue.peek` | `IOSharedDataQueue.cpp:165-212` |
| `IOSharedDataQueue.dequeue`, `dequeued` | `IOSharedDataQueue.cpp:309-393` |
| `DATA_QUEUE_ENTRY_HEADER_SIZE`, `sizeAt`, `setSize`, `wrapTest` | as in `DataQueueDispatch`: `IODataQueueShared.h:43-84` lays entries out as the DriverKit header does, and the kernel's wrap test is the same text |

The kernel and a user client share the `IODataQueueMemory`: its `queueSize`, `head` and `tail`
words, `queue[]`, and, for an `IOSharedDataQueue`, the appendix that follows `queue[]`, whose first
word is `version`. An entry is a 32-bit size word and that many bytes, unpadded. The kernel bounds
every offset by the size it keeps to itself (`IODataQueueInternal::queueSize`,
`_reserved->queueSize`); the shared `queueSize` word is read by none of these functions and is
left out.

The client may have written anything into the shared memory: the bounds (`enqueueTo_below`,
`IOSharedDataQueue.dequeue_cases`, `IOSharedDataQueue.dequeue_congr`) hold in every state. With
one producer and one consumer calling these functions one after the other, the queue is a FIFO
(`IOSharedDataQueue.Reachable.holds`): the pending entries lie as `Ring.Holds` lays them out, with
no padding. Sequentially, the second read of `head` in `enqueue` sees the first; the
data-available notification is left out.
-/

namespace IOKit.DataQueue

open Bytes Word32
open DataQueueDispatch (DATA_QUEUE_ENTRY_HEADER_SIZE UINT32_MAX sizeAt setSize wrapTest
  toNat_UINT32_MAX toNat_DATA_QUEUE_ENTRY_HEADER_SIZE wrapTest_iff sizeAt_setSize sizeAt_congr
  toNat_sizeAt setSize_of_disjoint)

/-- `IODataQueueMemory`: `head`, `tail`, and the bytes from `queue` on, by their offset from
`queue`. -/
structure IODataQueueMemory where
  head : UInt32
  tail : UInt32
  queue : Nat → UInt8

/-- The entry at `off`: `entry->size = dataSize`, then `dataSize` bytes of `data` copied to
`entry->data`. -/
def putEntry (queue : Nat → UInt8) (off dataSize : UInt32) (data : Nat → UInt8) : Nat → UInt8 :=
  wr (setSize queue off dataSize) (off.toNat + 4) (bytes data 0 dataSize.toNat)

/-- What `IODataQueue::enqueue` and `IOSharedDataQueue::enqueue` do to a queue of `queueSize`
bytes: whether they return true, and the shared memory after. -/
def enqueueTo (queueSize : UInt32) (dq : IODataQueueMemory) (data : Nat → UInt8)
    (dataSize : UInt32) : Bool × IODataQueueMemory :=
  let tail := dq.tail
  let head := dq.head
  let entrySize := dataSize + DATA_QUEUE_ENTRY_HEADER_SIZE
  if dataSize > UINT32_MAX - DATA_QUEUE_ENTRY_HEADER_SIZE then (false, dq)
  else if queueSize < tail || queueSize < head then (false, dq)
  else if tail ≥ head then
    if entrySize ≤ UINT32_MAX - tail && tail + entrySize ≤ queueSize then
      (true, { dq with queue := putEntry dq.queue tail dataSize data, tail := tail + entrySize })
    else if head > entrySize then
      -- wrap: the size at the start, and at the old tail when the word fits there
      let queue := setSize dq.queue 0 dataSize
      let queue := if queueSize - tail ≥ DATA_QUEUE_ENTRY_HEADER_SIZE then
        setSize queue tail dataSize else queue
      (true, { dq with queue := wr queue 4 (bytes data 0 dataSize.toNat), tail := entrySize })
    else (false, dq)
  else if head - tail > entrySize then
    (true, { dq with queue := putEntry dq.queue tail dataSize data, tail := tail + entrySize })
  else (false, dq)

/-- An `IODataQueue`: its size (`IODataQueueInternal::queueSize`) and the shared memory. -/
structure IODataQueue where
  queueSize : UInt32
  dataQueue : IODataQueueMemory

/-- `IODataQueue::enqueue` (`IODataQueue.cpp:162-258`). -/
def IODataQueue.enqueue (self : IODataQueue) (data : Nat → UInt8) (dataSize : UInt32) :
    Bool × IODataQueue :=
  let r := enqueueTo self.queueSize self.dataQueue data dataSize
  (r.1, { self with dataQueue := r.2 })

/-- An `IOSharedDataQueue`: its size (`_reserved->queueSize`, what `getQueueSize` returns) and
the shared memory. -/
structure IOSharedDataQueue where
  queueSize : UInt32
  dataQueue : IODataQueueMemory

namespace IOSharedDataQueue

/-- `IOSharedDataQueue::enqueue` (`IOSharedDataQueue.cpp:214-307`). -/
def enqueue (self : IOSharedDataQueue) (data : Nat → UInt8) (dataSize : UInt32) :
    Bool × IOSharedDataQueue :=
  let r := enqueueTo self.queueSize self.dataQueue data dataSize
  (r.1, { self with dataQueue := r.2 })

/-- `IOSharedDataQueue::peek` (`:165-212`): the offset in `queue[]` of the entry it points to,
or `none` for `NULL`. It reads the size word at `head` only to choose between the entry there
and the one at the start. -/
def peek (self : IOSharedDataQueue) : Option Nat :=
  let dq := self.dataQueue
  if dq.head ≠ dq.tail then
    let headOffset := dq.head
    let queueSize := self.queueSize
    if headOffset > queueSize then none
    else
      let headSize := sizeAt dq.queue headOffset
      if wrapTest queueSize headOffset headSize then some 0 else some headOffset.toNat
  else none

/-- What `dequeue` does: whether it returns true, the bytes it copies to `data`, what it stores
to `*dataSize`, and the queue after. -/
structure Dequeued where
  ok : Bool
  data : Option (List UInt8)
  dataSize : Option UInt32
  self : IOSharedDataQueue

/-- The end of a dequeue that found an entry of `entrySize` bytes at `entry` (`:370-383`): with a
`data` buffer, the entry is copied out if `*dataSize` leaves room for it; then `head` moves to
`newHeadOffset`. -/
def dequeued (self : IOSharedDataQueue) (dataSize : Option UInt32)
    (entry entrySize newHeadOffset : UInt32) : Dequeued :=
  let moved := { self with dataQueue := { self.dataQueue with head := newHeadOffset } }
  match dataSize with
  | none => ⟨true, none, none, moved⟩
  | some room =>
    if entrySize > room then ⟨false, none, none, self⟩
    else ⟨true, some (bytes self.dataQueue.queue (entry.toNat + 4) entrySize.toNat), some entrySize,
      moved⟩

/-- `IOSharedDataQueue::dequeue` (`:309-393`). `dataSize` is `none` for a `NULL` `data`, and
otherwise the room `*dataSize` gives; a `NULL` `dataSize` with some `data` is not modelled. -/
def dequeue (self : IOSharedDataQueue) (dataSize : Option UInt32) : Dequeued :=
  let dq := self.dataQueue
  let headOffset := dq.head
  let tailOffset := dq.tail
  if headOffset ≠ tailOffset then
    let queueSize := self.queueSize
    if headOffset > queueSize then ⟨false, none, none, self⟩
    else
      let headSize := sizeAt dq.queue headOffset
      if wrapTest queueSize headOffset headSize then
        let entrySize := sizeAt dq.queue 0
        if entrySize > UINT32_MAX - DATA_QUEUE_ENTRY_HEADER_SIZE ||
            entrySize + DATA_QUEUE_ENTRY_HEADER_SIZE > queueSize then ⟨false, none, none, self⟩
        else dequeued self dataSize 0 entrySize (entrySize + DATA_QUEUE_ENTRY_HEADER_SIZE)
      else
        let entrySize := sizeAt dq.queue headOffset
        if entrySize > UINT32_MAX - DATA_QUEUE_ENTRY_HEADER_SIZE ||
            entrySize + DATA_QUEUE_ENTRY_HEADER_SIZE > UINT32_MAX - headOffset ||
            entrySize + DATA_QUEUE_ENTRY_HEADER_SIZE + headOffset > queueSize then
          ⟨false, none, none, self⟩
        else
          dequeued self dataSize headOffset entrySize
            (headOffset + entrySize + DATA_QUEUE_ENTRY_HEADER_SIZE)
  else ⟨false, none, none, self⟩

end IOSharedDataQueue

/-! ## Entries -/

/-- An entry size that passed the overflow check is the data size and the header. -/
theorem toNat_entrySize {dataSize : UInt32}
    (h : ¬dataSize > UINT32_MAX - DATA_QUEUE_ENTRY_HEADER_SIZE) :
    (dataSize + DATA_QUEUE_ENTRY_HEADER_SIZE).toNat = dataSize.toNat + 4 ∧
      dataSize.toNat + 4 < 2 ^ 32 := by
  rw [gt_iff_lt, UInt32.lt_iff_toNat_lt, UInt32.toNat_sub_of_le _ _ (by decide), toNat_UINT32_MAX,
    toNat_DATA_QUEUE_ENTRY_HEADER_SIZE] at h
  rw [UInt32.toNat_add, toNat_DATA_QUEUE_ENTRY_HEADER_SIZE]
  omega

theorem putEntry_of_disjoint {queue : Nat → UInt8} {off c : UInt32} {data : Nat → UInt8} {i : Nat}
    (h : i < off.toNat ∨ off.toNat + 4 + c.toNat ≤ i) : putEntry queue off c data i = queue i := by
  have hne : i < off.toNat ∨ off.toNat + 4 ≤ i := by omega
  rw [putEntry]
  rcases h with h | h
  · rw [wr_of_lt _ (by omega), setSize_of_disjoint c hne]
  · rw [wr_of_ge (by simpa using h), setSize_of_disjoint c hne]

/-- An entry written at `off` is a record there, when it fits. -/
theorem putEntry_records (queueSize : Nat) (queue : Nat → UInt8) (off c : UInt32)
    (data : Nat → UInt8) (hfit : off.toNat + 4 + c.toNat ≤ queueSize) :
    Ring.Records 4 id queueSize (putEntry queue off c data) off.toNat [bytes data 0 c.toNat]
      (off.toNat + 4 + c.toNat) := by
  have hlen : (bytes data 0 c.toNat).length = c.toNat := length_bytes _ _ _
  rw [show off.toNat + 4 + c.toNat = off.toNat + 4 + id (bytes data 0 c.toNat).length by
    rw [hlen, id]]
  refine Ring.Records.single ?_ ?_ ?_
  · rw [hlen, putEntry, rd_wr_of_disjoint (.inl (Nat.le_refl _)), setSize, rd_wr_le]
    exact Nat.mod_eq_of_lt (Nat.lt_of_lt_of_le c.toNat_lt (by decide))
  · rw [putEntry, bytes_wr]
  · rwa [hlen, id]

/-! ## What one enqueue does -/

/-- The three ways `enqueueTo` stores an entry of `dataSize` bytes and moves the tail to `t'`:
at the tail, before the end; at the start, leaving the size at the old tail when the word fits
there; at the tail, short of the head. -/
inductive Stored (queueSize : UInt32) (dq : IODataQueueMemory) (dataSize : UInt32)
    (data : Nat → UInt8) : IODataQueueMemory → Prop
  | atEnd (t' : UInt32) : dq.head ≤ dq.tail → t'.toNat = dq.tail.toNat + 4 + dataSize.toNat →
      t' ≤ queueSize →
      Stored queueSize dq dataSize data
        { dq with queue := putEntry dq.queue dq.tail dataSize data, tail := t' }
  | wrapped (t' : UInt32) : dq.head ≤ dq.tail → dq.tail ≤ queueSize →
      t'.toNat = 4 + dataSize.toNat → queueSize.toNat < dq.tail.toNat + t'.toNat → t' < dq.head →
      Stored queueSize dq dataSize data
        { dq with
          queue := wr (if queueSize - dq.tail ≥ DATA_QUEUE_ENTRY_HEADER_SIZE then
              setSize (setSize dq.queue 0 dataSize) dq.tail dataSize
            else setSize dq.queue 0 dataSize) 4 (bytes data 0 dataSize.toNat),
          tail := t' }
  | behind (t' : UInt32) : dq.tail < dq.head → t'.toNat = dq.tail.toNat + 4 + dataSize.toNat →
      t' < dq.head →
      Stored queueSize dq dataSize data
        { dq with queue := putEntry dq.queue dq.tail dataSize data, tail := t' }

/-- An enqueue either stores the entry and returns true, or returns false and changes nothing. -/
theorem enqueueTo_cases (queueSize : UInt32) (dq : IODataQueueMemory) (data : Nat → UInt8)
    (dataSize : UInt32) :
    ((enqueueTo queueSize dq data dataSize).1 = false ∧ (enqueueTo queueSize dq data dataSize).2 = dq) ∨
      ((enqueueTo queueSize dq data dataSize).1 = true ∧ dq.head ≤ queueSize ∧
        Stored queueSize dq dataSize data (enqueueTo queueSize dq data dataSize).2) := by
  unfold enqueueTo
  dsimp only
  by_cases hov : dataSize > UINT32_MAX - DATA_QUEUE_ENTRY_HEADER_SIZE
  · rw [if_pos hov]
    exact .inl ⟨rfl, rfl⟩
  rw [if_neg hov]
  obtain ⟨he, hlt⟩ := toNat_entrySize hov
  by_cases hq : queueSize < dq.tail || queueSize < dq.head
  · rw [if_pos hq]
    exact .inl ⟨rfl, rfl⟩
  rw [if_neg hq]
  simp only [Bool.or_eq_true, decide_eq_true_eq, not_or, UInt32.not_lt] at hq
  have hql := queueSize.toNat_lt
  by_cases ht : dq.tail ≥ dq.head
  · rw [if_pos ht]
    by_cases hfit : (dataSize + DATA_QUEUE_ENTRY_HEADER_SIZE ≤ UINT32_MAX - dq.tail &&
        dq.tail + (dataSize + DATA_QUEUE_ENTRY_HEADER_SIZE) ≤ queueSize) = true
    · -- room at the end
      rw [if_pos hfit]
      rw [room_test_iff toNat_UINT32_MAX, he] at hfit
      refine .inr ⟨rfl, hq.2, .atEnd _ ht ?_ ?_⟩
      · rw [UInt32.toNat_add, he]
        omega
      · rw [UInt32.le_iff_toNat_le, UInt32.toNat_add, he]
        omega
    rw [if_neg hfit]
    by_cases hroom : dq.head > dataSize + DATA_QUEUE_ENTRY_HEADER_SIZE
    · -- room at the start
      rw [if_pos hroom]
      rw [room_test_iff toNat_UINT32_MAX, he] at hfit
      exact .inr ⟨rfl, hq.2, .wrapped _ ht hq.1 (by rw [he]; omega) (by rw [he]; omega) hroom⟩
    rw [if_neg hroom]
    exact .inl ⟨rfl, rfl⟩
  · rw [if_neg ht]
    have ht' : dq.tail < dq.head := by
      rw [ge_iff_le, UInt32.le_iff_toNat_le] at ht
      rw [UInt32.lt_iff_toNat_lt]
      omega
    by_cases hroom : dq.head - dq.tail > dataSize + DATA_QUEUE_ENTRY_HEADER_SIZE
    · -- room between the tail and the head
      rw [if_pos hroom]
      rw [gt_iff_lt, UInt32.lt_iff_toNat_lt, UInt32.toNat_sub_of_le _ _ (UInt32.le_of_lt ht'),
        he] at hroom
      rw [UInt32.lt_iff_toNat_lt] at ht'
      have := dq.head.toNat_lt
      refine .inr ⟨rfl, hq.2, .behind _ (UInt32.lt_iff_toNat_lt.mpr ht') ?_ ?_⟩
      · rw [UInt32.toNat_add, he]
        omega
      · rw [UInt32.lt_iff_toNat_lt, UInt32.toNat_add, he]
        omega
    rw [if_neg hroom]
    exact .inl ⟨rfl, rfl⟩

/-- An enqueue that returns false changes nothing. -/
theorem enqueueTo_of_false {queueSize : UInt32} {dq : IODataQueueMemory} {data : Nat → UInt8}
    {dataSize : UInt32} (h : (enqueueTo queueSize dq data dataSize).1 = false) :
    (enqueueTo queueSize dq data dataSize).2 = dq := by
  rcases enqueueTo_cases queueSize dq data dataSize with ⟨-, hdq⟩ | ⟨hok, -⟩
  · exact hdq
  · rw [hok] at h
    simp at h

/-- The start of the queue after a wrapping enqueue: the new entry, whatever the old tail got. -/
theorem wrapped_records {queueSize dataSize tail : UInt32} {queue data : Nat → UInt8}
    (htail : 4 + dataSize.toNat ≤ tail.toNat) (hfit : 4 + dataSize.toNat ≤ queueSize.toNat) :
    Ring.Records 4 id queueSize.toNat
      (wr (if queueSize - tail ≥ DATA_QUEUE_ENTRY_HEADER_SIZE then
          setSize (setSize queue 0 dataSize) tail dataSize
        else setSize queue 0 dataSize) 4 (bytes data 0 dataSize.toNat)) 0
      [bytes data 0 dataSize.toNat] (4 + dataSize.toNat) := by
  have hlen : (bytes data 0 dataSize.toNat).length = dataSize.toNat := length_bytes _ _ _
  -- the size word at the start is the one written there: the old tail is past the entry
  have hsize : rd 4 (if queueSize - tail ≥ DATA_QUEUE_ENTRY_HEADER_SIZE then
      setSize (setSize queue 0 dataSize) tail dataSize
    else setSize queue 0 dataSize) 0 = dataSize.toNat := by
    have h0 : rd 4 (setSize queue 0 dataSize) 0 = dataSize.toNat := by
      rw [setSize, UInt32.toNat_zero, rd_wr_le]
      exact Nat.mod_eq_of_lt (Nat.lt_of_lt_of_le dataSize.toNat_lt (by decide))
    split
    · rw [setSize, rd_wr_of_disjoint (.inl (by omega)), h0]
    · exact h0
  rw [show 4 + dataSize.toNat = 0 + 4 + id (bytes data 0 dataSize.toNat).length by
    rw [hlen, id, Nat.zero_add]]
  refine Ring.Records.single ?_ ?_ ?_
  · rw [hlen, rd_wr_of_disjoint (.inl (Nat.le_refl _)), hsize]
  · rw [Nat.zero_add, bytes_wr]
  · rwa [hlen, id, Nat.zero_add]

/-- An enqueue writes nothing the consumer may still read. -/
theorem Stored.keeps_live {queueSize dataSize : UInt32} {dq dq' : IODataQueueMemory}
    {data : Nat → UInt8} (hs : Stored queueSize dq dataSize data dq') :
    ∀ i, Ring.Live dq.head.toNat dq.tail.toNat i → dq.queue i = dq'.queue i := by
  intro i hi
  cases hs with
  | atEnd t' hle ht' _ =>
    rw [UInt32.le_iff_toNat_le] at hle
    simp only [Ring.Live, if_pos hle] at hi
    exact (putEntry_of_disjoint (.inl hi.2)).symm
  | wrapped t' hle _ ht' _ hlt =>
    rw [UInt32.le_iff_toNat_le] at hle
    rw [UInt32.lt_iff_toNat_lt] at hlt
    simp only [Ring.Live, if_pos hle] at hi
    -- the entry goes below the head, the size at the tail
    have hstart : setSize dq.queue 0 dataSize i = dq.queue i :=
      setSize_of_disjoint _ (.inr (by simp only [UInt32.toNat_zero]; omega))
    simp only
    rw [wr_of_ge (by simp only [length_bytes]; omega)]
    split
    · rw [setSize_of_disjoint _ (.inl hi.2), hstart]
    · rw [hstart]
  | behind t' hlt ht' hlt' =>
    rw [UInt32.lt_iff_toNat_lt] at hlt hlt'
    simp only [Ring.Live, if_neg (Nat.not_le.mpr hlt)] at hi
    exact (putEntry_of_disjoint (by omega)).symm

/-- The checks keep every store of an enqueue inside `queue[0, queueSize)`. -/
theorem enqueueTo_below (queueSize : UInt32) (dq : IODataQueueMemory) (data : Nat → UInt8)
    (dataSize : UInt32) :
    ∀ i, queueSize.toNat ≤ i → (enqueueTo queueSize dq data dataSize).2.queue i = dq.queue i := by
  intro i hi
  rcases enqueueTo_cases queueSize dq data dataSize with ⟨-, hdq⟩ | ⟨-, hhead, hs⟩
  · rw [hdq]
  generalize (enqueueTo queueSize dq data dataSize).2 = dq' at hs ⊢
  rw [UInt32.le_iff_toNat_le] at hhead
  cases hs with
  | atEnd t' _ ht' hq =>
    rw [UInt32.le_iff_toNat_le] at hq
    exact putEntry_of_disjoint (.inr (by omega))
  | wrapped t' _ htq ht' _ hlt =>
    rw [UInt32.lt_iff_toNat_lt] at hlt
    have hstart : setSize dq.queue 0 dataSize i = dq.queue i :=
      setSize_of_disjoint _ (.inr (by simp only [UInt32.toNat_zero]; omega))
    simp only
    rw [wr_of_ge (by simp only [length_bytes]; omega)]
    split
    · -- the size goes at the old tail only when four bytes fit before the end
      rename_i hroom
      rw [ge_iff_le, UInt32.le_iff_toNat_le, UInt32.toNat_sub_of_le _ _ htq,
        toNat_DATA_QUEUE_ENTRY_HEADER_SIZE] at hroom
      rw [setSize_of_disjoint _ (.inr (by omega)), hstart]
    · exact hstart
  | behind t' _ ht' hlt' =>
    rw [UInt32.lt_iff_toNat_lt] at hlt'
    exact putEntry_of_disjoint (.inr (by omega))

/-! ## The pending entries -/

/-- At offset `e` the consumer does not take an entry: `wrapTest` sends it to the start of the
queue. -/
def Skips (queueSize : UInt32) (queue : Nat → UInt8) (e : Nat) : Prop :=
  e < 2 ^ 32 ∧ wrapTest queueSize e.toUInt32 (sizeAt queue e.toUInt32) = true

/-- The queue `dq` of `queueSize` bytes holds the pending entries `es`, oldest first: each is its
size word and its bytes in `queue[]`. -/
def Holds (queueSize : UInt32) (dq : IODataQueueMemory) (es : List (List UInt8)) : Prop :=
  Ring.Holds 4 id queueSize.toNat (Skips queueSize) dq.queue dq.head.toNat dq.tail.toNat es

theorem Skips.congr {queueSize : UInt32} {queue queue' : Nat → UInt8} {e : Nat}
    (h : ∀ i, e ≤ i → queue i = queue' i) (hs : Skips queueSize queue e) :
    Skips queueSize queue' e := by
  obtain ⟨he, hw⟩ := hs
  refine ⟨he, ?_⟩
  rw [← sizeAt_congr fun i hi _ => h i (by rwa [toNat_toUInt32_of_lt he] at hi)]
  exact hw

/-- What a wrapping enqueue leaves at the old tail makes the consumer wrap there: the size of
the entry, which does not fit before the end, or, when four bytes do not fit, nothing. -/
theorem skips_of_wrapped {queueSize tail dataSize : UInt32} {queue data : Nat → UInt8}
    (hle : tail ≤ queueSize) (htail : 4 + dataSize.toNat ≤ tail.toNat)
    (hover : queueSize.toNat < tail.toNat + 4 + dataSize.toNat) :
    Skips queueSize
      (wr (if queueSize - tail ≥ DATA_QUEUE_ENTRY_HEADER_SIZE then
          setSize (setSize queue 0 dataSize) tail dataSize
        else setSize queue 0 dataSize) 4 (bytes data 0 dataSize.toNat)) tail.toNat := by
  have htl := tail.toNat_lt
  rw [UInt32.le_iff_toNat_le] at hle
  refine ⟨htl, ?_⟩
  rw [toUInt32_toNat, wrapTest_iff]
  -- the entry's bytes end before the old tail
  rw [sizeAt_congr fun i hi _ => wr_of_ge (by simp only [length_bytes]; omega)]
  split
  · rw [sizeAt_setSize]
    omega
  · rename_i hroom
    rw [ge_iff_le, UInt32.le_iff_toNat_le, UInt32.toNat_sub_of_le _ _ (UInt32.le_iff_toNat_le.mpr hle),
      toNat_DATA_QUEUE_ENTRY_HEADER_SIZE] at hroom
    omega

/-- A successful enqueue appends its entry to the pending ones. -/
theorem Stored.holds {queueSize dataSize : UInt32} {dq dq' : IODataQueueMemory}
    {data : Nat → UInt8} {es : List (List UInt8)} (hs : Stored queueSize dq dataSize data dq')
    (hh : Holds queueSize dq es) : Holds queueSize dq' (es ++ [bytes data 0 dataSize.toNat]) := by
  have hh' := hh.congr (fun n => Nat.le_refl (id n))
    (fun _ _ _ h hs => Skips.congr h hs) hs.keeps_live
  have hhq := hh.le_cap.1
  cases hs with
  | atEnd t' hle ht' hq =>
    rw [UInt32.le_iff_toNat_le] at hle hq
    unfold Holds
    rw [ht']
    exact hh'.push_end hle (putEntry_records _ _ _ _ _ (by omega))
  | wrapped t' hle htq ht' hover hlt =>
    rw [UInt32.le_iff_toNat_le] at hle
    rw [UInt32.lt_iff_toNat_lt] at hlt
    unfold Holds
    rw [ht']
    exact hh'.push_wrap hle (skips_of_wrapped htq (by omega) (by omega))
      (wrapped_records (by omega) (by omega)) (by omega)
  | behind t' hlt ht' hlt' =>
    rw [UInt32.lt_iff_toNat_lt] at hlt hlt'
    unfold Holds
    rw [ht'] at hlt' ⊢
    exact hh'.push_behind hlt (putEntry_records _ _ _ _ _ (by omega)) hlt'

namespace IOSharedDataQueue

/-! ## What one dequeue does -/

/-- How `dequeued` ends: out of room in the buffer, changing nothing, or with the head moved and
the entry copied out when there is a buffer. -/
theorem dequeued_cases (self : IOSharedDataQueue) (dataSize : Option UInt32)
    (entry entrySize newHeadOffset : UInt32) :
    (∃ room, dataSize = some room ∧ room < entrySize ∧
        dequeued self dataSize entry entrySize newHeadOffset = ⟨false, none, none, self⟩) ∨
      ((∀ room, dataSize = some room → entrySize ≤ room) ∧
        dequeued self dataSize entry entrySize newHeadOffset =
          ⟨true, dataSize.map fun _ => bytes self.dataQueue.queue (entry.toNat + 4) entrySize.toNat,
            dataSize.map fun _ => entrySize,
            { self with dataQueue := { self.dataQueue with head := newHeadOffset } }⟩) := by
  cases dataSize with
  | none => exact .inr ⟨fun _ h => absurd h (by simp), rfl⟩
  | some room =>
    by_cases hroom : entrySize > room
    · exact .inl ⟨room, rfl, hroom, by simp only [dequeued]; rw [if_pos hroom]⟩
    · refine .inr ⟨fun r hr => ?_, by simp only [dequeued]; rw [if_neg hroom]; rfl⟩
      cases hr
      exact UInt32.not_lt.mp hroom

/-- With `head = tail` the queue is empty and `dequeue` changes nothing. -/
theorem dequeue_of_eq (self : IOSharedDataQueue) (dataSize : Option UInt32)
    (h : self.dataQueue.head = self.dataQueue.tail) :
    self.dequeue dataSize = ⟨false, none, none, self⟩ := by
  unfold dequeue
  dsimp only
  rw [if_neg (not_not.mpr h)]

theorem peek_of_eq (self : IOSharedDataQueue) (h : self.dataQueue.head = self.dataQueue.tail) :
    self.peek = none := by
  unfold peek
  dsimp only
  rw [if_neg (not_not.mpr h)]

/-- A dequeue fails and changes nothing, or finds an entry, at the start or at the head, whose
header and bytes end by the queue's size, and ends as `dequeued` says. -/
theorem dequeue_cases (self : IOSharedDataQueue) (dataSize : Option UInt32) :
    self.dequeue dataSize = ⟨false, none, none, self⟩ ∨
      ∃ entry newHead : UInt32,
        entry.toNat + 4 + (sizeAt self.dataQueue.queue entry).toNat ≤ self.queueSize.toNat ∧
        self.dequeue dataSize =
          dequeued self dataSize entry (sizeAt self.dataQueue.queue entry) newHead := by
  unfold dequeue
  dsimp only
  split
  · split
    · exact .inl rfl
    rename_i hle
    split
    · split
      · exact .inl rfl
      · rename_i hsize
        rw [size_test_iff toNat_UINT32_MAX (by decide), toNat_DATA_QUEUE_ENTRY_HEADER_SIZE] at hsize
        exact .inr ⟨0, _, by simp only [UInt32.toNat_zero]; omega, rfl⟩
    · split
      · exact .inl rfl
      · rename_i hsize
        rw [span_test_iff toNat_UINT32_MAX (by decide), toNat_DATA_QUEUE_ENTRY_HEADER_SIZE] at hsize
        exact .inr ⟨_, _, by omega, rfl⟩
  · exact .inl rfl

/-- The consumer at a record takes it and moves past it. -/
theorem dequeue_at_record {self : IOSharedDataQueue} {r : List UInt8} {q : Nat}
    (dataSize : Option UInt32) (hne : self.dataQueue.head ≠ self.dataQueue.tail)
    (hr : Ring.Records 4 id self.queueSize.toNat self.dataQueue.queue self.dataQueue.head.toNat
      [r] q) :
    ∃ newHead : UInt32, newHead.toNat = self.dataQueue.head.toNat + 4 + r.length ∧
      self.dequeue dataSize = dequeued self dataSize self.dataQueue.head
        (sizeAt self.dataQueue.queue self.dataQueue.head) newHead := by
  obtain ⟨hw, -, hfit, -⟩ := Ring.Records.cons_iff.mp hr
  have hsz : (sizeAt self.dataQueue.queue self.dataQueue.head).toNat = r.length := by
    rw [toNat_sizeAt]
    exact hw
  rw [id] at hfit
  have hql := self.queueSize.toNat_lt
  refine ⟨self.dataQueue.head + sizeAt self.dataQueue.queue self.dataQueue.head +
    DATA_QUEUE_ENTRY_HEADER_SIZE, ?_, ?_⟩
  · rw [UInt32.toNat_add, UInt32.toNat_add, hsz, toNat_DATA_QUEUE_ENTRY_HEADER_SIZE]
    omega
  unfold dequeue
  dsimp only
  rw [if_pos hne, if_neg (by rw [gt_iff_lt, UInt32.lt_iff_toNat_lt]; omega),
    if_neg (by rw [wrapTest_iff, hsz]; omega)]
  -- the entry's own checks pass
  rw [if_neg (by rw [span_test_iff toNat_UINT32_MAX (by decide), hsz,
    toNat_DATA_QUEUE_ENTRY_HEADER_SIZE]; omega)]

/-- At the point where the producer wrapped, the consumer takes the record at the start. -/
theorem dequeue_at_skips {self : IOSharedDataQueue} {r : List UInt8} {q : Nat}
    (dataSize : Option UInt32) (hne : self.dataQueue.head ≠ self.dataQueue.tail)
    (hle : self.dataQueue.head.toNat ≤ self.queueSize.toNat)
    (hs : Skips self.queueSize self.dataQueue.queue self.dataQueue.head.toNat)
    (hr : Ring.Records 4 id self.queueSize.toNat self.dataQueue.queue 0 [r] q) :
    ∃ newHead : UInt32, newHead.toNat = 4 + r.length ∧
      self.dequeue dataSize = dequeued self dataSize 0 (sizeAt self.dataQueue.queue 0) newHead := by
  obtain ⟨hw, -, hfit, -⟩ := Ring.Records.cons_iff.mp hr
  have hsz : (sizeAt self.dataQueue.queue 0).toNat = r.length := by
    rw [toNat_sizeAt]
    exact hw
  rw [id, Nat.zero_add] at hfit
  have hwrap := hs.2
  rw [toUInt32_toNat] at hwrap
  refine ⟨sizeAt self.dataQueue.queue 0 + DATA_QUEUE_ENTRY_HEADER_SIZE, ?_, ?_⟩
  · have hql := self.queueSize.toNat_lt
    rw [UInt32.toNat_add, hsz, toNat_DATA_QUEUE_ENTRY_HEADER_SIZE]
    omega
  unfold dequeue
  dsimp only
  rw [if_pos hne, if_neg (by rw [gt_iff_lt, UInt32.lt_iff_toNat_lt]; omega), if_pos hwrap]
  -- the record's checks pass
  rw [if_neg (by rw [size_test_iff toNat_UINT32_MAX (by decide), hsz,
    toNat_DATA_QUEUE_ENTRY_HEADER_SIZE]; omega)]

theorem peek_at_record {self : IOSharedDataQueue} {r : List UInt8} {q : Nat}
    (hne : self.dataQueue.head ≠ self.dataQueue.tail)
    (hr : Ring.Records 4 id self.queueSize.toNat self.dataQueue.queue self.dataQueue.head.toNat
      [r] q) :
    self.peek = some self.dataQueue.head.toNat := by
  obtain ⟨hw, -, hfit, -⟩ := Ring.Records.cons_iff.mp hr
  have hsz : (sizeAt self.dataQueue.queue self.dataQueue.head).toNat = r.length := by
    rw [toNat_sizeAt]
    exact hw
  rw [id] at hfit
  unfold peek
  dsimp only
  rw [if_pos hne, if_neg (by rw [gt_iff_lt, UInt32.lt_iff_toNat_lt]; omega),
    if_neg (by rw [wrapTest_iff, hsz]; omega)]

theorem peek_at_skips {self : IOSharedDataQueue} (hne : self.dataQueue.head ≠ self.dataQueue.tail)
    (hle : self.dataQueue.head.toNat ≤ self.queueSize.toNat)
    (hs : Skips self.queueSize self.dataQueue.queue self.dataQueue.head.toNat) :
    self.peek = some 0 := by
  have hwrap := hs.2
  rw [toUInt32_toNat] at hwrap
  unfold peek
  dsimp only
  rw [if_pos hne, if_neg (by rw [gt_iff_lt, UInt32.lt_iff_toNat_lt]; omega), if_pos hwrap]

/-- What the consumer does with pending entries: `peek` points at the oldest one, and `dequeue`
takes it there, its size word giving its length, and leaves the rest pending. -/
theorem dequeue_spec {self : IOSharedDataQueue} {r : List UInt8} {rs : List (List UInt8)}
    (dataSize : Option UInt32) (hh : Holds self.queueSize self.dataQueue (r :: rs)) :
    ∃ entry newHead : UInt32, (sizeAt self.dataQueue.queue entry).toNat = r.length ∧
      bytes self.dataQueue.queue (entry.toNat + 4) r.length = r ∧
      self.peek = some entry.toNat ∧
      self.dequeue dataSize =
        dequeued self dataSize entry (sizeAt self.dataQueue.queue entry) newHead ∧
      Holds self.queueSize { self.dataQueue with head := newHead } rs := by
  have hne : self.dataQueue.head ≠ self.dataQueue.tail := by
    intro heq
    exact List.cons_ne_nil _ _ ((Ring.Holds.eq_iff_nil (by omega) hh).mp (congrArg UInt32.toNat heq))
  rcases hh.pop with ⟨hr, hrest⟩ | ⟨hs, hr, hrest⟩
  · obtain ⟨newHead, hnew, hdq⟩ := dequeue_at_record dataSize hne hr
    refine ⟨self.dataQueue.head, newHead, ?_, (Ring.Records.cons_iff.mp hr).2.1,
      peek_at_record hne hr, hdq, ?_⟩
    · rw [toNat_sizeAt]
      exact (Ring.Records.cons_iff.mp hr).1
    · unfold Holds
      rw [hnew]
      exact hrest
  · have hle := hh.le_cap.1
    obtain ⟨newHead, hnew, hdq⟩ := dequeue_at_skips dataSize hne hle hs hr
    refine ⟨0, newHead, ?_, ?_, peek_at_skips hne hle hs, hdq, ?_⟩
    · rw [toNat_sizeAt]
      exact (Ring.Records.cons_iff.mp hr).1
    · simpa using (Ring.Records.cons_iff.mp hr).2.1
    · unfold Holds
      rw [hnew]
      exact hrest

/-! ## Runs -/

@[simp] theorem enqueue_fst (self : IOSharedDataQueue) (data : Nat → UInt8) (dataSize : UInt32) :
    (self.enqueue data dataSize).1 = (enqueueTo self.queueSize self.dataQueue data dataSize).1 :=
  rfl

@[simp] theorem enqueue_snd (self : IOSharedDataQueue) (data : Nat → UInt8) (dataSize : UInt32) :
    (self.enqueue data dataSize).2 =
      { self with dataQueue := (enqueueTo self.queueSize self.dataQueue data dataSize).2 } :=
  rfl

/-- The states that one producer and one consumer reach from a new queue of any size, calling
`enqueue` and `dequeue` one after the other, with the entries then pending: what each successful
enqueue was given, oldest first. -/
inductive Reachable : IOSharedDataQueue → List (List UInt8) → Prop
  | init (queueSize : UInt32) (queue : Nat → UInt8) : Reachable ⟨queueSize, ⟨0, 0, queue⟩⟩ []
  | enqueue {self : IOSharedDataQueue} {es : List (List UInt8)} (data : Nat → UInt8)
      (dataSize : UInt32) : Reachable self es →
      Reachable (self.enqueue data dataSize).2
        (if (self.enqueue data dataSize).1 then es ++ [bytes data 0 dataSize.toNat] else es)
  | dequeue {self : IOSharedDataQueue} {es : List (List UInt8)} (dataSize : Option UInt32) :
      Reachable self es →
      Reachable (self.dequeue dataSize).self (if (self.dequeue dataSize).ok then es.tail else es)

/-- Every reachable queue holds its pending entries. -/
theorem Reachable.holds {self : IOSharedDataQueue} {es : List (List UInt8)}
    (h : Reachable self es) : Holds self.queueSize self.dataQueue es := by
  induction h with
  | init _ _ => exact Ring.Holds.nil (Nat.zero_le _)
  | @enqueue self es data dataSize _ ih =>
    rcases enqueueTo_cases self.queueSize self.dataQueue data dataSize with
      ⟨hf, hdq⟩ | ⟨hok, -, hs⟩
    · simp only [enqueue_fst, enqueue_snd, hf, hdq, Bool.false_eq_true, ↓reduceIte]
      exact ih
    · simp only [enqueue_fst, enqueue_snd, hok, ↓reduceIte]
      exact hs.holds ih
  | @dequeue self es dataSize _ ih =>
    cases es with
    | nil =>
      -- nothing pending: the consumer finds `head = tail`
      have heq : self.dataQueue.head = self.dataQueue.tail :=
        UInt32.toNat_inj.mp ((Ring.Holds.eq_iff_nil (by omega) ih).mpr rfl)
      rw [dequeue_of_eq self dataSize heq]
      exact ih
    | cons r rs =>
      obtain ⟨entry, newHead, -, -, -, hdq, hrest⟩ := dequeue_spec dataSize ih
      rw [hdq]
      rcases dequeued_cases self dataSize entry (sizeAt self.dataQueue.queue entry) newHead with
        ⟨_, -, -, hd⟩ | ⟨-, hd⟩
      · rw [hd]
        exact ih
      · rw [hd]
        exact hrest

/-- With entries pending, a dequeue fails only for want of room in the buffer; otherwise it
copies out the oldest entry and stores its size. -/
theorem dequeue_of_cons {self : IOSharedDataQueue} {r : List UInt8} {rs : List (List UInt8)}
    (dataSize : Option UInt32) (hh : Holds self.queueSize self.dataQueue (r :: rs)) :
    ((∃ room, dataSize = some room ∧ room.toNat < r.length) ∧ (self.dequeue dataSize).ok = false) ∨
      ((∀ room, dataSize = some room → r.length ≤ room.toNat) ∧ (self.dequeue dataSize).ok = true ∧
        (self.dequeue dataSize).data = dataSize.map (fun _ => r) ∧
        (self.dequeue dataSize).dataSize.map UInt32.toNat = dataSize.map fun _ => r.length) := by
  obtain ⟨entry, newHead, hsz, hbytes, -, hdq, -⟩ := dequeue_spec dataSize hh
  rw [hdq]
  rcases dequeued_cases self dataSize entry (sizeAt self.dataQueue.queue entry) newHead with
    ⟨room, hroom, hlt, hd⟩ | ⟨hroom, hd⟩
  · rw [UInt32.lt_iff_toNat_lt, hsz] at hlt
    rw [hd]
    exact .inl ⟨⟨room, hroom, hlt⟩, rfl⟩
  · rw [hd]
    refine .inr ⟨fun room h => ?_, rfl, ?_, ?_⟩
    · rw [← hsz]
      exact UInt32.le_iff_toNat_le.mp (hroom room h)
    · simp only [hsz, hbytes]
    · simp only [Option.map_map, Function.comp_def, hsz]

/-- An enqueue writes nothing the consumer may still read. -/
theorem enqueue_keeps_live (self : IOSharedDataQueue) (data : Nat → UInt8) (dataSize : UInt32) :
    ∀ i, Ring.Live self.dataQueue.head.toNat self.dataQueue.tail.toNat i →
      (self.enqueue data dataSize).2.dataQueue.queue i = self.dataQueue.queue i := by
  intro i hi
  rw [enqueue_snd]
  rcases enqueueTo_cases self.queueSize self.dataQueue data dataSize with ⟨-, hdq⟩ | ⟨-, -, hs⟩
  · rw [hdq]
  · exact (hs.keeps_live i hi).symm

/-- With one producer and one consumer, an `IOSharedDataQueue` of any size is a FIFO of what the
successful enqueues were given: the head and the tail stay within the queue and meet exactly
when nothing is pending; a successful dequeue copies out the oldest pending entry and stores its
size; with an entry pending, a dequeue with room for it succeeds; `peek` finds nothing exactly
when nothing is pending, and otherwise points at the oldest entry, its size word and its bytes;
an enqueue writes nothing the consumer may still read. -/
theorem is_fifo (self : IOSharedDataQueue) (es : List (List UInt8)) (h : Reachable self es) :
    self.dataQueue.head.toNat ≤ self.queueSize.toNat ∧
    self.dataQueue.tail.toNat ≤ self.queueSize.toNat ∧
    (self.dataQueue.head = self.dataQueue.tail ↔ es = []) ∧
    (∀ dataSize, (self.dequeue dataSize).ok = true →
      ∃ r rs, es = r :: rs ∧ (self.dequeue dataSize).data = dataSize.map (fun _ => r) ∧
        (self.dequeue dataSize).dataSize.map UInt32.toNat = dataSize.map fun _ => r.length) ∧
    (∀ r rs, es = r :: rs → ∀ dataSize : Option UInt32,
      (∀ room, dataSize = some room → r.length ≤ room.toNat) → (self.dequeue dataSize).ok = true) ∧
    (self.peek = none ↔ es = []) ∧
    (∀ r rs, es = r :: rs → ∃ off, self.peek = some off ∧
      rd 4 self.dataQueue.queue off = r.length ∧ bytes self.dataQueue.queue (off + 4) r.length = r) ∧
    (∀ data dataSize i, Ring.Live self.dataQueue.head.toNat self.dataQueue.tail.toNat i →
      (self.enqueue data dataSize).2.dataQueue.queue i = self.dataQueue.queue i) := by
  have hh := h.holds
  have hempty : self.dataQueue.head = self.dataQueue.tail ↔ es = [] :=
    ⟨fun heq => (Ring.Holds.eq_iff_nil (by omega) hh).mp (congrArg UInt32.toNat heq),
      fun hnil => UInt32.toNat_inj.mp ((Ring.Holds.eq_iff_nil (by omega) hh).mpr hnil)⟩
  refine ⟨hh.le_cap.1, hh.le_cap.2, hempty, ?_, ?_, ?_, ?_, enqueue_keeps_live self⟩
  · -- a successful dequeue: something was pending, and it is the oldest entry
    intro dataSize hok
    cases es with
    | nil =>
      rw [dequeue_of_eq self dataSize (hempty.mpr rfl)] at hok
      exact absurd hok Bool.false_ne_true
    | cons r rs =>
      rcases dequeue_of_cons dataSize hh with ⟨-, hf⟩ | ⟨-, -, hdata, hsize⟩
      · rw [hf] at hok
        exact absurd hok Bool.false_ne_true
      · exact ⟨r, rs, rfl, hdata, hsize⟩
  · rintro r rs rfl dataSize hroom
    rcases dequeue_of_cons dataSize hh with ⟨⟨room, hsome, hlt⟩, -⟩ | ⟨-, hok, -⟩
    · exact absurd (hroom room hsome) (Nat.not_le.mpr hlt)
    · exact hok
  · constructor
    · intro hnone
      cases es with
      | nil => rfl
      | cons r rs =>
        obtain ⟨entry, -, -, -, hpeek, -⟩ := dequeue_spec none hh
        rw [hpeek] at hnone
        exact absurd hnone (Option.some_ne_none _)
    · intro hnil
      exact peek_of_eq self (hempty.mpr hnil)
  · rintro r rs rfl
    obtain ⟨entry, -, hsz, hbytes, hpeek, -⟩ := dequeue_spec none hh
    refine ⟨entry.toNat, hpeek, ?_, hbytes⟩
    rw [← toNat_sizeAt, hsz]

/-- A successful enqueue appends its entry. -/
theorem Reachable.enqueue_of_ok {self : IOSharedDataQueue} {es : List (List UInt8)}
    {data : Nat → UInt8} {dataSize : UInt32} (h : Reachable self es)
    (hok : (self.enqueue data dataSize).1 = true) :
    Reachable (self.enqueue data dataSize).2 (es ++ [bytes data 0 dataSize.toNat]) := by
  have h' := h.enqueue data dataSize
  rwa [if_pos hok] at h'

/-- A successful dequeue takes the oldest entry. -/
theorem Reachable.dequeue_of_ok {self : IOSharedDataQueue} {es : List (List UInt8)}
    {dataSize : Option UInt32} (h : Reachable self es) (hok : (self.dequeue dataSize).ok = true) :
    Reachable (self.dequeue dataSize).self es.tail := by
  have h' := h.dequeue dataSize
  rwa [if_pos hok] at h'

/-- A queue of 48 bytes. Two entries of 16 bytes fill it to offset 40; the first is dequeued; an
entry of 8 bytes no longer fits after the second, so it wraps to the start, with its size also
written at 40; the second is dequeued. What is left is the wrapped entry, which the consumer
reaches through the size word at 40. -/
theorem is_fifo_across_wrap :
    let q₀ : IOSharedDataQueue := ⟨48, ⟨0, 0, fun _ => 0⟩⟩
    let q₁ := (q₀.enqueue (fun _ => 0xAA) 16).2
    let q₂ := (q₁.enqueue (fun _ => 0xBB) 16).2
    let q₃ := (q₂.dequeue (some 16)).self
    let q₄ := (q₃.enqueue (fun _ => 0xCC) 8).2
    let q₅ := (q₄.dequeue (some 16)).self
    let es := [List.replicate 8 0xCC]
    Reachable q₅ es ∧
    (q₅.dataQueue.head.toNat ≤ q₅.queueSize.toNat ∧
    q₅.dataQueue.tail.toNat ≤ q₅.queueSize.toNat ∧
    (q₅.dataQueue.head = q₅.dataQueue.tail ↔ es = []) ∧
    (∀ dataSize, (q₅.dequeue dataSize).ok = true →
      ∃ r rs, es = r :: rs ∧ (q₅.dequeue dataSize).data = dataSize.map (fun _ => r) ∧
        (q₅.dequeue dataSize).dataSize.map UInt32.toNat = dataSize.map fun _ => r.length) ∧
    (∀ r rs, es = r :: rs → ∀ dataSize : Option UInt32,
      (∀ room, dataSize = some room → r.length ≤ room.toNat) → (q₅.dequeue dataSize).ok = true) ∧
    (q₅.peek = none ↔ es = []) ∧
    (∀ r rs, es = r :: rs → ∃ off, q₅.peek = some off ∧
      rd 4 q₅.dataQueue.queue off = r.length ∧ bytes q₅.dataQueue.queue (off + 4) r.length = r) ∧
    (∀ data dataSize i, Ring.Live q₅.dataQueue.head.toNat q₅.dataQueue.tail.toNat i →
      (q₅.enqueue data dataSize).2.dataQueue.queue i = q₅.dataQueue.queue i)) := by
  intro q₀ q₁ q₂ q₃ q₄ q₅ es
  have r₁ : Reachable q₁ [List.replicate 16 0xAA] :=
    (Reachable.init 48 fun _ => 0).enqueue_of_ok (by decide)
  have r₂ : Reachable q₂ [List.replicate 16 0xAA, List.replicate 16 0xBB] :=
    r₁.enqueue_of_ok (by decide)
  have r₃ : Reachable q₃ [List.replicate 16 0xBB] := r₂.dequeue_of_ok (by decide)
  -- the third entry wraps
  have r₄ : Reachable q₄ [List.replicate 16 0xBB, List.replicate 8 0xCC] :=
    r₃.enqueue_of_ok (by decide)
  have r₅ : Reachable q₅ es := r₄.dequeue_of_ok (by decide)
  exact ⟨r₅, is_fifo q₅ es r₅⟩

/-! ## Against any client

Nothing below assumes that the client kept to the protocol: `head`, `tail` and every size word
may hold anything. -/

/-- A dequeue that returns false changes nothing. -/
theorem dequeue_self_of_fail (self : IOSharedDataQueue) (dataSize : Option UInt32)
    (h : (self.dequeue dataSize).ok = false) : (self.dequeue dataSize).self = self := by
  rcases dequeue_cases self dataSize with hd | ⟨entry, newHead, -, hd⟩
  · rw [hd]
  · rw [hd] at h ⊢
    rcases dequeued_cases self dataSize entry (sizeAt self.dataQueue.queue entry) newHead with
      ⟨_, -, -, hd'⟩ | ⟨-, hd'⟩
    · rw [hd']
    · rw [hd'] at h
      simp at h

/-- What a dequeue copies out are the bytes of an entry after its size word, all of them below
the queue's size. -/
theorem dequeue_data_below (self : IOSharedDataQueue) (dataSize : Option UInt32)
    (d : List UInt8) (h : (self.dequeue dataSize).data = some d) :
    ∃ off, 4 ≤ off ∧ off + d.length ≤ self.queueSize.toNat ∧ bytes self.dataQueue.queue off d.length = d := by
  rcases dequeue_cases self dataSize with hd | ⟨entry, newHead, hfit, hd⟩
  · rw [hd] at h
    simp at h
  rw [hd] at h
  rcases dequeued_cases self dataSize entry (sizeAt self.dataQueue.queue entry) newHead with
    ⟨_, -, -, hd'⟩ | ⟨-, hd'⟩
  · rw [hd'] at h
    simp at h
  rw [hd'] at h
  obtain ⟨room, -, hroom⟩ := Option.map_eq_some_iff.mp h
  subst hroom
  refine ⟨entry.toNat + 4, by omega, by rw [length_bytes]; omega, ?_⟩
  rw [length_bytes]

theorem peek_le (self : IOSharedDataQueue) (off : Nat) (h : self.peek = some off) :
    off ≤ self.queueSize.toNat := by
  unfold peek at h
  dsimp only at h
  split at h
  · split at h
    · simp at h
    rename_i hle
    rw [gt_iff_lt, UInt32.lt_iff_toNat_lt] at hle
    split at h
    · cases h
      exact Nat.zero_le _
    · cases h
      omega
  · simp at h

/-- What a caller sees of a dequeue: the return value, the bytes copied to `data`, what
`*dataSize` gets, and the new head. -/
def Dequeued.outcome (d : Dequeued) : Bool × Option (List UInt8) × Option UInt32 × UInt32 :=
  (d.ok, d.data, d.dataSize, d.self.dataQueue.head)

theorem dequeued_congr {self self' : IOSharedDataQueue}
    (hhead : self'.dataQueue.head = self.dataQueue.head) (dataSize : Option UInt32)
    (entry entrySize newHead : UInt32)
    (hm : bytes self'.dataQueue.queue (entry.toNat + 4) entrySize.toNat =
      bytes self.dataQueue.queue (entry.toNat + 4) entrySize.toNat) :
    (dequeued self' dataSize entry entrySize newHead).outcome =
      (dequeued self dataSize entry entrySize newHead).outcome := by
  cases dataSize with
  | none => rfl
  | some room =>
    simp only [dequeued]
    by_cases hroom : entrySize > room
    · rw [if_pos hroom, if_pos hroom]
      simp only [Dequeued.outcome, hhead]
    · rw [if_neg hroom, if_neg hroom]
      simp only [Dequeued.outcome, hm]

/-- A dequeue reads nothing at or past four bytes after the end of the queue: two states that
agree below there give the same outcome. -/
theorem dequeue_congr {self self' : IOSharedDataQueue} (dataSize : Option UInt32)
    (hQ : self'.queueSize = self.queueSize) (hhead : self'.dataQueue.head = self.dataQueue.head)
    (htail : self'.dataQueue.tail = self.dataQueue.tail)
    (hm : ∀ i, i < self.queueSize.toNat + 4 → self'.dataQueue.queue i = self.dataQueue.queue i) :
    (self'.dequeue dataSize).outcome = (self.dequeue dataSize).outcome := by
  -- the entry's bytes end by the queue's size
  have hcopy : ∀ entry entrySize : UInt32, entry.toNat + 4 + entrySize.toNat ≤ self.queueSize.toNat →
      (dequeued self' dataSize entry entrySize (entry + entrySize + 4)).outcome =
        (dequeued self dataSize entry entrySize (entry + entrySize + 4)).outcome := fun _ _ hfit =>
    dequeued_congr hhead dataSize _ _ _ (bytes_congr fun i _ hi => hm i (by omega))
  have hfail : (⟨false, none, none, self'⟩ : Dequeued).outcome = (⟨false, none, none, self⟩ : Dequeued).outcome := by
    simp only [Dequeued.outcome, hhead]
  have hsize₀ : sizeAt self'.dataQueue.queue 0 = sizeAt self.dataQueue.queue 0 :=
    sizeAt_congr fun i _ hi => hm i (by simp only [UInt32.toNat_zero] at hi; omega)
  unfold dequeue
  dsimp only
  rw [hQ, hhead, htail, hsize₀]
  by_cases hne : self.dataQueue.head ≠ self.dataQueue.tail
  · rw [if_pos hne, if_pos hne]
    by_cases hgt : self.dataQueue.head > self.queueSize
    · rw [if_pos hgt, if_pos hgt]
      exact hfail
    rw [if_neg hgt, if_neg hgt]
    rw [gt_iff_lt, UInt32.lt_iff_toNat_lt] at hgt
    -- the size word at the head is below the end of the queue and the `version` word
    rw [sizeAt_congr fun i _ hi => hm i (by omega)]
    by_cases hwrap : wrapTest self.queueSize self.dataQueue.head (sizeAt self.dataQueue.queue self.dataQueue.head) = true
    · rw [if_pos hwrap, if_pos hwrap]
      by_cases hsize : (sizeAt self.dataQueue.queue 0 > UINT32_MAX - DATA_QUEUE_ENTRY_HEADER_SIZE ||
          sizeAt self.dataQueue.queue 0 + DATA_QUEUE_ENTRY_HEADER_SIZE > self.queueSize) = true
      · rw [if_pos hsize, if_pos hsize]
        exact hfail
      rw [if_neg hsize, if_neg hsize]
      rw [size_test_iff toNat_UINT32_MAX (by decide), toNat_DATA_QUEUE_ENTRY_HEADER_SIZE] at hsize
      have := hcopy 0 (sizeAt self.dataQueue.queue 0) (by simp only [UInt32.toNat_zero]; omega)
      rwa [UInt32.zero_add] at this
    · rw [if_neg hwrap, if_neg hwrap]
      by_cases hsize : (sizeAt self.dataQueue.queue self.dataQueue.head >
            UINT32_MAX - DATA_QUEUE_ENTRY_HEADER_SIZE ||
          sizeAt self.dataQueue.queue self.dataQueue.head + DATA_QUEUE_ENTRY_HEADER_SIZE >
            UINT32_MAX - self.dataQueue.head ||
          sizeAt self.dataQueue.queue self.dataQueue.head + DATA_QUEUE_ENTRY_HEADER_SIZE +
            self.dataQueue.head > self.queueSize) = true
      · rw [if_pos hsize, if_pos hsize]
        exact hfail
      rw [if_neg hsize, if_neg hsize]
      rw [span_test_iff toNat_UINT32_MAX (by decide), toNat_DATA_QUEUE_ENTRY_HEADER_SIZE] at hsize
      have := hcopy self.dataQueue.head (sizeAt self.dataQueue.queue self.dataQueue.head) (by omega)
      rwa [UInt32.add_assoc] at this ⊢
  · rw [if_neg hne, if_neg hne]
    exact hfail

/-- `peek` reads nothing at or past four bytes after the end of the queue. -/
theorem peek_congr {self self' : IOSharedDataQueue}
    (hQ : self'.queueSize = self.queueSize) (hhead : self'.dataQueue.head = self.dataQueue.head)
    (htail : self'.dataQueue.tail = self.dataQueue.tail)
    (hm : ∀ i, i < self.queueSize.toNat + 4 → self'.dataQueue.queue i = self.dataQueue.queue i) :
    self'.peek = self.peek := by
  unfold peek
  dsimp only
  rw [hQ, hhead, htail]
  by_cases hne : self.dataQueue.head ≠ self.dataQueue.tail
  · rw [if_pos hne, if_pos hne]
    by_cases hgt : self.dataQueue.head > self.queueSize
    · rw [if_pos hgt, if_pos hgt]
    rw [if_neg hgt, if_neg hgt]
    rw [gt_iff_lt, UInt32.lt_iff_toNat_lt] at hgt
    rw [sizeAt_congr fun i _ hi => hm i (by omega)]
  · rw [if_neg hne, if_neg hne]

end IOSharedDataQueue

/-- Against any client, the kernel's accesses stay inside the queue. Both enqueues store only
below the size the kernel keeps, and one that returns false changes nothing. A dequeue copies out
only the bytes of an entry after its size word, below that size, and one that returns false
changes nothing. `peek` points no further than the end of the queue. Neither `dequeue` nor
`peek` reads past the appendix's `version` word, the four bytes after the end of the queue. -/
theorem enqueue_dequeue_stay_in_queue (k : IODataQueue) (q : IOSharedDataQueue)
    (data : Nat → UInt8) (dataSize : UInt32) (room : Option UInt32) :
    (∀ i, k.queueSize.toNat ≤ i →
      (k.enqueue data dataSize).2.dataQueue.queue i = k.dataQueue.queue i) ∧
    ((k.enqueue data dataSize).1 = false → (k.enqueue data dataSize).2 = k) ∧
    (∀ i, q.queueSize.toNat ≤ i →
      (q.enqueue data dataSize).2.dataQueue.queue i = q.dataQueue.queue i) ∧
    ((q.enqueue data dataSize).1 = false → (q.enqueue data dataSize).2 = q) ∧
    (∀ d, (q.dequeue room).data = some d → ∃ off, 4 ≤ off ∧ off + d.length ≤ q.queueSize.toNat ∧
      bytes q.dataQueue.queue off d.length = d) ∧
    ((q.dequeue room).ok = false → (q.dequeue room).self = q) ∧
    (∀ off, q.peek = some off → off ≤ q.queueSize.toNat) ∧
    (∀ q' : IOSharedDataQueue, q'.queueSize = q.queueSize → q'.dataQueue.head = q.dataQueue.head →
      q'.dataQueue.tail = q.dataQueue.tail →
      (∀ i, i < q.queueSize.toNat + 4 → q'.dataQueue.queue i = q.dataQueue.queue i) →
      (q'.dequeue room).outcome = (q.dequeue room).outcome ∧ q'.peek = q.peek) := by
  refine ⟨enqueueTo_below k.queueSize k.dataQueue data dataSize, fun h => ?_,
    enqueueTo_below q.queueSize q.dataQueue data dataSize, fun h => ?_,
    IOSharedDataQueue.dequeue_data_below q room, IOSharedDataQueue.dequeue_self_of_fail q room,
    IOSharedDataQueue.peek_le q,
    fun q' hQ hhead htail hm => ⟨IOSharedDataQueue.dequeue_congr room hQ hhead htail hm,
      IOSharedDataQueue.peek_congr hQ hhead htail hm⟩⟩
  · -- a refused enqueue hands back the memory it was given
    show { k with dataQueue := (enqueueTo k.queueSize k.dataQueue data dataSize).2 } = k
    rw [enqueueTo_of_false h]
  · show { q with dataQueue := (enqueueTo q.queueSize q.dataQueue data dataSize).2 } = q
    rw [enqueueTo_of_false h]

end IOKit.DataQueue
