import Mathlib

/-!
# The psynch kernel wait queues: `kern_synch.c`

A `ksyn_wait_queue` holds a read and a write queue of waiting elements, each tagged with the
lock sequence number it waits for; sequence numbers count in steps of `PTHRW_INC` and wrap at
`2^32`, so they are compared by `is_seqlower` and `is_seqhigher` within half the counter range.
`struct ksyn_queue` documents `ksynq_firstnum` and `ksynq_lastnum` as the lowest and highest
sequence in the queue (`kern_synch.c:111-112`), and `kw_lowseq` and `kw_highseq` of the wait queue
as the lowest and highest over its queues (`:143-144`).

A `SEQFIT` insert keeps a queue sorted, and there the head and the tail are the lowest and the
highest. A `FIRSTFIT` insert appends in arrival order and keeps `ksynq_firstnum` and
`ksynq_lastnum` as a running minimum and maximum; but `ksyn_queue_remove_item` (`:2354-2358`)
resets them to the sequences of the head and the tail, which in a `FIRSTFIT` queue need not be
the lowest and the highest, and `find_nexthighseq` then takes the wrong `kw_highseq` from them
(`firstfit_remove_loses_bounds`).

Elements are told apart by an identity, the address of the `ksyn_waitq_element`;
`uthread_is_cancelled` is a parameter. A `panic` gives no result.
-/

namespace Pthread

def PTHRW_COUNT_SHIFT : Nat := 8
def PTHRW_INC : UInt32 := (1 : UInt32) <<< 8
def PTHRW_BIT_MASK : UInt32 := ((1 : UInt32) <<< 8) - 1
def PTHRW_COUNT_MASK : UInt32 := ~~~PTHRW_BIT_MASK
def PTHRW_MAX_READERS : UInt32 := PTHRW_COUNT_MASK

def is_seqlower (x y : UInt32) : Bool :=
  let x := x &&& PTHRW_COUNT_MASK
  let y := y &&& PTHRW_COUNT_MASK
  if x < y then y - x < PTHRW_MAX_READERS / 2 else x - y > PTHRW_MAX_READERS / 2

def is_seqhigher (x y : UInt32) : Bool :=
  let x := x &&& PTHRW_COUNT_MASK
  let y := y &&& PTHRW_COUNT_MASK
  if x > y then x - y < PTHRW_MAX_READERS / 2 else y - x > PTHRW_MAX_READERS / 2

inductive KweState
  | KWE_THREAD_INWAIT
  | KWE_THREAD_PREPOST
  | KWE_THREAD_BROADCAST
  deriving DecidableEq, Repr

structure KsynWaitqElement where
  /-- The element's address. -/
  kwe_id : Nat
  kwe_state : KweState
  kwe_lockseq : UInt32
  deriving DecidableEq, Repr

structure KsynQueue where
  ksynq_kwelist : List KsynWaitqElement
  ksynq_count : Nat
  ksynq_firstnum : UInt32
  ksynq_lastnum : UInt32
  deriving DecidableEq, Repr

def KSYN_QUEUE_WRITE : Nat := 1
def KSYN_QUEUE_MAX : Nat := 2

structure KsynWaitQueue where
  kw_ksynqueues : List KsynQueue
  kw_inqueue : Nat
  kw_lowseq : UInt32
  kw_highseq : UInt32
  deriving DecidableEq, Repr

def FIRSTFIT : Nat := 1

/-- The `errno` values `ksyn_queue_insert` returns. -/
def EBUSY : Nat := 16
def ESRCH : Nat := 3

def ksyn_queue_init : KsynQueue := ⟨[], 0, 0, 0⟩

/-- A wait queue with its `KSYN_QUEUE_MAX` queues initialised and nothing queued. -/
def KsynWaitQueue.empty : KsynWaitQueue :=
  ⟨List.replicate KSYN_QUEUE_MAX ksyn_queue_init, 0, 0, 0⟩

def KsynWaitQueue.queue (kwq : KsynWaitQueue) (kqi : Nat) : KsynQueue :=
  kwq.kw_ksynqueues.getD kqi ksyn_queue_init

/-- `kwe->kwe_kwqqueue != NULL`: the element sits in one of the queues. -/
def KsynWaitQueue.enqueued (kwq : KsynWaitQueue) (kwe : KsynWaitqElement) : Bool :=
  kwq.kw_ksynqueues.any fun kq => kq.ksynq_kwelist.any fun e => e.kwe_id = kwe.kwe_id

def ksyn_queue_find_seq (kq : KsynQueue) (seq : UInt32) : Option KsynWaitqElement :=
  kq.ksynq_kwelist.find? fun kwe => kwe.kwe_lockseq &&& PTHRW_COUNT_MASK = seq

def update_low_high (kwq : KsynWaitQueue) (lockseq : UInt32) : KsynWaitQueue :=
  if kwq.kw_inqueue = 1 then { kwq with kw_lowseq := lockseq, kw_highseq := lockseq }
  else
    { kwq with
      kw_lowseq := if is_seqlower lockseq kwq.kw_lowseq then lockseq else kwq.kw_lowseq,
      kw_highseq := if is_seqhigher lockseq kwq.kw_highseq then lockseq else kwq.kw_highseq }

/-- The loop of `ksyn_queue_insert`'s last case: before the first element higher than `lockseq`,
or `ESRCH` when there is none. -/
def insertBeforeHigher (kwe : KsynWaitqElement) (lockseq : UInt32) :
    List KsynWaitqElement → Option (List KsynWaitqElement)
  | [] => none
  | q_kwe :: rest =>
    if is_seqhigher q_kwe.kwe_lockseq lockseq then some (kwe :: q_kwe :: rest)
    else (insertBeforeHigher kwe lockseq rest).map (q_kwe :: ·)

section
variable (uthread_is_cancelled : KsynWaitqElement → Bool)

/-- The queue after an insert and the `errno`, before the counts are updated. -/
def queueInsert (kq : KsynQueue) (kwe : KsynWaitqElement) (lockseq : UInt32) (fit : Nat) :
    KsynQueue × Nat :=
  if kq.ksynq_count = 0 then
    let kq := { kq with ksynq_kwelist := kwe :: kq.ksynq_kwelist }
    ({ kq with ksynq_firstnum := lockseq, ksynq_lastnum := lockseq }, 0)
  else if fit = FIRSTFIT then
    -- arrival order; the bounds as a running minimum and maximum
    let first := if is_seqlower lockseq kq.ksynq_firstnum then lockseq else kq.ksynq_firstnum
    let last := if is_seqhigher lockseq kq.ksynq_lastnum then lockseq else kq.ksynq_lastnum
    ({ kq with
        ksynq_kwelist := kq.ksynq_kwelist ++ [kwe], ksynq_firstnum := first, ksynq_lastnum := last },
      0)
  else if lockseq = kq.ksynq_firstnum ∨ lockseq = kq.ksynq_lastnum then
    -- a second element of the same sequence only for a prepost that replaces a cancelled wait
    if kwe.kwe_state = .KWE_THREAD_PREPOST then
      match ksyn_queue_find_seq kq lockseq with
      | some tmp =>
        if uthread_is_cancelled tmp then
          ({ kq with ksynq_kwelist := kq.ksynq_kwelist ++ [kwe] }, 0)
        else (kq, EBUSY)
      | none => (kq, EBUSY)
    else (kq, EBUSY)
  else if is_seqlower kq.ksynq_lastnum lockseq then
    ({ kq with ksynq_kwelist := kq.ksynq_kwelist ++ [kwe], ksynq_lastnum := lockseq }, 0)
  else if is_seqlower lockseq kq.ksynq_firstnum then
    ({ kq with ksynq_kwelist := kwe :: kq.ksynq_kwelist, ksynq_firstnum := lockseq }, 0)
  else
    match insertBeforeHigher kwe lockseq kq.ksynq_kwelist with
    | some list => ({ kq with ksynq_kwelist := list }, 0)
    | none => (kq, ESRCH)

def ksyn_queue_insert (kwq : KsynWaitQueue) (kqi : Nat) (kwe : KsynWaitqElement) (mgen : UInt32)
    (fit : Nat) : Option (Nat × KsynWaitQueue) :=
  if kwq.enqueued kwe then none
  else
    let lockseq := mgen &&& PTHRW_COUNT_MASK
    let (kq, res) := queueInsert uthread_is_cancelled (kwq.queue kqi) kwe lockseq fit
    if res = 0 then
      let kwq := { kwq with
        kw_ksynqueues := kwq.kw_ksynqueues.set kqi { kq with ksynq_count := kq.ksynq_count + 1 },
        kw_inqueue := kwq.kw_inqueue + 1 }
      some (0, update_low_high kwq lockseq)
    else some (res, kwq)

end

/-- `find_nextlowseq`: the lowest `ksynq_firstnum` of the non-empty queues. -/
def find_nextlowseq (kwq : KsynWaitQueue) : UInt32 :=
  let step := fun (acc : Option UInt32) (kq : KsynQueue) =>
    if kq.ksynq_count > 0 then
      match acc with
      | none => some kq.ksynq_firstnum
      | some lowest => if is_seqlower kq.ksynq_firstnum lowest then some kq.ksynq_firstnum else acc
    else acc
  ((kwq.kw_ksynqueues.take KSYN_QUEUE_MAX).foldl step none).getD 0

/-- `find_nexthighseq`: the highest `ksynq_lastnum` of the non-empty queues. -/
def find_nexthighseq (kwq : KsynWaitQueue) : UInt32 :=
  let step := fun (acc : Option UInt32) (kq : KsynQueue) =>
    if kq.ksynq_count > 0 then
      match acc with
      | none => some kq.ksynq_lastnum
      | some highest => if is_seqhigher kq.ksynq_lastnum highest then some kq.ksynq_lastnum else acc
    else acc
  ((kwq.kw_ksynqueues.take KSYN_QUEUE_MAX).foldl step none).getD 0

/-- The queue `ksyn_queue_remove_item` leaves: the bounds are read off the head and the tail
of what remains. -/
def queueRemove (kq : KsynQueue) (kwe : KsynWaitqElement) : KsynQueue :=
  let list := kq.ksynq_kwelist.erase kwe
  let count := kq.ksynq_count - 1
  let bound := fun (e : Option KsynWaitqElement) =>
    if count > 0 then (e.map fun e => e.kwe_lockseq &&& PTHRW_COUNT_MASK).getD 0 else 0
  ⟨list, count, bound list.head?, bound list.getLast?⟩

/-- `ksyn_queue_remove_item` of `kwe` from queue `kqi`; it panics on an empty queue and on an
element of another queue. -/
def ksyn_queue_remove_item (kwq : KsynWaitQueue) (kqi : Nat) (kwe : KsynWaitqElement) :
    Option KsynWaitQueue :=
  let kq := kwq.queue kqi
  if kq.ksynq_count = 0 then none
  else if kwe ∉ kq.ksynq_kwelist then none
  else
    let kwq := { kwq with
      kw_ksynqueues := kwq.kw_ksynqueues.set kqi (queueRemove kq kwe),
      kw_inqueue := kwq.kw_inqueue - 1 }
    let curseq := kwe.kwe_lockseq &&& PTHRW_COUNT_MASK
    if kwq.kw_inqueue > 0 then
      some { kwq with
        kw_lowseq := if kwq.kw_lowseq = curseq then find_nextlowseq kwq else kwq.kw_lowseq,
        kw_highseq := if kwq.kw_highseq = curseq then find_nexthighseq kwq else kwq.kw_highseq }
    else some { kwq with kw_lowseq := 0, kw_highseq := 0 }

/-! ## The counts

Whatever the order of a queue, `ksynq_count` is its length and `kw_inqueue` the number of
elements over both queues: an insert that returns 0 adds one element and one to each count, one
that fails changes nothing, and a remove takes one element and one from each count. -/

section Counts
variable {uthread_is_cancelled : KsynWaitqElement → Bool}

/-- The number of elements over all the queues. -/
def KsynWaitQueue.total (kwq : KsynWaitQueue) : Nat :=
  (kwq.kw_ksynqueues.map fun kq => kq.ksynq_kwelist.length).sum

structure CountInv (kwq : KsynWaitQueue) : Prop where
  length : kwq.kw_ksynqueues.length = KSYN_QUEUE_MAX
  count : ∀ kq ∈ kwq.kw_ksynqueues, kq.ksynq_count = kq.ksynq_kwelist.length
  inqueue : kwq.kw_inqueue = kwq.total

theorem sum_map_set {α : Type} (f : α → Nat) :
    ∀ (l : List α) (i : Nat) (x : α) (h : i < l.length),
      ((l.set i x).map f).sum + f l[i] = (l.map f).sum + f x
  | _ :: _, 0, _, _ => by simp; omega
  | a :: l, i + 1, x, h => by
    have := sum_map_set f l i x (by simpa using h)
    simp only [List.set_cons_succ, List.map_cons, List.sum_cons, List.getElem_cons_succ]
    omega

theorem length_insertBeforeHigher {kwe : KsynWaitqElement} {lockseq : UInt32} :
    ∀ {l l' : List KsynWaitqElement}, insertBeforeHigher kwe lockseq l = some l' →
      l'.length = l.length + 1
  | [], _, h => by simp [insertBeforeHigher] at h
  | q_kwe :: rest, l', h => by
    unfold insertBeforeHigher at h
    split at h
    · cases h; simp
    · obtain ⟨l'', h', rfl⟩ := Option.map_eq_some_iff.1 h
      simp [length_insertBeforeHigher h']

variable (uthread_is_cancelled) in
/-- `queueInsert` leaves the count to its caller. -/
theorem queueInsert_count (kq : KsynQueue) (kwe : KsynWaitqElement) (lockseq : UInt32) (fit : Nat) :
    (queueInsert uthread_is_cancelled kq kwe lockseq fit).1.ksynq_count = kq.ksynq_count := by
  unfold queueInsert
  repeat' split
  all_goals simp_all

variable (uthread_is_cancelled) in
/-- An insert that succeeds adds one element; one that fails leaves the queue as it was. -/
theorem queueInsert_cases (kq : KsynQueue) (kwe : KsynWaitqElement) (lockseq : UInt32) (fit : Nat) :
    ((queueInsert uthread_is_cancelled kq kwe lockseq fit).2 = 0 ∧
      (queueInsert uthread_is_cancelled kq kwe lockseq fit).1.ksynq_kwelist.length =
        kq.ksynq_kwelist.length + 1) ∨
    ((queueInsert uthread_is_cancelled kq kwe lockseq fit).2 ≠ 0 ∧
      (queueInsert uthread_is_cancelled kq kwe lockseq fit).1 = kq) := by
  unfold queueInsert
  split
  · exact .inl ⟨rfl, by simp⟩
  split
  · exact .inl ⟨rfl, by simp⟩
  split
  · -- the sequence of a bound: only a prepost replacing a cancelled wait goes in
    split
    · split
      · split
        · exact .inl ⟨rfl, by simp⟩
        · exact .inr ⟨show EBUSY ≠ 0 by decide, rfl⟩
      · exact .inr ⟨show EBUSY ≠ 0 by decide, rfl⟩
    · exact .inr ⟨show EBUSY ≠ 0 by decide, rfl⟩
  split
  · exact .inl ⟨rfl, by simp⟩
  split
  · exact .inl ⟨rfl, by simp⟩
  split
  · rename_i list h
    exact .inl ⟨rfl, length_insertBeforeHigher h⟩
  · exact .inr ⟨show ESRCH ≠ 0 by decide, rfl⟩

@[simp] theorem update_low_high_queues (kwq : KsynWaitQueue) (lockseq : UInt32) :
    (update_low_high kwq lockseq).kw_ksynqueues = kwq.kw_ksynqueues := by
  unfold update_low_high
  split <;> rfl

@[simp] theorem update_low_high_inqueue (kwq : KsynWaitQueue) (lockseq : UInt32) :
    (update_low_high kwq lockseq).kw_inqueue = kwq.kw_inqueue := by
  unfold update_low_high
  split <;> rfl

theorem queue_eq_getElem {kwq : KsynWaitQueue} {kqi : Nat} (h : kqi < kwq.kw_ksynqueues.length) :
    kwq.queue kqi = kwq.kw_ksynqueues[kqi] := by
  simp [KsynWaitQueue.queue, List.getD_eq_getElem?_getD, h]

theorem CountInv.insert {kwq kwq' : KsynWaitQueue} {kqi : Nat} {kwe : KsynWaitqElement}
    {mgen : UInt32} {fit res : Nat} (hI : CountInv kwq) (hkqi : kqi < KSYN_QUEUE_MAX)
    (h : ksyn_queue_insert uthread_is_cancelled kwq kqi kwe mgen fit = some (res, kwq')) :
    CountInv kwq' := by
  have hlt : kqi < kwq.kw_ksynqueues.length := hI.length ▸ hkqi
  have hq := queue_eq_getElem hlt
  unfold ksyn_queue_insert at h
  split at h
  · cases h
  · dsimp only at h
    rcases queueInsert_cases uthread_is_cancelled (kwq.queue kqi) kwe
      (mgen &&& PTHRW_COUNT_MASK) fit with ⟨hok, hlen⟩ | ⟨hfail, hsame⟩
    · -- one more element, counted in the queue and in `kw_inqueue`
      rw [if_pos hok] at h
      cases h
      have hcount := queueInsert_count uthread_is_cancelled
        (kwq.queue kqi) kwe (mgen &&& PTHRW_COUNT_MASK) fit
      have hsum := sum_map_set (fun kq => kq.ksynq_kwelist.length) kwq.kw_ksynqueues kqi
        { (queueInsert uthread_is_cancelled (kwq.queue kqi) kwe (mgen &&& PTHRW_COUNT_MASK) fit).1 with
          ksynq_count := (queueInsert uthread_is_cancelled (kwq.queue kqi) kwe
            (mgen &&& PTHRW_COUNT_MASK) fit).1.ksynq_count + 1 } hlt
      refine ⟨by simpa using hI.length, fun kq hkq => ?_, ?_⟩
      · simp only [update_low_high_queues] at hkq
        rcases List.mem_or_eq_of_mem_set hkq with hkq | rfl
        · exact hI.count kq hkq
        · simp only [hcount, hlen]
          rw [hI.count _ (hq ▸ List.getElem_mem hlt)]
      · simp only [KsynWaitQueue.total, update_low_high_queues, update_low_high_inqueue] at hsum ⊢
        rw [hI.inqueue, KsynWaitQueue.total]
        rw [← hq, hlen] at hsum
        omega
    · rw [if_neg hfail] at h
      cases h
      exact hI

/-- What a remove that does not panic leaves: the element was in the queue, which loses it,
and `kw_inqueue` goes down by one. -/
theorem ksyn_queue_remove_item_eq_some {kwq kwq' : KsynWaitQueue} {kqi : Nat}
    {kwe : KsynWaitqElement} (h : ksyn_queue_remove_item kwq kqi kwe = some kwq') :
    kwe ∈ (kwq.queue kqi).ksynq_kwelist ∧
      kwq'.kw_ksynqueues = kwq.kw_ksynqueues.set kqi (queueRemove (kwq.queue kqi) kwe) ∧
      kwq'.kw_inqueue = kwq.kw_inqueue - 1 := by
  unfold ksyn_queue_remove_item at h
  dsimp only at h
  split_ifs at h with h0 hmem <;> cases h <;> exact ⟨hmem, rfl, rfl⟩

theorem CountInv.remove {kwq kwq' : KsynWaitQueue} {kqi : Nat} {kwe : KsynWaitqElement}
    (hI : CountInv kwq) (hkqi : kqi < KSYN_QUEUE_MAX)
    (h : ksyn_queue_remove_item kwq kqi kwe = some kwq') : CountInv kwq' := by
  have hlt : kqi < kwq.kw_ksynqueues.length := hI.length ▸ hkqi
  have hq := queue_eq_getElem hlt
  have hmemq : kwq.queue kqi ∈ kwq.kw_ksynqueues := hq ▸ List.getElem_mem hlt
  obtain ⟨hmem, hqueues, hinqueue⟩ := ksyn_queue_remove_item_eq_some h
  -- one element leaves the queue, and one leaves each count
  have hlen : (queueRemove (kwq.queue kqi) kwe).ksynq_kwelist.length =
      (kwq.queue kqi).ksynq_kwelist.length - 1 := List.length_erase_of_mem hmem
  have hpos : 0 < (kwq.queue kqi).ksynq_kwelist.length := List.length_pos_of_mem hmem
  have hsum := sum_map_set (fun kq => kq.ksynq_kwelist.length) kwq.kw_ksynqueues kqi
    (queueRemove (kwq.queue kqi) kwe) hlt
  rw [← hq, hlen] at hsum
  refine ⟨by simpa [hqueues] using hI.length, fun kq hkq => ?_, ?_⟩
  · rw [hqueues] at hkq
    rcases List.mem_or_eq_of_mem_set hkq with hkq | rfl
    · exact hI.count kq hkq
    · simp only [queueRemove, List.length_erase_of_mem hmem, hI.count _ hmemq]
  · simp only [KsynWaitQueue.total, hqueues, hinqueue] at hsum ⊢
    rw [hI.inqueue, KsynWaitQueue.total]
    omega

variable (uthread_is_cancelled) in
/-- The wait queues that `ksyn_queue_insert` and `ksyn_queue_remove_item` build from an empty
one, on the read and the write queue. -/
inductive Reachable : KsynWaitQueue → Prop
  | empty : Reachable KsynWaitQueue.empty
  | insert {kwq kwq' : KsynWaitQueue} {kqi : Nat} {kwe : KsynWaitqElement} {mgen : UInt32}
      {fit res : Nat} : Reachable kwq → kqi < KSYN_QUEUE_MAX →
      ksyn_queue_insert uthread_is_cancelled kwq kqi kwe mgen fit = some (res, kwq') →
      Reachable kwq'
  | remove {kwq kwq' : KsynWaitQueue} {kqi : Nat} {kwe : KsynWaitqElement} : Reachable kwq →
      kqi < KSYN_QUEUE_MAX → ksyn_queue_remove_item kwq kqi kwe = some kwq' → Reachable kwq'

end Counts

/-- Three `FIRSTFIT` waiters on the write queue with sequences `0x300`, `0x700` and `0x100` in
arrival order; the bounds are `0x100` and `0x700`. Removing the `0x700` waiter leaves
`[0x300, 0x100]`, whose lowest is `0x100` and highest `0x300`, but `ksynq_firstnum` becomes the
head's `0x300`, `ksynq_lastnum` the tail's `0x100`, and `kw_highseq` follows the latter. -/
theorem firstfit_remove_loses_bounds :
    ((ksyn_queue_insert (fun _ => false) KsynWaitQueue.empty KSYN_QUEUE_WRITE
        ⟨1, .KWE_THREAD_INWAIT, 0x300⟩ 0x300 FIRSTFIT).bind fun (r₁, kwq) =>
      (ksyn_queue_insert (fun _ => false) kwq KSYN_QUEUE_WRITE
        ⟨2, .KWE_THREAD_INWAIT, 0x700⟩ 0x700 FIRSTFIT).bind fun (r₂, kwq) =>
      (ksyn_queue_insert (fun _ => false) kwq KSYN_QUEUE_WRITE
        ⟨3, .KWE_THREAD_INWAIT, 0x100⟩ 0x100 FIRSTFIT).bind fun (r₃, kwq) =>
      if r₁ = 0 ∧ r₂ = 0 ∧ r₃ = 0 then
        ksyn_queue_remove_item kwq KSYN_QUEUE_WRITE ⟨2, .KWE_THREAD_INWAIT, 0x700⟩
      else none).map
      (fun kwq => ((kwq.queue KSYN_QUEUE_WRITE).ksynq_kwelist.map (·.kwe_lockseq),
        (kwq.queue KSYN_QUEUE_WRITE).ksynq_firstnum, (kwq.queue KSYN_QUEUE_WRITE).ksynq_lastnum,
        kwq.kw_highseq)) =
      some ([0x300, 0x100], 0x300, 0x100, 0x100) := by
  decide

end Pthread
