import Darwin.Kern.Bits
import Mathlib.Algebra.BigOperators.Group.Finset.Piecewise
import Mathlib.Algebra.Order.BigOperators.Group.Finset

/-!
# The timeshare run queue (`osfmk/kern/sched_prim.c:3304-3454`, `sched.h:223`)

A `struct run_queue` keeps one circle queue per priority below `NRQS`, here a list from its head
on, and four summaries of them: `count`, `urgency`, the `bitmap` of non-empty levels and `highq`.
Enqueue raises `highq` only when it fills an empty level; dequeue and remove recompute it with
`bitmap_first` when they empty one. `SCHED(priority_is_urgent)` is the parameter `urgent`.

`Inv` is the relation of the summaries to the queues. It holds at `run_queue_init` and after every
enqueue of a thread not queued, dequeue and removal of a queued thread (`Inv.enqueue`,
`Inv.afterRemove`), so along every run (`Reachable.inv`). From it `highq` is the highest non-empty
level (`Inv.highest`), which is what dequeue and peek take from, and enqueue reports a rise exactly
when the new priority is above every queued one (`Inv.enqueue_result`).
-/

namespace Kern

/-- `NRQS` (`sched.h:176`): `BASEPRI_REALTIME`, the non-realtime levels. -/
def NRQS : Nat := 96

def NOPRI : Int := -1

/-- `SCHED_TAILQ` and `SCHED_HEADQ` of `sched_options_t` (`sched_prim.h:244`). -/
def SCHED_TAILQ : Nat := 0x1

def SCHED_HEADQ : Nat := 0x2

/-- A `struct run_queue`; `runq_stats` only gathers statistics and is left out. -/
structure RunQueue (T : Type) where
  highq : Int
  bitmap : List UInt64
  count : Int
  urgency : Int
  queues : List (List T)

namespace RunQueue

variable {T : Type}

/-- `rq->queues[p]`, head first. -/
def queue (rq : RunQueue T) (p : Nat) : List T := rq.queues.getD p []

/-- A queue replaced: the other levels stay. -/
theorem queue_set (rq : RunQueue T) {p : Nat} (hp : p < rq.queues.length) (q : List T) :
    (fun j => (rq.queues.set p q).getD j []) = Function.update rq.queue p q := by
  funext j
  by_cases hj : j = p
  · subst hj
    simp [List.getD_eq_getElem?_getD, hp]
  · simp [queue, List.getD_eq_getElem?_getD, Ne.symm hj, hj]

theorem queue_of_length_le (rq : RunQueue T) {p : Nat} (hp : rq.queues.length ≤ p) : rq.queue p = [] := by
  simp [queue, List.getD_eq_getElem?_getD, List.getElem?_eq_none hp]

end RunQueue

open RunQueue

section Ops

variable {T : Type} (urgent : Nat → Bool)

/-- **`run_queue_init`**. -/
def run_queue_init : RunQueue T := ⟨NOPRI, List.replicate (BITMAP_LEN NRQS) 0, 0, 0, List.replicate NRQS []⟩

/-- What `run_queue_dequeue` and `run_queue_remove` do once `queues[pri]` lost a thread and is
`queue`: `count--`, `urgency--` for an urgent level and, when the level is now empty, its bit
cleared and `highq = bitmap_first(rq->bitmap, NRQS)`. -/
def afterRemove (rq : RunQueue T) (pri : Nat) (queue : List T) : RunQueue T :=
  let rq := { rq with queues := rq.queues.set pri queue, count := rq.count - 1 }
  let rq := if urgent pri then { rq with urgency := rq.urgency - 1 } else rq
  if queue = [] then
    let bitmap := bitmap_clear rq.bitmap pri
    { rq with bitmap := bitmap, highq := bitmap_first bitmap NRQS }
  else rq

/-- **`run_queue_dequeue`**: the head of `queues[highq]` for `SCHED_HEADQ`, else its tail; `none`
where the source asserts that a thread was found. -/
def run_queue_dequeue (rq : RunQueue T) (options : Nat) : Option (T × RunQueue T) :=
  let queue := rq.queue rq.highq.toNat
  let r := if options &&& SCHED_HEADQ ≠ 0 then (queue.head?, queue.tail) else (queue.getLast?, queue.dropLast)
  match r with
  | (none, _) => none
  | (some thread, queue) => some (thread, afterRemove urgent rq rq.highq.toNat queue)

/-- The level `run_queue_enqueue` leaves: the thread alone, or at the tail for `SCHED_TAILQ`, else at
the head. -/
def enqueuedQueue (queue : List T) (thread : T) (options : Nat) : List T :=
  if queue = [] then [thread] else if options &&& SCHED_TAILQ ≠ 0 then queue ++ [thread] else thread :: queue

/-- **`run_queue_enqueue`**: `TRUE` when the thread filled an empty level above `highq`. -/
def run_queue_enqueue (rq : RunQueue T) (thread : T) (sched_pri options : Nat) : Bool × RunQueue T :=
  let queue := rq.queue sched_pri
  -- `circle_queue_empty(queue)`: only then the bit is set and `highq` may rise
  let filled := decide (queue = [])
  let rq := { rq with queues := rq.queues.set sched_pri (enqueuedQueue queue thread options) }
  let rq := if filled then { rq with bitmap := bitmap_set rq.bitmap sched_pri } else rq
  let result := filled && decide (rq.highq < (sched_pri : Int))
  let rq := if result then { rq with highq := (sched_pri : Int) } else rq
  let rq := if urgent sched_pri then { rq with urgency := rq.urgency + 1 } else rq
  (result, { rq with count := rq.count + 1 })

/-- **`run_queue_remove`**: `circle_dequeue` of the thread from `queues[sched_pri]`. -/
def run_queue_remove [DecidableEq T] (rq : RunQueue T) (thread : T) (sched_pri : Nat) : RunQueue T :=
  afterRemove urgent rq sched_pri ((rq.queue sched_pri).erase thread)

/-- **`run_queue_peek`**. -/
def run_queue_peek (rq : RunQueue T) : Option T := if 0 < rq.count then (rq.queue rq.highq.toNat).head? else none

/-! ## What each operation changes -/

section Fields

variable (rq : RunQueue T) (pri : Nat) (q : List T)

@[simp] theorem afterRemove_length : (afterRemove urgent rq pri q).queues.length = rq.queues.length := by
  unfold afterRemove; split_ifs <;> simp

theorem afterRemove_queue (hp : pri < rq.queues.length) :
    (afterRemove urgent rq pri q).queue = Function.update rq.queue pri q := by
  rw [← queue_set rq hp q]
  unfold afterRemove; split_ifs <;> rfl

theorem afterRemove_count : (afterRemove urgent rq pri q).count = rq.count - 1 := by
  unfold afterRemove; split_ifs <;> rfl

theorem afterRemove_urgency :
    (afterRemove urgent rq pri q).urgency = rq.urgency - if urgent pri then 1 else 0 := by
  unfold afterRemove; split_ifs <;> simp

theorem afterRemove_bitmap :
    (afterRemove urgent rq pri q).bitmap = if q = [] then bitmap_clear rq.bitmap pri else rq.bitmap := by
  unfold afterRemove; split_ifs <;> rfl

theorem afterRemove_highq :
    (afterRemove urgent rq pri q).highq = if q = [] then bitmap_first (bitmap_clear rq.bitmap pri) NRQS else rq.highq := by
  unfold afterRemove; split_ifs <;> rfl

variable (thread : T) (options : Nat)

theorem enqueue_queues :
    (run_queue_enqueue urgent rq thread pri options).2.queues = rq.queues.set pri (enqueuedQueue (rq.queue pri) thread options) := by
  unfold run_queue_enqueue
  by_cases he : rq.queue pri = [] <;> by_cases hu : urgent pri = true <;> by_cases hl : rq.highq < pri <;>
    simp [he, hu, hl]

@[simp] theorem enqueue_length : (run_queue_enqueue urgent rq thread pri options).2.queues.length = rq.queues.length := by
  simp [enqueue_queues]

theorem enqueue_queue (hp : pri < rq.queues.length) :
    (run_queue_enqueue urgent rq thread pri options).2.queue =
      Function.update rq.queue pri (enqueuedQueue (rq.queue pri) thread options) := by
  rw [← queue_set rq hp, ← enqueue_queues]
  rfl

theorem enqueue_count : (run_queue_enqueue urgent rq thread pri options).2.count = rq.count + 1 := by
  unfold run_queue_enqueue
  by_cases he : rq.queue pri = [] <;> by_cases hu : urgent pri = true <;> by_cases hl : rq.highq < pri <;>
    simp [he, hu, hl]

theorem enqueue_urgency :
    (run_queue_enqueue urgent rq thread pri options).2.urgency = rq.urgency + if urgent pri then 1 else 0 := by
  unfold run_queue_enqueue
  by_cases he : rq.queue pri = [] <;> by_cases hu : urgent pri = true <;> by_cases hl : rq.highq < pri <;>
    simp [he, hu, hl]

theorem enqueue_bitmap :
    (run_queue_enqueue urgent rq thread pri options).2.bitmap =
      if rq.queue pri = [] then bitmap_set rq.bitmap pri else rq.bitmap := by
  unfold run_queue_enqueue
  by_cases he : rq.queue pri = [] <;> by_cases hu : urgent pri = true <;> by_cases hl : rq.highq < pri <;>
    simp [he, hu, hl]

theorem enqueue_highq :
    (run_queue_enqueue urgent rq thread pri options).2.highq =
      if rq.queue pri = [] ∧ rq.highq < pri then (pri : Int) else rq.highq := by
  unfold run_queue_enqueue
  by_cases he : rq.queue pri = [] <;> by_cases hu : urgent pri = true <;> by_cases hl : rq.highq < pri <;>
    simp [he, hu, hl]

theorem enqueue_result :
    (run_queue_enqueue urgent rq thread pri options).1 = decide (rq.queue pri = [] ∧ rq.highq < pri) := by
  unfold run_queue_enqueue
  by_cases he : rq.queue pri = [] <;> by_cases hl : rq.highq < pri <;> simp [he, hl]

end Fields

theorem mem_enqueuedQueue {q : List T} {thread x : T} {options : Nat} :
    x ∈ enqueuedQueue q thread options ↔ x = thread ∨ x ∈ q := by
  unfold enqueuedQueue
  split_ifs with hq
  · simp [hq]
  · simp [or_comm]
  · simp

theorem length_enqueuedQueue (q : List T) (thread : T) (options : Nat) :
    (enqueuedQueue q thread options).length = q.length + 1 := by
  unfold enqueuedQueue
  split_ifs with hq <;> simp [hq]

theorem nodup_enqueuedQueue {q : List T} {thread : T} (options : Nat) (hq : q.Nodup) (ht : thread ∉ q) :
    (enqueuedQueue q thread options).Nodup := by
  unfold enqueuedQueue
  split_ifs with he
  · simp
  · exact hq.append (List.nodup_singleton thread) (by simpa using ht)
  · exact List.nodup_cons.2 ⟨ht, hq⟩

theorem enqueuedQueue_ne_nil (q : List T) (thread : T) (options : Nat) : enqueuedQueue q thread options ≠ [] :=
  List.ne_nil_of_mem (mem_enqueuedQueue.2 (.inl rfl))

end Ops

/-! ## The invariant -/

section Invariant

variable {T : Type} (urgent : Nat → Bool)

/-- The summaries agree with the queues, and every queued thread is in one queue, once. -/
structure Inv (rq : RunQueue T) : Prop where
  length_queues : rq.queues.length = NRQS
  length_bitmap : rq.bitmap.length = BITMAP_LEN NRQS
  nodup : ∀ p, (rq.queue p).Nodup
  disjoint : ∀ p p' t, t ∈ rq.queue p → t ∈ rq.queue p' → p = p'
  count : rq.count = ((∑ p ∈ Finset.range NRQS, (rq.queue p).length : Nat) : Int)
  urgency : rq.urgency = ((∑ p ∈ Finset.range NRQS, if urgent p then (rq.queue p).length else 0 : Nat) : Int)
  bitmap : ∀ p, bitmap_test rq.bitmap p = !(rq.queue p).isEmpty
  highq : rq.highq = bitmap_first rq.bitmap NRQS

/-- One level replaced in a sum over the levels. -/
theorem sum_update_add {Q : Nat → List T} {p : Nat} (hp : p < NRQS) (q : List T) (g : Nat → List T → Nat) :
    (∑ j ∈ Finset.range NRQS, g j (Function.update Q p q j)) + g p (Q p) =
      (∑ j ∈ Finset.range NRQS, g j (Q j)) + g p q := by
  have hmem : p ∈ Finset.range NRQS := Finset.mem_range.2 hp
  have h1 := Finset.sum_update_of_mem hmem (fun j => g j (Q j)) (g p q)
  have h2 := Finset.add_sum_erase (Finset.range NRQS) (fun j => g j (Q j)) hmem
  have hcomp : (fun j => g j (Function.update Q p q j)) = Function.update (fun j => g j (Q j)) p (g p q) := by
    funext j
    by_cases hj : j = p
    · subst hj; simp
    · simp [hj]
  rw [hcomp, h1, ← h2, Finset.sdiff_singleton_eq_erase]
  omega

/-- The levels are bit indices that fit the `int` `bitmap_first` returns. -/
theorem NRQS_fits : NRQS ≤ 2 ^ 31 := by decide

theorem bitmap_index_lt {p : Nat} (hp : p < NRQS) : bitmap_index p < BITMAP_LEN NRQS := by
  unfold bitmap_index BITMAP_LEN NRQS at *
  omega

/-- A bit set at `p` below the bound: the highest is `p` if it was below `p`. -/
theorem highestBelow_insert {P : Nat → Bool} {B p : Nat} {r : Int} (h : HighestBelow P B r) (hp : p < B) :
    HighestBelow (fun m => P m || decide (p = m)) B (if r < p then (p : Int) else r) := by
  rcases h with ⟨rfl, hall⟩ | ⟨m, hm, rfl, hP, hmax⟩
  · have : ((-1 : Int) < p) := by omega
    rw [if_pos this]
    refine .inr ⟨p, hp, rfl, by simp, fun k hpk hk => ?_⟩
    simp [hall k hk, Nat.ne_of_lt hpk]
  · by_cases hmp : (m : Int) < p
    · rw [if_pos hmp]
      refine .inr ⟨p, hp, rfl, by simp, fun k hpk hk => ?_⟩
      simp [hmax k (by omega) hk, Nat.ne_of_lt hpk]
    · rw [if_neg hmp]
      refine .inr ⟨m, hm, rfl, by simp [hP], fun k hmk hk => ?_⟩
      have : p ≠ k := by omega
      simp [hmax k hmk hk, this]

namespace Inv

variable {urgent} {rq : RunQueue T} (hI : Inv urgent rq)
include hI

theorem queue_of_ge {p : Nat} (hp : NRQS ≤ p) : rq.queue p = [] := rq.queue_of_length_le (hI.length_queues ▸ hp)

/-- A thread at no level below `NRQS` is at no level. -/
theorem not_mem_of_forall_lt {t : T} (h : ∀ p < NRQS, t ∉ rq.queue p) (p : Nat) : t ∉ rq.queue p := by
  by_cases hp : p < NRQS
  · exact h p hp
  · rw [hI.queue_of_ge (by omega)]
    exact List.not_mem_nil

/-- `highq` is the highest non-empty level, `NOPRI` when all are empty. -/
theorem highest : HighestBelow (fun p => !(rq.queue p).isEmpty) NRQS rq.highq := by
  have h := bitmap_first_spec rq.bitmap NRQS_fits
  rw [← hI.highq] at h
  have h' := h.congr (fun m _ => hI.bitmap m)
  exact h'.restrict (by decide) (fun m hm _ => by simp [hI.queue_of_ge hm])

theorem le_highq {p : Nat} {t : T} (ht : t ∈ rq.queue p) : (p : Int) ≤ rq.highq := by
  rcases hI.highest with ⟨-, hall⟩ | ⟨m, -, hr, -, hmax⟩
  · by_cases hp : p < NRQS
    · have := hall p hp
      simp [List.isEmpty_iff, List.ne_nil_of_mem ht] at this
    · simp [hI.queue_of_ge (p := p) (by omega)] at ht
  · rw [hr]
    by_contra hlt
    by_cases hp : p < NRQS
    · have := hmax p (by omega) hp
      simp [List.isEmpty_iff, List.ne_nil_of_mem ht] at this
    · simp [hI.queue_of_ge (p := p) (by omega)] at ht

/-- A queue that lost one thread, as dequeue and remove leave it, keeps the invariant. -/
theorem afterRemove {p : Nat} (hp : p < NRQS) {q : List T} (hsub : q.Sublist (rq.queue p))
    (hlen : q.length + 1 = (rq.queue p).length) : Inv urgent (afterRemove urgent rq p q) := by
  have hpl : p < rq.queues.length := hI.length_queues ▸ hp
  have hQ := afterRemove_queue urgent rq p q hpl
  have hne : rq.queue p ≠ [] := fun h => by simp [h] at hlen
  constructor
  · simp [hI.length_queues]
  · rw [afterRemove_bitmap]; split_ifs <;> simp [hI.length_bitmap]
  · intro j
    rw [hQ]
    by_cases hj : j = p
    · subst hj; simpa using (hI.nodup j).sublist hsub
    · simpa [hj] using hI.nodup j
  · intro j j' t hj hj'
    rw [hQ] at hj hj'
    have lift : ∀ {i}, t ∈ Function.update rq.queue p q i → t ∈ rq.queue i := by
      intro i hi
      by_cases h : i = p
      · subst h; simpa using hsub.subset (by simpa using hi)
      · simpa [h] using hi
    exact hI.disjoint j j' t (lift hj) (lift hj')
  · have hsum := sum_update_add (Q := rq.queue) hp q fun _ l => l.length
    rw [afterRemove_count, hI.count, hQ]
    omega
  · have hsum := sum_update_add (Q := rq.queue) hp q fun j l => if urgent j then l.length else 0
    rw [afterRemove_urgency, hI.urgency, hQ]
    by_cases hu : urgent p <;> simp only [hu, if_true, if_false, Bool.false_eq_true] at hsum ⊢ <;> omega
  · intro m
    rw [afterRemove_bitmap, hQ]
    by_cases hq : q = []
    · rw [if_pos hq, bitmap_test_clear (by rw [hI.length_bitmap]; exact bitmap_index_lt hp)]
      by_cases hm : p = m
      · subst hm; simp [hq]
      · simp [hm, Ne.symm hm, hI.bitmap m]
    · rw [if_neg hq]
      by_cases hm : m = p
      · subst hm
        simp only [Function.update_self, hI.bitmap, List.isEmpty_eq_false_iff.2 hq, List.isEmpty_eq_false_iff.2 hne]
      · simp [hm, hI.bitmap m]
  · rw [afterRemove_highq, afterRemove_bitmap]
    split_ifs
    · rfl
    · exact hI.highq

theorem bitmap_index_lt_length {p : Nat} (hp : p < NRQS) : bitmap_index p < rq.bitmap.length :=
  hI.length_bitmap ▸ bitmap_index_lt hp

/-- Enqueueing a thread that is in no queue, at a level below `NRQS`, keeps the invariant. -/
theorem enqueue {thread : T} {p : Nat} (options : Nat) (hp : p < NRQS) (ht : ∀ q, thread ∉ rq.queue q) :
    Inv urgent (run_queue_enqueue urgent rq thread p options).2 := by
  have hpl : p < rq.queues.length := hI.length_queues ▸ hp
  have hQ := enqueue_queue urgent rq p thread options hpl
  constructor
  · simp [hI.length_queues]
  · rw [enqueue_bitmap]; split_ifs <;> simp [hI.length_bitmap]
  · intro j
    rw [hQ]
    by_cases hj : j = p
    · subst hj; simpa using nodup_enqueuedQueue options (hI.nodup j) (ht j)
    · simpa [hj] using hI.nodup j
  · intro j j' t hj hj'
    rw [hQ] at hj hj'
    -- the new thread is only at `p`; every other thread stays where it was
    have cases : ∀ {i}, t ∈ Function.update rq.queue p (enqueuedQueue (rq.queue p) thread options) i →
        (i = p ∧ t = thread) ∨ t ∈ rq.queue i := by
      intro i hi
      by_cases h : i = p
      · subst h
        rcases mem_enqueuedQueue.1 (by simpa using hi) with h' | h'
        · exact .inl ⟨rfl, h'⟩
        · exact .inr h'
      · exact .inr (by simpa [h] using hi)
    rcases cases hj with ⟨rfl, rfl⟩ | h1 <;> rcases cases hj' with ⟨rfl, h⟩ | h2
    · rfl
    · exact absurd h2 (ht j')
    · subst h; exact absurd h1 (ht j)
    · exact hI.disjoint j j' t h1 h2
  · have hsum := sum_update_add (Q := rq.queue) hp (enqueuedQueue (rq.queue p) thread options) fun _ l => l.length
    rw [enqueue_count, hI.count, hQ]
    simp only [length_enqueuedQueue] at hsum
    omega
  · have hsum := sum_update_add (Q := rq.queue) hp (enqueuedQueue (rq.queue p) thread options)
      fun j l => if urgent j then l.length else 0
    rw [enqueue_urgency, hI.urgency, hQ]
    by_cases hu : urgent p <;> simp only [hu, if_true, if_false, Bool.false_eq_true, length_enqueuedQueue] at hsum ⊢ <;>
      omega
  · intro m
    rw [enqueue_bitmap, hQ]
    have hnew : (enqueuedQueue (rq.queue p) thread options).isEmpty = false :=
      List.isEmpty_eq_false_iff.2 (enqueuedQueue_ne_nil (rq.queue p) thread options)
    split_ifs with he
    · rw [bitmap_test_set (hI.bitmap_index_lt_length hp)]
      by_cases hm : p = m
      · subst hm; simp [hnew]
      · simp [hm, Ne.symm hm, hI.bitmap m]
    · by_cases hm : m = p
      · subst hm
        simp only [Function.update_self, hnew, hI.bitmap, List.isEmpty_eq_false_iff.2 he]
      · simp [hm, hI.bitmap m]
  · rw [enqueue_highq, enqueue_bitmap]
    -- filling an empty level: the highest of the old levels and `p`
    have hnew : HighestBelow (bitmap_test (bitmap_set rq.bitmap p)) (64 * (bitmap_index (NRQS - 1) + 1))
        (if rq.highq < p then (p : Int) else rq.highq) := by
      have hold := bitmap_first_spec rq.bitmap NRQS_fits
      rw [← hI.highq] at hold
      have hbound : p < 64 * (bitmap_index (NRQS - 1) + 1) := by unfold bitmap_index NRQS at *; omega
      exact (highestBelow_insert hold hbound).congr
        (fun m _ => (bitmap_test_set (hI.bitmap_index_lt_length hp) m).symm)
    have hfirst := bitmap_first_spec (bitmap_set rq.bitmap p) NRQS_fits
    split_ifs with h1 h2 h2
    · rw [if_pos h1.2] at hnew
      exact hnew.unique hfirst
    · exact absurd h1.1 h2
    · rw [if_neg (fun h => h1 ⟨h2, h⟩)] at hnew
      exact hnew.unique hfirst
    · exact hI.highq

/-- `TRUE` from enqueue exactly when the new priority is above every queued one. -/
theorem enqueue_result_iff {thread : T} {p : Nat} (options : Nat) :
    (run_queue_enqueue urgent rq thread p options).1 = true ↔ ∀ q t, t ∈ rq.queue q → q < p := by
  rw [enqueue_result, decide_eq_true_iff]
  constructor
  · rintro ⟨-, hlt⟩ q t ht
    have := hI.le_highq ht
    omega
  · intro hall
    refine ⟨List.eq_nil_iff_forall_not_mem.2 fun t ht => absurd (hall p t ht) (Nat.lt_irrefl p), ?_⟩
    rcases hI.highest with ⟨hr, -⟩ | ⟨m, -, hr, hm, -⟩
    · omega
    · obtain ⟨t, ht⟩ := List.exists_mem_of_ne_nil _ (by simpa using hm)
      have := hall m t ht
      omega

/-- A thread is queued whenever `count` is positive, so `highq` names a non-empty level. -/
theorem exists_top (hc : 0 < rq.count) :
    ∃ m < NRQS, rq.highq = m ∧ rq.queue m ≠ [] ∧ ∀ p t, t ∈ rq.queue p → p ≤ m := by
  rcases hI.highest with ⟨-, hnone⟩ | ⟨m, hm, hr, hP, -⟩
  · -- no level is non-empty: then `count` is the empty sum
    have hzero : ∑ p ∈ Finset.range NRQS, (rq.queue p).length = 0 := by
      apply Finset.sum_eq_zero
      intro p hp
      have := hnone p (Finset.mem_range.1 hp)
      simpa using this
    rw [hI.count, hzero] at hc
    exact absurd hc (by decide)
  · refine ⟨m, hm, hr, by simpa using hP, fun p t ht => ?_⟩
    have := hI.le_highq ht
    omega

/-- **`run_queue_dequeue`** on a queue with threads: the head or tail of the highest level, and the
invariant after it. -/
theorem dequeue (hc : 0 < rq.count) (options : Nat) :
    ∃ thread rq', run_queue_dequeue urgent rq options = some (thread, rq') ∧
      some thread = (if options &&& SCHED_HEADQ ≠ 0 then (rq.queue rq.highq.toNat).head?
        else (rq.queue rq.highq.toNat).getLast?) ∧
      (∀ p t, t ∈ rq.queue p → p ≤ rq.highq.toNat) ∧ Inv urgent rq' := by
  obtain ⟨m, hm, hr, hne, hmax⟩ := hI.exists_top hc
  have htop : rq.highq.toNat = m := by omega
  obtain ⟨x, xs, hx⟩ := List.exists_cons_of_ne_nil hne
  unfold run_queue_dequeue
  rw [htop]
  by_cases hh : options &&& SCHED_HEADQ ≠ 0
  · refine ⟨x, Kern.afterRemove urgent rq m xs, by simp [hh, hx], by simp [hh, hx], hmax, ?_⟩
    exact hI.afterRemove hm (by rw [hx]; exact List.sublist_cons_self x xs) (by simp [hx])
  · have hlast : (rq.queue m).getLast? = some ((rq.queue m).getLast hne) := List.getLast?_eq_some_getLast hne
    refine ⟨(rq.queue m).getLast hne, Kern.afterRemove urgent rq m (rq.queue m).dropLast, by simp [hh, hlast],
      by simp [hh, hlast], hmax, ?_⟩
    exact hI.afterRemove hm (List.dropLast_sublist _) (by rw [List.length_dropLast, hx]; simp)

/-- **`run_queue_remove`** of a queued thread keeps the invariant. -/
theorem remove [DecidableEq T] {thread : T} {p : Nat} (ht : thread ∈ rq.queue p) : Inv urgent (run_queue_remove urgent rq thread p) := by
  have hp : p < NRQS := by
    by_contra hge
    simp [hI.queue_of_ge (p := p) (by omega)] at ht
  have hlen := List.length_erase_of_mem ht
  have hpos := List.length_pos_of_mem ht
  exact hI.afterRemove hp (List.erase_sublist) (by omega)

/-- `run_queue_peek` returns the first thread of the highest level. -/
theorem peek (hc : 0 < rq.count) : ∃ thread, run_queue_peek rq = some thread ∧ thread ∈ rq.queue rq.highq.toNat := by
  obtain ⟨m, -, hr, hne, -⟩ := hI.exists_top hc
  obtain ⟨x, xs, hx⟩ := List.exists_cons_of_ne_nil hne
  have htop : rq.highq.toNat = m := by omega
  exact ⟨x, by simp [run_queue_peek, hc, htop, hx], by simp [htop, hx]⟩

/-- `highq` is `NOPRI` exactly when no thread is queued. -/
theorem highq_eq_NOPRI_iff : rq.highq = NOPRI ↔ rq.count = 0 := by
  constructor
  · intro h
    by_contra hc
    have hpos : 0 < rq.count := by rw [hI.count] at hc ⊢; omega
    obtain ⟨m, -, hr, -, -⟩ := hI.exists_top hpos
    rw [h] at hr
    simp [NOPRI] at hr
  · intro hc
    rcases hI.highest with ⟨hr, -⟩ | ⟨m, hm, -, hP, -⟩
    · exact hr
    · -- a non-empty level would be counted
      have hle : (rq.queue m).length ≤ ∑ p ∈ Finset.range NRQS, (rq.queue p).length :=
        Finset.single_le_sum (f := fun p => (rq.queue p).length) (fun _ _ => Nat.zero_le _) (Finset.mem_range.2 hm)
      have hpos : 0 < (rq.queue m).length := List.length_pos_of_ne_nil (by simpa using hP)
      rw [hI.count] at hc
      omega

theorem eq_nil_of_count_eq_zero (hc : rq.count = 0) (p : Nat) : rq.queue p = [] := by
  by_cases hp : p < NRQS
  · have h0 : ∑ p ∈ Finset.range NRQS, (rq.queue p).length = 0 := by rw [hI.count] at hc; omega
    exact List.eq_nil_of_length_eq_zero ((Finset.sum_eq_zero_iff.1 h0) p (Finset.mem_range.2 hp))
  · exact hI.queue_of_ge (by omega)

/-- Whatever a dequeue that found a thread leaves keeps the invariant: it found it because the
queue was not empty. -/
theorem dequeue_inv {options : Nat} {thread : T} {rq' : RunQueue T}
    (h : run_queue_dequeue urgent rq options = some (thread, rq')) : Inv urgent rq' := by
  by_cases hc : 0 < rq.count
  · obtain ⟨thread', rq'', hdq, -, -, hI'⟩ := hI.dequeue hc options
    rw [hdq] at h
    cases h
    exact hI'
  · have hc0 : rq.count = 0 := by rw [hI.count] at hc ⊢; omega
    have hnil := hI.eq_nil_of_count_eq_zero hc0 rq.highq.toNat
    unfold run_queue_dequeue at h
    rw [hnil] at h
    split_ifs at h <;> simp at h

end Inv

theorem inv_init : Inv urgent (run_queue_init : RunQueue T) := by
  have hq : ∀ p, (run_queue_init : RunQueue T).queue p = [] := by
    intro p
    by_cases hp : p < NRQS <;> simp [RunQueue.queue, run_queue_init, List.getD_eq_getElem?_getD, hp]
  constructor
  · rfl
  · rfl
  · intro p; simp [hq]
  · intro p p' t hp; simp [hq] at hp
  · simp only [hq, List.length_nil, Finset.sum_const_zero]; rfl
  · simp only [hq, List.length_nil, ite_self, Finset.sum_const_zero]; rfl
  · intro p
    rw [hq, bitmap_test_eq]
    by_cases hw : p / 64 < BITMAP_LEN NRQS <;> simp [run_queue_init, List.getD_eq_getElem?_getD, hw]
  · show NOPRI = bitmap_first (List.replicate (BITMAP_LEN NRQS) 0) NRQS
    decide

end Invariant

/-! ## Runs -/

section Runs

variable {T : Type} [DecidableEq T] (urgent : Nat → Bool)

/-- The states a run queue reaches from `run_queue_init` by enqueueing threads not queued at a level
below `NRQS`, dequeueing, and removing queued threads from the level they were queued at. -/
inductive Reachable : RunQueue T → Prop
  | init : Reachable run_queue_init
  | enqueue {rq : RunQueue T} (thread : T) (p options : Nat) :
      Reachable rq → p < NRQS → (∀ q, thread ∉ rq.queue q) → Reachable (run_queue_enqueue urgent rq thread p options).2
  | dequeue {rq rq' : RunQueue T} {thread : T} (options : Nat) :
      Reachable rq → run_queue_dequeue urgent rq options = some (thread, rq') → Reachable rq'
  | remove {rq : RunQueue T} (thread : T) (p : Nat) :
      Reachable rq → thread ∈ rq.queue p → Reachable (run_queue_remove urgent rq thread p)

theorem Reachable.inv {rq : RunQueue T} (h : Reachable urgent rq) : Inv urgent rq := by
  induction h with
  | init => exact inv_init urgent
  | enqueue thread p options _ hp ht ih => exact ih.enqueue options hp ht
  | dequeue options _ hdq ih => exact ih.dequeue_inv hdq
  | remove thread p _ ht ih => exact ih.remove ht

/-- Along every run from `run_queue_init`: the summaries agree with the queues (`Inv`: `count`,
`urgency`, the bitmap, `highq = bitmap_first(bitmap, NRQS)`, each thread queued once), `highq` is
`NOPRI` exactly when nothing is queued, dequeue and peek take from the highest non-empty level (its
head for `SCHED_HEADQ`, else its tail), and enqueue returns `TRUE` exactly when the new priority is
above every queued one. -/
theorem run_queue_reachable_spec {rq : RunQueue T} (h : Reachable urgent rq) :
    Inv urgent rq ∧ (rq.highq = NOPRI ↔ rq.count = 0) ∧
      (∀ options, 0 < rq.count → ∃ thread rq', run_queue_dequeue urgent rq options = some (thread, rq') ∧
        some thread = (if options &&& SCHED_HEADQ ≠ 0 then (rq.queue rq.highq.toNat).head?
          else (rq.queue rq.highq.toNat).getLast?) ∧
        ∀ p t, t ∈ rq.queue p → p ≤ rq.highq.toNat) ∧
      (0 < rq.count → ∃ thread, run_queue_peek rq = some thread ∧ thread ∈ rq.queue rq.highq.toNat) ∧
      ∀ thread p options, (∀ q, thread ∉ rq.queue q) → p < NRQS →
        ((run_queue_enqueue urgent rq thread p options).1 = true ↔ ∀ q t, t ∈ rq.queue q → q < p) := by
  have hI := h.inv
  refine ⟨hI, hI.highq_eq_NOPRI_iff, fun options hc => ?_, hI.peek, fun thread p options _ _ => hI.enqueue_result_iff options⟩
  obtain ⟨thread, rq', hdq, hfirst, hmax, -⟩ := hI.dequeue hc options
  exact ⟨thread, rq', hdq, hfirst, hmax⟩

end Runs

/-- A run over three levels and an urgent one: threads `1` at level `5`, `2` and `3` at level
`40` (the second at the tail), `4` at the urgent level `85`, then `4` removed, so that `highq`
falls back to `40` through `bitmap_first`, the head `2` dequeued, and `6` enqueued at level `12`.
The next dequeue takes `3`, from the highest level. -/
theorem run_queue_two_levels :
    let u : Nat → Bool := fun p => decide (80 ≤ p)
    let rq₁ := (run_queue_enqueue u (run_queue_init : RunQueue Nat) 1 5 0).2
    let rq₂ := (run_queue_enqueue u rq₁ 2 40 0).2
    let rq₃ := (run_queue_enqueue u rq₂ 3 40 SCHED_TAILQ).2
    let rq₄ := (run_queue_enqueue u rq₃ 4 85 0).2
    let rq₅ := run_queue_remove u rq₄ 4 85
    let rq₆ := afterRemove u rq₅ 40 [3]
    let rq₇ := (run_queue_enqueue u rq₆ 6 12 0).2
    Reachable u rq₇ ∧ Inv u rq₇ ∧ ∃ rq', run_queue_dequeue u rq₇ SCHED_HEADQ = some (3, rq') := by
  intro u rq₁ rq₂ rq₃ rq₄ rq₅ rq₆ rq₇
  have fresh : ∀ {rq : RunQueue Nat} (t : Nat), Reachable u rq → (∀ p < NRQS, t ∉ rq.queue p) →
      ∀ p, t ∉ rq.queue p := fun _ h hlt => h.inv.not_mem_of_forall_lt hlt
  have h₁ : Reachable u rq₁ := .enqueue 1 5 0 .init (by decide) (fresh 1 .init (by decide))
  have h₂ : Reachable u rq₂ := .enqueue 2 40 0 h₁ (by decide) (fresh 2 h₁ (by decide))
  have h₃ : Reachable u rq₃ := .enqueue 3 40 SCHED_TAILQ h₂ (by decide) (fresh 3 h₂ (by decide))
  have h₄ : Reachable u rq₄ := .enqueue 4 85 0 h₃ (by decide) (fresh 4 h₃ (by decide))
  have h₅ : Reachable u rq₅ := .remove 4 85 h₄ (by decide)
  -- the dequeue takes the head of level `40`, the highest
  have hdq₅ : run_queue_dequeue u rq₅ SCHED_HEADQ = some (2, rq₆) := by
    have hhigh : rq₅.highq.toNat = 40 := by decide
    have hq : rq₅.queue 40 = [2, 3] := by decide
    unfold run_queue_dequeue
    simp only [hhigh, hq]
    rfl
  have h₆ : Reachable u rq₆ := .dequeue SCHED_HEADQ h₅ hdq₅
  have h₇ : Reachable u rq₇ := .enqueue 6 12 0 h₆ (by decide) (fresh 6 h₆ (by decide))
  obtain ⟨hI, -, hdq, -, -⟩ := run_queue_reachable_spec u h₇
  obtain ⟨thread, rq', hd, hfirst, -⟩ := hdq SCHED_HEADQ (by decide)
  -- the head of level `40`
  have htop : (if SCHED_HEADQ &&& SCHED_HEADQ ≠ 0 then (rq₇.queue rq₇.highq.toNat).head?
      else (rq₇.queue rq₇.highq.toNat).getLast?) = some 3 := by decide
  rw [htop, Option.some.injEq] at hfirst
  exact ⟨h₇, hI, rq', hfirst ▸ hd⟩

end Kern
