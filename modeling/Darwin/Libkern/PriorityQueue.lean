import Darwin.Lib.PairingHeap

/-!
# The kernel's pairing heaps (`libkern/c++/priority_queue.cpp`)

| here | there |
| --- | --- |
| `priority_queue_entry` | `struct priority_queue_entry` (`kern/priority_queue.h:134-139`) |
| `Queue`, `merge_parent_is_subtree_b` | the queue's kind and `entry_traits::compare` (`:141-149`) |
| `linkUnder`, `mergeTrees`, `merge_pair_inline` | `merge_pair_inline` (`:151-177`) |
| `meldPairs`, `meldMerge`, `meld_pair` | `meld_pair` (`:186-227`), its two phases |
| `walkTail`, `destroyLoop`, `destroy` | `pqueue::destroy` (`:296-320`) |

An entry's links are `next`, `prev` and `child`, `none` standing for `NULL`; the entries are
addressed by an arbitrary type `α`, and the memory `m` gives the links of each. `Rep m p pv t`
reads the links from the pointer `p` as the forest `t` of `Darwin.Lib.PairingHeap`: a child list
is linked through `next`, its head's `prev` is the parent and every other `prev` is the previous
sibling.

The loops are given fuel; the theorems give the fuel that is enough. `meld_pair` on a sibling list
of heap-ordered trees builds the tree the two-pass pairing builds (`meld_pair_spec`), and
`destroy` hands every entry of a heap to the callback once, whatever the callback does to the
entry it is given (`destroy_calls_each_once`).
-/

namespace Libkern.PriorityQueue

open LcrsTree

variable {α : Type} [DecidableEq α]

/-- `struct priority_queue_entry` (`priority_queue.h:134-139`): the links; the key bits are
the comparator's business. -/
structure priority_queue_entry (α : Type) where
  next : Option α
  prev : Option α
  child : Option α

/-- What the queue's type fixes: whether it is a max heap (`priority_queue_is_max_heap`) and
`entry_traits::compare`. -/
structure Queue (α : Type) where
  is_max_heap : Bool
  compare : α → α → Int

/-- `merge_parent_is_subtree_b` (`:141-149`): whether `subtree_b` is to be the parent. -/
def merge_parent_is_subtree_b (que : Queue α) (subtree_a subtree_b : α) : Bool :=
  if que.is_max_heap then que.compare subtree_a subtree_b > 0
  else que.compare subtree_a subtree_b < 0

/-! ## Writing one link -/

def setNext (m : α → priority_queue_entry α) (e : α) (v : Option α) : α → priority_queue_entry α :=
  Function.update m e { m e with next := v }

def setPrev (m : α → priority_queue_entry α) (e : α) (v : Option α) : α → priority_queue_entry α :=
  Function.update m e { m e with prev := v }

/-- `pack_child(e, child)`. -/
def setChild (m : α → priority_queue_entry α) (e : α) (v : Option α) : α → priority_queue_entry α :=
  Function.update m e { m e with child := v }

section Writes

variable (m : α → priority_queue_entry α) (e : α) (v : Option α)

@[simp] theorem setNext_next_self : (setNext m e v e).next = v := by simp [setNext]
@[simp] theorem setNext_prev (x : α) : (setNext m e v x).prev = (m x).prev := by
  by_cases h : x = e <;> simp [setNext, h]
@[simp] theorem setNext_child (x : α) : (setNext m e v x).child = (m x).child := by
  by_cases h : x = e <;> simp [setNext, h]
theorem setNext_of_ne {x : α} (h : x ≠ e) : setNext m e v x = m x := Function.update_of_ne h _ _

@[simp] theorem setPrev_prev_self : (setPrev m e v e).prev = v := by simp [setPrev]
@[simp] theorem setPrev_next (x : α) : (setPrev m e v x).next = (m x).next := by
  by_cases h : x = e <;> simp [setPrev, h]
@[simp] theorem setPrev_child (x : α) : (setPrev m e v x).child = (m x).child := by
  by_cases h : x = e <;> simp [setPrev, h]
theorem setPrev_of_ne {x : α} (h : x ≠ e) : setPrev m e v x = m x := Function.update_of_ne h _ _

@[simp] theorem setChild_child_self : (setChild m e v e).child = v := by simp [setChild]
@[simp] theorem setChild_next (x : α) : (setChild m e v x).next = (m x).next := by
  by_cases h : x = e <;> simp [setChild, h]
@[simp] theorem setChild_prev (x : α) : (setChild m e v x).prev = (m x).prev := by
  by_cases h : x = e <;> simp [setChild, h]
theorem setChild_of_ne {x : α} (h : x ≠ e) : setChild m e v x = m x := Function.update_of_ne h _ _

/-- `if (p != NULL) p->prev = v`. -/
def setPrevIf (m : α → priority_queue_entry α) (p v : Option α) : α → priority_queue_entry α :=
  match p with
  | some c => setPrev m c v
  | none => m

@[simp] theorem setPrevIf_none (v : Option α) : setPrevIf m none v = m := rfl
@[simp] theorem setPrevIf_some (c : α) (v : Option α) : setPrevIf m (some c) v = setPrev m c v := rfl

end Writes

/-! ## `merge_pair_inline` and `meld_pair` -/

/-- The body of `merge_pair_inline` (`:163-174`) once `parent` and `child` are chosen: `child`
goes first in `parent`'s child list, and `parent` stands alone. -/
def linkUnder (m : α → priority_queue_entry α) (parent child : α) : α → priority_queue_entry α :=
  let m := setNext m child (m parent).child
  let m := setPrev m child (some parent)
  let m := setPrevIf m (m parent).child (some child)
  let m := setChild m parent (some child)
  let m := setNext m parent none
  setPrev m parent none

/-- `merge_pair_inline` of two entries: the memory after it and the root it returns. -/
def mergeTrees (que : Queue α) (m : α → priority_queue_entry α) (subtree_a subtree_b : α) :
    (α → priority_queue_entry α) × α :=
  if subtree_a = subtree_b then (m, subtree_a)
  else if merge_parent_is_subtree_b que subtree_a subtree_b then
    (linkUnder m subtree_b subtree_a, subtree_b)
  else (linkUnder m subtree_a subtree_b, subtree_a)

/-- **`merge_pair_inline`** (`:151-177`). -/
def merge_pair_inline (que : Queue α) (m : α → priority_queue_entry α) :
    Option α → Option α → (α → priority_queue_entry α) × Option α
  | none, subtree_b => (m, subtree_b)
  | some a, none => (m, some a)
  | some a, some b => ((mergeTrees que m a b).1, some (mergeTrees que m a b).2)

/-- Phase 1 of `meld_pair` (`:197-216`): the entries from `elt` on are merged in pairs from the
front, each pair, and an odd last entry, hooked on `pair_list` through `prev`. -/
def meldPairs (que : Queue α) :
    Nat → (α → priority_queue_entry α) → α → Option α → Option ((α → priority_queue_entry α) × α)
  | 0, _, _, _ => none
  | fuel + 1, m, elt, pair_list =>
    match (m elt).next with
    | none => some (setPrev m elt pair_list, elt)
    | some pair_item_b =>
      let elt' := (m pair_item_b).next
      let (m, pair) := mergeTrees que m elt pair_item_b
      let m := setPrev m pair pair_list
      match elt' with
      | none => some (m, pair)
      | some e => meldPairs que fuel m e (some pair)

/-- Phase 2 of `meld_pair` (`:218-224`): the pairs on `pair_list` merged into `pq_meld_result`. -/
def meldMerge (que : Queue α) :
    Nat → (α → priority_queue_entry α) → Option α → α →
      Option ((α → priority_queue_entry α) × Option α)
  | 0, _, _, _ => none
  | fuel + 1, m, pq_meld_result, pair_list =>
    let elt := (m pair_list).prev
    let (m, pq_meld_result) := merge_pair_inline que m pq_meld_result (some pair_list)
    match elt with
    | none => some (m, pq_meld_result)
    | some e => meldMerge que fuel m pq_meld_result e

/-- **`meld_pair`** (`:186-227`), each phase given `fuel` rounds. -/
def meld_pair (que : Queue α) (fuel : Nat) (m : α → priority_queue_entry α) (elt : α) :
    Option ((α → priority_queue_entry α) × Option α) := do
  let (m, pair_list) ← meldPairs que fuel m elt none
  meldMerge que fuel m none pair_list

/-! ## The heap in memory -/

/-- From the pointer `p`, whose entry's `prev` is `pv`, the links lay out the forest `t`. -/
def Rep (m : α → priority_queue_entry α) : Option α → Option α → LcrsTree α → Prop
  | p, _, nil => p = none
  | p, pv, node x c n =>
    p = some x ∧ (m x).prev = pv ∧ Rep m (m x).child (some x) c ∧ Rep m (m x).next (some x) n

/-- The tree `t` hangs from its root's `child` link. -/
def TreeAt (m : α → priority_queue_entry α) (t : α × LcrsTree α) : Prop :=
  Rep m (m t.1).child (some t.1) t.2

/-- A tree standing alone: hanging from its root, which has no siblings and no `prev`. -/
def Root (m : α → priority_queue_entry α) (t : α × LcrsTree α) : Prop :=
  TreeAt m t ∧ (m t.1).next = none ∧ (m t.1).prev = none

/-- The trees on `pair_list`, from the pointer `p` on through `prev`, none with siblings. -/
def Stack (m : α → priority_queue_entry α) : Option α → List (α × LcrsTree α) → Prop
  | p, [] => p = none
  | p, t :: ts => p = some t.1 ∧ TreeAt m t ∧ (m t.1).next = none ∧ Stack m (m t.1).prev ts

/-- From `p` on, the trees `ts` linked through their roots' `next`, each hanging from its root;
the roots' `prev` links are not read. -/
def Siblings (m : α → priority_queue_entry α) : Option α → List (α × LcrsTree α) → Prop
  | p, [] => p = none
  | p, t :: ts => p = some t.1 ∧ TreeAt m t ∧ Siblings m (m t.1).next ts

/-- The queue's heap: `pq_root` is `NULL` and the heap empty, or it is the root of one tree
standing alone. -/
def Heap (m : α → priority_queue_entry α) : Option α → Option (α × LcrsTree α) → Prop
  | p, none => p = none
  | p, some t => p = some t.1 ∧ Root m t

omit [DecidableEq α] in
theorem Rep.eq_nil_of_none {m : α → priority_queue_entry α} {pv : Option α} {t : LcrsTree α}
    (h : Rep m none pv t) : t = nil := by
  cases t with
  | nil => rfl
  | node x c n => exact absurd h.1 (by simp)

omit [DecidableEq α] in
/-- The entry a forest starts from is one of its nodes. -/
theorem Rep.mem_of_some {m : α → priority_queue_entry α} {h : α} {pv : Option α} :
    ∀ {t : LcrsTree α}, Rep m (some h) pv t → h ∈ nodes t
  | nil, hr => absurd hr (by simp [Rep])
  | node x c n, hr => by
    rw [Option.some.inj hr.1]
    exact List.mem_cons_self

omit [DecidableEq α] in
/-- Links of entries off the forest do not matter. -/
theorem Rep.frame {m m' : α → priority_queue_entry α} :
    ∀ {p pv : Option α} {t : LcrsTree α}, Rep m p pv t → (∀ x ∈ nodes t, m' x = m x) → Rep m' p pv t
  | _, _, nil, h, _ => h
  | _, _, node x c n, ⟨hp, hpv, hc, hn⟩, hm => by
    have hx := hm x List.mem_cons_self
    refine ⟨hp, by rw [hx, hpv], ?_, ?_⟩
    · rw [hx]
      exact hc.frame fun y hy => hm y (by simp [nodes, hy])
    · rw [hx]
      exact hn.frame fun y hy => hm y (by simp [nodes, hy])

omit [DecidableEq α] in
/-- The `prev` of the first entry of a forest may change with the rest kept. -/
theorem Rep.reprev {m m' : α → priority_queue_entry α} {x : α} {pv pv' : Option α} {c n : LcrsTree α}
    (h : Rep m (some x) pv (node x c n)) (hx : m' x = { m x with prev := pv' })
    (hm : ∀ y ∈ nodes c ++ nodes n, m' y = m y) : Rep m' (some x) pv' (node x c n) := by
  obtain ⟨-, -, hc, hn⟩ := h
  refine ⟨rfl, by rw [hx], ?_, ?_⟩
  · rw [hx]
    exact hc.frame fun y hy => hm y (List.mem_append_left _ hy)
  · rw [hx]
    exact hn.frame fun y hy => hm y (List.mem_append_right _ hy)

/-! ## One merge -/

/-- What `linkUnder` writes: `parent` gets `child` as its first child and no siblings, `child`
gets `parent`'s old first child as its next sibling, and that one `child` as its `prev`. -/
theorem linkUnder_apply (m : α → priority_queue_entry α) {parent child : α} (hne : parent ≠ child)
    (hpc : (m parent).child ≠ some child) (x : α) :
    linkUnder m parent child x =
      if x = parent then ⟨none, none, some child⟩
      else if x = child then ⟨(m parent).child, some parent, (m child).child⟩
      else if (m parent).child = some x then { m x with prev := some child }
      else m x := by
  have hread : (setPrev (setNext m child (m parent).child) child (some parent) parent).child =
      (m parent).child := by simp
  unfold linkUnder
  rw [hread]
  cases hh : (m parent).child with
  | none =>
    simp only [setPrevIf_none, setNext, setPrev, setChild, Function.update_apply]
    split_ifs <;> simp_all
  | some h =>
    rw [hh] at hpc
    simp only [setPrevIf_some, setNext, setPrev, setChild, Function.update_apply]
    split_ifs <;> simp_all

/-- `linkUnder` hangs the tree of `child` first under `parent`, which it leaves alone, and
touches no entry off the two trees. -/
theorem linkUnder_spec {m : α → priority_queue_entry α} {parent child : α} {cp cc : LcrsTree α}
    (hp : TreeAt m (parent, cp)) (hc : TreeAt m (child, cc))
    (hnd : (treeNodes (parent, cp) ++ treeNodes (child, cc)).Nodup) :
    TreeAt (linkUnder m parent child) (parent, node child cc cp) ∧
      (linkUnder m parent child parent).next = none ∧ (linkUnder m parent child parent).prev = none ∧
      ∀ x, x ∉ treeNodes (parent, cp) ++ treeNodes (child, cc) → linkUnder m parent child x = m x := by
  simp only [treeNodes, List.cons_append, List.nodup_cons, List.nodup_append] at hnd
  obtain ⟨hpin, hndcp, ⟨hccc, -⟩, hdisj⟩ := hnd
  simp only [List.mem_append, List.mem_cons, not_or] at hpin
  obtain ⟨hpcp, hne, hpcc⟩ := hpin
  have hccp : child ∉ nodes cp := fun h => hdisj child h child List.mem_cons_self rfl
  -- the old first child of `parent` is a node of `cp`, so neither `child` nor in `cc`
  have hhead : ∀ y, (m parent).child = some y → y ∈ nodes cp := by
    intro y hy
    have hp' : Rep m (m parent).child (some parent) cp := hp
    rw [hy] at hp'
    exact hp'.mem_of_some
  have hpc : (m parent).child ≠ some child := fun h => hccp (hhead child h)
  have hL := linkUnder_apply m hne hpc
  have hoff : ∀ y, y ≠ parent → y ≠ child → y ∉ nodes cp → linkUnder m parent child y = m y := by
    intro y h1 h2 h3
    rw [hL, if_neg h1, if_neg h2, if_neg fun h => h3 (hhead y h)]
  have hLp : linkUnder m parent child parent = ⟨none, none, some child⟩ := by rw [hL, if_pos rfl]
  have hLc : linkUnder m parent child child = ⟨(m parent).child, some parent, (m child).child⟩ := by
    rw [hL, if_neg (Ne.symm hne), if_pos rfl]
  refine ⟨?_, by rw [hLp], by rw [hLp], fun x hx => ?_⟩
  · unfold TreeAt
    rw [hLp]
    refine ⟨rfl, by rw [hLc], ?_, ?_⟩
    · -- the children of `child` are untouched
      rw [hLc]
      exact hc.frame fun y hy => hoff y (fun h => hpcc (h ▸ hy)) (fun h => hccc (h ▸ hy))
        fun h => hdisj y h y (List.mem_cons_of_mem _ hy) rfl
    · -- `parent`'s old children follow `child`, the first of them now after `child`
      rw [hLc]
      cases cp with
      | nil => exact hp
      | node h c' n' =>
        have hp' : Rep m (m parent).child (some parent) (node h c' n') := hp
        have hph : (m parent).child = some h := hp'.1
        rw [hph] at hp' ⊢
        have hh : h ∉ nodes c' ++ nodes n' := (List.nodup_cons.mp hndcp).1
        refine Rep.reprev hp' ?_ fun y hy => ?_
        · have hhp : h ≠ parent := by rintro rfl; exact hpcp List.mem_cons_self
          have hhc : h ≠ child := by rintro rfl; exact hccp List.mem_cons_self
          rw [hL, if_neg hhp, if_neg hhc, if_pos hph]
        · -- the rest of `cp` is untouched
          have hyh : y ≠ h := by rintro rfl; exact hh hy
          have hyp : y ≠ parent := by rintro rfl; exact hpcp (List.mem_cons_of_mem _ hy)
          have hyc : y ≠ child := by rintro rfl; exact hccp (List.mem_cons_of_mem _ hy)
          rw [hL, if_neg hyp, if_neg hyc, hph, if_neg fun e => hyh (Option.some.inj e).symm]
  · simp only [treeNodes, List.cons_append, List.mem_cons, List.mem_append, not_or] at hx
    exact hoff x hx.1 hx.2.2.1 hx.2.1

omit [DecidableEq α] in
/-- A tree reads its root's `child` link and the entries below it. -/
theorem TreeAt.frame' {m m' : α → priority_queue_entry α} {t : α × LcrsTree α} (h : TreeAt m t)
    (hc : (m' t.1).child = (m t.1).child) (hm : ∀ x ∈ nodes t.2, m' x = m x) : TreeAt m' t := by
  unfold TreeAt
  rw [hc]
  exact Rep.frame h hm

omit [DecidableEq α] in
theorem TreeAt.frame {m m' : α → priority_queue_entry α} {t : α × LcrsTree α} (h : TreeAt m t)
    (hm : ∀ x ∈ treeNodes t, m' x = m x) : TreeAt m' t :=
  h.frame' (by rw [hm t.1 List.mem_cons_self]) fun y hy => hm y (List.mem_cons_of_mem _ hy)

omit [DecidableEq α] in
theorem Stack.frame {m m' : α → priority_queue_entry α} :
    ∀ {p : Option α} {ts : List (α × LcrsTree α)}, Stack m p ts →
      (∀ x ∈ ts.flatMap treeNodes, m' x = m x) → Stack m' p ts
  | _, [], h, _ => h
  | _, t :: ts, ⟨hp, ht, hn, hs⟩, hm => by
    have hx := hm t.1 (by simp [treeNodes])
    refine ⟨hp, ht.frame fun y hy => hm y (by simp [hy]), by rw [hx, hn], ?_⟩
    rw [hx]
    exact hs.frame fun y hy => hm y (by simp_all)

/-- `merge_pair_inline` of the roots of two disjoint trees builds their `link`, a tree standing
alone, and touches no entry off them. -/
theorem mergeTrees_spec (que : Queue α) {m : α → priority_queue_entry α} {a b : α × LcrsTree α}
    (ha : TreeAt m a) (hb : TreeAt m b) (hnd : (treeNodes a ++ treeNodes b).Nodup) :
    (mergeTrees que m a.1 b.1).2 = (link (merge_parent_is_subtree_b que) a b).1 ∧
      Root (mergeTrees que m a.1 b.1).1 (link (merge_parent_is_subtree_b que) a b) ∧
      ∀ x, x ∉ treeNodes a ++ treeNodes b → (mergeTrees que m a.1 b.1).1 x = m x := by
  have hne : a.1 ≠ b.1 := (List.nodup_append.mp hnd).2.2 _ List.mem_cons_self _ List.mem_cons_self
  unfold mergeTrees link
  rw [if_neg hne]
  by_cases hab : merge_parent_is_subtree_b que a.1 b.1 = true
  · -- `a` goes under `b`
    rw [if_pos hab, if_pos hab]
    have hnd' : (treeNodes b ++ treeNodes a).Nodup := List.perm_append_comm.nodup_iff.mp hnd
    obtain ⟨ht, hn, hp, hoff⟩ := linkUnder_spec hb ha hnd'
    exact ⟨rfl, ⟨ht, hn, hp⟩, fun x hx => hoff x fun h => hx (List.perm_append_comm.mem_iff.mp h)⟩
  · rw [if_neg hab, if_neg hab]
    obtain ⟨ht, hn, hp, hoff⟩ := linkUnder_spec ha hb hnd
    exact ⟨rfl, ⟨ht, hn, hp⟩, hoff⟩

omit [DecidableEq α] in
theorem Siblings.frame {m m' : α → priority_queue_entry α} :
    ∀ {p : Option α} {ts : List (α × LcrsTree α)}, Siblings m p ts →
      (∀ x ∈ ts.flatMap treeNodes, m' x = m x) → Siblings m' p ts
  | _, [], h, _ => h
  | _, t :: ts, ⟨hp, ht, hs⟩, hm => by
    have hx := hm t.1 (by simp [treeNodes])
    refine ⟨hp, ht.frame fun y hy => hm y (by simp [hy]), ?_⟩
    rw [hx]
    exact hs.frame fun y hy => hm y (by simp_all)

omit [DecidableEq α] in
/-- A forest in memory is a sibling list of its trees. -/
theorem Rep.siblings {m : α → priority_queue_entry α} :
    ∀ {p pv : Option α} {t : LcrsTree α}, Rep m p pv t → Siblings m p (trees t)
  | _, _, nil, h => h
  | _, _, node _ _ _, ⟨hp, _, hc, hn⟩ => ⟨hp, hc, hn.siblings⟩

/-- A tree standing without siblings goes on top of the stack when its `prev` is set to the
stack's pointer. -/
theorem Stack.push {m : α → priority_queue_entry α} {pl : Option α} {st : List (α × LcrsTree α)}
    {t : α × LcrsTree α} (hst : Stack m pl st) (ht : TreeAt m t) (hn : (m t.1).next = none)
    (hnd : (treeNodes t ++ st.flatMap treeNodes).Nodup) :
    Stack (setPrev m t.1 pl) (some t.1) (t :: st) := by
  have hroot : t.1 ∉ nodes t.2 := (List.nodup_cons.mp (List.nodup_append.mp hnd).1).1
  have hoff : ∀ x ∈ st.flatMap treeNodes, x ≠ t.1 := fun x hx e =>
    (List.nodup_append.mp hnd).2.2 t.1 List.mem_cons_self x hx e.symm
  refine ⟨rfl, ht.frame' (by simp) fun x hx => setPrev_of_ne _ _ _ ?_, by simp [hn], ?_⟩
  · rintro rfl
    exact hroot hx
  · rw [setPrev_prev_self]
    exact hst.frame fun x hx => setPrev_of_ne _ _ _ (hoff x hx)

/-! ## `meld_pair` refines the two-pass pairing -/

/-- Phase 1 pushes the pairs of the sibling list from `elt` on the stack, as `pairPass` does. -/
theorem meldPairs_spec (que : Queue α) :
    ∀ (fuel : Nat) (m : α → priority_queue_entry α) (elt : α) (pair_list : Option α)
      (ts st : List (α × LcrsTree α)),
      Siblings m (some elt) ts → Stack m pair_list st → ((ts ++ st).flatMap treeNodes).Nodup →
      ts.length ≤ fuel →
      ∃ m' top, meldPairs que fuel m elt pair_list = some (m', top) ∧
        Stack m' (some top) (pairPass (merge_parent_is_subtree_b que) ts st) ∧
        ∀ x, x ∉ (ts ++ st).flatMap treeNodes → m' x = m x
  | _, _, _, _, [], _, hs, _, _, _ => absurd hs (by simp [Siblings])
  | 0, _, _, _, _ :: _, _, _, _, _, hfuel => absurd hfuel (by simp)
  | fuel + 1, m, elt, pair_list, [a], st, ⟨he, ha, hn⟩, hst, hnd, _ => by
    -- an odd last entry goes on the stack as it is
    obtain rfl : elt = a.1 := Option.some.inj he
    have hnext : (m a.1).next = none := hn
    rw [meldPairs, hnext]
    refine ⟨_, _, rfl, hst.push ha hnext (by simpa using hnd), fun x hx => setPrev_of_ne _ _ _ ?_⟩
    rintro rfl
    exact hx (by simp [treeNodes])
  | fuel + 1, m, elt, pair_list, a :: b :: ts, st, ⟨he, ha, hab, hb, hts⟩, hst, hnd, hfuel => by
    obtain rfl : elt = a.1 := Option.some.inj he
    rw [meldPairs, hab]
    dsimp only
    simp only [List.cons_append, List.flatMap_cons, ← List.append_assoc] at hnd ⊢
    -- the pair, and the rest of the list with the stack, are disjoint
    have hpair : (treeNodes a ++ treeNodes b).Nodup := (List.nodup_append.mp hnd).1
    have hout : ∀ x ∈ (ts ++ st).flatMap treeNodes, x ∉ treeNodes a ++ treeNodes b :=
      fun x hx hmem => (List.nodup_append.mp hnd).2.2 x hmem x hx rfl
    obtain ⟨hroot, ⟨ht, hnext, -⟩, hoff⟩ := mergeTrees_spec que ha hb hpair
    have hLnodes := @nodes_link α (merge_parent_is_subtree_b que) a b
    rw [hroot, pairPass]
    generalize link (merge_parent_is_subtree_b que) a b = L at ht hnext hLnodes ⊢
    generalize (mergeTrees que m a.1 b.1).1 = m1 at ht hnext hoff ⊢
    have hrest : ((ts ++ st).flatMap treeNodes).Nodup := (List.nodup_append.mp hnd).2.1
    have hndL : (treeNodes L ++ st.flatMap treeNodes).Nodup := by
      refine ((hLnodes.append_right _).nodup_iff).mpr (List.nodup_append.mpr ⟨hpair, ?_, ?_⟩)
      · rw [List.flatMap_append] at hrest
        exact (List.nodup_append.mp hrest).2.1
      · exact fun x hx y hy e => hout y (by simp [hy]) (e ▸ hx)
    have hpush := (hst.frame fun x hx => hoff x (hout x (by simp [hx]))).push ht hnext hndL
    have hLmem : L.1 ∈ treeNodes a ++ treeNodes b := hLnodes.mem_iff.mp List.mem_cons_self
    -- off the pair, the memory is as it was
    have hoffL : ∀ x, x ∉ treeNodes a ++ treeNodes b → setPrev m1 L.1 pair_list x = m x := by
      intro x hx
      have hxL : x ≠ L.1 := by
        rintro rfl
        exact hx hLmem
      rw [setPrev_of_ne _ _ _ hxL]
      exact hoff x hx
    -- the entry after the pair was read before the merge
    cases ts with
    | nil =>
      have hbn : (m b.1).next = none := hts
      rw [hbn]
      exact ⟨_, _, rfl, hpush, fun x hx => hoffL x fun h => hx (List.mem_append_left _ h)⟩
    | cons c ts' =>
      have hbn : (m b.1).next = some c.1 := hts.1
      rw [hbn]
      rw [hbn] at hts
      have hsib : Siblings (setPrev m1 L.1 pair_list) (some c.1) (c :: ts') := by
        refine hts.frame fun x hx => hoffL x (hout x ?_)
        rw [List.flatMap_append]
        exact List.mem_append_left _ hx
      have hnd' : (((c :: ts') ++ L :: st).flatMap treeNodes).Nodup := by
        have h : (treeNodes L ++ ((c :: ts') ++ st).flatMap treeNodes).Nodup :=
          ((hLnodes.append_right _).nodup_iff).mpr hnd
        refine (List.Perm.nodup_iff ?_).mp h
        rw [List.flatMap_append, List.flatMap_append, @List.flatMap_cons _ _ L st]
        exact List.perm_append_comm_assoc _ _ _
      obtain ⟨m', top, heq, hstack, hframe⟩ := meldPairs_spec que fuel _ c.1 (some L.1) (c :: ts')
        (L :: st) hsib hpush hnd' (by simp only [List.length_cons] at hfuel ⊢; omega)
      refine ⟨m', top, heq, hstack, fun x hx => ?_⟩
      have hx' : x ∉ treeNodes a ++ treeNodes b := fun h => hx (List.mem_append_left _ h)
      rw [hframe x fun h => ?_, hoffL x hx']
      simp only [List.flatMap_append, List.flatMap_cons, List.mem_append] at h hx
      rcases h with h | h | h
      · exact hx (.inr (.inl h))
      · exact hx' (hLnodes.mem_iff.mp h)
      · exact hx (.inr (.inr h))

omit [DecidableEq α] in
theorem Stack.eq_nil_of_none {m : α → priority_queue_entry α} {st : List (α × LcrsTree α)}
    (h : Stack m none st) : st = [] := by
  cases st with
  | nil => rfl
  | cons t ts => exact absurd h.1 (by simp)

/-- Phase 2 links the trees of the stack into the tree built so far, as `mergePass` does. -/
theorem meldMerge_spec (que : Queue α) :
    ∀ (fuel : Nat) (m : α → priority_queue_entry α) (r : Option (α × LcrsTree α)) (pl : α)
      (st : List (α × LcrsTree α)),
      Stack m (some pl) st → (∀ t ∈ r, TreeAt m t ∧ (m t.1).next = none) →
      ((r.toList ++ st).flatMap treeNodes).Nodup → st.length ≤ fuel →
      ∃ m' t, meldMerge que fuel m (r.map Prod.fst) pl = some (m', some t.1) ∧
        mergePass (merge_parent_is_subtree_b que) r st = some t ∧ Root m' t ∧
        ∀ x, x ∉ (r.toList ++ st).flatMap treeNodes → m' x = m x
  | _, _, _, _, [], hst, _, _, _ => absurd hst (by simp [Stack])
  | 0, _, _, _, _ :: _, _, _, _, hfuel => absurd hfuel (by simp)
  | fuel + 1, m, none, pl, s :: st, ⟨hpl, hs, hsn, hst⟩, _, hnd, hfuel => by
    obtain rfl : pl = s.1 := Option.some.inj hpl
    -- `merge_pair_inline(NULL, pair_list)` is the top tree itself
    rw [meldMerge]
    simp only [Option.map_none, merge_pair_inline]
    cases hprev : (m s.1).prev with
    | none =>
      rw [hprev] at hst
      obtain rfl := Stack.eq_nil_of_none hst
      exact ⟨m, s, rfl, rfl, ⟨hs, hsn, hprev⟩, fun _ _ => rfl⟩
    | some e =>
      rw [hprev] at hst
      obtain ⟨m', t, heq, hmp, hroot, hframe⟩ := meldMerge_spec que fuel m (some s) e st hst
        (fun t ht => by rw [← Option.mem_some_iff.mp ht]; exact ⟨hs, hsn⟩) (by simpa using hnd)
        (by simp only [List.length_cons] at hfuel; omega)
      exact ⟨m', t, heq, by rw [mergePass]; exact hmp, hroot, fun x hx => hframe x (by simpa using hx)⟩
  | fuel + 1, m, some t, pl, s :: st, ⟨hpl, hs, hsn, hst⟩, hr, hnd, hfuel => by
    obtain rfl : pl = s.1 := Option.some.inj hpl
    obtain ⟨ht, -⟩ := hr t rfl
    rw [meldMerge]
    simp only [Option.map_some, merge_pair_inline]
    -- the two trees merged, and the rest of the stack, are disjoint
    have hnd' : (treeNodes t ++ treeNodes s ++ st.flatMap treeNodes).Nodup := by
      simpa [List.append_assoc] using hnd
    have hpair : (treeNodes t ++ treeNodes s).Nodup := (List.nodup_append.mp hnd').1
    have hout : ∀ x ∈ st.flatMap treeNodes, x ∉ treeNodes t ++ treeNodes s := fun x hx hmem =>
      (List.nodup_append.mp hnd').2.2 x hmem x hx rfl
    obtain ⟨hroot, hRoot, hoff⟩ := mergeTrees_spec que ht hs hpair
    have hLnodes := @nodes_link α (merge_parent_is_subtree_b que) t s
    rw [hroot, mergePass]
    generalize link (merge_parent_is_subtree_b que) t s = L at hRoot hLnodes ⊢
    generalize (mergeTrees que m t.1 s.1).1 = m1 at hRoot hoff ⊢
    have hframe1 : ∀ x, x ∉ ((some t).toList ++ s :: st).flatMap treeNodes → m1 x = m x := by
      intro x hx
      exact hoff x fun h => hx (by simp only [Option.toList_some, List.singleton_append,
        List.flatMap_cons, ← List.append_assoc]; exact List.mem_append_left _ h)
    cases hprev : (m s.1).prev with
    | none =>
      rw [hprev] at hst
      obtain rfl := Stack.eq_nil_of_none hst
      exact ⟨m1, L, rfl, rfl, hRoot, hframe1⟩
    | some e =>
      rw [hprev] at hst
      have hndL : (((some L).toList ++ st).flatMap treeNodes).Nodup := by
        simp only [Option.toList_some, List.singleton_append, List.flatMap_cons]
        exact List.nodup_append.mpr ⟨hLnodes.nodup_iff.mpr hpair, (List.nodup_append.mp hnd').2.1,
          fun x hx y hy e => hout y hy (e ▸ hLnodes.mem_iff.mp hx)⟩
      obtain ⟨m', t', heq, hmp, hroot', hframe⟩ := meldMerge_spec que fuel m1 (some L) e st
        (hst.frame fun x hx => hoff x (hout x hx))
        (fun t ht => by rw [← Option.mem_some_iff.mp ht]; exact ⟨hRoot.1, hRoot.2.1⟩) hndL
        (by simp only [List.length_cons] at hfuel; omega)
      refine ⟨m', t', heq, hmp, hroot', fun x hx => ?_⟩
      rw [hframe x fun h => hx ?_, hframe1 x hx]
      simp only [Option.toList_some, List.singleton_append, List.flatMap_cons, List.mem_append] at h ⊢
      rcases h with h | h
      · rcases List.mem_append.mp (hLnodes.mem_iff.mp h) with h | h
        · exact .inl h
        · exact .inr (.inl h)
      · exact .inr (.inr h)

/-- **`meld_pair`**, given a sibling list of disjoint heap-ordered trees from `elt` on, returns
the tree that the two-pass pairing builds from them: one heap-ordered tree with all their nodes,
whose root has `next` and `prev` both `NULL`. No entry off the list is touched. -/
theorem meld_pair_spec (que : Queue α) {le : α → α → Prop}
    (hp : Picks (merge_parent_is_subtree_b que) le) (m : α → priority_queue_entry α) (elt : α)
    (ts : List (α × LcrsTree α)) (hsib : Siblings m (some elt) ts)
    (hnd : (ts.flatMap treeNodes).Nodup) (hord : ∀ t ∈ ts, Ordered le t) (fuel : Nat)
    (hfuel : ts.length ≤ fuel) :
    ∃ m' r, meld_pair que fuel m elt = some (m', some r.1) ∧
      mergePass (merge_parent_is_subtree_b que) none
        (pairPass (merge_parent_is_subtree_b que) ts []) = some r ∧
      Root m' r ∧ Ordered le r ∧ (treeNodes r).Perm (ts.flatMap treeNodes) ∧
      ∀ x, x ∉ ts.flatMap treeNodes → m' x = m x := by
  obtain ⟨m1, top, h1, hst, hoff1⟩ :=
    meldPairs_spec que fuel m elt none ts [] hsib rfl (by simpa using hnd) hfuel
  -- the stack holds the nodes of the list
  have hstnodes : ((pairPass (merge_parent_is_subtree_b que) ts []).flatMap treeNodes).Perm
      (ts.flatMap treeNodes) := by
    have h := @pairPass_nodes α (merge_parent_is_subtree_b que) ts []
    rwa [List.flatMap_nil, List.append_nil] at h
  have hlen : (pairPass (merge_parent_is_subtree_b que) ts []).length ≤ fuel := by
    have := @pairPass_length_le α (merge_parent_is_subtree_b que) ts []
    simp only [List.length_nil] at this
    omega
  obtain ⟨m2, r, h2, hmp, hroot, hoff2⟩ := meldMerge_spec que fuel m1 none top _ hst (by simp)
    (by simpa using hstnodes.nodup_iff.mpr hnd) hlen
  -- the abstract passes: the tree is ordered and has the nodes of the list
  have hts : ts ≠ [] := by
    rintro rfl
    exact absurd hsib (by simp [Siblings])
  obtain ⟨r', hr', hordr, hnodes⟩ := mergePass_spec hp none _ (.inr (pairPass_ne_nil _ _ hts))
    (by simp) (pairPass_ordered hp ts [] hord (by simp))
  obtain rfl : r = r' := Option.some.inj (hmp.symm.trans hr')
  refine ⟨m2, r, ?_, hmp, hroot, hordr, hnodes.trans (by simpa using hstnodes), fun x hx => ?_⟩
  · simp only [meld_pair, h1, Option.bind_eq_bind, Option.bind_some]
    simpa using h2
  · rw [hoff2 x fun h => hx (hstnodes.mem_iff.mp (by simpa using h)), hoff1 x (by simpa using hx)]

/-- Three lone entries `1 → 2 → 3` of a max heap keyed by their own values meld into the tree
`3 → 2 → 1`. -/
theorem meld_pair_three :
    ∃ m', meld_pair (⟨true, fun a b => (b : Int) - a⟩ : Queue Nat) 3
        (fun x => ⟨if x = 1 then some 2 else if x = 2 then some 3 else none, none, none⟩) 1 =
        some (m', some 3) ∧
      (m' 3).child = some 2 ∧ (m' 2).child = some 1 ∧ (m' 3).next = none ∧ (m' 3).prev = none := by
  have hp : Picks (merge_parent_is_subtree_b (⟨true, fun a b => (b : Int) - a⟩ : Queue Nat))
      (fun p c => c ≤ p) := by
    intro a b
    simp only [merge_parent_is_subtree_b, if_true, decide_eq_true_eq, decide_eq_false_iff_not]
    omega
  obtain ⟨m', r, hmeld, hmp, hroot, -⟩ :=
    meld_pair_spec _ hp
      (fun x => ⟨if x = 1 then some 2 else if x = 2 then some 3 else none, none, none⟩) 1
      [(1, nil), (2, nil), (3, nil)] ⟨rfl, rfl, rfl, rfl, rfl, rfl, rfl⟩
      (by decide) (by simp [Ordered, spine, HeapOrd]) 3 (by decide)
  -- the passes link `1` under `2`, then `2` under `3`
  obtain rfl : r = (3, node 2 (node 1 nil nil) nil) := Option.some.inj (hmp.symm.trans rfl)
  obtain ⟨⟨hc3, -, ⟨hc2, -⟩, -⟩, hn, hpv⟩ := hroot
  exact ⟨m', hmeld, hc3, hc2, hn, hpv⟩

/-! ## `destroy` -/

/-- `while (tail->next) tail = tail->next;` (`:307-309`). -/
def walkTail : Nat → (α → priority_queue_entry α) → α → Option α
  | 0, _, _ => none
  | fuel + 1, m, tail =>
    match (m tail).next with
    | none => some tail
    | some n => walkTail fuel m n

/-- `if (child_list) { tail->next = child_list; ... }` (`:304-310`): the child list of `head`
hooked behind `tail`, and `tail` walked to the end of it. -/
def spliceChildren (fuel : Nat) (m : α → priority_queue_entry α) (head : α) (tail : Option α) :
    Option ((α → priority_queue_entry α) × Option α) :=
  match (m head).child, tail with
  | none, _ => some (m, tail)
  | some child_list, some t =>
    let m := setNext m t (some child_list)
    (walkTail fuel m t).map fun t => (m, some t)
  -- `tail` is `NULL` only while `head` is
  | some _, none => none

/-- The loop of `pqueue::destroy` (`:303-315`). `callback m e` is the memory after the call on
`e`; the entries handed over are listed in `calls`, in order. -/
def destroyLoop (callback : (α → priority_queue_entry α) → α → α → priority_queue_entry α) :
    Nat → (α → priority_queue_entry α) → Option α → Option α → List α →
      Option ((α → priority_queue_entry α) × List α)
  | _, m, none, _, calls => some (m, calls)
  | 0, _, some _, _, _ => none
  | fuel + 1, m, some head, tail, calls => do
    let (m, tail) ← spliceChildren (fuel + 1) m head tail
    -- `head = head->next` is read before the callback runs on `elt`
    destroyLoop callback fuel (callback m head) (m head).next tail (calls ++ [head])

/-- **`pqueue::destroy`** (`:296-320`): `head` and `tail` start at the root. The address
arithmetic of `elt - offset` and the poisoning of `pq_root` after the loop are not modelled. -/
def destroy (callback : (α → priority_queue_entry α) → α → α → priority_queue_entry α)
    (fuel : Nat) (m : α → priority_queue_entry α) (pq_root : Option α) :
    Option ((α → priority_queue_entry α) × List α) :=
  destroyLoop callback fuel m pq_root pq_root []

omit [DecidableEq α] in
/-- A sibling list from one of its trees on. -/
theorem Siblings.suffix {m : α → priority_queue_entry α} :
    ∀ {p : Option α} {A B : List (α × LcrsTree α)} {t : α × LcrsTree α},
      Siblings m p (A ++ t :: B) → Siblings m (some t.1) (t :: B)
  | _, [], _, _, ⟨_, ht, hB⟩ => ⟨rfl, ht, hB⟩
  | _, _ :: _, _, _, ⟨_, _, hA⟩ => hA.suffix

/-- Hooking a list behind the root of the last tree of a sibling list makes one list of both. -/
theorem Siblings.splice {m : α → priority_queue_entry α} {q : Option α}
    {B : List (α × LcrsTree α)} {l : α × LcrsTree α} (hB : Siblings (setNext m l.1 q) q B) :
    ∀ {p : Option α} {A : List (α × LcrsTree α)}, Siblings m p (A ++ [l]) →
      ((A ++ [l]).flatMap treeNodes).Nodup → Siblings (setNext m l.1 q) p (A ++ l :: B)
  | _, [], ⟨hp, hl, _⟩, hnd => by
    rw [List.nil_append, List.flatMap_singleton] at hnd
    have hroot : l.1 ∉ nodes l.2 := (List.nodup_cons.mp hnd).1
    refine ⟨hp, hl.frame' (by simp) fun x hx => setNext_of_ne _ _ _ ?_, ?_⟩
    · rintro rfl
      exact hroot hx
    · rw [setNext_next_self]
      exact hB
  | _, a :: A, ⟨hp, ha, hA⟩, hnd => by
    rw [List.cons_append, List.flatMap_cons] at hnd
    -- `l` is in the rest of the list, away from the nodes of `a`
    have hoff : ∀ x ∈ treeNodes a, x ≠ l.1 := fun x hx e =>
      (List.nodup_append.mp hnd).2.2 x hx l.1 (by simp [treeNodes]) e
    refine ⟨hp, ha.frame fun x hx => setNext_of_ne _ _ _ (hoff x hx), ?_⟩
    rw [setNext_of_ne _ _ _ (hoff a.1 List.mem_cons_self)]
    exact hB.splice hA (List.nodup_append.mp hnd).2.1

omit [DecidableEq α] in
/-- `tail` walks to the root of the last tree of a sibling list. -/
theorem walkTail_spec :
    ∀ (fuel : Nat) (m : α → priority_queue_entry α) (x : α) (ts : List (α × LcrsTree α)),
      Siblings m (some x) ts → ts.length ≤ fuel → walkTail fuel m x = ts.getLast?.map Prod.fst
  | _, _, _, [], h, _ => absurd h (by simp [Siblings])
  | 0, _, _, _ :: _, _, h => absurd h (by simp)
  | fuel + 1, m, x, [t], ⟨hx, _, hn⟩, _ => by
    obtain rfl : x = t.1 := Option.some.inj hx
    have hnext : (m t.1).next = none := hn
    rw [walkTail, hnext]
    rfl
  | fuel + 1, m, x, t :: u :: ts, ⟨hx, _, hu⟩, hfuel => by
    obtain rfl : x = t.1 := Option.some.inj hx
    have hnext : (m t.1).next = some u.1 := hu.1
    rw [hnext] at hu
    rw [walkTail, hnext, List.getLast?_cons_cons]
    exact walkTail_spec fuel m u.1 (u :: ts) hu (by simp only [List.length_cons] at hfuel ⊢; omega)

/-- One splice: the children of the first pending tree go behind the last one, `tail` moves to
the last of them, and only the old `tail`'s `next` is written. -/
theorem spliceChildren_spec {m : α → priority_queue_entry α} {h : α} {c : LcrsTree α}
    {P : List (α × LcrsTree α)} {tail : Option α} {fuel : Nat}
    (hs : Siblings m (some h) ((h, c) :: P)) (htail : ∀ l ∈ ((h, c) :: P).getLast?, tail = some l.1)
    (hnd : (((h, c) :: P).flatMap treeNodes).Nodup)
    (hfuel : (((h, c) :: P).flatMap treeNodes).length ≤ fuel) :
    ∃ m1 tail1, spliceChildren fuel m h tail = some (m1, tail1) ∧
      Siblings m1 (some h) ((h, c) :: (P ++ trees c)) ∧
      (∀ l ∈ ((h, c) :: (P ++ trees c)).getLast?, tail1 = some l.1) ∧
      ∀ x, x ∉ ((h, c) :: P).flatMap treeNodes → m1 x = m x := by
  have hc : Rep m (m h).child (some h) c := hs.2.1
  cases c with
  | nil =>
    -- no children: nothing is written
    have hchild : (m h).child = none := hc
    refine ⟨m, tail, by simp [spliceChildren, hchild], ?_, ?_, fun _ _ => rfl⟩
    · simpa [trees] using hs
    · simpa [trees] using htail
  | node c1 cc cn =>
    have hchild : (m h).child = some c1 := hc.1
    rw [hchild] at hc
    -- the pending list ends in the tree `l` that `tail` stands at
    obtain ⟨l, hl⟩ : ∃ l, ((h, node c1 cc cn) :: P).getLast? = some l :=
      ⟨_, List.getLast?_eq_some_getLast (List.cons_ne_nil _ _)⟩
    obtain ⟨A, hA⟩ := List.getLast?_eq_some_iff.mp hl
    obtain rfl : tail = some l.1 := htail l hl
    have hlP : l ∈ (h, node c1 cc cn) :: P := by
      rw [hA]
      exact List.mem_append_right _ List.mem_cons_self
    have hlmem : l.1 ∈ ((h, node c1 cc cn) :: P).flatMap treeNodes :=
      List.mem_flatMap.mpr ⟨l, hlP, List.mem_cons_self⟩
    -- the children are nodes of the first tree, so `l`'s root is none of them
    have hsplit : (treeNodes (h, node c1 cc cn) ++ P.flatMap treeNodes).Nodup := by
      have h' := hnd
      rwa [List.flatMap_cons] at h'
    have hroot : l.1 ∉ nodes (node c1 cc cn) := by
      rcases List.mem_cons.mp hlP with rfl | hlP
      · exact (List.nodup_cons.mp (List.nodup_append.mp hsplit).1).1
      · intro hx
        exact (List.nodup_append.mp hsplit).2.2 l.1 (List.mem_cons_of_mem _ hx) l.1
          (List.mem_flatMap.mpr ⟨l, hlP, List.mem_cons_self⟩) rfl
    have hB : Siblings (setNext m l.1 (some c1)) (some c1) (trees (node c1 cc cn)) :=
      hc.siblings.frame fun x hx => setNext_of_ne _ _ _ fun e =>
        hroot (e ▸ (nodes_perm_trees _).mem_iff.mpr hx)
    have hsplice := hB.splice (hA ▸ hs) (hA ▸ hnd)
    have heq : (h, node c1 cc cn) :: (P ++ trees (node c1 cc cn)) =
        A ++ l :: trees (node c1 cc cn) := by
      rw [← List.cons_append, hA, List.append_assoc, List.singleton_append]
    -- `tail` walks from `l` over the children to the last of them
    have hlen : (l :: trees (node c1 cc cn)).length ≤ fuel := by
      have := length_trees_le (node c1 cc cn)
      simp only [List.flatMap_cons, List.length_append, treeNodes, List.length_cons] at hfuel
      simp only [List.length_cons]
      omega
    have hwalk := walkTail_spec fuel _ l.1 _ hsplice.suffix hlen
    obtain ⟨last, hlast⟩ : ∃ last, (l :: trees (node c1 cc cn)).getLast? = some last :=
      ⟨_, List.getLast?_eq_some_getLast (List.cons_ne_nil _ _)⟩
    rw [hlast] at hwalk
    refine ⟨setNext m l.1 (some c1), some last.1, ?_, heq ▸ hsplice, ?_, fun x hx => ?_⟩
    · simp only [spliceChildren, hchild, hwalk, Option.map_some]
    · rw [heq, List.getLast?_append, hlast, Option.some_or]
      rintro l' ⟨⟩
      rfl
    · exact setNext_of_ne _ _ _ fun e => hx (e ▸ hlmem)

/-- The loop hands the pending trees to `callback` level by level, whatever the callback does
to the entry it is given, and writes no entry off them. -/
theorem destroyLoop_spec (callback : (α → priority_queue_entry α) → α → α → priority_queue_entry α)
    (hcb : ∀ m e x, x ≠ e → callback m e x = m x) :
    ∀ (fuel : Nat) (m : α → priority_queue_entry α) (head tail : Option α) (calls : List α)
      (P : List (α × LcrsTree α)),
      Siblings m head P → (∀ l ∈ P.getLast?, tail = some l.1) → (P.flatMap treeNodes).Nodup →
      (P.flatMap treeNodes).length ≤ fuel →
      ∃ m', destroyLoop callback fuel m head tail calls = some (m', calls ++ levelOrder P) ∧
        ∀ x, x ∉ P.flatMap treeNodes → m' x = m x
  | fuel, m, head, tail, calls, [], hs, _, _, _ => by
    obtain rfl : head = none := hs
    refine ⟨m, ?_, fun _ _ => rfl⟩
    cases fuel <;> simp [destroyLoop, levelOrder]
  | 0, _, _, _, _, _ :: _, _, _, _, hfuel => absurd hfuel (by simp [treeNodes])
  | fuel + 1, m, head, tail, calls, (h, c) :: P, hs, htail, hnd, hfuel => by
    obtain rfl : head = some h := hs.1
    obtain ⟨m1, tail1, hsplice, hs1, htail1, hoff1⟩ := spliceChildren_spec hs htail hnd hfuel
    -- the first root leaves the queue and its children join the back
    have hperm := flatMap_perm_children (h, c) P
    have hnd' := hperm.nodup_iff.mp hnd
    have hh : h ∉ (P ++ trees c).flatMap treeNodes := (List.nodup_cons.mp hnd').1
    have htail' : ∀ l ∈ (P ++ trees c).getLast?, tail1 = some l.1 := by
      intro l hl
      apply htail1 l
      rw [List.getLast?_cons, Option.mem_def.mp hl]
      rfl
    have hlen : ((P ++ trees c).flatMap treeNodes).length ≤ fuel := by
      have := hperm.length_eq
      simp only [List.length_cons] at this
      omega
    obtain ⟨m', hrun, hoff⟩ := destroyLoop_spec callback hcb fuel (callback m1 h) (m1 h).next tail1
      (calls ++ [h]) (P ++ trees c) (hs1.2.2.frame fun x hx => hcb m1 h x fun e => hh (e ▸ hx))
      htail' (List.nodup_cons.mp hnd').2 hlen
    refine ⟨m', ?_, fun x hx => ?_⟩
    · rw [destroyLoop, hsplice, Option.bind_eq_bind, Option.bind_some]
      dsimp only
      rw [hrun, levelOrder, List.append_assoc, List.singleton_append]
    · have hx' := hperm.mem_iff.not.mp hx
      rw [List.mem_cons, not_or] at hx'
      rw [hoff x hx'.2, hcb m1 h x hx'.1, hoff1 x hx]

/-- **`pqueue::destroy`** hands every entry of a heap of distinct entries to the callback once,
root first and then level by level, and no other entry; it needs as many rounds as the heap has
entries, whatever the callback does to the entry it is given, since that entry's links are read
before the call. It writes no entry off the heap. -/
theorem destroy_calls_each_once
    (callback : (α → priority_queue_entry α) → α → α → priority_queue_entry α)
    (hcb : ∀ m e x, x ≠ e → callback m e x = m x) (m : α → priority_queue_entry α)
    (pq_root : Option α) (heap : Option (α × LcrsTree α)) (hheap : Heap m pq_root heap)
    (hnd : (heap.toList.flatMap treeNodes).Nodup) (fuel : Nat)
    (hfuel : (heap.toList.flatMap treeNodes).length ≤ fuel) :
    ∃ m', destroy callback fuel m pq_root = some (m', levelOrder heap.toList) ∧
      (levelOrder heap.toList).Perm (heap.toList.flatMap treeNodes) ∧
      ∀ x, x ∉ heap.toList.flatMap treeNodes → m' x = m x := by
  -- the heap is a queue of at most one tree, with `tail` at its root
  have hs : Siblings m pq_root heap.toList := by
    cases heap with
    | none => exact hheap
    | some t => exact ⟨hheap.1, hheap.2.1, hheap.2.2.1⟩
  have htail : ∀ l ∈ heap.toList.getLast?, pq_root = some l.1 := by
    cases heap with
    | none => simp
    | some t =>
      intro l hl
      obtain rfl : l = t := by simpa using hl.symm
      exact hheap.1
  obtain ⟨m', hrun, hoff⟩ := destroyLoop_spec callback hcb fuel m pq_root pq_root [] _ hs htail hnd hfuel
  rw [List.nil_append] at hrun
  exact ⟨m', hrun, levelOrder_perm _, hoff⟩

/-- A heap `1` over `2` and `3`, with `4` under `2`, torn down by a callback that clears each
entry it is given: the calls go `1, 2, 3, 4`. -/
theorem destroy_four_level_order :
    ∃ m', destroy (fun m e => Function.update m e ⟨none, none, none⟩) 4
        (fun x : Nat => if x = 1 then ⟨none, none, some 2⟩ else if x = 2 then ⟨some 3, some 1, some 4⟩
          else if x = 3 then ⟨none, some 2, none⟩ else ⟨none, some 2, none⟩) (some 1) =
        some (m', [1, 2, 3, 4]) := by
  obtain ⟨m', hrun, -, -⟩ := destroy_calls_each_once (fun m e => Function.update m e ⟨none, none, none⟩)
    (fun _ _ _ hx => Function.update_of_ne hx _ _)
    (fun x : Nat => if x = 1 then ⟨none, none, some 2⟩ else if x = 2 then ⟨some 3, some 1, some 4⟩
      else if x = 3 then ⟨none, some 2, none⟩ else ⟨none, some 2, none⟩) (some 1)
    (some (1, node 2 (node 4 nil nil) (node 3 nil nil)))
    ⟨rfl, ⟨rfl, rfl, ⟨rfl, rfl, rfl, rfl⟩, rfl, rfl, rfl, rfl⟩, rfl, rfl⟩ (by decide) 4 (by decide)
  refine ⟨m', hrun.trans ?_⟩
  simp [levelOrder, trees]

end Libkern.PriorityQueue
