import Mathlib.Data.List.Perm.Basic

/-!
# Pairing heaps as left-child right-sibling trees

A pairing heap is a tree in which every node is placed under a parent that is not below it. In
memory such a tree is kept the way a binary tree keeps a forest: each node stores its first child
and its next sibling (`LcrsTree`). A tree is a root together with the forest of its children,
`(root, children)`.

Two trees are combined by `link`, which hangs one root under the other as its first child; `above a
b` says that `b` is to be the parent. A forest is combined into one tree in two passes: `pairPass`
links the trees in pairs from the front, pushing each pair on a stack, and `mergePass` links the
pairs into one tree from the top of the stack down.

The order a heap keeps is any relation `le` (parent, child) that the choice of `above` respects
(`Picks`). Linking keeps the nodes (`nodes_link`) and the order (`ordered_link`), and so do both
passes (`pairPass_nodes`, `pairPass_ordered`, `mergePass_spec`).

A queue of trees is listed level by level by `levelOrder`, which meets every node once
(`levelOrder_perm`).
-/

variable {α : Type}

/-- A forest: a node, the forest of its children, and the forest of its next siblings. -/
inductive LcrsTree (α : Type) where
  | nil
  | node (x : α) (child next : LcrsTree α)

namespace LcrsTree

/-- The nodes of a forest. -/
def nodes : LcrsTree α → List α
  | nil => []
  | node x c n => x :: (nodes c ++ nodes n)

/-- The roots of a forest: a node and its next siblings. -/
def spine : LcrsTree α → List α
  | nil => []
  | node x _ n => x :: spine n

/-- The trees of a forest, from the first root on. -/
def trees : LcrsTree α → List (α × LcrsTree α)
  | nil => []
  | node x c n => (x, c) :: trees n

/-- Every node is placed under a parent that is `le` it. -/
def HeapOrd (le : α → α → Prop) : LcrsTree α → Prop
  | nil => True
  | node x c n => (∀ y ∈ spine c, le x y) ∧ HeapOrd le c ∧ HeapOrd le n

end LcrsTree

open LcrsTree

/-- The nodes of a tree: its root and the nodes of its children. -/
def treeNodes (t : α × LcrsTree α) : List α := t.1 :: nodes t.2

/-- A heap-ordered tree: its root is `le` each of its children, and so on below. -/
def Ordered (le : α → α → Prop) (t : α × LcrsTree α) : Prop :=
  (∀ y ∈ spine t.2, le t.1 y) ∧ HeapOrd le t.2

/-- `above` picks, of two roots, one that may be the other's parent under `le`. -/
def Picks (above : α → α → Bool) (le : α → α → Prop) : Prop :=
  ∀ a b, (above a b = true → le b a) ∧ (above a b = false → le a b)

/-- Hang one tree under the other as its first child: `b` is the parent if `above a b`. -/
def link (above : α → α → Bool) (a b : α × LcrsTree α) : α × LcrsTree α :=
  if above a.1 b.1 then (b.1, node a.1 a.2 b.2) else (a.1, node b.1 b.2 a.2)

/-- The first pass: link the trees in pairs from the front, pushing each pair, and an odd last
tree, on `acc`. -/
def pairPass (above : α → α → Bool) :
    List (α × LcrsTree α) → List (α × LcrsTree α) → List (α × LcrsTree α)
  | [], acc => acc
  | [a], acc => a :: acc
  | a :: b :: rest, acc => pairPass above rest (link above a b :: acc)

/-- The second pass: link the trees of the stack, from its top, into the tree `r` built so far. -/
def mergePass (above : α → α → Bool) :
    Option (α × LcrsTree α) → List (α × LcrsTree α) → Option (α × LcrsTree α)
  | r, [] => r
  | none, p :: ps => mergePass above (some p) ps
  | some r, p :: ps => mergePass above (some (link above r p)) ps

/-! ## Forests and their trees -/

namespace LcrsTree

theorem nodes_perm_trees (t : LcrsTree α) : (nodes t).Perm ((trees t).flatMap treeNodes) := by
  induction t with
  | nil => exact .refl _
  | node x c n _ ihn =>
    simp only [nodes, trees, List.flatMap_cons, treeNodes, List.cons_append]
    exact ((List.perm_append_left_iff _).mpr ihn).cons x

theorem heapOrd_iff_trees (le : α → α → Prop) (t : LcrsTree α) :
    HeapOrd le t ↔ ∀ s ∈ trees t, Ordered le s := by
  induction t with
  | nil => simp [HeapOrd, trees]
  | node x c n _ ihn =>
    simp only [HeapOrd, trees, List.mem_cons, forall_eq_or_imp, Ordered, ihn, and_assoc]

theorem spine_eq_map_trees (t : LcrsTree α) : spine t = (trees t).map Prod.fst := by
  induction t with
  | nil => rfl
  | node x c n _ ihn => simp [spine, trees, ihn]

theorem length_trees (t : LcrsTree α) : (trees t).length = (spine t).length := by
  rw [spine_eq_map_trees, List.length_map]

/-- Every tree has a root of its own, so a forest has no more trees than nodes. -/
theorem length_trees_le (t : LcrsTree α) : (trees t).length ≤ (nodes t).length := by
  induction t with
  | nil => simp [trees, nodes]
  | node x c n _ ihn =>
    simp only [trees, nodes, List.length_cons, List.length_append]
    omega

end LcrsTree

/-! ## Level order -/

/-- Taking the first tree of a queue apart: its root, then the rest of the queue with the
tree's children behind it. -/
theorem flatMap_perm_children (t : α × LcrsTree α) (ts : List (α × LcrsTree α)) :
    ((t :: ts).flatMap treeNodes).Perm (t.1 :: (ts ++ trees t.2).flatMap treeNodes) := by
  rw [List.flatMap_cons, treeNodes, List.cons_append, List.flatMap_append]
  exact .cons t.1 (List.perm_append_comm.trans ((List.perm_append_left_iff _).mpr (nodes_perm_trees t.2)))

/-- The nodes of a queue of trees level by level: the first tree's root, then the rest of the
queue with the first tree's children queued behind it. -/
def levelOrder : List (α × LcrsTree α) → List α
  | [] => []
  | t :: ts => t.1 :: levelOrder (ts ++ trees t.2)
termination_by ts => (ts.flatMap treeNodes).length
decreasing_by
  rw [(flatMap_perm_children _ _).length_eq, List.length_cons]
  omega

/-- The level order lists every node of the queue once. -/
theorem levelOrder_perm (ts : List (α × LcrsTree α)) :
    (levelOrder ts).Perm (ts.flatMap treeNodes) := by
  fun_induction levelOrder ts with
  | case1 => exact .nil
  | case2 t ts ih => exact (ih.cons t.1).trans (flatMap_perm_children t ts).symm

/-! ## One link -/

section Link

variable {above : α → α → Bool} {le : α → α → Prop}

theorem nodes_link (a b : α × LcrsTree α) :
    (treeNodes (link above a b)).Perm (treeNodes a ++ treeNodes b) := by
  unfold link treeNodes
  split
  · -- `b` on top: `b :: a :: (a's nodes ++ b's nodes)`
    simp only [nodes, List.cons_append]
    refine (List.Perm.swap _ _ _).trans (.cons _ ?_)
    exact (List.perm_middle).symm
  · simp only [nodes, List.cons_append]
    exact .cons _ (@List.perm_append_comm _ (b.1 :: nodes b.2) (nodes a.2))

theorem ordered_link (hp : Picks above le) {a b : α × LcrsTree α} (ha : Ordered le a)
    (hb : Ordered le b) : Ordered le (link above a b) := by
  unfold link
  split
  · -- `a` becomes the first child of `b`
    rename_i h
    refine ⟨fun y hy => ?_, ha.1, ha.2, hb.2⟩
    rcases List.mem_cons.mp hy with rfl | hy
    · exact (hp _ _).1 h
    · exact hb.1 y hy
  · rename_i h
    refine ⟨fun y hy => ?_, hb.1, hb.2, ha.2⟩
    rcases List.mem_cons.mp hy with rfl | hy
    · exact (hp _ _).2 (by simpa using h)
    · exact ha.1 y hy

end Link

/-! ## The two passes -/

section Passes

variable {above : α → α → Bool} {le : α → α → Prop}

theorem pairPass_nodes :
    ∀ (ts acc : List (α × LcrsTree α)),
      ((pairPass above ts acc).flatMap treeNodes).Perm (ts.flatMap treeNodes ++ acc.flatMap treeNodes)
  | [], acc => by simp [pairPass]
  | [a], acc => by simp [pairPass]
  | a :: b :: rest, acc => by
    rw [pairPass]
    refine (pairPass_nodes rest _).trans ?_
    simp only [List.flatMap_cons, List.append_assoc]
    -- the pair's nodes go from the front of `acc` to the front of the list
    refine ((List.perm_append_left_iff _).mpr ((nodes_link a b).append_right _)).trans ?_
    simp only [← List.append_assoc]
    refine (List.perm_append_right_iff _).mpr ?_
    rw [List.append_assoc]
    exact List.perm_append_comm

theorem pairPass_ordered (hp : Picks above le) :
    ∀ (ts acc : List (α × LcrsTree α)), (∀ t ∈ ts, Ordered le t) → (∀ t ∈ acc, Ordered le t) →
      ∀ t ∈ pairPass above ts acc, Ordered le t
  | [], acc, _, hacc => by
    rw [pairPass]
    exact hacc
  | [a], acc, hts, hacc => by
    simp only [pairPass, List.mem_cons, forall_eq_or_imp]
    exact ⟨hts a List.mem_cons_self, hacc⟩
  | a :: b :: rest, acc, hts, hacc => by
    rw [pairPass]
    refine pairPass_ordered hp rest _ (fun t ht => hts t (by simp [ht])) fun t ht => ?_
    rcases List.mem_cons.mp ht with rfl | ht
    · exact ordered_link hp (hts a (by simp)) (hts b (by simp))
    · exact hacc t ht

theorem pairPass_length_le :
    ∀ (ts acc : List (α × LcrsTree α)), (pairPass above ts acc).length ≤ ts.length + acc.length
  | [], acc => by simp [pairPass]
  | [a], acc => by
    rw [pairPass, List.length_cons, List.length_singleton]
    omega
  | a :: b :: rest, acc => by
    rw [pairPass]
    have := pairPass_length_le rest (link above a b :: acc)
    simp only [List.length_cons] at this ⊢
    omega

theorem pairPass_ne_nil :
    ∀ (ts acc : List (α × LcrsTree α)), ts ≠ [] → pairPass above ts acc ≠ []
  | [], _, h => absurd rfl h
  | [a], acc, _ => by simp [pairPass]
  | a :: b :: rest, acc, _ => by
    rw [pairPass]
    by_cases hr : rest = []
    · subst hr
      simp [pairPass]
    · exact pairPass_ne_nil rest _ hr

/-- The second pass ends in one ordered tree with the nodes of `r` and of the stack. -/
theorem mergePass_spec (hp : Picks above le) :
    ∀ (r : Option (α × LcrsTree α)) (ps : List (α × LcrsTree α)), (r ≠ none ∨ ps ≠ []) →
      (∀ t ∈ r, Ordered le t) → (∀ t ∈ ps, Ordered le t) →
      ∃ t, mergePass above r ps = some t ∧ Ordered le t ∧
        (treeNodes t).Perm ((r.toList ++ ps).flatMap treeNodes)
  | none, [], h, _, _ => by simp at h
  | some r, [], _, hr, _ => ⟨r, rfl, hr r rfl, by simp⟩
  | none, p :: ps, _, _, hps => by
    rw [mergePass]
    obtain ⟨t, ht, hord, hnodes⟩ :=
      mergePass_spec hp (some p) ps (.inl (by simp)) (fun t ht => hps t (by simp_all))
        (fun t ht => hps t (by simp [ht]))
    exact ⟨t, ht, hord, by simpa using hnodes⟩
  | some r, p :: ps, _, hr, hps => by
    rw [mergePass]
    obtain ⟨t, ht, hord, hnodes⟩ :=
      mergePass_spec hp (some (link above r p)) ps (.inl (by simp))
        (fun t ht => by
          rw [← Option.mem_some_iff.mp ht]
          exact ordered_link hp (hr r rfl) (hps p (by simp)))
        (fun t ht => hps t (by simp [ht]))
    refine ⟨t, ht, hord, hnodes.trans ?_⟩
    simp only [Option.toList_some, List.singleton_append, List.flatMap_cons, ← List.append_assoc]
    exact (List.perm_append_right_iff _).mpr (nodes_link r p)

end Passes
