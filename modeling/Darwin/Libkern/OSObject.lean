import Mathlib

/-!
# libkern objects as the serializers see them (`libkern/c++/OSDictionary.cpp`, `OSArray.cpp`, …)

An object graph is given by its unfolding: a tree in which every node carries the identity of the
object it stands for, so that an object reached along two paths appears twice with one identity.
A finite tree does not contain itself, so every graph written this way is acyclic, and every
finite acyclic graph unfolds to such a tree.

`OSSymbol` is uniqued by its characters (`OSSymbol::withCString` returns the existing symbol) and
`kOSBooleanTrue`/`kOSBooleanFalse` are singletons, so those two carry no identity of their own. A
dictionary's keys are `OSSymbol`s and are written by their characters.
-/

namespace Libkern

/-- `kMaxStringLength` (`OSString.h:112`): `OSString::initWithCString` refuses longer strings. -/
def kMaxStringLength : Nat := 262142

/-- The identity of an object, the pointer that `OSSerialize`'s `tags` array compares. -/
inductive Ident where
  | obj (n : Nat)
  | bool (b : Bool)
  | sym (s : List UInt8)
  deriving DecidableEq, Repr

/-- An `OSObject` of one of the eight serializable classes. -/
inductive OSObject where
  | dictionary (id : Nat) (entries : List (List UInt8 × OSObject))
  | array (id : Nat) (elems : List OSObject)
  | set (id : Nat) (members : List OSObject)
  | number (id : Nat) (size : Nat) (value : Nat)
  | boolean (b : Bool)
  | symbol (s : List UInt8)
  | string (id : Nat) (s : List UInt8)
  | data (id : Nat) (bytes : List UInt8) (disableSerialization : Bool)
  deriving Repr

namespace OSObject

/-- The object's identity. -/
def ident : OSObject → Ident
  | .dictionary id _ => .obj id
  | .array id _ => .obj id
  | .set id _ => .obj id
  | .number id _ _ => .obj id
  | .boolean b => .bool b
  | .symbol s => .sym s
  | .string id _ => .obj id
  | .data id _ _ => .obj id

mutual
/-- The object and everything below it, in the order the binary serializer visits them
(a dictionary's key before its value). -/
def nodes : OSObject → List OSObject
  | t@(.dictionary _ es) => t :: entriesNodes es
  | t@(.array _ es) => t :: listNodes es
  | t@(.set _ ms) => t :: listNodes ms
  | t => [t]

def listNodes : List OSObject → List OSObject
  | [] => []
  | o :: os => nodes o ++ listNodes os

def entriesNodes : List (List UInt8 × OSObject) → List OSObject
  | [] => []
  | (k, v) :: es => symbol k :: nodes v ++ entriesNodes es
end

/-- `OSCollection::getCount`: the number of elements of a collection, zero for anything else. -/
def count : OSObject → Nat
  | .dictionary _ es => es.length
  | .array _ es => es.length
  | .set _ ms => ms.length
  | _ => 0

def isDictionary : OSObject → Bool
  | .dictionary .. => true
  | _ => false

def isArray : OSObject → Bool
  | .array .. => true
  | _ => false

def isSet : OSObject → Bool
  | .set .. => true
  | _ => false

/-- The elements of a collection, a dictionary's values in entry order. -/
def elems : OSObject → List OSObject
  | .dictionary _ es => es.map Prod.snd
  | .array _ es => es
  | .set _ ms => ms
  | _ => []

mutual
/-- How many non-empty collections are nested at most, the object itself included. -/
def depth : OSObject → Nat
  | .dictionary _ es => if es = [] then 0 else entriesDepth es + 1
  | .array _ es => if es = [] then 0 else listDepth es + 1
  | .set _ ms => if ms = [] then 0 else listDepth ms + 1
  | _ => 0

def listDepth : List OSObject → Nat
  | [] => 0
  | v :: vs => max (depth v) (listDepth vs)

def entriesDepth : List (List UInt8 × OSObject) → Nat
  | [] => 0
  | (_, v) :: es => max (depth v) (entriesDepth es)
end

/-- The class invariants of one object: `OSSet::setObject` refuses a member already present,
`OSDictionary` keys are distinct, `OSNumber::init` refuses more than 64 bits and masks the value,
and an `OSString` or `OSSymbol` is a C string shorter than `kMaxStringLength`. -/
def Valid : OSObject → Prop
  | .dictionary _ es => (es.map Prod.fst).Nodup
  | .set _ ms => (ms.map ident).Nodup
  | .number _ size value => size ≤ 64 ∧ value < 2 ^ size
  | .symbol s => 0 ∉ s ∧ s.length < kMaxStringLength
  | .string _ s => 0 ∉ s ∧ s.length < kMaxStringLength
  | _ => True

/-- A well-formed object graph: two positions with one identity hold the same object, and every
object satisfies its class invariants. -/
def WellFormed (t : OSObject) : Prop :=
  (∀ u ∈ t.nodes, ∀ v ∈ t.nodes, u.ident = v.ident → u = v) ∧ ∀ u ∈ t.nodes, u.Valid

theorem self_mem_nodes (t : OSObject) : t ∈ t.nodes := by
  cases t <;> simp [nodes]

mutual
/-- The objects below an object below `w` are below `w`. -/
theorem nodes_subset : ∀ (w : OSObject) {v : OSObject}, v ∈ w.nodes → v.nodes ⊆ w.nodes
  | .dictionary id es, v, h => by
    simp only [nodes, List.mem_cons] at h
    rcases h with rfl | h
    · exact List.Subset.refl _
    · exact List.Subset.trans (entriesNodes_subset es h) (List.subset_cons_self _ _)
  | .array id es, v, h => by
    simp only [nodes, List.mem_cons] at h
    rcases h with rfl | h
    · exact List.Subset.refl _
    · exact List.Subset.trans (listNodes_subset es h) (List.subset_cons_self _ _)
  | .set id ms, v, h => by
    simp only [nodes, List.mem_cons] at h
    rcases h with rfl | h
    · exact List.Subset.refl _
    · exact List.Subset.trans (listNodes_subset ms h) (List.subset_cons_self _ _)
  | .number .., v, h | .boolean _, v, h | .symbol _, v, h | .string .., v, h | .data .., v, h => by
    simp only [nodes, List.mem_singleton] at h
    subst h
    exact List.Subset.refl _

theorem listNodes_subset : ∀ (vs : List OSObject) {v : OSObject}, v ∈ listNodes vs → v.nodes ⊆ listNodes vs
  | [], _, h => by simp [listNodes] at h
  | x :: xs, v, h => by
    simp only [listNodes, List.mem_append] at h ⊢
    rcases h with h | h
    · exact List.Subset.trans (nodes_subset x h) (List.subset_append_left _ _)
    · exact List.Subset.trans (listNodes_subset xs h) (List.subset_append_right _ _)

theorem entriesNodes_subset :
    ∀ (es : List (List UInt8 × OSObject)) {v : OSObject}, v ∈ entriesNodes es → v.nodes ⊆ entriesNodes es
  | [], _, h => by simp [entriesNodes] at h
  | (k, x) :: xs, v, h => by
    simp only [entriesNodes, List.cons_append, List.mem_cons, List.mem_append] at h
    rcases h with rfl | h | h
    · simp [nodes, entriesNodes]
    · exact List.Subset.trans (nodes_subset x h)
        (List.Subset.trans (List.subset_append_left _ _) (List.subset_cons_self _ _))
    · exact List.Subset.trans (entriesNodes_subset xs h)
        (List.Subset.trans (List.subset_append_right _ _) (List.subset_cons_self _ _))
end

theorem sizeOf_lt_of_mem_dictionary {id : Nat} {es : List (List UInt8 × OSObject)} {k : List UInt8}
    {v : OSObject} (h : (k, v) ∈ es) : sizeOf v < sizeOf (dictionary id es) := by
  have := List.sizeOf_lt_of_mem h
  simp only [dictionary.sizeOf_spec, Prod.mk.sizeOf_spec] at this ⊢
  omega

theorem sizeOf_lt_of_mem_array {id : Nat} {es : List OSObject} {v : OSObject} (h : v ∈ es) :
    sizeOf v < sizeOf (array id es) := by
  have := List.sizeOf_lt_of_mem h
  simp only [array.sizeOf_spec]
  omega

theorem sizeOf_lt_of_mem_set {id : Nat} {ms : List OSObject} {v : OSObject} (h : v ∈ ms) :
    sizeOf v < sizeOf (set id ms) := by
  have := List.sizeOf_lt_of_mem h
  simp only [set.sizeOf_spec]
  omega

theorem depth_le_listDepth {vs : List OSObject} {v : OSObject} (h : v ∈ vs) : depth v ≤ listDepth vs := by
  induction vs with
  | nil => simp at h
  | cons x xs ih =>
    simp only [listDepth]
    rcases List.mem_cons.1 h with rfl | h
    · exact Nat.le_max_left _ _
    · exact Nat.le_trans (ih h) (Nat.le_max_right _ _)

theorem depth_le_entriesDepth {es : List (List UInt8 × OSObject)} {v : OSObject} (h : v ∈ es.map Prod.snd) :
    depth v ≤ entriesDepth es := by
  induction es with
  | nil => simp at h
  | cons e es ih =>
    obtain ⟨k, x⟩ := e
    simp only [entriesDepth]
    rcases List.mem_cons.1 h with rfl | h
    · exact Nat.le_max_left _ _
    · exact Nat.le_trans (ih h) (Nat.le_max_right _ _)

/-- An element sits one level below its collection. -/
theorem depth_lt_of_mem_elems {u v : OSObject} (h : v ∈ u.elems) : depth v + 1 ≤ depth u := by
  cases u with
  | dictionary id es =>
    have hne : es ≠ [] := by rintro rfl; simp [elems] at h
    simp only [depth, hne, if_false]
    have := depth_le_entriesDepth (by simpa [elems] using h)
    omega
  | array id es =>
    have hne : es ≠ [] := by rintro rfl; simp [elems] at h
    simp only [depth, hne, if_false]
    have := depth_le_listDepth (by simpa [elems] using h)
    omega
  | set id ms =>
    have hne : ms ≠ [] := by rintro rfl; simp [elems] at h
    simp only [depth, hne, if_false]
    have := depth_le_listDepth (by simpa [elems] using h)
    omega
  | _ => simp [elems] at h

theorem mem_nodes_trans {u v w : OSObject} (hu : u ∈ v.nodes) (hv : v ∈ w.nodes) : u ∈ w.nodes :=
  nodes_subset w hv hu

theorem mem_listNodes {vs : List OSObject} {w : OSObject} : w ∈ listNodes vs ↔ ∃ v ∈ vs, w ∈ v.nodes := by
  induction vs with
  | nil => simp [listNodes]
  | cons x xs ih => simp [listNodes, ih]

theorem mem_entriesNodes {es : List (List UInt8 × OSObject)} {w : OSObject} :
    w ∈ entriesNodes es ↔ ∃ e ∈ es, w = symbol e.1 ∨ w ∈ e.2.nodes := by
  induction es with
  | nil => simp [entriesNodes]
  | cons e es ih =>
    obtain ⟨k, x⟩ := e
    simp only [entriesNodes, List.cons_append, List.mem_cons, List.mem_append, ih]
    constructor
    · rintro (h | h | ⟨e, he, h⟩)
      · exact ⟨(k, x), Or.inl rfl, Or.inl h⟩
      · exact ⟨(k, x), Or.inl rfl, Or.inr h⟩
      · exact ⟨e, Or.inr he, h⟩
    · rintro ⟨e, rfl | he, h⟩
      · rcases h with h | h
        · exact Or.inl h
        · exact Or.inr (Or.inl h)
      · exact Or.inr (Or.inr ⟨e, he, h⟩)

theorem mem_nodes_of_mem_elems {u v : OSObject} (h : v ∈ u.elems) : v ∈ u.nodes := by
  cases u with
  | dictionary id es =>
    obtain ⟨e, he, rfl⟩ := List.mem_map.1 h
    exact List.mem_cons_of_mem _ (mem_entriesNodes.2 ⟨e, he, Or.inr (self_mem_nodes _)⟩)
  | array id es => exact List.mem_cons_of_mem _ (mem_listNodes.2 ⟨v, h, self_mem_nodes v⟩)
  | set id ms => exact List.mem_cons_of_mem _ (mem_listNodes.2 ⟨v, h, self_mem_nodes v⟩)
  | _ => simp [elems] at h

/-- A dictionary's keys are written as symbols. -/
theorem key_mem_nodes {id : Nat} {es : List (List UInt8 × OSObject)} {e : List UInt8 × OSObject} (h : e ∈ es) :
    symbol e.1 ∈ (dictionary id es).nodes :=
  List.mem_cons_of_mem _ (mem_entriesNodes.2 ⟨e, h, Or.inl rfl⟩)

/-- An element is not its own collection. -/
theorem ne_of_mem_elems {u v : OSObject} (h : v ∈ u.elems) : v ≠ u := by
  rintro rfl
  have := depth_lt_of_mem_elems h
  omega

end OSObject

end Libkern
