import Mathlib

/-!
# `OSDictionary`: three searches over one sorted array (OSDictionary.cpp, OSSymbol.cpp)

An `OSDictionary` keeps its entries in `dictionary[0..count)`. With `kSort` clear, `setObject`
and `removeObject` find a key by a linear scan (OSDictionary.cpp:393-399, 470-476) and a new key
is appended; with `kSort` set they call `OSSymbol::bsearch` (OSSymbol.cpp:722-747), whose
`lim`/`baseIdx` recurrence returns the key's slot or its insertion point, and the new entry is
shifted in there (`move_backward`, OSDictionary.cpp:418-419). `getObject` (OSDictionary.cpp:
522-560) has a third search: an inlined `l`/`r` binary search when `count > 4` and `kSort` is
set, else a scan. Turning `kSort` on later sorts the array (`sortBySymbol`, a `qsort` by key
address, OSDictionary.cpp:77-81 and 790-792).

Keys are `OSSymbol` addresses, compared as `uintptr_t`; here they are `Nat`, with `0` for `NULL`.
`bsearch_splits` says that `OSSymbol::bsearch` returns the point that splits a strictly
increasing key column at the key, `getObjectSearch_eq` that the inlined search agrees with the
scan, and `Reachable.inv` that every dictionary built by the operations keeps distinct non-null
keys, increasing whenever `kSort` is set, and maps each key to the value last stored under it.
-/

namespace Libkern.Dictionary

/-- `kSort` of `OSCollection` (OSCollection.h:251). -/
def kSort : UInt32 := 0x00000002

def UINT_MAX : Nat := 2 ^ 32 - 1

/-- `sizeof(dictEntry)`: a key and a value pointer. -/
def sizeofDictEntry : Nat := 16

/-- One slot of `dictionary`: the key's address and the value. -/
structure dictEntry (V : Type) where
  key : Nat
  value : V
  deriving DecidableEq, Repr

/-- The fields of `OSDictionary` the operations read: the entries `dictionary[0..count)`, the
allocation's `capacity` and growth step, and `OSCollection::fOptions`. -/
structure OSDictionary (V : Type) where
  dictionary : List (dictEntry V)
  capacity : Nat
  capacityIncrement : Nat
  fOptions : UInt32
  deriving DecidableEq, Repr

/-- `options & kSort`. -/
def hasSort (options : UInt32) : Bool := options &&& kSort != 0

namespace OSDictionary

variable {V : Type}

def count (d : OSDictionary V) : Nat := d.dictionary.length

/-- The key column of the entries. -/
def keys (d : OSDictionary V) : List Nat := d.dictionary.map dictEntry.key

/-- `fOptions & kSort`. -/
def isSorted (d : OSDictionary V) : Bool := hasSort d.fOptions

@[simp] theorem length_keys (d : OSDictionary V) : d.keys.length = d.count := by
  simp [keys, count]

end OSDictionary

open OSDictionary

variable {V : Type}

/-! ## The operations -/

/-- `initWithCapacity` (OSDictionary.cpp:83-110), when the allocation succeeds. A new object is
zero-filled, so `fOptions` starts at `0`. -/
def initWithCapacity (inCapacity : Nat) : Option (OSDictionary V) :=
  if inCapacity > UINT_MAX / sizeofDictEntry then none
  else
    some { dictionary := [], capacity := inCapacity,
           capacityIncrement := if inCapacity ≠ 0 then inCapacity else 16, fOptions := 0 }

/-- The loop of `OSSymbol::bsearch` (OSSymbol.cpp:733-746) over the key column: probe
`baseIdx + lim / 2`; past it the search moves right (`baseIdx += (lim >> 1) + 1; lim--`), else
left, and `lim >>= 1` either way. -/
def bsearchLoop (key : Nat) (keys : List Nat) (baseIdx lim : Nat) : Nat :=
  if h : lim = 0 then baseIdx + lim / 2
  else
    let p := keys.getD (baseIdx + lim / 2) 0
    if key = p then baseIdx + lim / 2
    else if key > p then bsearchLoop key keys (baseIdx + lim / 2 + 1) ((lim - 1) / 2)
    else bsearchLoop key keys baseIdx (lim / 2)
termination_by lim
decreasing_by all_goals omega

/-- `OSSymbol::bsearch(key, &dictionary[0], count, sizeof(dictionary[0]))`. -/
def OSSymbol.bsearch (key : Nat) (keys : List Nat) : Nat := bsearchLoop key keys 0 keys.length

/-- The search that `setObject` and `removeObject` share (OSDictionary.cpp:389-399 and 466-476):
the slot `i` it stops at and `exists`. With `kSort` clear the scan stops at the first match or
at `count`, which `idxOf` is. -/
def findKey (d : OSDictionary V) (aKey : Nat) : Nat × Bool :=
  if d.isSorted then
    let i := OSSymbol.bsearch aKey d.keys
    (i, decide (i < d.count) && d.keys.getD i 0 == aKey)
  else
    let i := d.keys.idxOf aKey
    (i, decide (i < d.count))

/-- The value of the first entry under `k`. -/
def lookup (l : List (dictEntry V)) (k : Nat) : Option V :=
  (l.find? fun e => e.key == k).map dictEntry.value

/-- The scan of `getObject` (OSDictionary.cpp:551-557) over `[0, count)`. -/
def getObjectScan (d : OSDictionary V) (aKey : Nat) : Option V := lookup d.dictionary aKey

/-- The binary search inlined in `getObject` (OSDictionary.cpp:538-550) over `[l, r)`. The
`none` slot is never read: `r ≤ count`. -/
def getObjectSearch (d : OSDictionary V) (aKey l r : Nat) : Option V :=
  if l < r then
    let i := (l + r) / 2
    match d.dictionary[i]? with
    | none => none
    | some e =>
      if aKey = e.key then some e.value
      else if aKey < e.key then getObjectSearch d aKey l i
      else getObjectSearch d aKey (i + 1) r
  else none
termination_by r - l

/-- `getObject` (OSDictionary.cpp:522-560). -/
def getObject (d : OSDictionary V) (aKey : Nat) : Option V :=
  if aKey = 0 then none
  else if 4 < d.count ∧ d.isSorted = true then getObjectSearch d aKey 0 d.count
  else getObjectScan d aKey

/-- `ensureCapacity` (OSDictionary.cpp:316-364): the new capacity and the dictionary. The
rounded-up size is computed in `unsigned int`; the allocation is taken to succeed with the size
asked for, and the entries move to it unchanged. -/
def ensureCapacity (d : OSDictionary V) (newCapacity : Nat) : Nat × OSDictionary V :=
  if newCapacity ≤ d.capacity then (d.capacity, d)
  else
    let finalCapacity :=
      ((newCapacity - 1) / d.capacityIncrement + 1) * d.capacityIncrement % 2 ^ 32
    if finalCapacity < newCapacity then (d.capacity, d)
    else
      let finalCapacity := sizeofDictEntry * finalCapacity / sizeofDictEntry
      if finalCapacity > UINT_MAX then (d.capacity, d)
      else (finalCapacity, { d with capacity := finalCapacity })

/-- The capacity test of `setObject` (OSDictionary.cpp:411): `ensureCapacity(count + 1)` runs
only when `count >= capacity`. -/
def grow (d : OSDictionary V) : Nat × OSDictionary V :=
  if d.count ≥ d.capacity then ensureCapacity d (d.count + 1) else (d.capacity, d)

/-- `setObject(aKey, anObject, onlyAdd)` (OSDictionary.cpp:377-429): replace the value of a key
that is there, else shift a new entry in at the search's slot. -/
def setObject (d : OSDictionary V) (aKey : Nat) (anObject : Option V) (onlyAdd : Bool) :
    Bool × OSDictionary V :=
  match anObject with
  | none => (false, d)
  | some obj =>
    if aKey = 0 then (false, d)
    else
      let (i, keyExists) := findKey d aKey
      if keyExists then
        if onlyAdd then (false, d)
        else (true, { d with dictionary := d.dictionary.set i ⟨aKey, obj⟩ })
      else
        let g := grow d
        if d.count ≥ g.1 then (false, g.2)
        else (true, { g.2 with dictionary := g.2.dictionary.insertIdx i ⟨aKey, obj⟩ })

/-- `removeObject` (OSDictionary.cpp:456-488): the entries after the key's slot move down. -/
def removeObject (d : OSDictionary V) (aKey : Nat) : OSDictionary V :=
  if aKey = 0 then d
  else
    let (i, keyExists) := findKey d aKey
    if keyExists then { d with dictionary := d.dictionary.eraseIdx i } else d

/-- `flushCollection` (OSDictionary.cpp:366-375). -/
def flushCollection (d : OSDictionary V) : OSDictionary V := { d with dictionary := [] }

/-- The loop of `merge` (OSDictionary.cpp:501-508): the iterator gives `srcDict`'s keys in slot
order and stops at a `NULL` key; each is stored with `srcDict`'s value, and the first store that
fails ends the merge with `false`. -/
def mergeLoop (srcDict : OSDictionary V) : OSDictionary V → List Nat → Bool × OSDictionary V
  | d, [] => (true, d)
  | d, sym :: syms =>
    if sym = 0 then (true, d)
    else
      let r := setObject d sym (getObject srcDict sym) false
      if r.1 then mergeLoop srcDict r.2 syms else (false, r.2)

/-- `merge` (OSDictionary.cpp:490-511). -/
def merge (d srcDict : OSDictionary V) : Bool × OSDictionary V := mergeLoop srcDict d srcDict.keys

/-- `sortBySymbol` (OSDictionary.cpp:77-81). `qsort` is not stable, but keys are distinct, so
every sort by key gives the one increasing order. -/
def sortBySymbol (d : OSDictionary V) : OSDictionary V :=
  { d with dictionary := d.dictionary.mergeSort fun e₁ e₂ => decide (e₁.key ≤ e₂.key) }

/-- `OSCollection::setOptions` (OSCollection.cpp:79-88): the old options and the dictionary. -/
def setCollectionOptions (d : OSDictionary V) (options mask : UInt32) : UInt32 × OSDictionary V :=
  (d.fOptions,
    if mask ≠ 0 then { d with fOptions := (d.fOptions &&& ~~~mask) ||| (options &&& mask) } else d)

/-- `OSDictionary::setOptions` (OSDictionary.cpp:776-795). The recursion into child collections
changes other objects, not this dictionary's entries. -/
def setOptions (d : OSDictionary V) (options mask : UInt32) : UInt32 × OSDictionary V :=
  let (old, d) := setCollectionOptions d options mask
  (old, if !hasSort old && d.isSorted then sortBySymbol d else d)

@[simp] theorem ensureCapacity_dictionary (d : OSDictionary V) (n : Nat) :
    (ensureCapacity d n).2.dictionary = d.dictionary := by
  unfold ensureCapacity; dsimp only; split_ifs <;> rfl

@[simp] theorem ensureCapacity_fOptions (d : OSDictionary V) (n : Nat) :
    (ensureCapacity d n).2.fOptions = d.fOptions := by
  unfold ensureCapacity; dsimp only; split_ifs <;> rfl

@[simp] theorem grow_dictionary (d : OSDictionary V) : (grow d).2.dictionary = d.dictionary := by
  unfold grow; split_ifs <;> simp

@[simp] theorem grow_fOptions (d : OSDictionary V) : (grow d).2.fOptions = d.fOptions := by
  unfold grow; split_ifs <;> simp

@[simp] theorem setCollectionOptions_dictionary (d : OSDictionary V) (options mask : UInt32) :
    (setCollectionOptions d options mask).2.dictionary = d.dictionary := by
  unfold setCollectionOptions; split_ifs <;> rfl

/-! ## Keyed entries

`lookup` reads an entry list as a partial map. The operations cut the list at one slot, so its
lemmas are stated for `A ++ x :: B`. -/

section Lookup

variable {A B l l' : List (dictEntry V)} {x : dictEntry V} {k : Nat}

theorem lookup_eq_none_iff : lookup l k = none ↔ k ∉ l.map dictEntry.key := by
  simp [lookup, List.find?_eq_none]

theorem lookup_append_cons_self (hA : k ∉ A.map dictEntry.key) (hx : x.key = k) :
    lookup (A ++ x :: B) k = some x.value := by
  have hnone : A.find? (fun e => e.key == k) = none := by
    rw [List.find?_eq_none]
    intro e he hk
    exact hA (List.mem_map.2 ⟨e, he, by simpa using hk⟩)
  simp [lookup, List.find?_append, hnone, hx]

theorem lookup_append_cons_of_ne (hx : x.key ≠ k) :
    lookup (A ++ x :: B) k = lookup (A ++ B) k := by
  simp [lookup, List.find?_append, hx]

theorem mem_of_lookup_eq_some {v : V} (h : lookup l k = some v) : ⟨k, v⟩ ∈ l := by
  simp only [lookup, Option.map_eq_some_iff] at h
  obtain ⟨e, he, rfl⟩ := h
  have hk : e.key = k := by simpa using List.find?_some he
  subst hk
  exact List.mem_of_find?_eq_some he

/-- With distinct keys an entry is what `lookup` finds under its key. -/
theorem lookup_of_mem (hn : (l.map dictEntry.key).Nodup) {v : V} (h : ⟨k, v⟩ ∈ l) :
    lookup l k = some v := by
  obtain ⟨A, B, rfl⟩ := List.append_of_mem h
  have hA : k ∉ A.map dictEntry.key := by
    rw [List.map_append, List.map_cons, List.nodup_middle, List.nodup_cons] at hn
    exact fun hk => hn.1 (List.mem_append_left _ hk)
  exact lookup_append_cons_self hA rfl

/-- Reordering entries with distinct keys keeps the map. -/
theorem lookup_perm (hp : l.Perm l') (hn : (l.map dictEntry.key).Nodup) :
    lookup l k = lookup l' k := by
  have hn' : (l'.map dictEntry.key).Nodup := ((hp.map _).nodup_iff).1 hn
  cases h : lookup l k with
  | none =>
    have hk : k ∉ l.map dictEntry.key := lookup_eq_none_iff.1 h
    exact (lookup_eq_none_iff.2 fun hk' => hk ((hp.map _).mem_iff.2 hk')).symm
  | some v => exact (lookup_of_mem hn' (hp.mem_iff.1 (mem_of_lookup_eq_some h))).symm

/-- Writing `y` over `x`, which holds the same key, stores `y`'s value under that key. -/
theorem lookup_replace (hn : ((A ++ x :: B).map dictEntry.key).Nodup) {y : dictEntry V}
    (hxy : y.key = x.key) :
    lookup (A ++ y :: B) = Function.update (lookup (A ++ x :: B)) x.key (some y.value) := by
  have hA : x.key ∉ A.map dictEntry.key := by
    rw [List.map_append, List.map_cons, List.nodup_middle, List.nodup_cons] at hn
    exact fun hk => hn.1 (List.mem_append_left _ hk)
  funext k'
  by_cases hk : k' = x.key
  · subst hk
    simpa using lookup_append_cons_self hA hxy
  · rw [Function.update_of_ne hk, lookup_append_cons_of_ne (by rwa [hxy, ne_comm]),
      lookup_append_cons_of_ne (Ne.symm hk)]

/-- Shifting in an entry under a new key stores its value there. -/
theorem lookup_insert (hk : y.key ∉ (A ++ B).map dictEntry.key) :
    lookup (A ++ y :: B) = Function.update (lookup (A ++ B)) y.key (some y.value) := by
  funext k'
  by_cases hk' : k' = y.key
  · subst hk'
    simpa using lookup_append_cons_self (fun h => hk (by simp [h])) rfl
  · rw [Function.update_of_ne hk', lookup_append_cons_of_ne (Ne.symm hk')]

/-- Cutting out the entry of a key that occurs once leaves nothing under it. -/
theorem lookup_erase (hn : ((A ++ x :: B).map dictEntry.key).Nodup) :
    lookup (A ++ B) = Function.update (lookup (A ++ x :: B)) x.key none := by
  have hx : x.key ∉ (A ++ B).map dictEntry.key := by
    rw [List.map_append, List.map_cons, List.nodup_middle, List.nodup_cons] at hn
    simpa using hn.1
  funext k'
  by_cases hk' : k' = x.key
  · subst hk'
    simpa using lookup_eq_none_iff.2 hx
  · rw [Function.update_of_ne hk', lookup_append_cons_of_ne (Ne.symm hk')]

end Lookup

/-! ## The searches -/

/-- `b` splits the key column `ks` at `key`: the keys before `b` are below `key`, the others
are not. -/
structure Splits (ks : List Nat) (key b : Nat) : Prop where
  le_length : b ≤ ks.length
  lt_key : ∀ j (hj : j < ks.length), j < b → ks[j] < key
  key_le : ∀ j (hj : j < ks.length), b ≤ j → key ≤ ks[j]

section Sorted

variable {ks : List Nat} (hs : ks.Pairwise (· < ·))
include hs

theorem getElem_le_of_sorted {i j : Nat} (hi : i < ks.length) (hj : j < ks.length) (hij : i ≤ j) :
    ks[i] ≤ ks[j] := by
  rcases Nat.lt_or_eq_of_le hij with hlt | rfl
  · exact Nat.le_of_lt (List.pairwise_iff_getElem.1 hs i j hi hj hlt)
  · exact Nat.le_refl _

/-- The `bsearch` loop keeps the keys before `baseIdx` below `key` and those from
`baseIdx + lim` above it; when it stops, its slot splits the column. -/
theorem bsearchLoop_splits (key baseIdx lim : Nat) (hlen : baseIdx + lim ≤ ks.length)
    (hlo : ∀ j (hj : j < ks.length), j < baseIdx → ks[j] < key)
    (hhi : ∀ j (hj : j < ks.length), baseIdx + lim ≤ j → key < ks[j]) :
    Splits ks key (bsearchLoop key ks baseIdx lim) := by
  fun_induction bsearchLoop key ks baseIdx lim with
  | case1 baseIdx =>
    exact ⟨by omega, fun j hj h => hlo j hj (by omega), fun j hj h => Nat.le_of_lt (hhi j hj (by omega))⟩
  | case2 baseIdx lim h0 p hfound =>
    have hm : baseIdx + lim / 2 < ks.length := by omega
    have hp : p = ks[baseIdx + lim / 2] := by
      simp only [p, List.getD_eq_getElem?_getD, List.getElem?_eq_getElem hm, Option.getD_some]
    refine ⟨by omega, fun j hj hjm => ?_, fun j hj hjm => ?_⟩
    · rw [hfound, hp]
      exact List.pairwise_iff_getElem.1 hs j _ hj hm hjm
    · rw [hfound, hp]
      exact getElem_le_of_sorted hs hm hj hjm
  | case3 baseIdx lim h0 p hne hgt ih =>
    have hm : baseIdx + lim / 2 < ks.length := by omega
    have hp : p = ks[baseIdx + lim / 2] := by
      simp only [p, List.getD_eq_getElem?_getD, List.getElem?_eq_getElem hm, Option.getD_some]
    -- moving right: the probed key and everything before it are below `key`
    refine ih (by omega) (fun j hj hjm => ?_) (fun j hj hjm => hhi j hj (by omega))
    calc ks[j] ≤ ks[baseIdx + lim / 2] := getElem_le_of_sorted hs hj hm (by omega)
      _ < key := by rw [← hp]; exact hgt
  | case4 baseIdx lim h0 p hne hgt ih =>
    have hm : baseIdx + lim / 2 < ks.length := by omega
    have hp : p = ks[baseIdx + lim / 2] := by
      simp only [p, List.getD_eq_getElem?_getD, List.getElem?_eq_getElem hm, Option.getD_some]
    -- moving left: the probed key and everything after it are above `key`
    refine ih (by omega) hlo (fun j hj hjm => ?_)
    calc key < ks[baseIdx + lim / 2] := by rw [← hp]; omega
      _ ≤ ks[j] := getElem_le_of_sorted hs hm hj hjm

/-- `OSSymbol::bsearch` on a strictly increasing column returns the slot that splits it at the
key: the key's own slot if it is there, else where it belongs. -/
theorem bsearch_splits (key : Nat) : Splits ks key (OSSymbol.bsearch key ks) :=
  bsearchLoop_splits hs key 0 ks.length (by omega) (fun _ _ h => absurd h (by omega))
    (fun _ hj h => absurd hj (by omega))

/-- At a split point the key is in the column exactly when it sits at that point. -/
theorem Splits.mem_iff {key b : Nat} (hS : Splits ks key b) :
    key ∈ ks ↔ ∃ hb : b < ks.length, ks[b] = key := by
  constructor
  · intro hk
    obtain ⟨j, hj, rfl⟩ := List.getElem_of_mem hk
    have hbj : b ≤ j := Nat.le_of_not_lt fun h => Nat.lt_irrefl _ (hS.lt_key j hj h)
    have hb : b < ks.length := by omega
    exact ⟨hb, Nat.le_antisymm (getElem_le_of_sorted hs hb hj hbj) (hS.key_le b hb (Nat.le_refl _))⟩
  · rintro ⟨hb, hk⟩
    exact hk ▸ List.getElem_mem hb

end Sorted

/-- `OSSymbol::bsearch` over a strictly increasing array is the lower bound of `key`: it returns
at most the array's length, every entry before its result is below `key`, every entry from it on
is not, and it is the position of `key` when `key` is in the array. -/
theorem bsearch_lower_bound (ks : List Nat) (hs : ks.Pairwise (· < ·)) (key : Nat) :
    OSSymbol.bsearch key ks ≤ ks.length ∧
      (∀ j (hj : j < ks.length), j < OSSymbol.bsearch key ks → ks[j] < key) ∧
      (∀ j (hj : j < ks.length), OSSymbol.bsearch key ks ≤ j → key ≤ ks[j]) ∧
      (key ∈ ks → ∃ h : OSSymbol.bsearch key ks < ks.length, ks[OSSymbol.bsearch key ks] = key) := by
  have hS := bsearch_splits hs key
  exact ⟨hS.le_length, hS.lt_key, hS.key_le, (Splits.mem_iff hs hS).mp⟩

/-- Between two keys of `[10, 20, 30]`, `25` belongs at the last slot. -/
theorem bsearch_lower_bound_between :
    [10, 20, 30].Pairwise (· < ·) ∧ OSSymbol.bsearch 25 [10, 20, 30] ≤ 3 ∧
      (∀ j (hj : j < 3), OSSymbol.bsearch 25 [10, 20, 30] ≤ j → 25 ≤ [10, 20, 30][j]) :=
  ⟨by decide, (bsearch_lower_bound [10, 20, 30] (by decide) 25).1,
    (bsearch_lower_bound [10, 20, 30] (by decide) 25).2.2.1⟩

/-! ## The representation invariant -/

/-- What the operations keep: distinct, non-null keys, strictly increasing while `kSort` is
set. -/
structure Inv (d : OSDictionary V) : Prop where
  nodup : d.keys.Nodup
  nonnull : 0 ∉ d.keys
  sorted : d.isSorted = true → d.keys.Pairwise (· < ·)

/-- The invariant reads only the key column and the options. -/
theorem Inv.of_keys {d d' : OSDictionary V} (hI : Inv d) (hk : d'.keys = d.keys)
    (ho : d'.fOptions = d.fOptions) : Inv d' := by
  have hs : d'.isSorted = d.isSorted := by simp [isSorted, ho]
  exact ⟨hk ▸ hI.nodup, hk ▸ hI.nonnull, fun h => hk ▸ hI.sorted (hs ▸ h)⟩

theorem Inv.congr {d d' : OSDictionary V} (hI : Inv d) (hd : d'.dictionary = d.dictionary)
    (ho : d'.fOptions = d.fOptions) : Inv d' :=
  hI.of_keys (by simp [keys, hd]) ho

/-- The search of `setObject` and `removeObject`: it finds the key's slot, or reports the key
absent with a slot that splits the column at the key while `kSort` is set. -/
theorem findKey_cases {d : OSDictionary V} (hI : Inv d) {aKey i : Nat} {b : Bool}
    (h : findKey d aKey = (i, b)) :
    (b = true ∧ ∃ hi : i < d.keys.length, d.keys[i] = aKey) ∨
      (b = false ∧ aKey ∉ d.keys ∧ i ≤ d.count ∧ (d.isSorted = true → Splits d.keys aKey i)) := by
  unfold findKey at h
  by_cases hsort : d.isSorted = true
  · simp only [hsort, ↓reduceIte, Prod.mk.injEq] at h
    obtain ⟨rfl, rfl⟩ := h
    have hS := bsearch_splits (hI.sorted hsort) aKey
    by_cases hk : aKey ∈ d.keys
    · obtain ⟨hb, hkb⟩ := (hS.mem_iff (hI.sorted hsort)).1 hk
      refine .inl ⟨?_, hb, hkb⟩
      simp only [Bool.and_eq_true, decide_eq_true_eq, beq_iff_eq]
      exact ⟨by simpa using hb, by rw [List.getD_eq_getElem?_getD, List.getElem?_eq_getElem hb,
        Option.getD_some, hkb]⟩
    · refine .inr ⟨?_, hk, by simpa using hS.le_length, fun _ => hS⟩
      -- a slot holding the key would put it in the column
      rw [Bool.eq_false_iff]
      intro htrue
      simp only [Bool.and_eq_true, decide_eq_true_eq, beq_iff_eq] at htrue
      obtain ⟨hlt, hget⟩ := htrue
      have hlt' : OSSymbol.bsearch aKey d.keys < d.keys.length := by simpa using hlt
      rw [List.getD_eq_getElem?_getD, List.getElem?_eq_getElem hlt', Option.getD_some] at hget
      exact hk (hget ▸ List.getElem_mem hlt')
  · simp only [hsort, Bool.false_eq_true, ↓reduceIte, Prod.mk.injEq] at h
    obtain ⟨rfl, rfl⟩ := h
    by_cases hk : aKey ∈ d.keys
    · have hlt := List.idxOf_lt_length_of_mem hk
      exact .inl ⟨by simpa using hlt, hlt, List.getElem_idxOf hlt⟩
    · have heq := List.idxOf_eq_length hk
      exact .inr ⟨by simp [heq], hk, by simp [heq], fun h => absurd h hsort⟩

theorem getElem_keys_of_getElem? {d : OSDictionary V} {i : Nat} {e : dictEntry V}
    (he : d.dictionary[i]? = some e) (hi : i < d.keys.length) : d.keys[i] = e.key := by
  have h : some d.keys[i] = some e.key := by
    rw [← List.getElem?_eq_getElem hi]
    simp [keys, he]
  exact Option.some.inj h

/-- The search inlined in `getObject` keeps the key out of the slots before `l` and from `r`;
so it finds what the scan finds. -/
theorem getObjectSearch_eq {d : OSDictionary V} (hs : d.keys.Pairwise (· < ·)) (aKey l r : Nat)
    (hr : r ≤ d.count) (hout : ∀ j (hj : j < d.keys.length), (j < l ∨ r ≤ j) → d.keys[j] ≠ aKey) :
    getObjectSearch d aKey l r = getObjectScan d aKey := by
  fun_induction getObjectSearch d aKey l r with
  | case1 l r hlr i he =>
    have : d.dictionary.length ≤ i := List.getElem?_eq_none_iff.1 he
    simp only [count] at hr
    omega
  | case2 l r hlr i e he hfound =>
    have hn : d.keys.Nodup := hs.imp Nat.ne_of_lt
    rw [hfound]
    exact (lookup_of_mem hn (List.mem_of_getElem? he)).symm
  | case3 l r hlr i e he hne hlt ih =>
    have hi : i < d.keys.length := by simp; omega
    have hke := getElem_keys_of_getElem? he hi
    -- the keys from slot `i` on are at least `e.key`, which is above `aKey`
    refine ih (by omega) fun j hj hj' => ?_
    rcases hj' with hj' | hj'
    · exact hout j hj (.inl hj')
    · have := getElem_le_of_sorted hs hi hj hj'
      omega
  | case4 l r hlr i e he hne hlt ih =>
    have hi : i < d.keys.length := by simp; omega
    have hke := getElem_keys_of_getElem? he hi
    -- the keys up to slot `i` are at most `e.key`, which is below `aKey`
    refine ih hr fun j hj hj' => ?_
    rcases hj' with hj' | hj'
    · have := getElem_le_of_sorted hs hj hi (by omega)
      omega
    · exact hout j hj (.inr hj')
  | case5 l r hlr =>
    symm
    refine lookup_eq_none_iff.2 fun hk => ?_
    obtain ⟨j, hj, hkj⟩ := List.getElem_of_mem hk
    exact hout j hj (by omega) hkj

/-- On a dictionary that keeps the invariant, `getObject` finds what the scan finds, whichever
search it takes. -/
theorem getObject_eq_scan {d : OSDictionary V} (hI : Inv d) (aKey : Nat) :
    getObject d aKey = getObjectScan d aKey := by
  unfold getObject
  split_ifs with hk hbin
  · subst hk
    exact (lookup_eq_none_iff.2 hI.nonnull).symm
  · exact getObjectSearch_eq (hI.sorted hbin.2) aKey 0 d.count (Nat.le_refl _)
      fun j hj h => absurd h (by simp at hj; omega)
  · rfl

/-! ## The operations on the entries

Each operation cuts the entry list at one slot: `setObject` writes over an entry or shifts one
in, `removeObject` cuts one out, and `sortBySymbol` reorders the whole list. -/

theorem eq_take_append_getElem_cons_drop {α : Type} {l : List α} {i : Nat} (hi : i < l.length) :
    l = l.take i ++ l[i] :: l.drop (i + 1) := by
  rw [← List.drop_eq_getElem_cons hi, List.take_append_drop]

theorem insertIdx_eq_take_cons_drop {α : Type} (a : α) :
    ∀ {l : List α} {i : Nat}, i ≤ l.length → l.insertIdx i a = l.take i ++ a :: l.drop i
  | _, 0, _ => by simp
  | [], _ + 1, h => absurd h (by simp)
  | b :: l, i + 1, h => by
    simp [List.insertIdx_succ_cons, insertIdx_eq_take_cons_drop a (by simpa using h : i ≤ l.length)]

/-- A split point of a key that is absent puts the smaller keys before it and the larger after. -/
theorem Splits.take_drop {ks : List Nat} {key i : Nat} (hS : Splits ks key i) (hk : key ∉ ks) :
    (∀ a ∈ ks.take i, a < key) ∧ ∀ b ∈ ks.drop i, key < b := by
  constructor
  · intro a ha
    obtain ⟨j, hj, rfl⟩ := List.mem_take_iff_getElem.1 ha
    exact hS.lt_key j _ (by omega)
  · intro b hb
    obtain ⟨j, hj, rfl⟩ := List.mem_drop_iff_getElem.1 hb
    have hne : key ≠ ks[i + j] := fun h => hk (h ▸ List.getElem_mem _)
    have := hS.key_le (i + j) (by omega) (by omega)
    omega

section Entries

variable {d d' : OSDictionary V} {A B : List (dictEntry V)} {x y : dictEntry V}

/-- Shifting in an entry under a new, non-null key between the smaller and the larger keys keeps
the invariant. -/
theorem Inv.insert (hI : Inv d) (hd : d.dictionary = A ++ B) (hy : y.key ∉ d.keys)
    (hy0 : y.key ≠ 0)
    (hsplit : d.isSorted = true →
      (∀ a ∈ A.map dictEntry.key, a < y.key) ∧ ∀ b ∈ B.map dictEntry.key, y.key < b)
    (hd' : d'.dictionary = A ++ y :: B) (ho : d'.fOptions = d.fOptions) : Inv d' := by
  have hk : d.keys = A.map dictEntry.key ++ B.map dictEntry.key := by simp [keys, hd]
  have hk' : d'.keys = A.map dictEntry.key ++ y.key :: B.map dictEntry.key := by simp [keys, hd']
  have hs : d'.isSorted = d.isSorted := by simp [isSorted, ho]
  refine ⟨?_, ?_, fun hsort => ?_⟩
  · rw [hk', List.nodup_middle, List.nodup_cons, ← hk]
    exact ⟨hy, hI.nodup⟩
  · have h0 := hI.nonnull
    rw [hk] at h0
    rw [hk']
    simp only [List.mem_append, List.mem_cons, not_or] at h0 ⊢
    exact ⟨h0.1, Ne.symm hy0, h0.2⟩
  · rw [hs] at hsort
    have hp := hI.sorted hsort
    rw [hk, List.pairwise_append] at hp
    obtain ⟨hlt, hgt⟩ := hsplit hsort
    rw [hk', List.pairwise_append, List.pairwise_cons]
    refine ⟨hp.1, ⟨hgt, hp.2.1⟩, fun a ha b hb => ?_⟩
    rcases List.mem_cons.1 hb with rfl | hb
    · exact hlt a ha
    · exact hp.2.2 a ha b hb

/-- Cutting an entry out keeps the invariant: the key column only loses a key. -/
theorem Inv.erase (hI : Inv d) (hd : d.dictionary = A ++ x :: B) (hd' : d'.dictionary = A ++ B)
    (ho : d'.fOptions = d.fOptions) : Inv d' := by
  have hsub : d'.keys.Sublist d.keys := by
    simp only [keys, hd, hd', List.map_append, List.map_cons]
    exact (List.sublist_cons_self _ _).append_left _
  have hs : d'.isSorted = d.isSorted := by simp [isSorted, ho]
  exact ⟨hI.nodup.sublist hsub, fun h => hI.nonnull (hsub.subset h),
    fun h => (hI.sorted (hs ▸ h)).sublist hsub⟩

/-- Sorting entries with distinct non-null keys by key leaves them strictly increasing. -/
theorem inv_sortBySymbol (hn : d.keys.Nodup) (h0 : 0 ∉ d.keys) : Inv (sortBySymbol d) := by
  have hperm : (sortBySymbol d).keys.Perm d.keys :=
    (List.mergeSort_perm _ _).map dictEntry.key
  have hn' : (sortBySymbol d).keys.Nodup := hperm.nodup_iff.2 hn
  have hle : (sortBySymbol d).keys.Pairwise (· ≤ ·) := by
    have h := @List.pairwise_mergeSort _ (fun e₁ e₂ => decide (e₁.key ≤ e₂.key))
      (fun a b c hab hbc => by simp only [decide_eq_true_eq] at *; omega)
      (fun a b => by simp only [Bool.or_eq_true, decide_eq_true_eq]; omega) d.dictionary
    simpa [sortBySymbol, keys, List.pairwise_map] using h
  exact ⟨hn', fun h => h0 (hperm.subset h),
    fun _ => (hle.and hn').imp fun h => Nat.lt_of_le_of_ne h.1 h.2⟩

theorem getObjectScan_sortBySymbol (hn : d.keys.Nodup) :
    getObjectScan (sortBySymbol d) = getObjectScan d := by
  funext k
  exact (lookup_perm (List.mergeSort_perm _ _).symm hn).symm

end Entries

/-! ## One operation at a time -/

theorem getObjectScan_eq_lookup (d : OSDictionary V) : getObjectScan d = lookup d.dictionary := rfl

theorem getObjectScan_congr {d d' : OSDictionary V} (h : d'.dictionary = d.dictionary) :
    getObjectScan d' = getObjectScan d := by
  rw [getObjectScan_eq_lookup, getObjectScan_eq_lookup, h]

section Steps

variable {d : OSDictionary V}

/-- What `setObject` can do: refuse and leave the entries and options as they were, write over
the value of the key's entry, or shift in a new entry at a slot with the smaller keys before it
and, while `kSort` is set, the larger after it. -/
theorem setObject_cases (hI : Inv d) (aKey : Nat) (anObject : Option V) (onlyAdd : Bool) :
    let r := setObject d aKey anObject onlyAdd
    (r.1 = false ∧ r.2.dictionary = d.dictionary ∧ r.2.fOptions = d.fOptions) ∨
    (r.1 = true ∧ r.2.fOptions = d.fOptions ∧ aKey ≠ 0 ∧ ∃ v, anObject = some v ∧
      ((∃ A x B, d.dictionary = A ++ x :: B ∧ x.key = aKey ∧
          r.2.dictionary = A ++ ⟨aKey, v⟩ :: B) ∨
        (∃ A B, d.dictionary = A ++ B ∧ aKey ∉ d.keys ∧
          (d.isSorted = true →
            (∀ a ∈ A.map dictEntry.key, a < aKey) ∧ ∀ b ∈ B.map dictEntry.key, aKey < b) ∧
          r.2.dictionary = A ++ ⟨aKey, v⟩ :: B))) := by
  intro r
  cases anObject with
  | none => exact .inl (by simp [r, setObject])
  | some v =>
    by_cases hk : aKey = 0
    · exact .inl (by simp [r, setObject, hk])
    rcases hf : findKey d aKey with ⟨i, b⟩
    rcases findKey_cases hI hf with ⟨rfl, hi, hki⟩ | ⟨rfl, hnot, hle, hsplit⟩
    · -- the key is at slot `i`: replace its value, unless only adding
      cases onlyAdd
      · have hi' : i < d.dictionary.length := by simpa [keys] using hi
        have hr : r = (true, { d with dictionary := d.dictionary.set i ⟨aKey, v⟩ }) := by
          simp [r, setObject, hk, hf]
        refine .inr ⟨by rw [hr], by rw [hr], hk, v, rfl, .inl ⟨_, _, _,
          eq_take_append_getElem_cons_drop hi', by simpa [keys] using hki, ?_⟩⟩
        rw [hr]
        simp [List.set_eq_take_append_cons_drop, hi']
      · exact .inl (by simp [r, setObject, hk, hf])
    · -- the key is absent: grow if full, then shift the entry in at slot `i`
      by_cases hcap : d.count ≥ (grow d).1
      · exact .inl (by simp [r, setObject, hk, hf, hcap])
      · have hle' : i ≤ d.dictionary.length := by simpa [count] using hle
        have hr : r = (true, { (grow d).2 with
            dictionary := (grow d).2.dictionary.insertIdx i ⟨aKey, v⟩ }) := by
          simp [r, setObject, hk, hf, hcap]
        refine .inr ⟨by rw [hr], by rw [hr]; simp, hk, v, rfl, .inr ⟨_, _,
          (List.take_append_drop i d.dictionary).symm, hnot, fun hs => ?_, ?_⟩⟩
        · simpa [keys] using (hsplit hs).take_drop hnot
        · rw [hr]
          simp [insertIdx_eq_take_cons_drop _ hle']

/-- `setObject` keeps the invariant, and a store it reports done is what the map then holds
under the key. -/
theorem setObject_step (hI : Inv d) (aKey : Nat) (anObject : Option V) (onlyAdd : Bool) :
    Inv (setObject d aKey anObject onlyAdd).2 ∧
      getObjectScan (setObject d aKey anObject onlyAdd).2 =
        if (setObject d aKey anObject onlyAdd).1 then
          Function.update (getObjectScan d) aKey anObject
        else getObjectScan d := by
  rcases setObject_cases hI aKey anObject onlyAdd with
    ⟨hr, hd, ho⟩ | ⟨hr, ho, hk0, v, rfl, ⟨A, x, B, hd, hx, hd'⟩ | ⟨A, B, hd, hnot, hsplit, hd'⟩⟩
  · rw [hr]
    exact ⟨hI.congr hd ho, getObjectScan_congr hd⟩
  · -- written over: the key column is unchanged
    have hn : ((A ++ x :: B).map dictEntry.key).Nodup := hd ▸ hI.nodup
    refine ⟨hI.of_keys (by simp [keys, hd, hd', hx]) ho, ?_⟩
    rw [hr, if_pos rfl, getObjectScan_eq_lookup, getObjectScan_eq_lookup, hd', hd, ← hx]
    exact lookup_replace hn rfl
  · -- shifted in under a new key
    refine ⟨hI.insert hd hnot hk0 hsplit hd' ho, ?_⟩
    have hnot' : aKey ∉ (A ++ B).map dictEntry.key := by simpa [keys, hd] using hnot
    rw [hr, if_pos rfl, getObjectScan_eq_lookup, getObjectScan_eq_lookup, hd', hd]
    exact lookup_insert hnot'

/-- What `removeObject` can do: nothing, when the key is absent, or cut the key's entry out. -/
theorem removeObject_cases (hI : Inv d) (aKey : Nat) :
    (removeObject d aKey = d ∧ aKey ∉ d.keys) ∨
      (∃ A x B, d.dictionary = A ++ x :: B ∧ x.key = aKey ∧
        (removeObject d aKey).dictionary = A ++ B ∧ (removeObject d aKey).fOptions = d.fOptions) := by
  by_cases hk : aKey = 0
  · subst hk
    exact .inl ⟨by simp [removeObject], hI.nonnull⟩
  rcases hf : findKey d aKey with ⟨i, b⟩
  rcases findKey_cases hI hf with ⟨rfl, hi, hki⟩ | ⟨rfl, hnot, -, -⟩
  · have hi' : i < d.dictionary.length := by simpa [keys] using hi
    refine .inr ⟨_, _, _, eq_take_append_getElem_cons_drop hi', by simpa [keys] using hki, ?_, ?_⟩
    · simp [removeObject, hk, hf, List.eraseIdx_eq_take_drop_succ]
    · simp [removeObject, hk, hf]
  · exact .inl ⟨by simp [removeObject, hk, hf], hnot⟩

/-- `removeObject` keeps the invariant and leaves nothing under the key. -/
theorem removeObject_step (hI : Inv d) (aKey : Nat) :
    Inv (removeObject d aKey) ∧
      getObjectScan (removeObject d aKey) = Function.update (getObjectScan d) aKey none := by
  rcases removeObject_cases hI aKey with ⟨hr, hnot⟩ | ⟨A, x, B, hd, hx, hd', ho⟩
  · rw [hr]
    refine ⟨hI, (Function.update_eq_self_iff.2 ?_).symm⟩
    exact (lookup_eq_none_iff.2 hnot).symm
  · have hn : ((A ++ x :: B).map dictEntry.key).Nodup := hd ▸ hI.nodup
    refine ⟨hI.erase hd hd' ho, ?_⟩
    rw [getObjectScan_eq_lookup, getObjectScan_eq_lookup, hd', hd, ← hx]
    exact lookup_erase hn

/-- `setOptions` keeps the invariant and the map: the entries are the same, re-sorted when
`kSort` is newly set. -/
theorem setOptions_step (hI : Inv d) (options mask : UInt32) :
    Inv (setOptions d options mask).2 ∧
      getObjectScan (setOptions d options mask).2 = getObjectScan d := by
  set d' := (setCollectionOptions d options mask).2 with hd'
  have hk : d'.keys = d.keys := by simp [d', keys]
  have hold : (setCollectionOptions d options mask).1 = d.fOptions := rfl
  have hscan : getObjectScan d' = getObjectScan d := getObjectScan_congr (by simp [d'])
  simp only [setOptions, hold]
  split_ifs with hsort
  · exact ⟨inv_sortBySymbol (hk ▸ hI.nodup) (hk ▸ hI.nonnull),
      by rw [getObjectScan_sortBySymbol (hk ▸ hI.nodup), hscan]⟩
  · -- no sort: either `kSort` was already set, and the keys are sorted, or it is clear now
    refine ⟨⟨hk ▸ hI.nodup, hk ▸ hI.nonnull, fun hs => hk ▸ hI.sorted ?_⟩, hscan⟩
    simp only [isSorted] at hs hsort ⊢
    simp only [hs, Bool.and_true, Bool.not_eq_true'] at hsort
    simpa using hsort

end Steps

/-! ## Runs of operations

The abstract view of a dictionary is a partial map from keys to values. Each operation acts on
it as a store, a removal or a clear; `Reachable` pairs every dictionary the operations build
with the map of what was last stored under each key. -/

/-- The stores `merge` makes, as updates of a map: `srcDict`'s value under each of its keys, in
slot order, up to the first store that `setObject` refuses. -/
def mergeMap (srcDict : OSDictionary V) :
    OSDictionary V → (Nat → Option V) → List Nat → Nat → Option V
  | _, M, [] => M
  | d, M, sym :: syms =>
    if sym = 0 then M
    else
      let r := setObject d sym (getObject srcDict sym) false
      if r.1 then mergeMap srcDict r.2 (Function.update M sym (getObject srcDict sym)) syms else M

/-- The loop of `merge` is a run of `setObject` steps: it keeps the invariant and makes the
stores `mergeMap` lists. -/
theorem mergeLoop_step (srcDict : OSDictionary V) :
    ∀ (syms : List Nat) (d : OSDictionary V) (M : Nat → Option V), Inv d → getObjectScan d = M →
      Inv (mergeLoop srcDict d syms).2 ∧
        getObjectScan (mergeLoop srcDict d syms).2 = mergeMap srcDict d M syms
  | [], d, M, hI, hM => ⟨hI, hM⟩
  | sym :: syms, d, M, hI, hM => by
    by_cases h0 : sym = 0
    · simpa [mergeLoop, mergeMap, h0] using And.intro hI hM
    have hstep := setObject_step hI sym (getObject srcDict sym) false
    simp only [mergeLoop, mergeMap, h0, ↓reduceIte]
    split_ifs with hr
    · rw [hr, if_pos rfl, hM] at hstep
      exact mergeLoop_step srcDict syms _ _ hstep.1 hstep.2
    · rw [Bool.not_eq_true] at hr
      rw [hr, if_neg (by decide), hM] at hstep
      exact hstep

/-- The dictionaries a run of the operations builds from `initWithCapacity`, each with the map
of what was last stored under each key: a store `setObject` reports done overwrites its key,
`removeObject` clears one, `merge` makes the stores `mergeMap` lists and `flushCollection` clears
every key. -/
inductive Reachable : OSDictionary V → (Nat → Option V) → Prop
  | init {inCapacity : Nat} {d : OSDictionary V} :
      initWithCapacity inCapacity = some d → Reachable d fun _ => none
  | setObject {d : OSDictionary V} {M : Nat → Option V} (aKey : Nat) (anObject : Option V)
      (onlyAdd : Bool) : Reachable d M →
      Reachable (setObject d aKey anObject onlyAdd).2
        (if (setObject d aKey anObject onlyAdd).1 then Function.update M aKey anObject else M)
  | removeObject {d : OSDictionary V} {M : Nat → Option V} (aKey : Nat) : Reachable d M →
      Reachable (removeObject d aKey) (Function.update M aKey none)
  | merge {d : OSDictionary V} {M : Nat → Option V} (srcDict : OSDictionary V) : Reachable d M →
      Reachable (merge d srcDict).2 (mergeMap srcDict d M srcDict.keys)
  | flushCollection {d : OSDictionary V} {M : Nat → Option V} : Reachable d M →
      Reachable (flushCollection d) fun _ => none
  | ensureCapacity {d : OSDictionary V} {M : Nat → Option V} (newCapacity : Nat) :
      Reachable d M → Reachable (ensureCapacity d newCapacity).2 M
  | setOptions {d : OSDictionary V} {M : Nat → Option V} (options mask : UInt32) :
      Reachable d M → Reachable (setOptions d options mask).2 M

/-- An empty dictionary keeps the invariant and maps every key to nothing. -/
theorem inv_of_dictionary_nil {d : OSDictionary V} (hd : d.dictionary = []) :
    Inv d ∧ getObjectScan d = fun _ => none := by
  have hk : d.keys = [] := by simp [keys, hd]
  exact ⟨⟨by simp [hk], by simp [hk], fun _ => by simp [hk]⟩, by
    funext k; simp [getObjectScan, lookup, hd]⟩

/-- Every reachable dictionary keeps the invariant, and its scan reads back the map of last
stores. -/
theorem Reachable.inv {d : OSDictionary V} {M : Nat → Option V} (h : Reachable d M) :
    Inv d ∧ getObjectScan d = M := by
  induction h with
  | init hinit =>
    apply inv_of_dictionary_nil
    unfold initWithCapacity at hinit
    split_ifs at hinit <;> cases hinit <;> rfl
  | setObject aKey anObject onlyAdd _ ih =>
    have hstep := setObject_step ih.1 aKey anObject onlyAdd
    rw [ih.2] at hstep
    exact hstep
  | removeObject aKey _ ih =>
    have hstep := removeObject_step ih.1 aKey
    rw [ih.2] at hstep
    exact hstep
  | merge srcDict _ ih => exact mergeLoop_step srcDict _ _ _ ih.1 ih.2
  | flushCollection _ _ => exact inv_of_dictionary_nil rfl
  | ensureCapacity newCapacity _ ih =>
    exact ⟨ih.1.congr (by simp) (by simp), (getObjectScan_congr (by simp)).trans ih.2⟩
  | setOptions options mask _ ih =>
    have hstep := setOptions_step ih.1 options mask
    exact ⟨hstep.1, hstep.2.trans ih.2⟩

/-- Along every run of `setObject`, `removeObject`, `merge`, `flushCollection`,
`ensureCapacity` and `setOptions`, the keys stay distinct and, while `kSort` is set, strictly
increasing; `getObject` returns the value last stored under the key; and the binary search it
takes on a sorted dictionary finds what the scan finds. -/
theorem reachable_sorted_getObject {d : OSDictionary V} {M : Nat → Option V}
    (h : Reachable d M) :
    d.keys.Nodup ∧ (d.isSorted = true → d.keys.Pairwise (· < ·)) ∧
      (∀ k, getObject d k = M k) ∧
      (d.isSorted = true → ∀ k, getObjectSearch d k 0 d.count = getObjectScan d k) := by
  obtain ⟨hI, hM⟩ := h.inv
  refine ⟨hI.nodup, hI.sorted, fun k => by rw [getObject_eq_scan hI, hM], fun hs k => ?_⟩
  exact getObjectSearch_eq (hI.sorted hs) k 0 d.count (Nat.le_refl _)
    fun j hj h => absurd h (by simp at hj; omega)

/-! ### Runs on concrete dictionaries

A run is built one step at a time, each step's result computed; these lemmas turn the map a
step carries into the update it makes. -/

/-- A `setObject` that returns `true`. -/
theorem Reachable.setObject_of_eq {d d' : OSDictionary V} {M : Nat → Option V} {aKey : Nat}
    {v : V} (onlyAdd : Bool) (h : Reachable d M)
    (hs : Libkern.Dictionary.setObject d aKey (some v) onlyAdd = (true, d')) :
    Reachable d' (Function.update M aKey (some v)) := by
  have h' := h.setObject aKey (some v) onlyAdd
  simpa only [hs, if_true] using h'

/-- A store of `merge` that `setObject` accepts. -/
theorem mergeMap_cons_of_setObject {srcDict d d' : OSDictionary V} {M : Nat → Option V}
    {sym : Nat} (syms : List Nat) (h0 : sym ≠ 0)
    (hs : setObject d sym (getObject srcDict sym) false = (true, d')) :
    mergeMap srcDict d M (sym :: syms) =
      mergeMap srcDict d' (Function.update M sym (getObject srcDict sym)) syms := by
  simp only [mergeMap, h0, hs, if_false, if_true]

/-- A run through every kind of step. Three stores into a dictionary of capacity `2`, the third
growing it to `4`; `kSort` set, which sorts it; a store through the binary search; a removal;
a merge of an unsorted dictionary, which stores two new keys (growing it to `6`) and overwrites
one; and a last store. The result has six entries, so `getObject` searches it. -/
theorem merged_sorted_getObject :
    let d : OSDictionary Nat :=
      ⟨[⟨5, 50⟩, ⟨20, 7⟩, ⟨25, 4⟩, ⟨30, 3⟩, ⟨40, 60⟩, ⟨50, 5⟩], 6, 2, kSort⟩
    let M : Nat → Option Nat :=
      Function.update (Function.update (Function.update (Function.update (Function.update
        (Function.update (Function.update (Function.update (Function.update (fun _ => none)
        30 (some 3)) 10 (some 1)) 20 (some 2)) 25 (some 4)) 10 none) 40 (some 60)) 5 (some 50))
        20 (some 7)) 50 (some 5)
    Reachable d M ∧
      (d.keys.Nodup ∧ (d.isSorted = true → d.keys.Pairwise (· < ·)) ∧
        (∀ k, getObject d k = M k) ∧
        (d.isSorted = true → ∀ k, getObjectSearch d k 0 d.count = getObjectScan d k)) := by
  intro d M
  let d₀ : OSDictionary Nat := ⟨[], 2, 2, 0⟩
  let d₂ : OSDictionary Nat := ⟨[⟨30, 3⟩, ⟨10, 1⟩], 2, 2, 0⟩
  let d₃ : OSDictionary Nat := ⟨[⟨30, 3⟩, ⟨10, 1⟩, ⟨20, 2⟩], 4, 2, 0⟩
  let d₄ : OSDictionary Nat := ⟨[⟨10, 1⟩, ⟨20, 2⟩, ⟨30, 3⟩], 4, 2, kSort⟩
  let d₅ : OSDictionary Nat := ⟨[⟨10, 1⟩, ⟨20, 2⟩, ⟨25, 4⟩, ⟨30, 3⟩], 4, 2, kSort⟩
  let d₆ : OSDictionary Nat := ⟨[⟨20, 2⟩, ⟨25, 4⟩, ⟨30, 3⟩], 4, 2, kSort⟩
  let d₇ : OSDictionary Nat := ⟨[⟨5, 50⟩, ⟨20, 7⟩, ⟨25, 4⟩, ⟨30, 3⟩, ⟨40, 60⟩], 6, 2, kSort⟩
  let src : OSDictionary Nat := ⟨[⟨40, 60⟩, ⟨5, 50⟩, ⟨20, 7⟩], 4, 4, 0⟩
  -- unsorted: new keys go at the end, and the third store grows the capacity
  have r₀ : Reachable d₀ fun _ => none := @Reachable.init Nat 2 _ (by decide)
  have r₁ := r₀.setObject_of_eq false
    (show setObject d₀ 30 (some 3) false = (true, ⟨[⟨30, 3⟩], 2, 2, 0⟩) by decide +kernel)
  have r₂ := r₁.setObject_of_eq false
    (show setObject _ 10 (some 1) false = (true, d₂) by decide +kernel)
  have r₃ := r₂.setObject_of_eq false
    (show setObject d₂ 20 (some 2) false = (true, d₃) by decide +kernel)
  -- setting kSort sorts the entries; from here on the searches are binary
  have r₄ := r₃.setOptions kSort kSort
  have hs₄ : setCollectionOptions d₃ kSort kSort = (0, { d₃ with fOptions := kSort }) := by decide
  rw [show (setOptions d₃ kSort kSort).2 = d₄ by
    simp [d₃, d₄, setOptions, hs₄, sortBySymbol, List.mergeSort]; decide] at r₄
  have r₅ := r₄.setObject_of_eq false
    (show setObject d₄ 25 (some 4) false = (true, d₅) by decide +kernel)
  have r₆ := r₅.removeObject 10
  rw [show removeObject d₅ 10 = d₆ by decide +kernel] at r₆
  -- merge stores 40, then 5 (growing the capacity), then overwrites 20
  have r₇ := r₆.merge src
  rw [show src.keys = [40, 5, 20] from rfl,
    mergeMap_cons_of_setObject _ (by decide)
      (show setObject d₆ 40 (getObject src 40) false =
        (true, ⟨[⟨20, 2⟩, ⟨25, 4⟩, ⟨30, 3⟩, ⟨40, 60⟩], 4, 2, kSort⟩) by decide +kernel),
    mergeMap_cons_of_setObject _ (by decide)
      (show setObject _ 5 (getObject src 5) false =
        (true, ⟨[⟨5, 50⟩, ⟨20, 2⟩, ⟨25, 4⟩, ⟨30, 3⟩, ⟨40, 60⟩], 6, 2, kSort⟩) by decide +kernel),
    mergeMap_cons_of_setObject _ (by decide)
      (show setObject _ 20 (getObject src 20) false = (true, d₇) by decide +kernel),
    show (merge d₆ src).2 = d₇ by decide +kernel] at r₇
  have r₈ := r₇.setObject_of_eq false
    (show setObject d₇ 50 (some 5) false = (true, d) by decide +kernel)
  exact ⟨r₈, reachable_sorted_getObject r₈⟩

end Libkern.Dictionary
