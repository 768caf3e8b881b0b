import Darwin.Lib.Probe
import Mathlib

/-!
# The kxld dictionary: `kxld_dict.c`

`KXLDDict` is an open-addressing table probed linearly from `hash(key)`. A removed entry becomes
a `DELETED` tombstone, and `get_locate_index` (`kxld_dict.c:184-212`) walks past tombstones
to the first `EMPTY` bucket, as its comment explains. `get_insert_index` (`:316-339`) stops at
the first bucket that is not `USED`, tombstones included, without looking further along the probe
for the key. A key whose entry lies past a tombstone is then stored a second time, and removing
it later uncovers the older entry (`reinsert_past_tombstone_duplicates`).

The bucket array is a list: how `KXLDArray` lays out its pools is `Kxld/Array.lean`'s subject,
and a new bucket array is zero-filled (`kxld_page_alloc`), so every bucket starts `EMPTY`.
Allocations succeed. The hash and comparison functions are parameters; the three hash functions
of the source read only `dict->buckets.nitems` of the dictionary, which `hash` takes in its place.
-/

namespace Kxld

inductive DictEntryState
  | EMPTY
  | USED
  | DELETED
  deriving DecidableEq, Repr

/-- A bucket; `NULL` key and value pointers are `none`. -/
structure DictEntry (K V : Type) where
  key : Option K
  value : Option V
  state : DictEntryState
  deriving DecidableEq, Repr

/-- A zero-filled bucket. -/
def DictEntry.empty {K V : Type} : DictEntry K V := ⟨none, none, .EMPTY⟩

structure KXLDDict (K V : Type) where
  buckets : List (DictEntry K V)
  num_entries : Nat
  resize_threshold : Nat
  deriving DecidableEq, Repr

def RESIZE_NUMER : Nat := 7
def RESIZE_DENOM : Nat := 10
def DEFAULT_DICT_SIZE : Nat := 89

/-- The macros take a `u_int`, so the product wraps at `2^32`. -/
def RESIZE_THRESHOLD (x : Nat) : Nat := x * RESIZE_NUMER % 2 ^ 32 / RESIZE_DENOM
def MIN_BUCKETS (x : Nat) : Nat := x * RESIZE_DENOM % 2 ^ 32 / RESIZE_NUMER

/-- `kxld_dict_insert` and `resize_dict` call each other; each `resize_dict` more than doubles
`buckets.nitems`, a `u_int`, so fewer than 32 resizes happen, each taking one unit for the
resize loop and one for the nested inserts. -/
def INSERT_FUEL : Nat := 64

section
variable {K V : Type} (hash : Nat → K → Nat) (cmp : Option K → Option K → Bool)

/-- The doubling loop of `kxld_dict_init`; every round adds at least one, so `min_buckets`
rounds are enough. -/
def growBuckets (min_buckets : Nat) : Nat → Nat → Nat
  | 0, num_buckets => num_buckets
  | fuel + 1, num_buckets =>
    if min_buckets > num_buckets then growBuckets min_buckets fuel (num_buckets * 2 + 1)
    else num_buckets

/-- A dictionary of `num_buckets` zero-filled buckets. -/
def KXLDDict.fresh (num_buckets : Nat) : KXLDDict K V :=
  { buckets := List.replicate num_buckets .empty, num_entries := 0,
    resize_threshold := RESIZE_THRESHOLD num_buckets }

def kxld_dict_init (num_entries : Nat) : KXLDDict K V :=
  let min_buckets := MIN_BUCKETS num_entries
  KXLDDict.fresh (growBuckets min_buckets min_buckets DEFAULT_DICT_SIZE)

/-- `kxld_array_get_item(&dict->buckets, idx)`. -/
def KXLDDict.item (dict : KXLDDict K V) (idx : Nat) : DictEntry K V :=
  dict.buckets.getD idx .empty

/-- The loop of `get_locate_index`: a match ends it, an `EMPTY` bucket or a wrap fails it. -/
def locateLoop (dict : KXLDDict K V) (key : K) (base : Nat) : Nat → Nat → Option Nat
  | 0, _ => none
  | fuel + 1, idx =>
    let entry := dict.item idx
    if cmp entry.key (some key) then some idx
    else if entry.state = .EMPTY then none
    else
      let idx := (idx + 1) % dict.buckets.length
      if idx = base then none else locateLoop dict key base fuel idx

def get_locate_index (dict : KXLDDict K V) (key : K) : Option Nat :=
  let base := hash dict.buckets.length key
  locateLoop cmp dict key base dict.buckets.length base

def kxld_dict_find (dict : KXLDDict K V) (key : K) : Option V :=
  match get_locate_index hash cmp dict key with
  | none => none
  | some idx => (dict.item idx).value

/-- The test that ends `get_insert_index`'s loop: a bucket that is not `USED`, or a key match. -/
def insertStop (dict : KXLDDict K V) (key : K) (idx : Nat) : Bool :=
  !((dict.item idx).state = .USED && !cmp (dict.item idx).key (some key))

def get_insert_index (dict : KXLDDict K V) (key : K) : Option Nat :=
  let base := hash dict.buckets.length key
  Probe.walk (insertStop cmp dict key) dict.buckets.length base dict.buckets.length base

/-- `kxld_dict_insert` after its resize loop (`kxld_dict.c:241-258`): a bucket that is not `USED`
takes the key and counts as a new entry, a `USED` one only gets the new value. -/
def insertEntry (dict : KXLDDict K V) (key : K) (value : V) : Option (KXLDDict K V) :=
  match get_insert_index hash cmp dict key with
  | none => none
  | some idx =>
    let entry := dict.item idx
    if entry.state ≠ .USED then
      some { dict with
        buckets := dict.buckets.set idx ⟨some key, some value, .USED⟩,
        num_entries := dict.num_entries + 1 }
    else
      some { dict with buckets := dict.buckets.set idx { entry with value := some value } }

/-- `resize_dict`, given the `kxld_dict_insert` it calls: `2 * nitems + 1` fresh buckets, and every
`USED` entry of the old ones inserted again. -/
def resize_dict (insert : KXLDDict K V → K → V → Option (KXLDDict K V)) (dict : KXLDDict K V) :
    Option (KXLDDict K V) :=
  dict.buckets.foldlM
    (fun d entry =>
      if entry.state = .USED then
        match entry.key, entry.value with
        | some key, some value => insert d key value
        | _, _ => none
      else some d)
    (KXLDDict.fresh (dict.buckets.length * 2 + 1))

/-- `kxld_dict_insert`, with `fuel` bounding the nesting of resizes: the resize loop runs while
`num_entries > resize_threshold`, then the entry is stored. -/
def insertWithFuel : Nat → KXLDDict K V → K → V → Option (KXLDDict K V)
  | 0, _, _, _ => none
  | fuel + 1, dict, key, value =>
    if dict.num_entries > dict.resize_threshold then
      match resize_dict (insertWithFuel fuel) dict with
      | none => none
      | some dict => insertWithFuel fuel dict key value
    else insertEntry hash cmp dict key value

def kxld_dict_insert (dict : KXLDDict K V) (key : K) (value : V) : Option (KXLDDict K V) :=
  insertWithFuel hash cmp INSERT_FUEL dict key value

/-- `kxld_dict_remove`, with the value it stores through `value`. -/
def kxld_dict_remove (dict : KXLDDict K V) (key : K) : KXLDDict K V × Option V :=
  match get_locate_index hash cmp dict key with
  | none => (dict, none)
  | some idx =>
    -- `num_entries--` on a `u_int`: the entry found is `USED`, so it is counted
    ({ dict with
        buckets := dict.buckets.set idx ⟨none, none, .DELETED⟩,
        num_entries := dict.num_entries - 1 },
      (dict.item idx).value)

/-- `kxld_dict_iterator_get_next` from `iter->idx`: the next `USED` bucket's key and value, and
the index after it; `NULL`s and the bucket count at the end. -/
def iteratorNext (dict : KXLDDict K V) : Nat → Nat → (Option K × Option V) × Nat
  | 0, idx => ((none, none), idx)
  | fuel + 1, idx =>
    if idx < dict.buckets.length then
      let entry := dict.item idx
      if entry.state = .USED then ((entry.key, entry.value), idx + 1)
      else iteratorNext dict fuel (idx + 1)
    else ((none, none), idx)

def kxld_dict_iterator_get_next (dict : KXLDDict K V) (idx : Nat) : (Option K × Option V) × Nat :=
  iteratorNext dict dict.buckets.length idx

/-- A full iteration: `kxld_dict_iterator_get_next` from index 0 until it hands back a `NULL` key;
each call moves past one bucket at least, so the bucket count bounds the calls. -/
def iterateFrom (dict : KXLDDict K V) : Nat → Nat → List (K × Option V)
  | 0, _ => []
  | fuel + 1, idx =>
    match kxld_dict_iterator_get_next dict idx with
    | ((some key, value), idx) => (key, value) :: iterateFrom dict fuel idx
    | ((none, _), _) => []

def kxld_dict_entries (dict : KXLDDict K V) : List (K × Option V) :=
  iterateFrom dict dict.buckets.length 0

end

/-- `kxld_dict_uint32_hash`. -/
def kxld_dict_uint32_hash (nitems : Nat) (key : UInt32) : Nat := key.toNat % nitems

/-- `kxld_dict_uint32_cmp`: `a && b && (*a == *b)`. -/
def kxld_dict_uint32_cmp : Option UInt32 → Option UInt32 → Bool
  | some a, some b => a == b
  | _, _ => false

/-! ## Lookups after an insert

A successful insert stops at the first bucket of the key's probe that is not `USED` by another
key, so every bucket before it on the probe is `USED` and `get_locate_index` walks past it to
the stored entry (`insertEntry_find`). This holds of every dictionary, with or without
tombstones; what tombstones break is `remove`. -/

section Find
variable {K V : Type} {hash : Nat → K → Nat} {cmp : Option K → Option K → Bool}

/-- The test that ends `get_locate_index`'s loop, a match or an `EMPTY` bucket. -/
def locateStop (cmp : Option K → Option K → Bool) (dict : KXLDDict K V) (key : K) (idx : Nat) :
    Bool :=
  cmp (dict.item idx).key (some key) || (dict.item idx).state = .EMPTY

/-- `get_locate_index`'s loop is the probe walk to a match or an `EMPTY` bucket, and succeeds
when it stopped at a match. -/
theorem locateLoop_eq_walk (dict : KXLDDict K V) (key : K) (base : Nat) :
    ∀ fuel idx, locateLoop cmp dict key base fuel idx =
      (Probe.walk (locateStop cmp dict key) dict.buckets.length base fuel idx).bind
        fun i => if cmp (dict.item i).key (some key) then some i else none
  | 0, _ => rfl
  | fuel + 1, idx => by
    simp only [locateLoop, Probe.walk, locateStop]
    by_cases hc : cmp (dict.item idx).key (some key) = true
    · simp [hc]
    · by_cases he : (dict.item idx).state = .EMPTY
      · simp [hc, he]
      · simp only [hc, he, Bool.false_eq_true, ↓reduceIte, decide_false, Bool.or_false]
        split
        · rfl
        · exact locateLoop_eq_walk dict key base fuel _

theorem item_of_buckets_set {dict dict' : KXLDDict K V} {idx : Nat} {e : DictEntry K V}
    (hb : dict'.buckets = dict.buckets.set idx e) (hidx : idx < dict.buckets.length) (i : Nat) :
    dict'.item i = if i = idx then e else dict.item i := by
  simp only [KXLDDict.item, List.getD_eq_getElem?_getD, hb, List.getElem?_set]
  by_cases h : i = idx
  · simp [h, hidx]
  · simp [h, Ne.symm h]

theorem pos_of_get_insert_index {dict : KXLDDict K V} {key : K} {idx : Nat}
    (h : get_insert_index hash cmp dict key = some idx) : 0 < dict.buckets.length := by
  unfold get_insert_index at h
  cases hn : dict.buckets.length with
  | zero => simp [hn, Probe.walk] at h
  | succ n => omega

/-- A bucket where the insert loop goes on is `USED` by a key that does not match. -/
theorem used_of_insertStop_false {dict : KXLDDict K V} {key : K} {i : Nat}
    (h : insertStop cmp dict key i = false) :
    (dict.item i).state = .USED ∧ cmp (dict.item i).key (some key) = false := by
  simpa [insertStop] using h

/-- Storing a matching entry at the bucket `get_insert_index` chose makes `get_locate_index`
stop there. -/
theorem locate_after_store (hhash : ∀ n k, 0 < n → hash n k < n) {dict dict' : KXLDDict K V}
    {key : K} {idx : Nat} {e : DictEntry K V}
    (hidx : get_insert_index hash cmp dict key = some idx)
    (hb : dict'.buckets = dict.buckets.set idx e) (hmatch : cmp e.key (some key) = true) :
    get_locate_index hash cmp dict' key = some idx := by
  have hn := pos_of_get_insert_index hidx
  have hbase := hhash dict.buckets.length key hn
  have hlen : dict'.buckets.length = dict.buckets.length := by simp [hb]
  obtain ⟨j, hj, rfl, -, hbefore⟩ := (Probe.walk_eq_some_iff _ hbase).1 hidx
  have hslot := @Probe.slot_lt dict.buckets.length (hash dict.buckets.length key) hn j
  have hitem := item_of_buckets_set hb hslot
  -- the walk of the lookup stops at step `j`, where the stored entry matches
  have hwalk : Probe.walk (locateStop cmp dict' key) dict.buckets.length
      (hash dict.buckets.length key) dict.buckets.length (hash dict.buckets.length key) =
      some (Probe.slot dict.buckets.length (hash dict.buckets.length key) j) := by
    refine Probe.walk_eq_some _ hbase hj (by simp [locateStop, hitem, hmatch]) fun i hi => ?_
    have hne := @Probe.slot_ne_of_lt dict.buckets.length (hash dict.buckets.length key) _ _ hi hj
    obtain ⟨hused, hcmp⟩ := used_of_insertStop_false (hbefore i hi)
    simp [locateStop, hitem, hne, hused, hcmp]
  unfold get_locate_index
  rw [hlen, locateLoop_eq_walk, hlen, hwalk]
  simp [hitem, hmatch]

/-- After `insertEntry`, `kxld_dict_find` returns the value just stored. -/
theorem insertEntry_find (hhash : ∀ n k, 0 < n → hash n k < n)
    (hrefl : ∀ k, cmp (some k) (some k) = true) {dict dict' : KXLDDict K V} {key : K} {value : V}
    (h : insertEntry hash cmp dict key value = some dict') :
    kxld_dict_find hash cmp dict' key = some value := by
  unfold insertEntry at h
  split at h
  · cases h
  · rename_i idx hidx
    have hn := pos_of_get_insert_index hidx
    obtain ⟨j, -, hj, hstop, -⟩ := (Probe.walk_eq_some_iff _ (hhash _ key hn)).1 hidx
    have hslot : idx < dict.buckets.length := hj ▸ Probe.slot_lt hn j
    dsimp only at h
    split at h
    · -- a bucket that was not `USED` now holds the key
      have hb : dict'.buckets = dict.buckets.set idx ⟨some key, some value, .USED⟩ := by
        cases h; rfl
      have hloc := locate_after_store hhash hidx hb (hrefl key)
      simp [kxld_dict_find, hloc, item_of_buckets_set hb hslot]
    · -- the key's own `USED` bucket: the loop stopped on a match
      rename_i hused
      have hb : dict'.buckets = dict.buckets.set idx { dict.item idx with value := some value } := by
        cases h; rfl
      have hmatch : cmp (dict.item idx).key (some key) = true := by
        simpa [insertStop, not_not.1 hused] using hstop
      have hloc := locate_after_store hhash hidx hb hmatch
      simp [kxld_dict_find, hloc, item_of_buckets_set hb hslot]

/-- Resizes keep nothing from the old table that the final store depends on: whatever the
resize loop did, the value inserted last is the one found. -/
theorem insertWithFuel_find (hhash : ∀ n k, 0 < n → hash n k < n)
    (hrefl : ∀ k, cmp (some k) (some k) = true) {key : K} {value : V} :
    ∀ fuel {dict dict' : KXLDDict K V}, insertWithFuel hash cmp fuel dict key value = some dict' →
      kxld_dict_find hash cmp dict' key = some value
  | 0, _, _, h => by simp [insertWithFuel] at h
  | fuel + 1, dict, dict', h => by
    unfold insertWithFuel at h
    split at h
    · split at h
      · cases h
      · exact insertWithFuel_find hhash hrefl fuel h
    · exact insertEntry_find hhash hrefl h

/-- An insert, resizes included, returns the value it stored on the next lookup. -/
theorem kxld_dict_insert_find (hhash : ∀ n k, 0 < n → hash n k < n)
    (hrefl : ∀ k, cmp (some k) (some k) = true) {dict dict' : KXLDDict K V} {key : K} {value : V}
    (h : kxld_dict_insert hash cmp dict key value = some dict') :
    kxld_dict_find hash cmp dict' key = some value :=
  insertWithFuel_find hhash hrefl INSERT_FUEL h

/-- Keys `k` hashed to `k % n` and compared by `==`. Three inserts fill a fresh dictionary of
three buckets, `8` and `2` probing past the buckets of `5` and `8`; the fourth insert finds
`num_entries` over the threshold, resizes to seven buckets, inserts the three entries again, and
then stores `9` past `2`, where it is found. -/
theorem resize_insert_find :
    let H : Nat → Nat → Nat := fun n k => k % n
    let C : Option Nat → Option Nat → Bool := fun a b => a == b
    let d₃ : KXLDDict Nat Nat :=
      ⟨[⟨some 8, some 80, .USED⟩, ⟨some 2, some 20, .USED⟩, ⟨some 5, some 50, .USED⟩], 3, 2⟩
    ((kxld_dict_insert H C (KXLDDict.fresh 3) 5 50).bind fun d =>
      (kxld_dict_insert H C d 8 80).bind fun d => kxld_dict_insert H C d 2 20) = some d₃ ∧
    ∃ d₄ : KXLDDict Nat Nat, kxld_dict_insert H C d₃ 9 90 = some d₄ ∧ d₄.buckets.length = 7 ∧
      kxld_dict_find H C d₄ 9 = some 90 := by
  intro H C d₃
  let d₄ : KXLDDict Nat Nat :=
    ⟨[.empty, ⟨some 8, some 80, .USED⟩, ⟨some 2, some 20, .USED⟩, ⟨some 9, some 90, .USED⟩,
      .empty, ⟨some 5, some 50, .USED⟩, .empty], 4, 4⟩
  have h₄ : kxld_dict_insert H C d₃ 9 90 = some d₄ := by decide
  exact ⟨by decide, d₄, h₄, rfl,
    kxld_dict_insert_find (fun n k hn => Nat.mod_lt k hn) (fun k => by simp [C]) h₄⟩

end Find

/-! ## The entry count

In every reachable dictionary `num_entries` is the number of `USED` buckets: an insert counts
the bucket it turns `USED`, a remove the one it turns `DELETED`, and a resize counts afresh.
With `num_entries ≤ resize_threshold < nitems` some bucket is free, so after the resize loop
the insert always finds a bucket (`insertEntry_isSome`). -/

section Count
variable {K V : Type} {hash : Nat → K → Nat} {cmp : Option K → Option K → Bool}

/-- The number of `USED` buckets. -/
def usedCount (buckets : List (DictEntry K V)) : Nat :=
  buckets.countP fun e => e.state = .USED

structure Inv (dict : KXLDDict K V) : Prop where
  nonempty : 0 < dict.buckets.length
  threshold : dict.resize_threshold = RESIZE_THRESHOLD dict.buckets.length
  count : dict.num_entries = usedCount dict.buckets
  used : ∀ e ∈ dict.buckets, e.state = .USED → e.key.isSome ∧ e.value.isSome
  unused : ∀ e ∈ dict.buckets, e.state ≠ .USED → e.key = none

theorem le_growBuckets (min_buckets : Nat) : ∀ fuel n, n ≤ growBuckets min_buckets fuel n
  | 0, _ => le_refl _
  | fuel + 1, n => by
    unfold growBuckets
    split
    · exact le_trans (by omega) (le_growBuckets min_buckets fuel _)
    · exact le_refl _

theorem inv_fresh {n : Nat} (hn : 0 < n) : Inv (KXLDDict.fresh n : KXLDDict K V) where
  nonempty := by simpa [KXLDDict.fresh] using hn
  threshold := by simp [KXLDDict.fresh]
  count := by simp [KXLDDict.fresh, usedCount, List.countP_replicate, DictEntry.empty]
  used := by simp [KXLDDict.fresh, DictEntry.empty]
  unused := by simp [KXLDDict.fresh, DictEntry.empty]

theorem inv_init (num_entries : Nat) : Inv (kxld_dict_init num_entries : KXLDDict K V) :=
  inv_fresh (lt_of_lt_of_le (by decide) (le_growBuckets _ _ DEFAULT_DICT_SIZE))

/-- What `get_locate_index` returns is a bucket holding a matching key. -/
theorem get_locate_index_spec (hhash : ∀ n k, 0 < n → hash n k < n) {dict : KXLDDict K V}
    {key : K} {idx : Nat} (h : get_locate_index hash cmp dict key = some idx) :
    idx < dict.buckets.length ∧ cmp (dict.item idx).key (some key) = true := by
  unfold get_locate_index at h
  rw [locateLoop_eq_walk, Option.bind_eq_some_iff] at h
  obtain ⟨i, hwalk, hcheck⟩ := h
  have hn : 0 < dict.buckets.length := by
    cases hn : dict.buckets.length with
    | zero => simp [hn, Probe.walk] at hwalk
    | succ n => omega
  obtain ⟨j, -, rfl, -⟩ := (Probe.walk_eq_some_iff _ (hhash _ key hn)).1 hwalk
  by_cases hc : cmp (dict.item (Probe.slot dict.buckets.length (hash dict.buckets.length key) j)).key
      (some key) = true
  · simp only [hc, ↓reduceIte, Option.some.injEq] at hcheck
    exact hcheck ▸ ⟨Probe.slot_lt hn j, hc⟩
  · simp [hc] at hcheck

/-- Replacing bucket `idx` changes the count by what leaves and what enters it. -/
theorem usedCount_set {buckets : List (DictEntry K V)} {idx : Nat} (h : idx < buckets.length)
    (e : DictEntry K V) :
    usedCount (buckets.set idx e) = usedCount buckets -
      (if buckets[idx].state = .USED then 1 else 0) + (if e.state = .USED then 1 else 0) := by
  simp [usedCount, List.countP_set h]

theorem item_eq_getElem {dict : KXLDDict K V} {idx : Nat} (h : idx < dict.buckets.length) :
    dict.item idx = dict.buckets[idx] := by
  simp [KXLDDict.item, List.getD_eq_getElem?_getD, h]

/-- `Inv`'s last two fields for a bucket list with one bucket replaced. -/
theorem mem_set_cases {buckets : List (DictEntry K V)} {idx : Nat} {e e' : DictEntry K V}
    (he : e' ∈ buckets.set idx e) : e' ∈ buckets ∨ e' = e :=
  List.mem_or_eq_of_mem_set he

theorem Inv.insertEntry (hhash : ∀ n k, 0 < n → hash n k < n) {dict dict' : KXLDDict K V}
    {key : K} {value : V} (hI : Inv dict) (h : insertEntry hash cmp dict key value = some dict') :
    Inv dict' := by
  unfold Kxld.insertEntry at h
  split at h
  · cases h
  · rename_i idx hidx
    obtain ⟨j, -, hj, -⟩ := (Probe.walk_eq_some_iff _ (hhash _ key hI.nonempty)).1 hidx
    have hslot : idx < dict.buckets.length := hj ▸ Probe.slot_lt hI.nonempty j
    have hitem := item_eq_getElem hslot
    dsimp only at h
    split at h
    · -- a free bucket becomes `USED`: one more entry
      rename_i hfree
      cases h
      refine ⟨by simpa using hI.nonempty, by simpa using hI.threshold, ?_, ?_, ?_⟩
      · rw [usedCount_set hslot, hI.count, ← hitem]
        simp [hfree]
      · intro e he hu
        rcases mem_set_cases he with he | rfl
        · exact hI.used e he hu
        · simp
      · intro e he hu
        rcases mem_set_cases he with he | rfl
        · exact hI.unused e he hu
        · exact absurd rfl hu
    · -- the key's own bucket gets the new value
      rename_i hused
      cases h
      have hu : (dict.item idx).state = .USED := not_not.1 hused
      have hmem : dict.item idx ∈ dict.buckets := hitem ▸ List.getElem_mem hslot
      refine ⟨by simpa using hI.nonempty, by simpa using hI.threshold, ?_, ?_, ?_⟩
      · have hpos : 0 < dict.buckets.countP fun e => e.state = .USED :=
          List.countP_pos_iff.2 ⟨_, hmem, by simpa using hu⟩
        rw [usedCount_set hslot, hI.count, ← hitem]
        simp only [usedCount, hu, ↓reduceIte]
        omega
      · intro e he heu
        rcases mem_set_cases he with he | rfl
        · exact hI.used e he heu
        · exact ⟨(hI.used _ hmem hu).1, rfl⟩
      · intro e he heu
        rcases mem_set_cases he with he | rfl
        · exact hI.unused e he heu
        · exact absurd hu heu

theorem Inv.remove (hhash : ∀ n k, 0 < n → hash n k < n) (hnull : ∀ k, cmp none k = false)
    {dict : KXLDDict K V} (hI : Inv dict) (key : K) :
    Inv (kxld_dict_remove hash cmp dict key).1 := by
  unfold kxld_dict_remove
  split
  · exact hI
  · rename_i idx hidx
    obtain ⟨hslot, hmatch⟩ := get_locate_index_spec hhash hidx
    have hitem := item_eq_getElem hslot
    have hmem : dict.item idx ∈ dict.buckets := hitem ▸ List.getElem_mem hslot
    -- a matching key is not `NULL`, so the bucket found is `USED`
    have hu : (dict.item idx).state = .USED := by
      by_contra hne
      rw [hI.unused _ hmem hne, hnull] at hmatch
      exact absurd hmatch (by simp)
    refine ⟨by simpa using hI.nonempty, by simpa using hI.threshold, ?_, ?_, ?_⟩
    · simp only
      rw [usedCount_set hslot, hI.count, ← hitem]
      simp [hu]
    · intro e he heu
      rcases mem_set_cases he with he | rfl
      · exact hI.used e he heu
      · exact absurd heu (by simp)
    · intro e he heu
      rcases mem_set_cases he with he | rfl
      · exact hI.unused e he heu
      · rfl

/-- A fold over the old buckets in `Option` keeps what each of its steps keeps. -/
theorem foldlM_option_inv {α β : Type} (P : β → Prop) (f : β → α → Option β)
    (hf : ∀ b a b', P b → f b a = some b' → P b') :
    ∀ (l : List α) {b b' : β}, P b → l.foldlM f b = some b' → P b'
  | [], _, _, hb, h => by cases h; exact hb
  | a :: l, b, b', hb, h => by
    simp only [List.foldlM_cons, Option.bind_eq_bind, Option.bind_eq_some_iff] at h
    obtain ⟨b₁, h₁, h₂⟩ := h
    exact foldlM_option_inv P f hf l (hf b a b₁ hb h₁) h₂

theorem Inv.resize_dict {insert : KXLDDict K V → K → V → Option (KXLDDict K V)}
    (hins : ∀ d d' k v, Inv d → insert d k v = some d' → Inv d') {dict dict' : KXLDDict K V}
    (h : resize_dict insert dict = some dict') : Inv dict' := by
  refine foldlM_option_inv Inv _ (fun d e d' hd hstep => ?_) _ (inv_fresh (by omega)) h
  split at hstep
  · split at hstep
    · exact hins _ _ _ _ hd hstep
    · cases hstep
  · cases hstep; exact hd

theorem Inv.insertWithFuel (hhash : ∀ n k, 0 < n → hash n k < n) :
    ∀ fuel {dict dict' : KXLDDict K V} {key : K} {value : V}, Inv dict →
      insertWithFuel hash cmp fuel dict key value = some dict' → Inv dict'
  | 0, _, _, _, _, _, h => by simp [Kxld.insertWithFuel] at h
  | fuel + 1, dict, dict', key, value, hI, h => by
    unfold Kxld.insertWithFuel at h
    split at h
    · split at h
      · cases h
      · rename_i d hres
        have hd : Inv d := Inv.resize_dict
          (fun _ _ _ _ hd hins => Inv.insertWithFuel hhash fuel hd hins) hres
        exact Inv.insertWithFuel hhash fuel hd h
    · exact hI.insertEntry hhash h

variable (hash cmp) in
/-- The dictionaries a program builds: `kxld_dict_init`, then inserts that succeed and removes. -/
inductive Reachable : KXLDDict K V → Prop
  | init (num_entries : Nat) : Reachable (kxld_dict_init num_entries)
  | insert {dict dict' : KXLDDict K V} (key : K) (value : V) : Reachable dict →
      kxld_dict_insert hash cmp dict key value = some dict' → Reachable dict'
  | remove {dict : KXLDDict K V} (key : K) : Reachable dict →
      Reachable (kxld_dict_remove hash cmp dict key).1

theorem Reachable.inv (hhash : ∀ n k, 0 < n → hash n k < n) (hnull : ∀ k, cmp none k = false)
    {dict : KXLDDict K V} (h : Reachable hash cmp dict) : Inv dict := by
  induction h with
  | init n => exact inv_init n
  | insert key value _ hins ih => exact Inv.insertWithFuel hhash INSERT_FUEL ih hins
  | remove key _ ih => exact ih.remove hhash hnull key

end Count

/-- Keys `1` and `90` share bucket 1 of the 89 that `kxld_dict_init` allocates. With `90` stored
past `1`, removing `1` leaves a tombstone in bucket 1, and inserting `90` again stops there: the
dictionary counts two entries for one key and iterates it twice, and once `90` is removed `find`
still returns its older value. -/
theorem reinsert_past_tombstone_duplicates :
    ((kxld_dict_insert kxld_dict_uint32_hash kxld_dict_uint32_cmp (kxld_dict_init 0) 1 10).bind
      fun d => (kxld_dict_insert kxld_dict_uint32_hash kxld_dict_uint32_cmp d 90 20).bind
      fun d => kxld_dict_insert kxld_dict_uint32_hash kxld_dict_uint32_cmp
        (kxld_dict_remove kxld_dict_uint32_hash kxld_dict_uint32_cmp d 1).1 90 30).map
      (fun d => (d.num_entries, kxld_dict_entries d,
        kxld_dict_find kxld_dict_uint32_hash kxld_dict_uint32_cmp d 90,
        kxld_dict_find kxld_dict_uint32_hash kxld_dict_uint32_cmp
          (kxld_dict_remove kxld_dict_uint32_hash kxld_dict_uint32_cmp d 90).1 90)) =
      some (2, [(90, some 30), (90, some 20)], some 30, some 20) := by
  decide

end Kxld
