import Darwin.Libkern.SerializeBinary

/-!
# What the binary encoder writes

Facts about every run of `binarySerializeInternal` that the round trip rests on:

* the bytes and the tags only grow, and `tags` never holds an object twice (`Grows`);
* a call fails only once `length` has come within `2 ^ 25` bytes of the 32-bit limit
  (`binarySerializeInternal_nearFull`), so below that the fallback `serialize()` of
  `binarySerializeInternal` (`OSSerializeBinary.cpp:268`, `:289`) never runs
  (`withFallback_eq_of_ok`);
* a call that succeeds leaves every object below its argument in `tags`
  (`binarySerializeInternal_tags`).
-/

namespace Libkern.Binary

open OSObject

/-- What the binary format carries: counts and lengths fit the 24-bit field of a key, a number
has one of the four sizes `OSUnserializeBinary` accepts, a symbol has a character before its NUL
(`if (len < 2) break;`), and data is written in full. -/
def Encodable : OSObject → Prop
  | .dictionary _ es => es.length < 2 ^ 24
  | .array _ es => es.length < 2 ^ 24
  | .set _ ms => ms.length < 2 ^ 24
  | .number _ size _ => size = 8 ∨ size = 16 ∨ size = 32 ∨ size = 64
  | .symbol s => s ≠ []
  | .data _ bytes disable => disable = false ∧ bytes.length < 2 ^ 24
  | _ => True

/-! ## Growth -/

/-- `s'` extends the bytes and the tags of `s`, and keeps the tags free of repeats. -/
def Grows (s s' : OSSerialize) : Prop :=
  s.data <+: s'.data ∧ s.tags <+: s'.tags ∧ (s.tags.Nodup → s'.tags.Nodup)

theorem Grows.refl (s : OSSerialize) : Grows s s := ⟨List.prefix_refl _, List.prefix_refl _, id⟩

theorem Grows.trans {s₁ s₂ s₃ : OSSerialize} (h₁ : Grows s₁ s₂) (h₂ : Grows s₂ s₃) : Grows s₁ s₃ :=
  ⟨h₁.1.trans h₂.1, h₁.2.1.trans h₂.2.1, fun h => h₂.2.2 (h₁.2.2 h)⟩

theorem addBinary_grows (s : OSSerialize) (bits : List UInt8) : Grows s (addBinary s bits).1 := by
  unfold addBinary
  dsimp only
  split
  · exact ⟨by simp [List.append_assoc], List.prefix_refl _, id⟩
  · exact Grows.refl s

theorem addBinaryObject_grows (s : OSSerialize) {o : Ident} (key : Nat) (bits : List UInt8)
    (ho : o ∉ s.tags) : Grows s (addBinaryObject s o key bits).1 := by
  have ht : Grows s { s with tags := s.tags ++ [o] } :=
    ⟨List.prefix_refl _, List.prefix_append _ _,
      fun h => List.nodup_append.2 ⟨h, by simp, fun a ha b hb => by
        rw [List.mem_singleton] at hb
        rintro rfl
        exact ho (hb ▸ ha)⟩⟩
  unfold addBinaryObject
  dsimp only
  split
  · exact ht.trans ⟨by simp [List.append_assoc], List.prefix_refl _, id⟩
  · exact ht

/-- `Grows` does not look at `endCollection`. -/
theorem Grows.of_setEnd {s s' : OSSerialize} {b : Bool} (h : Grows { s with endCollection := b } s') :
    Grows s s' := h

theorem addBackReference_grows (s : OSSerialize) (tagIdx : Nat) : Grows s (addBackReference s tagIdx).1 :=
  addBinary_grows { s with endCollection := false } _

theorem andThen_grows {s : OSSerialize} {r : OSSerialize × Bool} (hr : Grows s r.1)
    {body : OSSerialize → OSSerialize × Bool} (hb : ∀ s', Grows s' (body s').1) :
    Grows s (andThen r body).1 := by
  unfold andThen
  split
  · exact hr.trans (hb r.1)
  · exact hr

theorem withFallback_grows {ser : OSSerialize → OSSerialize × Bool} (h : ∀ s', Grows s' (ser s').1)
    (s : OSSerialize) : Grows s (withFallback ser s).1 := by
  unfold withFallback
  have h1 := h s
  generalize ser s = r at h1
  obtain ⟨s1, ok⟩ := r
  cases ok
  · exact h1.trans (h s1)
  · exact h1

theorem not_mem_of_idxOf_eq_none {o : Ident} {tags : List Ident} (h : tags.idxOf? o = none) : o ∉ tags :=
  List.idxOf?_eq_none_iff.1 h

theorem mem_of_idxOf_eq_some {o : Ident} {tags : List Ident} {i : Nat} (h : tags.idxOf? o = some i) :
    o ∈ tags :=
  List.isSome_idxOf?.1 (by simp [h])

theorem serializeKey_grows (s : OSSerialize) (k : List UInt8) : Grows s (serializeKey s k).1 := by
  unfold serializeKey
  split
  · exact addBackReference_grows s _
  · rename_i h
    exact addBinaryObject_grows s _ _ (not_mem_of_idxOf_eq_none h)

mutual
theorem binarySerializeInternal_grows (s : OSSerialize) :
    ∀ v : OSObject, Grows s (binarySerializeInternal s v).1
  | .dictionary id es => by
    rw [binarySerializeInternal]
    split
    · exact addBackReference_grows s _
    · rename_i h
      exact andThen_grows (addBinaryObject_grows s _ _ (not_mem_of_idxOf_eq_none h))
        fun s1 => serializeEntries_grows s1 _ _ es
  | .array id es => by
    rw [binarySerializeInternal]
    split
    · exact addBackReference_grows s _
    · rename_i h
      exact andThen_grows (addBinaryObject_grows s _ _ (not_mem_of_idxOf_eq_none h))
        fun s1 => serializeElems_grows s1 _ _ es
  | .set id ms => by
    rw [binarySerializeInternal]
    split
    · exact addBackReference_grows s _
    · rename_i h
      exact andThen_grows (addBinaryObject_grows s _ _ (not_mem_of_idxOf_eq_none h))
        fun s1 => serializeElems_grows s1 _ _ ms
  | .number .. | .boolean _ | .symbol _ | .string .. | .data .. => by
    rw [binarySerializeInternal]
    split
    · exact addBackReference_grows s _
    · rename_i h
      exact addBinaryObject_grows s _ _ (not_mem_of_idxOf_eq_none h)

theorem serializeElems_grows (s : OSSerialize) (count i : Nat) :
    ∀ vs : List OSObject, Grows s (serializeElems s count i vs).1
  | [] => Grows.refl s
  | v :: vs => by
    rw [serializeElems]
    exact andThen_grows (withFallback_grows (fun s' => binarySerializeInternal_grows s' v) _).of_setEnd
      fun s1 => serializeElems_grows s1 _ _ vs

theorem serializeEntries_grows (s : OSSerialize) (count i : Nat) :
    ∀ es : List (List UInt8 × OSObject), Grows s (serializeEntries s count i es).1
  | [] => Grows.refl s
  | (k, v) :: es => by
    rw [serializeEntries]
    exact andThen_grows (serializeKey_grows s k) fun s1 =>
      andThen_grows (withFallback_grows (fun s' => binarySerializeInternal_grows s' v) _).of_setEnd
        fun s2 => serializeEntries_grows s2 _ _ es
end

/-! ## Failure -/

/-- `length` has come within `2 ^ 25` bytes of the 32-bit limit. -/
def NearFull (s : OSSerialize) : Prop := 2 ^ 32 ≤ s.data.length + 2 ^ 25

theorem align4_le (n : Nat) : align4 n ≤ n + 3 := by
  unfold align4; omega

theorem addBinary_nearFull {s : OSSerialize} {bits : List UInt8} (hb : bits.length ≤ 2 ^ 24) :
    (addBinary s bits).2 = false → NearFull (addBinary s bits).1 := by
  have := align4_le bits.length
  unfold addBinary NearFull
  dsimp only
  split
  · simp
  · intro _; dsimp only; omega

theorem addBinaryObject_nearFull {s : OSSerialize} {o : Ident} {key : Nat} {bits : List UInt8}
    (hb : bits.length ≤ 2 ^ 24) : (addBinaryObject s o key bits).2 = false → NearFull (addBinaryObject s o key bits).1 := by
  have := align4_le (bits.length + 4)
  unfold addBinaryObject NearFull
  dsimp only
  split
  · simp
  · intro _; dsimp only; omega

theorem addBackReference_nearFull {s : OSSerialize} {tagIdx : Nat} :
    (addBackReference s tagIdx).2 = false → NearFull (addBackReference s tagIdx).1 :=
  addBinary_nearFull (by simp)

theorem andThen_nearFull {r : OSSerialize × Bool} (hr : r.2 = false → NearFull r.1)
    {body : OSSerialize → OSSerialize × Bool} (hb : ∀ s', (body s').2 = false → NearFull (body s').1) :
    (andThen r body).2 = false → NearFull (andThen r body).1 := by
  unfold andThen
  split
  · exact hb r.1
  · rename_i h
    exact fun _ => hr (by simpa using h)

theorem withFallback_nearFull {ser : OSSerialize → OSSerialize × Bool}
    (h : ∀ s', (ser s').2 = false → NearFull (ser s').1) (s : OSSerialize) :
    (withFallback ser s).2 = false → NearFull (withFallback ser s).1 := by
  unfold withFallback
  generalize ser s = r
  obtain ⟨s1, ok⟩ := r
  cases ok
  · exact h s1
  · simp

theorem serializeKey_nearFull {s : OSSerialize} {k : List UInt8} (hk : k.length < kMaxStringLength) :
    (serializeKey s k).2 = false → NearFull (serializeKey s k).1 := by
  unfold serializeKey
  split
  · exact addBackReference_nearFull
  · exact addBinaryObject_nearFull (by simp [kMaxStringLength] at hk ⊢; omega)

/-- The class invariants and `Encodable` hold of every object below `v`. -/
def Sound (v : OSObject) : Prop := ∀ u ∈ v.nodes, u.Valid ∧ Encodable u

mutual
theorem binarySerializeInternal_nearFull (s : OSSerialize) :
    ∀ v : OSObject, Sound v →
      (binarySerializeInternal s v).2 = false → NearFull (binarySerializeInternal s v).1
  | .dictionary id es, hv => by
    rw [binarySerializeInternal]
    split
    · exact addBackReference_nearFull
    · exact andThen_nearFull (addBinaryObject_nearFull (by simp)) fun s1 =>
        serializeEntries_nearFull s1 _ _ es fun u hu => hv u (by simp [nodes, hu])
  | .array id es, hv => by
    rw [binarySerializeInternal]
    split
    · exact addBackReference_nearFull
    · exact andThen_nearFull (addBinaryObject_nearFull (by simp)) fun s1 =>
        serializeElems_nearFull s1 _ _ es fun u hu => hv u (by simp [nodes, hu])
  | .set id ms, hv => by
    rw [binarySerializeInternal]
    split
    · exact addBackReference_nearFull
    · exact andThen_nearFull (addBinaryObject_nearFull (by simp)) fun s1 =>
        serializeElems_nearFull s1 _ _ ms fun u hu => hv u (by simp [nodes, hu])
  | .number id size value, _ => by
    rw [binarySerializeInternal]
    split
    · exact addBackReference_nearFull
    · exact addBinaryObject_nearFull (by simp)
  | .boolean b, _ => by
    rw [binarySerializeInternal]
    split
    · exact addBackReference_nearFull
    · exact addBinaryObject_nearFull (by simp)
  | .symbol str, hv => by
    have hl := (hv _ (self_mem_nodes _)).1.2
    rw [binarySerializeInternal]
    split
    · exact addBackReference_nearFull
    · exact addBinaryObject_nearFull (by simp [kMaxStringLength] at hl ⊢; omega)
  | .string id str, hv => by
    have hl := (hv _ (self_mem_nodes _)).1.2
    rw [binarySerializeInternal]
    split
    · exact addBackReference_nearFull
    · exact addBinaryObject_nearFull (by simp [kMaxStringLength] at hl ⊢; omega)
  | .data id bytes disable, hv => by
    have hl := (hv _ (self_mem_nodes _)).2.2
    rw [binarySerializeInternal]
    split
    · exact addBackReference_nearFull
    · exact addBinaryObject_nearFull (by simp; omega)

theorem serializeElems_nearFull (s : OSSerialize) (count i : Nat) :
    ∀ vs : List OSObject, (∀ u ∈ listNodes vs, u.Valid ∧ Encodable u) →
      (serializeElems s count i vs).2 = false → NearFull (serializeElems s count i vs).1
  | [], _ => by simp [serializeElems]
  | v :: vs, hv => by
    rw [serializeElems]
    exact andThen_nearFull
      (withFallback_nearFull (fun s' => binarySerializeInternal_nearFull s' v
        fun u hu => hv u (by simp [listNodes, hu])) _)
      fun s1 => serializeElems_nearFull s1 _ _ vs fun u hu => hv u (by simp [listNodes, hu])

theorem serializeEntries_nearFull (s : OSSerialize) (count i : Nat) :
    ∀ es : List (List UInt8 × OSObject), (∀ u ∈ entriesNodes es, u.Valid ∧ Encodable u) →
      (serializeEntries s count i es).2 = false → NearFull (serializeEntries s count i es).1
  | [], _ => by simp [serializeEntries]
  | (k, v) :: es, hv => by
    have hk := (hv (symbol k) (by simp [entriesNodes])).1.2
    rw [serializeEntries]
    exact andThen_nearFull (serializeKey_nearFull hk) fun s1 =>
      andThen_nearFull
        (withFallback_nearFull (fun s' => binarySerializeInternal_nearFull s' v
          fun u hu => hv u (by simp [entriesNodes, hu])) _)
        fun s2 => serializeEntries_nearFull s2 _ _ es fun u hu => hv u (by simp [entriesNodes, hu])
end

/-- Below `2 ^ 32 - 2 ^ 25` bytes the first attempt succeeded: the fallback never ran. -/
theorem withFallback_eq_of_ok {ser : OSSerialize → OSSerialize × Bool}
    (hg : ∀ s', Grows s' (ser s').1) (hf : ∀ s', (ser s').2 = false → NearFull (ser s').1)
    {s s' : OSSerialize} (h : withFallback ser s = (s', true)) (hs : s'.data.length + 2 ^ 25 < 2 ^ 32) :
    ser s = (s', true) := by
  unfold withFallback at h
  have h1 := hf s
  have hg1 := hg s
  generalize ser s = r at h h1 hg1 ⊢
  obtain ⟨s1, ok⟩ := r
  cases ok
  · -- the fallback ran from a state that was already nearly full
    have hfull : NearFull s1 := h1 rfl
    have hgrow := (hg s1).1.length_le
    rw [show ser s1 = (s', true) from h] at hgrow
    dsimp only at hgrow
    unfold NearFull at hfull
    omega
  · simpa using h

/-- A sequence that succeeded: its first call did, and so did `body` after it. -/
theorem andThen_eq_true {r : OSSerialize × Bool} {body : OSSerialize → OSSerialize × Bool} {s' : OSSerialize}
    (h : andThen r body = (s', true)) : r.2 = true ∧ body r.1 = (s', true) := by
  unfold andThen at h
  split at h
  · exact ⟨‹_›, h⟩
  · simp at h

/-! ## Every object gets a tag -/

section Closure

variable {t : OSObject}

/-- Every tagged object of `t` has all of its objects tagged, unless it is one of the collections on
`path`, whose elements are still being written. -/
def Closed (t : OSObject) (tags : List Ident) (path : List OSObject) : Prop :=
  ∀ u ∈ t.nodes, u.ident ∈ tags → u ∉ path → ∀ w ∈ u.nodes, w.ident ∈ tags

/-- `v` is an object of `t` strictly below every collection on `path`. -/
def Below (t : OSObject) (path : List OSObject) (v : OSObject) : Prop :=
  v ∈ t.nodes ∧ ∀ A ∈ path, sizeOf v < sizeOf A

theorem Below.not_mem {path : List OSObject} {v : OSObject} (h : Below t path v) : v ∉ path :=
  fun hv => Nat.lt_irrefl _ (h.2 v hv)

theorem closed_nil (path : List OSObject) : Closed t [] path := by
  intro u _ hu
  simp at hu

/-- Tagging `v`, which is either a leaf of the tree or on `path`. -/
theorem Closed.append {tags : List Ident} {path : List OSObject} (hwf : t.WellFormed)
    (h : Closed t tags path) {v : OSObject} (hv : v ∈ t.nodes) (hleaf : v ∉ path → v.nodes = [v]) :
    Closed t (tags ++ [v.ident]) path := by
  intro u hu hut hup w hw
  rcases List.mem_append.1 hut with hut | hut
  · exact List.mem_append_left _ (h u hu hut hup w hw)
  · -- `u` has the identity of `v`, so it is `v`
    have huv : u = v := hwf.1 u hu v hv (List.mem_singleton.1 hut)
    subst huv
    rw [hleaf hup, List.mem_singleton] at hw
    subst hw
    simp

theorem Closed.cons {tags : List Ident} {path : List OSObject} (h : Closed t tags path) (C : OSObject) :
    Closed t tags (C :: path) :=
  fun u hu hut hup => h u hu hut fun h' => hup (List.mem_cons_of_mem _ h')

/-- A collection whose objects are all tagged leaves the path. -/
theorem Closed.pop {tags : List Ident} {C : OSObject} {path : List OSObject} (h : Closed t tags (C :: path))
    (hC : ∀ w ∈ C.nodes, w.ident ∈ tags) : Closed t tags path := by
  intro u hu hut hup
  by_cases huC : u = C
  · exact huC ▸ hC
  · exact h u hu hut (by simp [huC, hup])

theorem addBackReference_tags (s : OSSerialize) (tagIdx : Nat) : (addBackReference s tagIdx).1.tags = s.tags := by
  unfold addBackReference addBinary
  dsimp only
  split_ifs <;> rfl

theorem addBinaryObject_tags (s : OSSerialize) (o : Ident) (key : Nat) (bits : List UInt8) :
    (addBinaryObject s o key bits).1.tags = s.tags ++ [o] := by
  unfold addBinaryObject
  dsimp only
  split <;> rfl

/-- The elements of a collection are tagged with everything below them. -/
theorem listNodes_tagged {tags : List Ident} {path : List OSObject} (h : Closed t tags path)
    {vs : List OSObject} (hvs : ∀ e ∈ vs, Below t path e ∧ e.ident ∈ tags) :
    ∀ w ∈ listNodes vs, w.ident ∈ tags := by
  intro w hw
  obtain ⟨e, he, hwe⟩ := mem_listNodes.1 hw
  obtain ⟨hb, hte⟩ := hvs e he
  exact h e hb.1 hte hb.not_mem w hwe

theorem entriesNodes_tagged {tags : List Ident} {path : List OSObject} (h : Closed t tags path)
    {es : List (List UInt8 × OSObject)}
    (hes : ∀ e ∈ es, Ident.sym e.1 ∈ tags ∧ Below t path e.2 ∧ e.2.ident ∈ tags) :
    ∀ w ∈ entriesNodes es, w.ident ∈ tags := by
  intro w hw
  obtain ⟨e, he, hwe⟩ := mem_entriesNodes.1 hw
  obtain ⟨hk, hb, hte⟩ := hes e he
  rcases hwe with rfl | hwe
  · exact hk
  · exact h e.2 hb.1 hte hb.not_mem w hwe

/-- A back reference tags nothing new. -/
theorem backref_tags {path : List OSObject} {s s' : OSSerialize} {tagIdx : Nat}
    {v : OSObject} (hc : Closed t s.tags path) (hidx : s.tags.idxOf? v.ident = some tagIdx)
    (h : addBackReference s tagIdx = (s', true)) : Closed t s'.tags path ∧ v.ident ∈ s'.tags := by
  have ht : s'.tags = s.tags := by rw [← addBackReference_tags s tagIdx, h]
  rw [ht]
  exact ⟨hc, mem_of_idxOf_eq_some hidx⟩

/-- A leaf written afresh. -/
theorem leaf_tags (hwf : t.WellFormed) {path : List OSObject} {s s' : OSSerialize} {v : OSObject}
    {key : Nat} {bits : List UInt8} (hb : Below t path v) (hleaf : v.nodes = [v]) (hc : Closed t s.tags path)
    (h : addBinaryObject s v.ident key bits = (s', true)) : Closed t s'.tags path ∧ v.ident ∈ s'.tags := by
  have ht : s'.tags = s.tags ++ [v.ident] := by rw [← addBinaryObject_tags s v.ident key bits, h]
  rw [ht]
  exact ⟨hc.append hwf hb.1 fun _ => hleaf, by simp⟩

theorem serializeKey_tags (hwf : t.WellFormed) {path : List OSObject} {s s' : OSSerialize} {k : List UInt8}
    (hk : Below t path (symbol k)) (hc : Closed t s.tags path) (h : serializeKey s k = (s', true)) :
    Closed t s'.tags path ∧ Ident.sym k ∈ s'.tags := by
  unfold serializeKey at h
  split at h
  · exact backref_tags (v := symbol k) hc ‹_› h
  · exact leaf_tags hwf hk (by simp [nodes]) hc h

theorem below_dictionary {path : List OSObject} {id : Nat} {es : List (List UInt8 × OSObject)}
    (hb : Below t path (dictionary id es)) :
    ∀ e ∈ es, Below t (dictionary id es :: path) e.2 ∧ Below t (dictionary id es :: path) (symbol e.1) := by
  intro e he
  have hlt : sizeOf e.2 < sizeOf (dictionary id es) := sizeOf_lt_of_mem_dictionary he
  have hmem : ∀ w ∈ entriesNodes es, w ∈ t.nodes := fun w hw =>
    mem_nodes_trans (by simp [nodes, hw]) hb.1
  refine ⟨⟨hmem _ (mem_entriesNodes.2 ⟨e, he, Or.inr (self_mem_nodes _)⟩), ?_⟩,
    ⟨hmem _ (mem_entriesNodes.2 ⟨e, he, Or.inl rfl⟩), ?_⟩⟩
  · intro A hA
    rcases List.mem_cons.1 hA with rfl | hA
    · exact hlt
    · exact lt_trans hlt (hb.2 A hA)
  · intro A hA
    have hk : sizeOf (symbol e.1) < sizeOf (dictionary id es) := by
      have := List.sizeOf_lt_of_mem he
      simp only [symbol.sizeOf_spec, dictionary.sizeOf_spec] at this ⊢
      have : sizeOf e = 1 + sizeOf e.1 + sizeOf e.2 := by cases e; simp
      omega
    rcases List.mem_cons.1 hA with rfl | hA
    · exact hk
    · exact lt_trans hk (hb.2 A hA)

theorem below_elems {path : List OSObject} {C : OSObject} {es : List OSObject} (hb : Below t path C)
    (hsub : listNodes es ⊆ C.nodes) (hlt : ∀ e ∈ es, sizeOf e < sizeOf C) :
    ∀ e ∈ es, Below t (C :: path) e := by
  intro e he
  refine ⟨mem_nodes_trans (hsub (mem_listNodes.2 ⟨e, he, self_mem_nodes e⟩)) hb.1, fun A hA => ?_⟩
  rcases List.mem_cons.1 hA with rfl | hA
  · exact hlt e he
  · exact lt_trans (hlt e he) (hb.2 A hA)

/-- A collection: its header tags it and puts it on the path, its elements are written below it,
and once they are all tagged, so is everything below it. -/
theorem collection_tags (hwf : t.WellFormed) {path : List OSObject} {s s' : OSSerialize} {C : OSObject}
    {key : Nat} {body : OSSerialize → OSSerialize × Bool} (hb : Below t path C) (hc : Closed t s.tags path)
    (h : andThen (addBinaryObject s C.ident key []) body = (s', true))
    (hbody : ∀ s1, Closed t s1.tags (C :: path) → body s1 = (s', true) →
      Closed t s'.tags (C :: path) ∧ s1.tags ⊆ s'.tags ∧ ∀ w ∈ C.nodes, w ≠ C → w.ident ∈ s'.tags) :
    Closed t s'.tags path ∧ C.ident ∈ s'.tags := by
  obtain ⟨-, h⟩ := andThen_eq_true h
  have ht : (addBinaryObject s C.ident key []).1.tags = s.tags ++ [C.ident] := addBinaryObject_tags ..
  have hc1 : Closed t (addBinaryObject s C.ident key []).1.tags (C :: path) :=
    ht ▸ (hc.cons C).append hwf hb.1 fun hn => absurd (List.mem_cons_self ..) hn
  obtain ⟨hc2, hsub, hall⟩ := hbody _ hc1 h
  have hC : C.ident ∈ s'.tags := hsub (by rw [ht]; simp)
  refine ⟨hc2.pop fun w hw => ?_, hC⟩
  by_cases hwC : w = C
  · exact hwC ▸ hC
  · exact hall w hw hwC

theorem tags_subset_of_eq {s s' : OSSerialize} {r : OSSerialize × Bool} {ok : Bool} (hg : Grows s r.1)
    (h : r = (s', ok)) : s.tags ⊆ s'.tags := by
  subst h
  exact hg.2.1.subset

theorem data_length_le_of_eq {s s' : OSSerialize} {r : OSSerialize × Bool} {ok : Bool} (hg : Grows s r.1)
    (h : r = (s', ok)) : s.data.length ≤ s'.data.length := by
  subst h
  exact hg.1.length_le

/-- An element written with the fallback, far enough from the limit, was written by the first
attempt. -/
theorem element_eq {s s2 : OSSerialize} {v : OSObject} (hv : Sound v)
    (h : withFallback (binarySerializeInternal · v) s = (s2, true)) (hs : s2.data.length + 2 ^ 25 < 2 ^ 32) :
    binarySerializeInternal s v = (s2, true) :=
  withFallback_eq_of_ok (fun s' => binarySerializeInternal_grows s' v)
    (fun s' => binarySerializeInternal_nearFull s' v hv) h hs

mutual
theorem binarySerializeInternal_tags (hwf : t.WellFormed) (s : OSSerialize) :
    ∀ (v : OSObject) {path : List OSObject} {s' : OSSerialize}, Below t path v → Sound v →
      Closed t s.tags path → binarySerializeInternal s v = (s', true) →
      s'.data.length + 2 ^ 25 < 2 ^ 32 → Closed t s'.tags path ∧ v.ident ∈ s'.tags
  | .dictionary id es, path, s', hb, hv, hc, h, hs => by
    rw [binarySerializeInternal] at h
    split at h
    · exact backref_tags hc ‹_› h
    · refine collection_tags hwf hb hc h fun s1 hc1 hbody => ?_
      obtain ⟨hc2, hall⟩ := serializeEntries_tags hwf s1 _ _ es (below_dictionary hb)
        (fun u hu => hv u (by simp [nodes, hu])) hc1 hbody hs
      refine ⟨hc2, tags_subset_of_eq (serializeEntries_grows s1 _ _ es) hbody, fun w hw hwC => ?_⟩
      simp only [nodes, List.mem_cons, hwC, false_or] at hw
      exact entriesNodes_tagged hc2 hall w hw
  | .array id es, path, s', hb, hv, hc, h, hs => by
    rw [binarySerializeInternal] at h
    split at h
    · exact backref_tags hc ‹_› h
    · refine collection_tags hwf hb hc h fun s1 hc1 hbody => ?_
      have hes := below_elems hb (by simp [nodes]) fun e he => sizeOf_lt_of_mem_array he
      obtain ⟨hc2, hall⟩ := serializeElems_tags hwf s1 _ _ es hes
        (fun u hu => hv u (by simp [nodes, hu])) hc1 hbody hs
      refine ⟨hc2, tags_subset_of_eq (serializeElems_grows s1 _ _ es) hbody, fun w hw hwC => ?_⟩
      simp only [nodes, List.mem_cons, hwC, false_or] at hw
      exact listNodes_tagged hc2 (fun e he => ⟨hes e he, hall e he⟩) w hw
  | .set id ms, path, s', hb, hv, hc, h, hs => by
    rw [binarySerializeInternal] at h
    split at h
    · exact backref_tags hc ‹_› h
    · refine collection_tags hwf hb hc h fun s1 hc1 hbody => ?_
      have hms := below_elems hb (by simp [nodes]) fun e he => sizeOf_lt_of_mem_set he
      obtain ⟨hc2, hall⟩ := serializeElems_tags hwf s1 _ _ ms hms
        (fun u hu => hv u (by simp [nodes, hu])) hc1 hbody hs
      refine ⟨hc2, tags_subset_of_eq (serializeElems_grows s1 _ _ ms) hbody, fun w hw hwC => ?_⟩
      simp only [nodes, List.mem_cons, hwC, false_or] at hw
      exact listNodes_tagged hc2 (fun e he => ⟨hms e he, hall e he⟩) w hw
  | .number id size value, path, s', hb, _, hc, h, _
  | .boolean b, path, s', hb, _, hc, h, _
  | .symbol b, path, s', hb, _, hc, h, _
  | .string id b, path, s', hb, _, hc, h, _
  | .data id b _, path, s', hb, _, hc, h, _ => by
    rw [binarySerializeInternal] at h
    split at h
    · exact backref_tags hc ‹_› h
    · exact leaf_tags hwf hb (by simp [nodes]) hc h

theorem serializeElems_tags (hwf : t.WellFormed) (s : OSSerialize) (count i : Nat) :
    ∀ (vs : List OSObject) {path : List OSObject} {s' : OSSerialize}, (∀ e ∈ vs, Below t path e) →
      (∀ u ∈ listNodes vs, u.Valid ∧ Encodable u) → Closed t s.tags path →
      serializeElems s count i vs = (s', true) → s'.data.length + 2 ^ 25 < 2 ^ 32 →
      Closed t s'.tags path ∧ ∀ e ∈ vs, e.ident ∈ s'.tags
  | [], path, s', _, _, hc, h, _ => by
    simp only [serializeElems, Prod.mk.injEq] at h
    exact h.1 ▸ ⟨hc, by simp⟩
  | v :: vs, path, s', hb, hv, hc, h, hs => by
    rw [serializeElems] at h
    obtain ⟨hok, hrest⟩ := andThen_eq_true h
    generalize hr : withFallback (binarySerializeInternal · v) { s with endCollection := i + 1 == count } = r
      at hok hrest
    obtain ⟨s1, ok⟩ := r
    dsimp only at hok hrest
    subst hok
    have hsound : Sound v := fun u hu => hv u (by simp [listNodes, hu])
    have hs1 : s1.data.length + 2 ^ 25 < 2 ^ 32 := by
      have := data_length_le_of_eq (serializeElems_grows s1 _ _ vs) hrest
      omega
    obtain ⟨hc1, hv1⟩ := binarySerializeInternal_tags hwf { s with endCollection := i + 1 == count } v
      (hb v (by simp)) hsound hc (element_eq hsound hr hs1) hs1
    obtain ⟨hc2, hall⟩ := serializeElems_tags hwf s1 _ _ vs (fun e he => hb e (by simp [he]))
      (fun u hu => hv u (by simp [listNodes, hu])) hc1 hrest hs
    refine ⟨hc2, fun e he => ?_⟩
    rcases List.mem_cons.1 he with rfl | he
    · exact tags_subset_of_eq (serializeElems_grows s1 _ _ vs) hrest hv1
    · exact hall e he

theorem serializeEntries_tags (hwf : t.WellFormed) (s : OSSerialize) (count i : Nat) :
    ∀ (es : List (List UInt8 × OSObject)) {path : List OSObject} {s' : OSSerialize},
      (∀ e ∈ es, Below t path e.2 ∧ Below t path (symbol e.1)) →
      (∀ u ∈ entriesNodes es, u.Valid ∧ Encodable u) → Closed t s.tags path →
      serializeEntries s count i es = (s', true) → s'.data.length + 2 ^ 25 < 2 ^ 32 →
      Closed t s'.tags path ∧ ∀ e ∈ es, Ident.sym e.1 ∈ s'.tags ∧ Below t path e.2 ∧ e.2.ident ∈ s'.tags
  | [], path, s', _, _, hc, h, _ => by
    simp only [serializeEntries, Prod.mk.injEq] at h
    exact h.1 ▸ ⟨hc, by simp⟩
  | (k, v) :: es, path, s', hb, hv, hc, h, hs => by
    rw [serializeEntries] at h
    obtain ⟨hkok, hrest⟩ := andThen_eq_true h
    generalize hr1 : serializeKey s k = r1 at hkok hrest
    obtain ⟨s1, ok1⟩ := r1
    dsimp only at hkok hrest
    subst hkok
    obtain ⟨hok, hrest⟩ := andThen_eq_true hrest
    generalize hr2 : withFallback (binarySerializeInternal · v) { s1 with endCollection := i + 1 == count } = r2
      at hok hrest
    obtain ⟨s2, ok2⟩ := r2
    dsimp only at hok hrest
    subst hok
    have hsound : Sound v := fun u hu => hv u (by simp [entriesNodes, hu])
    have hs2 : s2.data.length + 2 ^ 25 < 2 ^ 32 := by
      have := data_length_le_of_eq (serializeEntries_grows s2 _ _ es) hrest
      omega
    obtain ⟨hb1, hbk⟩ := hb (k, v) (by simp)
    obtain ⟨hc1, hk1⟩ := serializeKey_tags hwf hbk hc hr1
    obtain ⟨hc2, hv2⟩ := binarySerializeInternal_tags hwf { s1 with endCollection := i + 1 == count } v
      hb1 hsound hc1 (element_eq hsound hr2 hs2) hs2
    obtain ⟨hc3, hall⟩ := serializeEntries_tags hwf s2 _ _ es (fun e he => hb e (by simp [he]))
      (fun u hu => hv u (by simp [entriesNodes, hu])) hc2 hrest hs
    have h12 : s1.tags ⊆ s2.tags :=
      tags_subset_of_eq (withFallback_grows (fun s' => binarySerializeInternal_grows s' v) _).of_setEnd hr2
    have h2' := tags_subset_of_eq (serializeEntries_grows s2 _ _ es) hrest
    refine ⟨hc3, fun e he => ?_⟩
    rcases List.mem_cons.1 he with rfl | he
    · exact ⟨h2' (h12 hk1), hb1, h2' hv2⟩
    · exact hall e he
end

/-- **Every object of the graph is tagged.** A serialization that succeeds far enough from the
32-bit limit tags every object of `t`. -/
theorem binarySerialize_tags_all (hwf : t.WellFormed) (hs : Sound t) {s s' : OSSerialize} (h0 : s.tags = [])
    (h : binarySerialize s t = (s', true)) (hlen : s'.data.length + 2 ^ 25 < 2 ^ 32) :
    ∀ u ∈ t.nodes, u.ident ∈ s'.tags := by
  have hc : Closed t s.tags [] := h0 ▸ closed_nil []
  obtain ⟨hc', ht⟩ := binarySerializeInternal_tags hwf s t ⟨self_mem_nodes t, by simp⟩ hs hc h hlen
  exact hc' t (self_mem_nodes t) ht (by simp)

end Closure

/-! ## Only objects of the graph are tagged -/

/-- Every tag of `s'` is one of `s` or an identity in `A`. -/
def TagsWithin (A : List Ident) (s s' : OSSerialize) : Prop := ∀ x ∈ s'.tags, x ∈ s.tags ∨ x ∈ A

theorem TagsWithin.refl (A : List Ident) (s : OSSerialize) : TagsWithin A s s := fun _ h => Or.inl h

theorem TagsWithin.trans {A : List Ident} {s₁ s₂ s₃ : OSSerialize} (h₁ : TagsWithin A s₁ s₂)
    (h₂ : TagsWithin A s₂ s₃) : TagsWithin A s₁ s₃ := fun x hx =>
  (h₂ x hx).elim (fun h => h₁ x h) Or.inr

theorem TagsWithin.mono {A B : List Ident} {s s' : OSSerialize} (h : TagsWithin A s s') (hAB : A ⊆ B) :
    TagsWithin B s s' := fun x hx => (h x hx).imp_right fun h => hAB h

theorem TagsWithin.of_setEnd {A : List Ident} {s s' : OSSerialize} {b : Bool}
    (h : TagsWithin A { s with endCollection := b } s') : TagsWithin A s s' := h

theorem addBinaryObject_within {A : List Ident} (s : OSSerialize) {o : Ident} (ho : o ∈ A) (key : Nat)
    (bits : List UInt8) : TagsWithin A s (addBinaryObject s o key bits).1 := by
  have h : TagsWithin A s { s with tags := s.tags ++ [o] } := fun x hx => by
    rcases List.mem_append.1 hx with hx | hx
    · exact Or.inl hx
    · exact Or.inr (List.mem_singleton.1 hx ▸ ho)
  unfold addBinaryObject
  dsimp only
  split
  · exact h
  · exact h

theorem addBackReference_within (A : List Ident) (s : OSSerialize) (tagIdx : Nat) :
    TagsWithin A s (addBackReference s tagIdx).1 := fun x hx =>
  Or.inl (by rwa [addBackReference_tags] at hx)

theorem andThen_within {A : List Ident} {s : OSSerialize} {r : OSSerialize × Bool} (hr : TagsWithin A s r.1)
    {body : OSSerialize → OSSerialize × Bool} (hb : ∀ s', TagsWithin A s' (body s').1) :
    TagsWithin A s (andThen r body).1 := by
  unfold andThen
  split
  · exact hr.trans (hb r.1)
  · exact hr

theorem withFallback_within {A : List Ident} {ser : OSSerialize → OSSerialize × Bool}
    (h : ∀ s', TagsWithin A s' (ser s').1) (s : OSSerialize) : TagsWithin A s (withFallback ser s).1 := by
  unfold withFallback
  have h1 := h s
  generalize ser s = r at h1 ⊢
  obtain ⟨s1, ok⟩ := r
  cases ok
  · exact h1.trans (h s1)
  · exact h1

theorem serializeKey_within {A : List Ident} (s : OSSerialize) {k : List UInt8} (hk : Ident.sym k ∈ A) :
    TagsWithin A s (serializeKey s k).1 := by
  unfold serializeKey
  split
  · exact addBackReference_within A s _
  · exact addBinaryObject_within s hk _ _

mutual
theorem binarySerializeInternal_within (s : OSSerialize) :
    ∀ v : OSObject, TagsWithin (v.nodes.map ident) s (binarySerializeInternal s v).1
  | .dictionary id es => by
    rw [binarySerializeInternal]
    split
    · exact addBackReference_within _ s _
    · exact andThen_within (addBinaryObject_within s (by simp [nodes, ident]) _ _) fun s1 =>
        (serializeEntries_within s1 _ _ es).mono (by simp only [nodes, List.map_cons]; exact List.subset_cons_self _ _)
  | .array id es => by
    rw [binarySerializeInternal]
    split
    · exact addBackReference_within _ s _
    · exact andThen_within (addBinaryObject_within s (by simp [nodes, ident]) _ _) fun s1 =>
        (serializeElems_within s1 _ _ es).mono (by simp only [nodes, List.map_cons]; exact List.subset_cons_self _ _)
  | .set id ms => by
    rw [binarySerializeInternal]
    split
    · exact addBackReference_within _ s _
    · exact andThen_within (addBinaryObject_within s (by simp [nodes, ident]) _ _) fun s1 =>
        (serializeElems_within s1 _ _ ms).mono (by simp only [nodes, List.map_cons]; exact List.subset_cons_self _ _)
  | .number .. | .boolean _ | .symbol _ | .string .. | .data .. => by
    rw [binarySerializeInternal]
    split
    · exact addBackReference_within _ s _
    · exact addBinaryObject_within s (by simp [nodes, ident]) _ _

theorem serializeElems_within (s : OSSerialize) (count i : Nat) :
    ∀ vs : List OSObject, TagsWithin ((listNodes vs).map ident) s (serializeElems s count i vs).1
  | [] => TagsWithin.refl _ s
  | v :: vs => by
    rw [serializeElems]
    exact andThen_within
      ((withFallback_within (fun s' => (binarySerializeInternal_within s' v).mono
        (by simp [listNodes])) _).of_setEnd)
      fun s1 => (serializeElems_within s1 _ _ vs).mono (by simp [listNodes])

theorem serializeEntries_within (s : OSSerialize) (count i : Nat) :
    ∀ es : List (List UInt8 × OSObject), TagsWithin ((entriesNodes es).map ident) s (serializeEntries s count i es).1
  | [] => TagsWithin.refl _ s
  | (k, v) :: es => by
    rw [serializeEntries]
    exact andThen_within (serializeKey_within s (by simp [entriesNodes, ident])) fun s1 =>
      andThen_within
        ((withFallback_within (fun s' => (binarySerializeInternal_within s' v).mono
          (by simp [entriesNodes])) _).of_setEnd)
        fun s2 => (serializeEntries_within s2 _ _ es).mono (by simp [entriesNodes])
end

/-- **Only objects of the graph are tagged**, so `tags` has no more entries than the graph has
distinct objects. -/
theorem binarySerialize_tags_sub {s : OSSerialize} (h0 : s.tags = []) (t : OSObject) :
    ∀ x ∈ (binarySerialize s t).1.tags, x ∈ t.nodes.map ident := fun x hx =>
  ((binarySerializeInternal_within s t) x hx).resolve_left (by simp [h0])

/-! ## The end bit is consumed -/

theorem addBinaryObject_endCollection {s s' : OSSerialize} {o : Ident} {key : Nat} {bits : List UInt8}
    (h : addBinaryObject s o key bits = (s', true)) : s'.endCollection = false := by
  unfold addBinaryObject at h
  dsimp only at h
  split at h
  · rw [← (Prod.mk.inj h).1]
  · simp at h

theorem addBackReference_endCollection {s s' : OSSerialize} {i : Nat} (h : addBackReference s i = (s', true)) :
    s'.endCollection = false := by
  unfold addBackReference addBinary at h
  dsimp only at h
  split at h <;> split at h
  all_goals rw [← (Prod.mk.inj h).1]

theorem withFallback_endCollection {ser : OSSerialize → OSSerialize × Bool}
    (hser : ∀ {s s'}, ser s = (s', true) → s'.endCollection = false) {s s' : OSSerialize}
    (h : withFallback ser s = (s', true)) : s'.endCollection = false := by
  unfold withFallback at h
  generalize hr : ser s = r at h
  obtain ⟨s1, ok⟩ := r
  cases ok
  · exact hser h
  · exact hser (hr.trans (by simpa using h))

theorem serializeKey_endCollection {s s' : OSSerialize} {k : List UInt8} (h : serializeKey s k = (s', true)) :
    s'.endCollection = false := by
  unfold serializeKey at h
  split at h
  · exact addBackReference_endCollection h
  · exact addBinaryObject_endCollection h

mutual
/-- **A written object leaves no end bit pending**: its last record took it. -/
theorem binarySerializeInternal_endCollection :
    ∀ (s : OSSerialize) (v : OSObject) {s' : OSSerialize}, binarySerializeInternal s v = (s', true) →
      s'.endCollection = false
  | s, .dictionary id es, s', h => by
    rw [binarySerializeInternal] at h
    split at h
    · exact addBackReference_endCollection h
    · obtain ⟨hhdr, hbody⟩ := andThen_eq_true h
      cases es with
      | nil =>
        simp only [serializeEntries, Prod.mk.injEq] at hbody
        exact hbody.1 ▸ addBinaryObject_endCollection (Prod.ext rfl hhdr)
      | cons e es => exact serializeEntries_endCollection _ _ _ _ (List.cons_ne_nil _ _) hbody
  | s, .array id es, s', h => by
    rw [binarySerializeInternal] at h
    split at h
    · exact addBackReference_endCollection h
    · obtain ⟨hhdr, hbody⟩ := andThen_eq_true h
      cases es with
      | nil =>
        simp only [serializeElems, Prod.mk.injEq] at hbody
        exact hbody.1 ▸ addBinaryObject_endCollection (Prod.ext rfl hhdr)
      | cons e es => exact serializeElems_endCollection _ _ _ _ (List.cons_ne_nil _ _) hbody
  | s, .set id ms, s', h => by
    rw [binarySerializeInternal] at h
    split at h
    · exact addBackReference_endCollection h
    · obtain ⟨hhdr, hbody⟩ := andThen_eq_true h
      cases ms with
      | nil =>
        simp only [serializeElems, Prod.mk.injEq] at hbody
        exact hbody.1 ▸ addBinaryObject_endCollection (Prod.ext rfl hhdr)
      | cons e ms => exact serializeElems_endCollection _ _ _ _ (List.cons_ne_nil _ _) hbody
  | s, .number .., s', h | s, .boolean _, s', h | s, .symbol _, s', h | s, .string .., s', h
  | s, .data .., s', h => by
    rw [binarySerializeInternal] at h
    split at h
    · exact addBackReference_endCollection h
    · exact addBinaryObject_endCollection h

theorem serializeElems_endCollection :
    ∀ (s : OSSerialize) (count i : Nat) (vs : List OSObject) {s' : OSSerialize}, vs ≠ [] →
      serializeElems s count i vs = (s', true) → s'.endCollection = false
  | _, _, _, [], _, hne, _ => absurd rfl hne
  | s, count, i, v :: vs, s', _, h => by
    rw [serializeElems] at h
    obtain ⟨hok, hrest⟩ := andThen_eq_true h
    generalize hr : withFallback (binarySerializeInternal · v) { s with endCollection := i + 1 == count } = r
      at hok hrest
    obtain ⟨s1, ok⟩ := r
    dsimp only at hok hrest
    subst hok
    cases vs with
    | nil =>
      simp only [serializeElems, Prod.mk.injEq] at hrest
      exact hrest.1 ▸ withFallback_endCollection (binarySerializeInternal_endCollection _ v) hr
    | cons w vs => exact serializeElems_endCollection _ _ _ _ (List.cons_ne_nil _ _) hrest

theorem serializeEntries_endCollection :
    ∀ (s : OSSerialize) (count i : Nat) (es : List (List UInt8 × OSObject)) {s' : OSSerialize}, es ≠ [] →
      serializeEntries s count i es = (s', true) → s'.endCollection = false
  | _, _, _, [], _, hne, _ => absurd rfl hne
  | s, count, i, (k, v) :: es, s', _, h => by
    rw [serializeEntries] at h
    obtain ⟨-, hrest⟩ := andThen_eq_true h
    obtain ⟨hok, hrest⟩ := andThen_eq_true hrest
    generalize hr : withFallback (binarySerializeInternal · v)
      { (serializeKey s k).1 with endCollection := i + 1 == count } = r at hok hrest
    obtain ⟨s2, ok⟩ := r
    dsimp only at hok hrest
    subst hok
    cases es with
    | nil =>
      simp only [serializeEntries, Prod.mk.injEq] at hrest
      exact hrest.1 ▸ withFallback_endCollection (binarySerializeInternal_endCollection _ v) hr
    | cons e es => exact serializeEntries_endCollection _ _ _ _ (List.cons_ne_nil _ _) hrest
end

end Libkern.Binary
