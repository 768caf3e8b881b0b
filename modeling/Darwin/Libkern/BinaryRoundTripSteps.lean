import Darwin.Libkern.BinaryRoundTripSync

/-!
# The phases of one iteration, in step with the encoder

Each phase of `finish` (storing the object, `attach`, the push of `descend`, the unwinding of
`unwind`) taken on states related by `Sync`, and what it leaves.
-/

namespace Libkern.Binary

open OSObject

/-! ## Indices in the final `tags` -/

section Tags

variable {T : List Ident}

theorem idxOf_eq_of_getElem? (hT : T.Nodup) {j : Nat} {id : Ident} (h : T[j]? = some id) :
    T.idxOf id = j := by
  obtain ⟨hj, rfl⟩ := List.getElem?_eq_some_iff.1 h
  exact hT.idxOf_getElem j hj

theorem getElem?_of_extend {tags : List Ident} (hp : tags <+: T) {j : Nat} {id : Ident}
    (h : tags[j]? = some id) : T[j]? = some id := by
  obtain ⟨r, rfl⟩ := hp
  rw [List.getElem?_append_left (List.getElem?_eq_some_iff.1 h).1, h]

theorem getElem?_of_lt_of_extend {tags : List Ident} (hp : tags <+: T) {j : Nat} (hj : j < tags.length)
    {id : Ident} (h : T[j]? = some id) : tags[j]? = some id := by
  obtain ⟨r, rfl⟩ := hp
  rwa [List.getElem?_append_left hj] at h

/-- A tag already present: its index in the final `tags`. -/
theorem idxOf_of_idxOf? {tags : List Ident} (hT : T.Nodup) (hp : tags <+: T) {id : Ident} {i : Nat}
    (h : tags.idxOf? id = some i) : T.idxOf id = i := by
  obtain ⟨hi, hid, -⟩ := List.idxOf?_eq_some_iff.1 h
  exact idxOf_eq_of_getElem? hT (getElem?_of_extend hp (by rw [List.getElem?_eq_getElem hi, hid]))

/-- A tag appended now: its index is the old length. -/
theorem idxOf_fresh {tags : List Ident} (hT : T.Nodup) {id : Ident} (hp : tags ++ [id] <+: T) :
    T.idxOf id = tags.length :=
  idxOf_eq_of_getElem? hT (getElem?_of_extend hp (by simp))

theorem getElem?_idxOf_of_mem {tags : List Ident} (hT : T.Nodup) (hp : tags <+: T) {id : Ident}
    (h : id ∈ tags) : tags[T.idxOf id]? = some id := by
  obtain ⟨i, hi⟩ := Option.isSome_iff_exists.1 (List.isSome_idxOf?.2 h)
  rw [idxOf_of_idxOf? hT hp hi]
  obtain ⟨hl, hid, -⟩ := List.idxOf?_eq_some_iff.1 hi
  rw [List.getElem?_eq_getElem hl, hid]

theorem idxOf_lt_of_mem {tags : List Ident} (hT : T.Nodup) (hp : tags <+: T) {id : Ident}
    (h : id ∈ tags) : T.idxOf id < tags.length :=
  (List.getElem?_eq_some_iff.1 (getElem?_idxOf_of_mem hT hp h)).1

theorem idxOf_injective {a b : Ident} (ha : a ∈ T) (h : T.idxOf a = T.idxOf b) : a = b :=
  (List.idxOf_inj ha).1 h

end Tags

/-! ## Decoded forms -/

section Shapes

variable {f : Ident → Nat}

/-- An object with no elements is complete after any number of them. -/
theorem shapeUpTo_of_count_eq_zero {u : OSObject} (hu : u.count = 0) (k : Nat) :
    shapeUpTo f k u = shape f u := by
  cases u <;> simp_all [shape, shapeUpTo, count]

theorem expected_of_count_eq_zero {u : OSObject} (hu : u.count = 0) (k : Option Nat) :
    expected f k u = shape f u := by
  cases k with
  | none => rfl
  | some k => exact shapeUpTo_of_count_eq_zero hu k

theorem expected_count (u : OSObject) : expected f (some u.count) u = shape f u := rfl

end Shapes

/-! ## Open counts -/

theorem doneOf_cons (F : Frame) (rest : List Frame) (j : Nat) :
    doneOf (F :: rest) j = if F.slot = j then some F.done else doneOf rest j := by
  by_cases h : F.slot = j <;> simp [doneOf, h]

/-- Attaching an element to the innermost frame. -/
theorem doneOf_setDone (F : Frame) (rest : List Frame) (k : Nat) :
    doneOf ({ F with done := k } :: rest) = Function.update (doneOf (F :: rest)) F.slot (some k) := by
  funext j
  rw [Function.update_apply, doneOf_cons, doneOf_cons]
  by_cases h : F.slot = j
  · simp [h]
  · simp [h, Ne.symm h]

theorem doneOf_of_forall_ne {ctx : List Frame} {j : Nat} (h : ∀ F ∈ ctx, F.slot ≠ j) : doneOf ctx j = none := by
  simp only [doneOf, Option.map_eq_none_iff, List.find?_eq_none]
  intro F hF
  simpa using h F hF

theorem doneOf_of_mem {ctx : List Frame} (hnd : (ctx.map Frame.slot).Nodup) {F : Frame} (hF : F ∈ ctx) :
    doneOf ctx F.slot = some F.done := by
  induction ctx with
  | nil => simp at hF
  | cons G rest ih =>
    rw [doneOf_cons]
    rw [List.map_cons, List.nodup_cons] at hnd
    rcases List.mem_cons.1 hF with rfl | hF
    · simp
    · have hne : G.slot ≠ F.slot := fun h => hnd.1 (h ▸ List.mem_map_of_mem hF)
      simp [hne, ih hnd.2 hF]

theorem doneOf_append_of_forall_ne {popped rest : List Frame} {j : Nat} (h : ∀ F ∈ popped, F.slot ≠ j) :
    doneOf (popped ++ rest) j = doneOf rest j := by
  simp only [doneOf, List.find?_append]
  rw [List.find?_eq_none.2 (fun F hF => by simpa using h F hF)]
  rfl

theorem fillDone_doneOf (ctx : List Frame) (kr : Bool) : fillDone (doneOf ctx) ctx kr = doneOf (fill ctx kr).1 := by
  cases ctx with
  | nil => rfl
  | cons F rest =>
    cases hk : (F.node.isDictionary && !kr)
    · simp only [fillDone, fill, hk, Bool.false_eq_true, if_false]
      exact (doneOf_setDone F rest _).symm
    · simp [fillDone, fill, hk]

/-- A frame pushed on top keeps its count while the element is attached below it. -/
theorem fillDone_doneOf_cons (N : Frame) (ctx : List Frame) (kr : Bool) (hN : N.slot ∉ ctx.map Frame.slot) :
    fillDone (doneOf (N :: ctx)) ctx kr = doneOf (N :: (fill ctx kr).1) := by
  cases ctx with
  | nil => rfl
  | cons F rest =>
    have hne : N.slot ≠ F.slot := fun h => hN (by simp [h])
    cases hk : (F.node.isDictionary && !kr)
    · simp only [fillDone, fill, hk, Bool.false_eq_true, if_false]
      funext j
      rw [Function.update_apply, doneOf_cons, doneOf_cons, doneOf_cons, doneOf_cons]
      by_cases hj : j = F.slot
      · subst hj
        simp [hne]
      · simp [hj, Ne.symm hj]
    · simp [fillDone, fill, hk]

/-! ## `objsArray` -/

section Objs

variable {t : OSObject} {T : List Ident}

theorem ObjsOk.get {tags : List Ident} {objs : List DObj} {δ : Nat → Option Nat}
    (h : ObjsOk t T tags objs δ) {u : OSObject} (hu : u ∈ t.nodes) {j : Nat} (hj : tags[j]? = some u.ident) :
    objs[j]? = some (expected T.idxOf (δ j) u) :=
  h.2 u hu j hj

/-- Storing a new object at the next index. -/
theorem ObjsOk.append (hwf : t.WellFormed) {tags : List Ident} {objs : List DObj} {δ δ' : Nat → Option Nat}
    (h : ObjsOk t T tags objs δ) {v : OSObject} (hv : v ∈ t.nodes) (hδ : ∀ j < tags.length, δ' j = δ j)
    {c : DObj} (hc : c = expected T.idxOf (δ' tags.length) v) :
    ObjsOk t T (tags ++ [v.ident]) (objs ++ [c]) δ' := by
  refine ⟨by simp [h.1], fun u hu j hj => ?_⟩
  by_cases hjl : j < tags.length
  · rw [List.getElem?_append_left hjl] at hj
    rw [List.getElem?_append_left (by rw [h.1]; exact hjl), hδ j hjl]
    exact h.2 u hu j hj
  · -- the new index holds the new object, the only one with its identity
    have hj' : j = tags.length := by
      have := (List.getElem?_eq_some_iff.1 hj).1
      simp at this
      omega
    subst hj'
    rw [List.getElem?_append_right (le_refl _), Nat.sub_self] at hj
    have huv : u = v := hwf.1 u hu v hv (by simpa using hj.symm)
    subst huv
    rw [List.getElem?_append_right (by rw [h.1]), h.1, Nat.sub_self, hc]
    rfl

/-- The open counts changed only where the decoded forms agree. -/
theorem ObjsOk.congr {tags : List Ident} {objs : List DObj} {δ δ' : Nat → Option Nat}
    (h : ObjsOk t T tags objs δ)
    (hδ : ∀ u ∈ t.nodes, ∀ j, tags[j]? = some u.ident → expected T.idxOf (δ j) u = expected T.idxOf (δ' j) u) :
    ObjsOk t T tags objs δ' :=
  ⟨h.1, fun u hu j hj => by rw [h.2 u hu j hj, hδ u hu j hj]⟩

/-- Updating the collection at index `j0`. -/
theorem ObjsOk.modify (hwf : t.WellFormed) {tags : List Ident} {objs : List DObj} {δ δ' : Nat → Option Nat}
    (h : ObjsOk t T tags objs δ) {u0 : OSObject} (hu0 : u0 ∈ t.nodes) {j0 : Nat}
    (hj0 : tags[j0]? = some u0.ident) {g : DObj → DObj}
    (hg : g (expected T.idxOf (δ j0) u0) = expected T.idxOf (δ' j0) u0) (hδ : ∀ j, j ≠ j0 → δ' j = δ j) :
    ObjsOk t T tags (objs.modify j0 g) δ' := by
  refine ⟨by simp [h.1], fun u hu j hj => ?_⟩
  rw [List.getElem?_modify, h.2 u hu j hj]
  by_cases hj : j0 = j
  · subst hj
    have huv : u = u0 := hwf.1 u hu u0 hu0 (by rw [hj0] at hj; simpa using hj.symm)
    subst huv
    simp [hg]
  · simp [hj, hδ j (Ne.symm hj)]

end Objs

/-! ## `attach`, by the collection being filled -/

section Attach

variable {d : Unser} {o : Nat}

theorem attach_root (hd : d.dict = none) (ha : d.array = none) (hs : d.set = none) (hr : d.result = none) :
    attach d o = .cont { d with result := some o } := by
  simp [attach, hd, ha, hs, hr]

theorem attach_key {p : Nat} (hd : d.dict = some p) (hs : d.sym = none) :
    attach d o = .cont { d with sym := some o } := by
  simp [attach, hd, hs]

/-- The value of an entry: `setObject(sym, o)` on the dictionary, the key released. -/
theorem attach_value {p k : Nat} {key : List UInt8} (hd : d.dict = some p) (hs : d.sym = some k) (ho : o ≠ p)
    (hk : keyOf d.objs k = some key) :
    ∃ g : DObj → DObj, attach d o = .cont { d with sym := none, objs := modifyObj d.objs p g } ∧
      ∀ es, g (.dictionary es) = .dictionary (setEntry es key o) := by
  simp only [attach, hd, hs, if_neg ho, hk]
  exact ⟨_, rfl, fun _ => rfl⟩

theorem attach_array {a : Nat} (hd : d.dict = none) (ha : d.array = some a) :
    ∃ g : DObj → DObj, attach d o = .cont { d with objs := modifyObj d.objs a g } ∧
      ∀ es, g (.array es) = .array (es ++ [o]) := by
  simp only [attach, hd, ha]
  exact ⟨_, rfl, fun _ => rfl⟩

/-- A member the set does not contain yet. -/
theorem attach_set {st : Nat} {ms : List Nat} (hd : d.dict = none) (ha : d.array = none) (hs : d.set = some st)
    (hm : d.objs[st]? = some (.set ms)) (hnew : ms.any (fun m => objIdent d.objs m == objIdent d.objs o) = false) :
    attach d o = .cont { d with objs := modifyObj d.objs st fun _ => .set (ms ++ [o]) } := by
  simp only [attach, hd, ha, hs, hm, hnew]
  rfl

end Attach

/-! ## Identities of decoded objects -/

theorem expected_eq_shapeUpTo (f : Ident → Nat) (k : Option Nat) (u : OSObject) :
    expected f k u = shapeUpTo f (k.getD u.count) u := by
  cases k <;> rfl

/-- `OSSet::containsObject` compares what the encoder's `tags` compared. -/
theorem objIdent_injective {t : OSObject} {T tags : List Ident} {objs : List DObj} {δ : Nat → Option Nat}
    (h : ObjsOk t T tags objs δ) (hT : T.Nodup) (hp : tags <+: T) {u w : OSObject} (hu : u ∈ t.nodes)
    (hw : w ∈ t.nodes) (hut : u.ident ∈ tags) (hwt : w.ident ∈ tags)
    (he : objIdent objs (T.idxOf u.ident) = objIdent objs (T.idxOf w.ident)) : u.ident = w.ident := by
  have hinj : T.idxOf u.ident = T.idxOf w.ident → u.ident = w.ident :=
    idxOf_injective (hp.subset hut)
  rw [objIdent, objIdent, h.get hu (getElem?_idxOf_of_mem hT hp hut), h.get hw (getElem?_idxOf_of_mem hT hp hwt),
    expected_eq_shapeUpTo, expected_eq_shapeUpTo] at he
  cases u <;> cases w <;> simp_all [shapeUpTo, ident]

/-- In a list whose images are distinct, an element before position `i` has another image than
the one at `i`. -/
theorem map_ne_of_mem_take {α β : Type} {l : List α} {g : α → β} (hnd : (l.map g).Nodup) {i : Nat} {v : α}
    (hv : l[i]? = some v) {u : α} (hu : u ∈ l.take i) : g u ≠ g v := by
  rw [← List.take_append_drop i l, List.map_append, List.nodup_append] at hnd
  have hvd : v ∈ l.drop i := by
    rw [List.getElem?_eq_some_iff] at hv
    obtain ⟨hi, rfl⟩ := hv
    exact List.mem_iff_getElem.2 ⟨0, by simp; omega, by simp⟩
  exact hnd.2.2 _ (List.mem_map_of_mem hu) _ (List.mem_map_of_mem hvd)

/-! ## Frames -/

section Frames

theorem chain_setDone (F : Frame) (rest : List Frame) (k : Nat) :
    Chain ({ F with done := k } :: rest) ↔ Chain (F :: rest) := by
  cases rest <;> rfl

theorem Chain.tail {F : Frame} {rest : List Frame} (h : Chain (F :: rest)) : Chain rest := by
  cases rest with
  | nil => trivial
  | cons G rest => exact h.2

/-- The key of a dictionary frame is the key of its entry `done`. -/
theorem key_eq_some {F : Frame} {k : List UInt8} (h : F.key = some k) :
    ∃ id es e, F.node = .dictionary id es ∧ es[F.done]? = some e ∧ k = e.1 := by
  obtain ⟨slot, node, done, he⟩ := F
  cases node with
  | dictionary id es =>
    simp only [Frame.key, Option.map_eq_some_iff] at h
    obtain ⟨e, he', rfl⟩ := h
    exact ⟨id, es, e, rfl, he', rfl⟩
  | _ => simp [Frame.key] at h

theorem length_elems (u : OSObject) : u.elems.length = u.count := by
  cases u <;> simp [elems, count]

theorem depth_pos {u : OSObject} (h : u.count ≠ 0) : 0 < u.depth := by
  cases u with
  | dictionary id es =>
    have : es ≠ [] := by rintro rfl; simp [count] at h
    simp [depth, this]
  | array id es =>
    have : es ≠ [] := by rintro rfl; simp [count] at h
    simp [depth, this]
  | set id ms =>
    have : ms ≠ [] := by rintro rfl; simp [count] at h
    simp [depth, this]
  | _ => simp [count] at h

/-- The next object: the root, the key of the current entry, or the next element. -/
theorem nextObj_cases {t : OSObject} {ctx : List Frame} {kr : Bool} {v : OSObject} (h : nextObj t ctx kr = some v) :
    (ctx = [] ∧ v = t) ∨
      (∃ F rest k, ctx = F :: rest ∧ (F.node.isDictionary && !kr) = true ∧ F.key = some k ∧ v = .symbol k) ∨
      (∃ F rest, ctx = F :: rest ∧ (F.node.isDictionary && !kr) = false ∧ F.node.elems[F.done]? = some v) := by
  cases ctx with
  | nil => exact Or.inl ⟨rfl, (Option.some.inj h).symm⟩
  | cons F rest =>
    simp only [nextObj, Frame.next] at h
    cases hk : (F.node.isDictionary && !kr)
    · rw [hk, if_neg (by simp)] at h
      exact Or.inr (Or.inr ⟨F, rest, rfl, hk, h⟩)
    · rw [hk, if_pos rfl, Option.map_eq_some_iff] at h
      obtain ⟨k, hk', rfl⟩ := h
      exact Or.inr (Or.inl ⟨F, rest, k, rfl, hk, hk', rfl⟩)

theorem StackHolds.congr {arr arr' : List (Option Nat)} :
    ∀ {ctx : List Frame}, StackHolds arr ctx →
      (∀ i, 1 ≤ i → i ≤ ctx.length → arr'.getD i none = arr.getD i none) → StackHolds arr' ctx
  | [], _, _ => trivial
  | _ :: rest, ⟨h1, h2⟩, h =>
    ⟨(h _ (by omega) (by simp)).trans h1, StackHolds.congr h2 fun i hi hi' => h i hi (by simp; omega)⟩

theorem StackHolds.of_append {arr : List (Option Nat)} :
    ∀ {popped rest : List Frame}, StackHolds arr (popped ++ rest) → StackHolds arr rest
  | [], _, h => h
  | _ :: _, _, h => StackHolds.of_append h.2

theorem Chain.of_append : ∀ {popped rest : List Frame}, Chain (popped ++ rest) → Chain rest
  | [], _, h => h
  | _ :: _, _, h => Chain.of_append (Chain.tail h)

theorem DepthOk.of_append {m : Nat} : ∀ {popped rest : List Frame}, DepthOk m (popped ++ rest) → DepthOk m rest
  | [], _, h => h
  | _ :: _, _, h => DepthOk.of_append h.2

/-- The marker written for `N` on top of `ctx`, at `stackIdx + 1`. -/
theorem stackHolds_set {arr : List (Option Nat)} {N : Frame} {ctx : List Frame} (h : StackHolds arr ctx)
    (hl : ctx.length + 1 < arr.length) : StackHolds (arr.set (ctx.length + 1) (marker N ctx)) (N :: ctx) := by
  refine ⟨by simp [List.getD_eq_getElem?_getD, List.getElem?_set_self hl], h.congr fun i _ hi => ?_⟩
  simp [List.getD_eq_getElem?_getD, List.getElem?_set_ne (show ctx.length + 1 ≠ i by omega)]

/-- An end bit closes the complete frames whose header had the end bit, and one more; `popped` are
the frames it closes. -/
theorem closeFrames_split : ∀ {ctx : List Frame}, Chain ctx → (∀ F rest, ctx = F :: rest → F.done = F.node.count) →
    ∃ popped, (∀ F ∈ popped, F.done = F.node.count) ∧
      ((closeFrames ctx = none ∧ popped = ctx) ∨
        ∃ rest, closeFrames ctx = some rest ∧ ctx = popped ++ rest ∧ rest ≠ [])
  | [], _, _ => ⟨[], by simp, Or.inl ⟨rfl, rfl⟩⟩
  | F :: rest, hch, hfull => by
    have hF := hfull F rest rfl
    cases hE : F.headerEnd
    · -- the header had no end bit: `F` alone is closed, and the outermost header has the end bit
      have hne : rest ≠ [] := by
        rintro rfl
        simp [Chain, hE] at hch
      refine ⟨[F], by simpa using hF, Or.inr ⟨rest, by simp [closeFrames, hE], rfl, hne⟩⟩
    · -- the header had the end bit: the frame below is complete too, and closes with it
      have hrest : ∀ G rest', rest = G :: rest' → G.done = G.node.count := by
        rintro G rest' rfl
        simpa [Chain, hE] using hch.1.symm
      obtain ⟨popped, hc, h⟩ := closeFrames_split (Chain.tail hch) hrest
      refine ⟨F :: popped, ?_, ?_⟩
      · intro G hG
        rcases List.mem_cons.1 hG with rfl | hG
        · exact hF
        · exact hc G hG
      · rw [closeFrames, if_pos hE]
        rcases h with ⟨h1, rfl⟩ | ⟨r, h1, rfl, h3⟩
        · exact Or.inl ⟨h1, rfl⟩
        · exact Or.inr ⟨r, h1, rfl, h3⟩

/-- `popParent` pops what `closeFrames` closes. -/
theorem popParent_close : ∀ (ctx : List Frame) (d : Unser), StackHolds d.stackArray ctx → Chain ctx →
    d.stackIdx = ctx.length → d.parent = none → (∀ F rest, ctx = F :: rest → F.done = F.node.count) →
    ∃ acc, popParent d ctx.length =
      { d with parent := (closeFrames ctx).bind fun rest => rest.head?.map Frame.slot,
               stackIdx := ((closeFrames ctx).map List.length).getD 0, stackAccess := acc }
  | [], d, _, _, hi, hp, _ => ⟨d.stackAccess, by cases d; simp_all [popParent, closeFrames]⟩
  | F :: rest, d, hh, hch, hi, hp, hfull => by
    have hmark : d.stackArray.getD d.stackIdx none = marker F rest := by rw [hi]; exact hh.1
    simp only [List.length_cons, popParent, hmark]
    cases hE : F.headerEnd
    · -- `stackArray[stackIdx]` names the frame below: the loop stops there
      obtain ⟨G, rest', rfl⟩ : ∃ G rest', rest = G :: rest' := by
        cases rest with
        | nil => simp [Chain, hE] at hch
        | cons G rest' => exact ⟨G, rest', rfl⟩
      refine ⟨d.stackAccess ++ [(d.stackIdx, d.stackCapacity)], ?_⟩
      simp [marker, hE, closeFrames, hi]
    · -- a NULL marker: go on with the frame below
      have hrest : ∀ G rest', rest = G :: rest' → G.done = G.node.count := by
        rintro G rest' rfl
        simpa [Chain, hE] using hch.1.symm
      simp only [marker, hE, if_true, Option.isSome_none, Bool.false_eq_true, if_false]
      obtain ⟨acc, h⟩ := popParent_close rest
        { d with parent := none, stackIdx := rest.length,
                 stackAccess := d.stackAccess ++ [(d.stackIdx, d.stackCapacity)] }
        hh.2 (Chain.tail hch) rfl rfl hrest
      refine ⟨acc, ?_⟩
      rw [show d.stackIdx - 1 = rest.length by simp [hi], h]
      simp [closeFrames, hE]

end Frames

/-! ## The phases of `finish` against the encoder -/

section Phases

variable {t : OSObject} {T : List Ident} {D : List UInt8}

theorem FramesOk.mono {n n' : Nat} {ctx : List Frame} {kr : Bool} (h : FramesOk t T n ctx kr) (hn : n ≤ n') :
    FramesOk t T n' ctx kr :=
  { h with slot := fun F hF => ⟨Nat.lt_of_lt_of_le (h.slot F hF).1 hn, (h.slot F hF).2⟩ }

theorem nextObj_mem {n : Nat} {ctx : List Frame} {kr : Bool} (hfr : FramesOk t T n ctx kr) {v : OSObject}
    (hv : nextObj t ctx kr = some v) : v ∈ t.nodes := by
  rcases nextObj_cases hv with ⟨-, rfl⟩ | ⟨F, rest, k, rfl, -, hk, rfl⟩ | ⟨F, rest, rfl, -, hel⟩
  · exact self_mem_nodes v
  · obtain ⟨id, es, e, hN, he, rfl⟩ := key_eq_some hk
    have hF := (hfr.node F List.mem_cons_self).1
    rw [hN] at hF
    exact mem_nodes_trans (key_mem_nodes (List.mem_of_getElem? he)) hF
  · exact mem_nodes_trans (mem_nodes_of_mem_elems (List.mem_of_getElem? hel)) (hfr.node F List.mem_cons_self).1

/-- The record of the next object has been read and `objsArray` extended to `objs'`. -/
theorem SyncWith.extend {δ δ' : Nat → Option Nat} {s s' : OSSerialize} {d : Unser} {ctx : List Frame} {kr : Bool}
    (hS : SyncWith t T D δ s d ctx kr) (hdata : s'.data <+: D) (hgrow : s.tags <+: s'.tags) (htags : s'.tags <+: T)
    {objs' : List DObj} (hobjs : ObjsOk t T s'.tags objs' δ') (hlen : d.objs.length ≤ objs'.length) {cap : Nat}
    (hcap : objs'.length ≤ cap ∧ cap % 64 = 0 ∧ cap ≤ objsCapacityMax) (rs : List Nat) (refs : List (Nat × Nat)) :
    SyncWith t T D δ' s'
      { d with bufferPos := s'.data.length, next := s'.data.length, reads := rs, refs := refs, objs := objs',
               objsCapacity := cap } ctx kr :=
  { hS with
    data := hdata
    tags := htags
    pos := rfl
    next := rfl
    objs := hobjs
    objsCap := hcap
    keyTagged := fun h k hk => hgrow.subset (hS.keyTagged h k hk)
    attached := fun F hF v hv => hgrow.subset (hS.attached F hF v hv)
    frames := hS.frames.mono hlen }

/-- `setAtIndex(objs, objsIdx, o)` for the record of a new object: there is room, since the encoder
tagged no more objects than `objsCapacityMax`. -/
theorem SyncWith.store (hwf : t.WellFormed) {δ δ' : Nat → Option Nat} {s s' : OSSerialize} {d : Unser}
    {ctx : List Frame} {kr : Bool} (hS : SyncWith t T D δ s d ctx kr) (hdata : s'.data <+: D) {v : OSObject}
    (hv : v ∈ t.nodes) (htags : s'.tags = s.tags ++ [v.ident]) (hT' : s'.tags <+: T)
    (hcap : T.length ≤ objsCapacityMax) (hδ : ∀ j < s.tags.length, δ' j = δ j) {c : DObj}
    (hc : c = expected T.idxOf (δ' s.tags.length) v) (rs : List Nat) (refs : List (Nat × Nat)) :
    ∃ d2, storeObject c { d with bufferPos := s'.data.length, next := s'.data.length, reads := rs, refs := refs } =
      .cont d2 ∧ SyncWith t T D δ' s' d2 ctx kr ∧ d2.result = d.result := by
  have hlen : d.objs.length = s.tags.length := hS.objs.1
  have hroom : s.tags.length + 1 ≤ T.length := by
    have := hT'.length_le
    simpa [htags] using this
  have hobjs : ObjsOk t T s'.tags (d.objs ++ [c]) δ' := htags ▸ ObjsOk.append hwf hS.objs hv hδ hc
  have hgrow : s.tags <+: s'.tags := htags ▸ List.prefix_append _ _
  obtain ⟨hle, hmod, hmax⟩ := hS.objsCap
  unfold storeObject
  dsimp only
  by_cases hfull : d.objs.length ≥ d.objsCapacity
  · -- `objsArray` is full: it grows by 64 slots, still within `objsCapacityMax`
    have hlt : d.objsCapacity < objsCapacityMax := by omega
    rw [if_pos hfull, if_neg (by omega)]
    refine ⟨_, rfl, ?_, rfl⟩
    exact hS.extend hdata hgrow hT' hobjs (by simp)
      ⟨by simp; omega, by omega, by unfold objsCapacityMax at hlt hmax ⊢; omega⟩ rs refs
  · rw [if_neg hfull]
    exact ⟨_, rfl, hS.extend hdata hgrow hT' hobjs (by simp) ⟨by simp; omega, hmod, hmax⟩ rs refs, rfl⟩

theorem setEntry_of_not_mem {es : List (List UInt8 × Nat)} {k : List UInt8} (h : k ∉ es.map Prod.fst) (v : Nat) :
    setEntry es k v = es ++ [(k, v)] := by
  simp [setEntry, h]

/-- The root becomes the result. -/
theorem SyncWith.root_attached {δ : Nat → Option Nat} {s : OSSerialize} {d : Unser} {kr : Bool}
    (hS : SyncWith t T D δ s d [] kr) (hr : d.result = none) :
    ∃ d', attach d (T.idxOf t.ident) = .cont d' ∧
      SyncWith t T D (fillDone δ [] kr) s d' (fill [] kr).1 (fill [] kr).2 ∧ d'.result = some (T.idxOf t.ident) := by
  -- no key waits outside every collection
  have hkr : kr = false := by
    cases kr
    · rfl
    · obtain ⟨F, rest, h, -⟩ := hS.frames.keyed rfl
      cases h
  subst hkr
  refine ⟨_, attach_root hS.dict hS.array hS.set hr, ?_, rfl⟩
  exact { hS with result := fun h => absurd rfl h }

/-- A dictionary key waits in `sym` for its value. -/
theorem SyncWith.key_attached {δ : Nat → Option Nat} {s : OSSerialize} {d : Unser} {F : Frame}
    {rest : List Frame} {kr : Bool} {k : List UInt8} (hS : SyncWith t T D δ s d (F :: rest) kr)
    (hkey : (F.node.isDictionary && !kr) = true) (hk : F.key = some k) (hvt : Ident.sym k ∈ s.tags) :
    ∃ d', attach d (T.idxOf (symbol k).ident) = .cont d' ∧
      SyncWith t T D (fillDone δ (F :: rest) kr) s d' (fill (F :: rest) kr).1 (fill (F :: rest) kr).2 ∧
        d'.result = some (T.idxOf t.ident) := by
  have hdict : F.node.isDictionary = true := by simp_all
  have hkr : kr = false := by simp_all
  subst hkr
  have hsym : d.sym = none := by simpa using hS.sym
  have hd : d.dict = some F.slot := by simpa [kindSlot, hdict] using hS.dict
  refine ⟨_, attach_key hd hsym, ?_, hS.result (List.cons_ne_nil _ _)⟩
  rw [show fill (F :: rest) false = (F :: rest, true) by simp [fill, hdict],
    show fillDone δ (F :: rest) false = δ by simp [fillDone, hdict]]
  obtain ⟨id, es, e, hnode, he, rfl⟩ := key_eq_some hk
  have hlt : F.done < F.node.count := by
    rw [hnode]
    exact (List.getElem?_eq_some_iff.1 he).1
  exact { hS with
    sym := by simp [hk, ident]
    keyTagged := fun _ k' hk' => by
      simp only [List.head?_cons, Option.bind_some, hk, Option.some.injEq] at hk'
      exact hk' ▸ hvt
    frames := { hS.frames with keyed := fun _ => ⟨F, rest, rfl, hdict, hlt⟩ } }

/-- The context after an element joined the innermost frame. -/
theorem SyncWith.setDone {δ δ' : Nat → Option Nat} {s : OSSerialize} {d : Unser} {F : Frame} {rest : List Frame}
    {kr : Bool} (hS : SyncWith t T D δ s d (F :: rest) kr) {v : OSObject} (hel : F.node.elems[F.done]? = some v)
    (hvt : v.ident ∈ s.tags) {objs' : List DObj} (hlen : objs'.length = d.objs.length)
    (hobjs : ObjsOk t T s.tags objs' δ') :
    SyncWith t T D δ' s { d with objs := objs', sym := none } ({ F with done := F.done + 1 } :: rest) false := by
  have hlt : F.done < F.node.count := by
    rw [← length_elems]
    exact (List.getElem?_eq_some_iff.1 hel).1
  have htake : F.node.elems.take (F.done + 1) = F.node.elems.take F.done ++ [v] := by
    rw [List.take_add_one, hel]
    rfl
  refine { hS with
    objs := hobjs
    objsCap := by rw [show ({ d with objs := objs', sym := none } : Unser).objs = objs' from rfl, hlen]; exact hS.objsCap
    stackCap := ?_
    sym := rfl
    keyTagged := fun h => absurd h Bool.false_ne_true
    attached := ?_
    result := fun _ => hS.result (List.cons_ne_nil _ _)
    frames := ?_ }
  · rcases hS.stackCap with ⟨h, -⟩ | h
    · exact absurd h (List.cons_ne_nil _ _)
    · exact Or.inr h
  · intro G hG w hw
    rcases List.mem_cons.1 hG with rfl | hG
    · rw [htake, List.mem_append, List.mem_singleton] at hw
      rcases hw with hw | rfl
      · exact hS.attached F List.mem_cons_self w hw
      · exact hvt
    · exact hS.attached G (List.mem_cons_of_mem _ hG) w hw
  · refine { hS.frames with
      slot := fun G hG => ?_
      node := fun G hG => ?_
      chain := (chain_setDone F rest _).2 hS.frames.chain
      keyed := fun h => absurd h Bool.false_ne_true }
    · rw [show ({ d with objs := objs', sym := none } : Unser).objs = objs' from rfl, hlen]
      rcases List.mem_cons.1 hG with rfl | hG
      · exact hS.frames.slot F List.mem_cons_self
      · exact hS.frames.slot G (List.mem_cons_of_mem _ hG)
    · rcases List.mem_cons.1 hG with rfl | hG
      · obtain ⟨h1, h2, -⟩ := hS.frames.node F List.mem_cons_self
        exact ⟨h1, h2, hlt⟩
      · exact hS.frames.node G (List.mem_cons_of_mem _ hG)

theorem update_objs_of_sym_none {d : Unser} (h : d.sym = none) (objs' : List DObj) :
    ({ d with objs := objs' } : Unser) = { d with objs := objs', sym := none } := by
  cases d
  cases h
  rfl

/-- The element `done` of the innermost frame joins its collection: `setObject` on a dictionary
with the key read before, `setObject` on an array, and on a set, which does not hold it yet. -/
theorem SyncWith.elem_attached (hwf : t.WellFormed) (hT : T.Nodup) {δ : Nat → Option Nat} {s : OSSerialize}
    {d : Unser} {F : Frame} {rest : List Frame} {kr : Bool} (hS : SyncWith t T D δ s d (F :: rest) kr)
    (hδF : δ F.slot = some F.done) (hkey : (F.node.isDictionary && !kr) = false) {v : OSObject}
    (hel : F.node.elems[F.done]? = some v) (hvt : v.ident ∈ s.tags) :
    ∃ d', attach d (T.idxOf v.ident) = .cont d' ∧
      SyncWith t T D (fillDone δ (F :: rest) kr) s d' (fill (F :: rest) kr).1 (fill (F :: rest) kr).2 ∧
        d'.result = some (T.idxOf t.ident) := by
  rw [show fill (F :: rest) kr = ({ F with done := F.done + 1 } :: rest, false) by simp [fill, hkey],
    show fillDone δ (F :: rest) kr = Function.update δ F.slot (some (F.done + 1)) by simp [fillDone, hkey]]
  obtain ⟨hFt, hcount, -⟩ := hS.frames.node F List.mem_cons_self
  obtain ⟨hFn, hFT⟩ := hS.frames.slot F List.mem_cons_self
  have hFtags : s.tags[F.slot]? = some F.node.ident :=
    getElem?_of_lt_of_extend hS.tags (hS.objs.1 ▸ hFn) hFT
  have hvmem : v ∈ F.node.elems := List.mem_of_getElem? hel
  have hvt' : v ∈ t.nodes := mem_nodes_trans (mem_nodes_of_mem_elems hvmem) hFt
  -- an element is not its own collection: `o != dict` in the source
  have ho : T.idxOf v.ident ≠ F.slot := by
    rw [← idxOf_eq_of_getElem? hT hFT]
    intro h
    exact ne_of_mem_elems hvmem (hwf.1 _ hvt' _ hFt (idxOf_injective (hS.tags.subset hvt) h))
  have hobj : d.objs[F.slot]? = some (shapeUpTo T.idxOf F.done F.node) := by
    rw [hS.objs.get hFt hFtags, hδF]
    rfl
  have hmod : ∀ g : DObj → DObj, g (shapeUpTo T.idxOf F.done F.node) = shapeUpTo T.idxOf (F.done + 1) F.node →
      ObjsOk t T s.tags (modifyObj d.objs F.slot g) (Function.update δ F.slot (some (F.done + 1))) :=
    fun g hg => hS.objs.modify hwf hFt hFtags (by rw [hδF, Function.update_self]; exact hg)
      fun j hj => Function.update_of_ne hj _ _
  suffices h : ∃ objs', attach d (T.idxOf v.ident) = .cont { d with objs := objs', sym := none } ∧
      objs'.length = d.objs.length ∧ ObjsOk t T s.tags objs' (Function.update δ F.slot (some (F.done + 1))) by
    obtain ⟨objs', hat, hl, hob⟩ := h
    exact ⟨_, hat, hS.setDone hel hvt hl hob, hS.result (List.cons_ne_nil _ _)⟩
  -- by the kind of the collection
  have hvalid := hwf.2 F.node hFt
  have hkind := hS.dict
  have harr := hS.array
  have hset := hS.set
  simp only [kindSlot] at hkind harr hset
  cases hN : F.node with
  | dictionary id es =>
    rw [hN] at hel hmod hvalid hFt hkind
    simp only [isDictionary, if_true] at hkind
    have hkr : kr = true := by simpa [hN, isDictionary] using hkey
    subst hkr
    obtain ⟨e, he, rfl⟩ := Option.map_eq_some_iff.1 (List.getElem?_map ▸ hel)
    have hkeyF : F.key = some e.1 := by simp [Frame.key, hN, he]
    have hsym : d.sym = some (T.idxOf (.sym e.1)) := by simpa [hkeyF] using hS.sym
    -- the key was read before: `objsArray` holds its symbol
    have hkobj : keyOf d.objs (T.idxOf (.sym e.1)) = some e.1 := by
      have hk := hS.objs.get (mem_nodes_trans (key_mem_nodes (List.mem_of_getElem? he)) hFt)
        (getElem?_idxOf_of_mem hT hS.tags (hS.keyTagged rfl e.1 (by simp [hkeyF])))
      simp only [expected_eq_shapeUpTo, ident, shapeUpTo] at hk
      simp [keyOf, hk]
    obtain ⟨g, hat, hg⟩ := attach_value hkind hsym ho hkobj
    refine ⟨_, hat, List.length_modify .., hmod g ?_⟩
    have hnot : e.1 ∉ ((es.take F.done).map fun e => (e.1, T.idxOf e.2.ident)).map Prod.fst := by
      rw [List.map_map]
      intro hmem
      obtain ⟨u, hu, hue⟩ := List.mem_map.1 hmem
      exact map_ne_of_mem_take hvalid he hu hue
    simp only [shapeUpTo]
    rw [hg, setEntry_of_not_mem hnot, List.take_add_one, he]
    simp
  | array id es =>
    rw [hN] at hel hmod hkind harr
    simp only [isDictionary, isArray, Bool.false_eq_true, if_false, if_true] at hkind harr
    have hsym : d.sym = none := by cases kr <;> simpa [Frame.key, hN] using hS.sym
    obtain ⟨g, hat, hg⟩ := attach_array hkind harr
    refine ⟨_, hat.trans (congrArg Step.cont (update_objs_of_sym_none hsym _)), List.length_modify .., hmod g ?_⟩
    simp only [shapeUpTo]
    rw [hg, List.take_add_one, show es[F.done]? = some v from hel]
    simp
  | set id ms =>
    rw [hN] at hel hmod hvalid hFt hobj hkind harr hset
    simp only [isDictionary, isArray, isSet, Bool.false_eq_true, if_false, if_true] at hkind harr hset
    have hsym : d.sym = none := by cases kr <;> simpa [Frame.key, hN] using hS.sym
    -- no member read so far is the element: `containsObject` fails
    have hnew : ((ms.take F.done).map fun v => T.idxOf v.ident).any
        (fun m => objIdent d.objs m == objIdent d.objs (T.idxOf v.ident)) = false := by
      rw [List.any_eq_false]
      intro m hm heq
      obtain ⟨u, hu, rfl⟩ := List.mem_map.1 hm
      have hut : u.ident ∈ s.tags := hS.attached F List.mem_cons_self u (by rw [hN]; exact hu)
      have hu' : u ∈ t.nodes :=
        mem_nodes_trans (mem_nodes_of_mem_elems (List.mem_of_mem_take hu)) hFt
      exact map_ne_of_mem_take hvalid hel hu
        (objIdent_injective hS.objs hT hS.tags hu' hvt' hut hvt (by simpa using heq))
    have hat := attach_set hkind harr hset hobj hnew
    refine ⟨_, hat.trans (congrArg Step.cont (update_objs_of_sym_none hsym _)), List.length_modify .., hmod _ ?_⟩
    simp only [shapeUpTo]
    rw [List.take_add_one, show ms[F.done]? = some v from hel]
    simp
  | number | boolean | symbol | string | data => simp [hN, count] at hcount

/-- **`attach`**: the next object joins the collection being filled, or becomes the result. -/
theorem SyncWith.attach (hwf : t.WellFormed) (hT : T.Nodup) {δ : Nat → Option Nat} {s : OSSerialize} {d : Unser}
    {ctx : List Frame} {kr : Bool} (hS : SyncWith t T D δ s d ctx kr)
    (hδ : ∀ F rest, ctx = F :: rest → δ F.slot = some F.done) {v : OSObject} (hv : nextObj t ctx kr = some v)
    (hvt : v.ident ∈ s.tags) (hroot : ctx = [] → d.result = none) :
    ∃ d', attach d (T.idxOf v.ident) = .cont d' ∧
      SyncWith t T D (fillDone δ ctx kr) s d' (fill ctx kr).1 (fill ctx kr).2 ∧ d'.result = some (T.idxOf t.ident) := by
  rcases nextObj_cases hv with ⟨rfl, rfl⟩ | ⟨F, rest, k, rfl, hkey, hk, rfl⟩ | ⟨F, rest, rfl, hkey, hel⟩
  · exact hS.root_attached (hroot rfl)
  · exact hS.key_attached hkey hk hvt
  · exact hS.elem_attached hwf hT (hδ F rest rfl) hkey hel hvt

/-- The state after the push of a new innermost frame `N`. -/
theorem SyncWith.pushed {s : OSSerialize} {d : Unser} {ctx : List Frame} {N : Frame}
    (hS : SyncWith t T D (doneOf (N :: ctx)) s d ctx false) (hres : d.result = some (T.idxOf t.ident))
    (hslot : N.slot < d.objs.length ∧ T[N.slot]? = some N.node.ident)
    (hnode : N.node ∈ t.nodes ∧ N.node.count ≠ 0) (hdone : N.done = 0)
    (hfresh : N.slot ∉ ctx.map Frame.slot) (hchain : Chain (N :: ctx)) (hdepth : DepthOk t.depth (N :: ctx))
    (hlen : ctx.length + 1 < stackCapacityMax) (arr : List (Option Nat)) (cap : Nat) (harr : arr.length = cap)
    (hcap : cap = stackCapacityMax) (hh : StackHolds arr (N :: ctx)) (acc : List (Nat × Nat)) :
    Sync t T D s
      { d with stackIdx := d.stackIdx + 1, stackArray := arr, stackCapacity := cap, stackAccess := acc,
               parent := some N.slot,
               dict := if shapeUpTo T.idxOf 0 N.node matches .dictionary _ then some N.slot else none,
               array := if shapeUpTo T.idxOf 0 N.node matches .array _ then some N.slot else none,
               set := if shapeUpTo T.idxOf 0 N.node matches .set _ then some N.slot else none }
      (N :: ctx) false := by
  have hkinds : ∀ u : OSObject,
      ((if shapeUpTo T.idxOf 0 u matches .dictionary _ then some N.slot else none) =
          if u.isDictionary then some N.slot else none) ∧
        ((if shapeUpTo T.idxOf 0 u matches .array _ then some N.slot else none) =
          if u.isArray then some N.slot else none) ∧
        ((if shapeUpTo T.idxOf 0 u matches .set _ then some N.slot else none) =
          if u.isSet then some N.slot else none) := by
    intro u
    cases u <;> simp [shapeUpTo, isDictionary, isArray, isSet]
  refine { hS with
    stackIdx := by simp [hS.stackIdx]
    stackLen := harr
    stackCap := Or.inr ⟨by simpa using hlen, hcap⟩
    markers := hh
    parent := rfl
    dict := (hkinds N.node).1
    array := (hkinds N.node).2.1
    set := (hkinds N.node).2.2
    sym := by simpa using hS.sym
    keyTagged := fun h => absurd h Bool.false_ne_true
    attached := ?_
    result := fun _ => hres
    frames := ?_ }
  · intro F hF w hw
    rcases List.mem_cons.1 hF with rfl | hF
    · simp [hdone] at hw
    · exact hS.attached F hF w hw
  · refine
      { nodup := List.nodup_cons.2 ⟨hfresh, hS.frames.nodup⟩
        slot := ?_
        node := ?_
        chain := hchain
        depth := hdepth
        keyed := fun h => absurd h Bool.false_ne_true }
    · intro F hF
      rcases List.mem_cons.1 hF with rfl | hF
      · exact hslot
      · exact hS.frames.slot F hF
    · intro F hF
      rcases List.mem_cons.1 hF with rfl | hF
      · exact ⟨hnode.1, hnode.2, by omega⟩
      · exact hS.frames.node F hF

/-- **The push of `descend`**: the new collection becomes the innermost frame, its slot holding the
marker of its header. -/
theorem SyncWith.descend_cont {s : OSSerialize} {d : Unser} {ctx : List Frame} {N : Frame}
    (hS : SyncWith t T D (doneOf (N :: ctx)) s d ctx false) (hres : d.result = some (T.idxOf t.ident))
    (hslot : N.slot < d.objs.length ∧ T[N.slot]? = some N.node.ident)
    (hnode : N.node ∈ t.nodes ∧ N.node.count ≠ 0) (hdone : N.done = 0)
    (hfresh : N.slot ∉ ctx.map Frame.slot) (hchain : Chain (N :: ctx)) (hdepth : DepthOk t.depth (N :: ctx))
    (hmax : t.depth < stackCapacityMax) :
    ∃ d', descend N.slot (shapeUpTo T.idxOf 0 N.node)
        (if N.headerEnd = true then { d with parent := none } else d) = .cont d' ∧
      Sync t T D s d' (N :: ctx) false := by
  -- the nesting bound keeps `stackIdx + 1` below `stackCapacityMax`
  have hlen : ctx.length + 1 < stackCapacityMax := by
    have h1 := hdepth.1
    have h2 := depth_pos hnode.2
    omega
  have hpar : (if N.headerEnd = true then { d with parent := none } else d) = { d with parent := marker N ctx } := by
    unfold marker
    cases N.headerEnd
    · rw [← hS.parent]
      rfl
    · rfl
  rw [hpar]
  unfold descend
  dsimp only
  rcases hS.stackCap with ⟨rfl, hcap0⟩ | ⟨hlt, hcap⟩
  · -- the first push allocates the stack
    rw [if_neg (by simp [hcap0, stackCapacityMax]), if_pos (by omega)]
    refine ⟨_, rfl, ?_⟩
    refine hS.pushed hres hslot hnode hdone hfresh hchain hdepth hlen _ _ (by simp [hS.stackLen, hcap0])
      (by simp [hcap0, stackCapacityMax]) ?_ _
    rw [hS.stackIdx]
    exact stackHolds_set trivial (by simp [hS.stackLen, hcap0])
  · rw [if_neg (by simp [hS.stackIdx, hcap]; omega), if_neg (by simp [hS.stackIdx, hcap]; omega)]
    refine ⟨_, rfl, ?_⟩
    refine hS.pushed hres hslot hnode hdone hfresh hchain hdepth hlen _ _ (by simp [hS.stackLen]) hcap ?_ _
    rw [hS.stackIdx]
    exact stackHolds_set hS.markers (by rw [hS.stackLen, hcap]; exact hlen)

/-- Closing complete frames leaves every decoded form as it was. -/
theorem objsOk_close (hwf : t.WellFormed) {tags : List Ident} {objs : List DObj} (hp : tags <+: T)
    {popped rest : List Frame} (hnd : ((popped ++ rest).map Frame.slot).Nodup)
    (hslot : ∀ F ∈ popped, T[F.slot]? = some F.node.ident) (hnode : ∀ F ∈ popped, F.node ∈ t.nodes)
    (hfull : ∀ F ∈ popped, F.done = F.node.count) (h : ObjsOk t T tags objs (doneOf (popped ++ rest))) :
    ObjsOk t T tags objs (doneOf rest) := by
  refine h.congr fun u hu j hj => ?_
  by_cases hjp : ∃ F ∈ popped, F.slot = j
  · -- a closed frame: its collection has all its elements
    obtain ⟨F, hF, rfl⟩ := hjp
    have hu' : u = F.node :=
      hwf.1 _ hu _ (hnode F hF) (Option.some.inj ((getElem?_of_extend hp hj).symm.trans (hslot F hF)))
    subst hu'
    rw [List.map_append, List.nodup_append] at hnd
    have hnone : doneOf rest F.slot = none :=
      doneOf_of_forall_ne fun G hG h => hnd.2.2 _ (List.mem_map_of_mem hF) _ (List.mem_map_of_mem hG) h.symm
    rw [doneOf_of_mem (by rw [List.map_append]; exact List.nodup_append.2 hnd) (List.mem_append_left _ hF),
      hnone, hfull F hF]
    rfl
  · push Not at hjp
    rw [doneOf_append_of_forall_ne hjp]

/-- **The unwinding on an end bit**, once the innermost frame is complete: the frames `closeFrames`
closes are popped, and the decoder goes on in the frame below or leaves the loop. -/
theorem SyncWith.unwind_close (hwf : t.WellFormed) {s : OSSerialize} {d : Unser} {ctx : List Frame}
    (hS : Sync t T D s d ctx false) (hres : d.result = some (T.idxOf t.ident))
    (hfull : ∀ F rest, ctx = F :: rest → F.done = F.node.count) :
    AfterClose t T D s ctx (unwind { d with parent := none }).toSum := by
  obtain ⟨acc, hpop⟩ := popParent_close ctx { d with parent := none } hS.markers hS.frames.chain hS.stackIdx rfl hfull
  obtain ⟨popped, hcomplete, hcase⟩ := closeFrames_split hS.frames.chain hfull
  have hslot : ∀ F ∈ popped, T[F.slot]? = some F.node.ident ∧ F.node ∈ t.nodes := by
    intro F hF
    have hF' : F ∈ ctx := by
      rcases hcase with ⟨-, rfl⟩ | ⟨rest, -, rfl, -⟩
      · exact hF
      · exact List.mem_append_left _ hF
    exact ⟨(hS.frames.slot F hF').2, (hS.frames.node F hF').1⟩
  rw [← hS.stackIdx] at hpop
  unfold unwind
  dsimp only
  rw [hpop]
  rcases hcase with ⟨hnone, rfl⟩ | ⟨rest, hsome, rfl, hne⟩
  · -- every frame closed: the loop ends with `ok`
    rw [hnone]
    refine ⟨hnone, rfl, hS.tags, ?_, hres⟩
    have h : ObjsOk t T s.tags d.objs (doneOf []) := objsOk_close hwf hS.tags (by simpa using hS.frames.nodup)
      (fun F hF => (hslot F hF).1) (fun F hF => (hslot F hF).2) hcomplete (by simpa using hS.objs)
    exact h.congr fun _ _ _ _ => rfl
  · -- the frame below becomes the collection being filled
    obtain ⟨G, rest', rfl⟩ : ∃ G rest', rest = G :: rest' := List.exists_cons_of_ne_nil hne
    rw [hsome]
    have hG : G ∈ popped ++ G :: rest' := List.mem_append_right _ List.mem_cons_self
    obtain ⟨hGt, hGc, -⟩ := hS.frames.node G hG
    have hGtags : s.tags[G.slot]? = some G.node.ident :=
      getElem?_of_lt_of_extend hS.tags (hS.objs.1 ▸ (hS.frames.slot G hG).1) (hS.frames.slot G hG).2
    have hobjs := objsOk_close hwf hS.tags hS.frames.nodup (fun F hF => (hslot F hF).1) (fun F hF => (hslot F hF).2)
      hcomplete hS.objs
    have hndR : ((G :: rest').map Frame.slot).Nodup := by
      have := hS.frames.nodup
      rw [List.map_append] at this
      exact (List.nodup_append.1 this).2.1
    have hobj : d.objs[G.slot]? = some (shapeUpTo T.idxOf G.done G.node) := by
      rw [hobjs.get hGt hGtags, doneOf_of_mem hndR List.mem_cons_self]
      rfl
    have hrest : Sync t T D s { d with parent := some G.slot, stackIdx := (G :: rest').length, stackAccess := acc,
                                       set := kindSlot isSet (G :: rest'), dict := kindSlot isDictionary (G :: rest'),
                                       array := kindSlot isArray (G :: rest') } (G :: rest') false :=
      { hS with
        objs := hobjs
        stackIdx := rfl
        stackCap := by
          rcases hS.stackCap with ⟨h, -⟩ | ⟨h1, h2⟩
          · simp at h
          · exact Or.inr ⟨by simp at h1 ⊢; omega, h2⟩
        markers := StackHolds.of_append hS.markers
        parent := rfl
        dict := rfl
        array := rfl
        set := rfl
        sym := by simpa using hS.sym
        keyTagged := fun h => absurd h Bool.false_ne_true
        attached := fun F hF => hS.attached F (List.mem_append_right _ hF)
        result := fun _ => hres
        frames :=
          { nodup := hndR
            slot := fun F hF => hS.frames.slot F (List.mem_append_right _ hF)
            node := fun F hF => hS.frames.node F (List.mem_append_right _ hF)
            chain := Chain.of_append hS.frames.chain
            depth := DepthOk.of_append hS.frames.depth
            keyed := fun h => absurd h Bool.false_ne_true } }
    cases hN : G.node with
    | dictionary id es =>
      rw [hN] at hobj
      simp only [Option.bind_some, List.head?_cons, Option.map_some, hobj, shapeUpTo, Step.toSum, AfterClose]
      exact ⟨G :: rest', hsome, by simpa [kindSlot, hN, isDictionary, isArray, isSet] using hrest⟩
    | array id es =>
      rw [hN] at hobj
      simp only [Option.bind_some, List.head?_cons, Option.map_some, hobj, shapeUpTo, Step.toSum, AfterClose]
      exact ⟨G :: rest', hsome, by simpa [kindSlot, hN, isDictionary, isArray, isSet] using hrest⟩
    | set id ms =>
      rw [hN] at hobj
      simp only [Option.bind_some, List.head?_cons, Option.map_some, hobj, shapeUpTo, Step.toSum, AfterClose]
      exact ⟨G :: rest', hsome, by simpa [kindSlot, hN, isDictionary, isArray, isSet] using hrest⟩
    | number | boolean | symbol | string | data => simp [hN, count] at hGc

end Phases

end Libkern.Binary
