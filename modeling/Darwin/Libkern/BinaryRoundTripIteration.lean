import Darwin.Libkern.BinaryRoundTripSteps

/-!
# One record, one iteration

The encoder writes one record per object it meets: `addBinaryObject` for a new object (a scalar
with its payload, or a collection's header), `addBackReference` for one already in `tags`. This
module states what each record is as bytes, and what the decoder's iteration on it does under
`Sync`: the key read and the `switch` (`step_record`, one lemma per kind), then the rest of
`finish` (`finish_leaf`, `finish_ref`, `finish_header`).
-/

namespace Libkern.Binary

open OSObject Bytes

/-! ## The records the encoder writes -/

theorem align4_add_four (n : Nat) : align4 (n + 4) = 4 + wordLen n * 4 := by
  simp only [align4, wordLen, Nat.shiftRight_eq_div_pow, Nat.reducePow]
  omega

/-- A payload followed by zeros up to a multiple of four bytes. -/
def padded (bits : List UInt8) : List UInt8 := bits ++ List.replicate (wordLen bits.length * 4 - bits.length) 0

theorem le_wordLen (n : Nat) : n ≤ wordLen n * 4 := by
  simp only [wordLen, Nat.shiftRight_eq_div_pow, Nat.reducePow]
  omega

@[simp] theorem length_padded (bits : List UInt8) : (padded bits).length = wordLen bits.length * 4 := by
  have := le_wordLen bits.length
  simp [padded]
  omega

/-- A record of `addBinaryObject`: the key with the pending end bit, the payload, zeros up to a
multiple of four bytes. -/
theorem addBinaryObject_eq {s s' : OSSerialize} {o : Ident} {tag len : Nat} {bits : List UInt8}
    (ht : tag < 2 ^ 7) (hl : len < 2 ^ 24) (h : addBinaryObject s o (2 ^ 24 * tag ||| len) bits = (s', true)) :
    s'.data = s.data ++ le 4 (2 ^ 31 * s.endCollection.toNat + 2 ^ 24 * tag + len) ++ padded bits ∧
      s'.tags = s.tags ++ [o] ∧ s'.endCollection = false := by
  have hpad : align4 (bits.length + 4) - 4 - bits.length = wordLen bits.length * 4 - bits.length := by
    rw [align4_add_four]
    omega
  unfold addBinaryObject at h
  dsimp only at h
  split at h
  · obtain ⟨rfl, -⟩ := Prod.mk.inj h
    refine ⟨?_, rfl, rfl⟩
    rw [record_key s.endCollection ht hl, hpad, List.append_assoc]
    rfl
  · simp at h

/-- A back reference: a key alone. -/
theorem addBackReference_eq {s s' : OSSerialize} {i : Nat} (hi : i < 2 ^ 24) (h : addBackReference s i = (s', true)) :
    s'.data = s.data ++ le 4 (2 ^ 31 * s.endCollection.toNat + 2 ^ 24 * 12 + i) ∧ s'.tags = s.tags ∧
      s'.endCollection = false := by
  have hkey := record_key s.endCollection (t := 12) (by decide) hi
  rw [show 2 ^ 24 * 12 = kOSSerializeObject from rfl] at hkey
  unfold addBackReference addBinary at h
  simp only [length_le, show align4 4 = 4 from rfl, Nat.sub_self, List.replicate_zero, List.append_nil, hkey] at h
  split at h
  · obtain ⟨rfl, -⟩ := Prod.mk.inj h
    exact ⟨rfl, rfl, rfl⟩
  · simp at h

/-! ## The key and the `switch` -/

/-- `d'` is `d` moved to `p`: the position, and the logs of reads and back references. -/
def Moved (d d' : Unser) (p : Nat) : Prop :=
  d' = { d with bufferPos := p, next := p, reads := d'.reads, refs := d'.refs }

theorem Moved.congr_pos {d d' : Unser} {p q : Nat} (h : Moved d d' p) (hpq : p = q) : Moved d d' q := hpq ▸ h

theorem moved_of_eq {d d' : Unser} {p : Nat} (hb : d'.bufferPos = p) (hn : d'.next = p)
    (h : d' = { d with bufferPos := d'.bufferPos, next := d'.next, reads := d'.reads, refs := d'.refs }) :
    Moved d d' p :=
  h.trans (by rw [hb, hn])

/-- The decoder reads the key at `next` and runs the `switch` on it. -/
theorem step_record {pre r : List UInt8} {d : Unser} {key : Nat} (hk : key < 256 ^ 4)
    (hpos : d.bufferPos = pre.length) (hnext : d.next = pre.length) {d1 : Unser} {fo : DObj ⊕ Nat}
    {nc hl : Bool}
    (hf : fetch (toMem (pre ++ le 4 key ++ r)) (pre ++ le 4 key ++ r).length false
      { d with bufferPos := pre.length + 4, next := pre.length + 4, reads := d.reads ++ span pre.length 4 } key =
        (d1, ⟨some fo, nc, hl⟩)) :
    step (toMem (pre ++ le 4 key ++ r)) (pre ++ le 4 key ++ r).length false d =
      finish (pre ++ le 4 key ++ r).length (key &&& kOSSerializeEndCollecton != 0) d1 fo nc hl := by
  unfold step
  rw [if_neg (by simp; omega)]
  dsimp only
  rw [hnext, rd_le_at, Nat.mod_eq_of_lt hk, hpos, hf]

/-- The key read, the `switch` on the record's payload leaves the state moved to `p`. -/
theorem step_at (pre payload rest : List UInt8) {d : Unser} (hpos : d.bufferPos = pre.length)
    (hnext : d.next = pre.length) {key : Nat} (hk : key < 256 ^ 4) {fo : DObj ⊕ Nat} {nc hl : Bool} {p : Nat}
    (hf : ∀ d0 : Unser, d0.bufferPos = (pre ++ le 4 key).length → d0.next = (pre ++ le 4 key).length →
      d0 = { d with bufferPos := d0.bufferPos, next := d0.next, reads := d0.reads } →
      ∃ d1, fetch (toMem (pre ++ le 4 key ++ payload ++ rest)) (pre ++ le 4 key ++ payload ++ rest).length false
        d0 key = (d1, ⟨some fo, nc, hl⟩) ∧ Moved d0 d1 p) :
    ∃ d1, step (toMem (pre ++ le 4 key ++ payload ++ rest)) (pre ++ le 4 key ++ payload ++ rest).length false d =
      finish (pre ++ le 4 key ++ payload ++ rest).length (key &&& kOSSerializeEndCollecton != 0) d1 fo nc hl ∧
        Moved d d1 p := by
  obtain ⟨d1, hf1, hm⟩ :=
    hf { d with bufferPos := pre.length + 4, next := pre.length + 4, reads := d.reads ++ span pre.length 4 }
      (by simp) (by simp) rfl
  rw [show pre ++ le 4 key ++ payload ++ rest = pre ++ le 4 key ++ (payload ++ rest) by simp] at hf1 ⊢
  exact ⟨d1, step_record hk hpos hnext hf1, hm⟩

/-! ## The `switch` on each record the encoder writes -/

section Fetch

variable (pre rest : List UInt8) (e : Bool) {d0 : Unser}

theorem moved_self (h1 : d0.bufferPos = pre.length) (h2 : d0.next = pre.length) : Moved d0 d0 pre.length :=
  moved_of_eq h1 h2 rfl

theorem fetch_number_at {size value : Nat} (hsize : size = 8 ∨ size = 16 ∨ size = 32 ∨ size = 64)
    (hv : value < 2 ^ size) (hp : d0.bufferPos = pre.length) (hn : d0.next = pre.length) :
    ∃ d1, fetch (toMem (pre ++ padded (le 8 value) ++ rest)) (pre ++ padded (le 8 value) ++ rest).length false d0
        (2 ^ 31 * e.toNat + 2 ^ 24 * 4 + size) = (d1, ⟨some (.inl (.number size value)), false, false⟩) ∧
      Moved d0 d1 (pre.length + (padded (le 8 value)).length) := by
  have hs : size < 2 ^ 24 := by omega
  have hpad : padded (le 8 value) = le 8 value := by simp [padded, show wordLen 8 * 4 = 8 from rfl]
  rw [hpad, fetch_number _ _ _ _ _ hs]
  obtain ⟨rs, h⟩ := fetchNumber_record pre rest (b := (pre ++ le 8 value ++ rest).length) hn hp (by simp) hsize hv
  exact ⟨_, h, moved_of_eq (by simp [hp]) (by simp [hn]) rfl⟩

theorem fetch_symbol_at {str : List UInt8} (hne : str ≠ []) (h0 : (0 : UInt8) ∉ str)
    (hk : str.length < kMaxStringLength) (hp : d0.bufferPos = pre.length) (hn : d0.next = pre.length) :
    ∃ d1, fetch (toMem (pre ++ padded (str ++ [0]) ++ rest)) (pre ++ padded (str ++ [0]) ++ rest).length false d0
        (2 ^ 31 * e.toNat + 2 ^ 24 * 8 + (str.length + 1)) = (d1, ⟨some (.inl (.symbol str)), false, false⟩) ∧
      Moved d0 d1 (pre.length + (padded (str ++ [0])).length) := by
  have hl : str.length + 1 < 2 ^ 24 := by unfold kMaxStringLength at hk; omega
  have hpad : padded (str ++ [0]) = str ++ 0 :: List.replicate (wordLen (str.length + 1) * 4 - (str.length + 1)) 0 := by
    simp [padded]
  rw [fetch_symbol _ _ _ _ _ hl, hpad]
  obtain ⟨rs, h⟩ := fetchSymbol_record pre _ rest
    (b := (pre ++ (str ++ 0 :: List.replicate (wordLen (str.length + 1) * 4 - (str.length + 1)) 0) ++ rest).length)
    hn hp (by have := le_wordLen (str.length + 1); simp; omega) hne h0 hk
  have hw := le_wordLen (str.length + 1)
  exact ⟨_, h, moved_of_eq (by simp [hp]; omega) (by simp [hn]; omega) rfl⟩

theorem fetch_string_at {str : List UInt8} (h0 : (0 : UInt8) ∉ str) (hk : str.length < kMaxStringLength)
    (hp : d0.bufferPos = pre.length) (hn : d0.next = pre.length) :
    ∃ d1, fetch (toMem (pre ++ padded str ++ rest)) (pre ++ padded str ++ rest).length false d0
        (2 ^ 31 * e.toNat + 2 ^ 24 * 9 + str.length) = (d1, ⟨some (.inl (.string str)), false, false⟩) ∧
      Moved d0 d1 (pre.length + (padded str).length) := by
  have hl : str.length < 2 ^ 24 := by unfold kMaxStringLength at hk; omega
  rw [fetch_string _ _ _ _ _ hl]
  obtain ⟨rs, h⟩ := fetchString_record pre (List.replicate (wordLen str.length * 4 - str.length) 0) rest
    (b := (pre ++ padded str ++ rest).length)
    hn hp (by have := le_wordLen str.length; simp [padded]; omega) h0 hk
  exact ⟨_, h, moved_of_eq (by simp [hp]) (by simp [hn]) rfl⟩

theorem fetch_data_at {bytes : List UInt8} (hl : bytes.length < 2 ^ 24) (hp : d0.bufferPos = pre.length)
    (hn : d0.next = pre.length) :
    ∃ d1, fetch (toMem (pre ++ padded bytes ++ rest)) (pre ++ padded bytes ++ rest).length false d0
        (2 ^ 31 * e.toNat + 2 ^ 24 * 10 + bytes.length) = (d1, ⟨some (.inl (.data bytes)), false, false⟩) ∧
      Moved d0 d1 (pre.length + (padded bytes).length) := by
  rw [fetch_data _ _ _ _ _ hl]
  obtain ⟨rs, h⟩ := @fetchData_record pre (List.replicate (wordLen bytes.length * 4 - bytes.length) 0) rest
    (pre ++ padded bytes ++ rest).length d0 bytes
    hn hp (by have := le_wordLen bytes.length; simp [padded]; omega)
  exact ⟨_, h, moved_of_eq (by simp [hp]) (by simp [hn]) rfl⟩

theorem fetch_boolean_at (b : Bool) (hp : d0.bufferPos = pre.length) (hn : d0.next = pre.length) :
    ∃ d1, fetch (toMem (pre ++ padded [] ++ rest)) (pre ++ padded [] ++ rest).length false d0
        (2 ^ 31 * e.toNat + 2 ^ 24 * 11 + (if b then 1 else 0)) = (d1, ⟨some (.inl (.boolean b)), false, false⟩) ∧
      Moved d0 d1 (pre.length + (padded []).length) := by
  rw [fetch_boolean _ _ _ _ _ (by split <;> omega)]
  exact ⟨d0, by cases b <;> rfl, by simpa [padded, wordLen] using moved_self pre hp hn⟩

/-- A collection's header: an empty collection, and `newCollect` when it has elements. -/
theorem fetch_collection_at {tag len : Nat} (htag : tag = 1 ∨ tag = 2 ∨ tag = 3) (hl : len < 2 ^ 24)
    (hp : d0.bufferPos = pre.length) (hn : d0.next = pre.length) :
    fetch (toMem (pre ++ padded [] ++ rest)) (pre ++ padded [] ++ rest).length false d0
        (2 ^ 31 * e.toNat + 2 ^ 24 * tag + len) =
      (d0, ⟨some (.inl (if tag = 1 then .dictionary [] else if tag = 2 then .array [] else .set [])),
        len != 0, false⟩) ∧
      Moved d0 d0 (pre.length + (padded []).length) := by
  refine ⟨?_, by simpa [padded, wordLen] using moved_self pre hp hn⟩
  rcases htag with rfl | rfl | rfl
  · exact fetch_dictionary _ _ _ _ _ hl
  · exact fetch_array _ _ _ _ _ hl
  · exact fetch_set _ _ _ _ _ hl

theorem fetch_ref_at {i : Nat} (hi : i < d0.objs.length) (hi' : i < 2 ^ 24) (hp : d0.bufferPos = pre.length)
    (hn : d0.next = pre.length) :
    ∃ d1, fetch (toMem (pre ++ [] ++ rest)) (pre ++ [] ++ rest).length false d0 (2 ^ 31 * e.toNat + 2 ^ 24 * 12 + i) =
      (d1, ⟨some (.inr i), false, false⟩) ∧ Moved d0 d1 pre.length := by
  rw [fetch_object _ _ _ _ _ hi']
  obtain ⟨refs, h⟩ := fetchObject_ref hi
  exact ⟨_, h, moved_of_eq hp hn rfl⟩

end Fetch

/-! ## Contexts around the object read -/

section Contexts

theorem fill_snd_of_lastOf {ctx : List Frame} {kr : Bool} (h : lastOf ctx kr = true) : (fill ctx kr).2 = false := by
  cases ctx with
  | nil => rfl
  | cons F rest =>
    cases hk : (F.node.isDictionary && !kr)
    · simp [fill, hk]
    · simp [lastOf, hk] at h

/-- After the last element of a frame, the frame is complete. -/
theorem fill_full_of_lastOf {ctx : List Frame} {kr : Bool} (h : lastOf ctx kr = true) :
    ∀ F rest, (fill ctx kr).1 = F :: rest → F.done = F.node.count := by
  intro F rest hF
  cases ctx with
  | nil => simp [fill] at hF
  | cons G rest' =>
    cases hk : (G.node.isDictionary && !kr)
    · simp only [fill, hk, Bool.false_eq_true, if_false, List.cons.injEq] at hF
      obtain ⟨rfl, -⟩ := hF
      simpa [lastOf, hk] using h
    · simp [lastOf, hk] at h

theorem map_slot_fill (ctx : List Frame) (kr : Bool) : (fill ctx kr).1.map Frame.slot = ctx.map Frame.slot := by
  cases ctx with
  | nil => rfl
  | cons F rest =>
    cases hk : (F.node.isDictionary && !kr) <;> simp [fill, hk]

/-- A key is a symbol: what has elements is read as an element. -/
theorem fill_snd_of_count {t : OSObject} {ctx : List Frame} {kr : Bool} {v : OSObject}
    (hv : nextObj t ctx kr = some v) (hc : v.count ≠ 0) : (fill ctx kr).2 = false := by
  rcases nextObj_cases hv with ⟨rfl, -⟩ | ⟨F, rest, k, rfl, -, -, rfl⟩ | ⟨F, rest, rfl, hk, -⟩
  · rfl
  · simp [count] at hc
  · simp [fill, hk]

/-- The frame of a collection read next sits on the filled context: its header had the end bit
exactly when it is the last element of the frame below. -/
theorem chain_push {t : OSObject} {ctx : List Frame} {kr : Bool} {v : OSObject} (hv : nextObj t ctx kr = some v)
    (hc : v.count ≠ 0) (hch : Chain (fill ctx kr).1) (slot : Nat) :
    Chain (⟨slot, v, 0, lastOf ctx kr⟩ :: (fill ctx kr).1) := by
  rcases nextObj_cases hv with ⟨rfl, -⟩ | ⟨F, rest, k, rfl, -, -, rfl⟩ | ⟨F, rest, rfl, hk, -⟩
  · rfl
  · simp [count] at hc
  · simp only [fill, hk, Bool.false_eq_true, if_false] at hch ⊢
    exact ⟨by simp [lastOf, hk], hch⟩

theorem depthOk_push {t : OSObject} {ctx : List Frame} {kr : Bool} {v : OSObject} (hv : nextObj t ctx kr = some v)
    (hc : v.count ≠ 0) (hd : DepthOk t.depth ctx) (slot : Nat) (e : Bool) :
    DepthOk t.depth (⟨slot, v, 0, e⟩ :: (fill ctx kr).1) := by
  rcases nextObj_cases hv with ⟨rfl, rfl⟩ | ⟨F, rest, k, rfl, -, -, rfl⟩ | ⟨F, rest, rfl, hk, hel⟩
  · exact ⟨by simp [fill], trivial⟩
  · simp [count] at hc
  · simp only [fill, hk, Bool.false_eq_true, if_false]
    have hlt := depth_lt_of_mem_elems (List.mem_of_getElem? hel)
    exact ⟨by simp; have := hd.1; omega, hd.1, hd.2⟩

end Contexts

/-! ## The rest of the iteration -/

section Finish

variable {t : OSObject} {T : List Ident} {D : List UInt8}

/-- A new object without elements: stored, attached, and on its end bit the unwinding. -/
theorem finish_leaf (hwf : t.WellFormed) (hT : T.Nodup) (hcap : T.length ≤ objsCapacityMax)
    {s s' : OSSerialize} {d : Unser} {ctx : List Frame} {kr : Bool} (hS : Sync t T D s d ctx kr) {v : OSObject}
    (hv : nextObj t ctx kr = some v) (hroot : ctx = [] → d.result = none) (hcount : v.count = 0)
    (hD : s'.data <+: D) (hT' : s'.tags <+: T) (htags : s'.tags = s.tags ++ [v.ident]) (rs : List Nat)
    (refs : List (Nat × Nat)) :
    After t T D s' ctx kr (finish D.length (lastOf ctx kr)
      { d with bufferPos := s'.data.length, next := s'.data.length, reads := rs, refs := refs }
      (.inl (shape T.idxOf v)) false false).toSum := by
  have hvt := nextObj_mem hS.frames hv
  obtain ⟨d2, hst, hS2, hres2⟩ := hS.store hwf hD hvt htags hT' hcap (fun _ _ => rfl)
    (expected_of_count_eq_zero hcount _).symm rs refs
  have ho : d.objs.length = T.idxOf v.ident := hS.objs.1.trans (idxOf_fresh hT (htags ▸ hT')).symm
  obtain ⟨d3, hat, hS3, hres3⟩ := hS2.attach hwf hT
    (fun F rest h => doneOf_of_mem hS.frames.nodup (h ▸ List.mem_cons_self)) hv (by simp [htags])
    (fun h => hres2.trans (hroot h))
  rw [fillDone_doneOf] at hS3
  unfold finish
  simp only [readLength, Bool.false_eq_true, if_false, Step.cont_bind, hst, ho, hat]
  unfold After
  cases hlast : lastOf ctx kr
  · simp only [Bool.false_eq_true, if_false, Step.toSum]
    exact ⟨d3, rfl, hS3⟩
  · simp only [if_true]
    rw [fill_snd_of_lastOf hlast] at hS3
    exact hS3.unwind_close hwf hres3 (fill_full_of_lastOf hlast)

/-- A back reference: the object named is attached, nothing is stored. -/
theorem finish_ref (hwf : t.WellFormed) (hT : T.Nodup) {s s' : OSSerialize} {d : Unser} {ctx : List Frame}
    {kr : Bool} (hS : Sync t T D s d ctx kr) {v : OSObject} (hv : nextObj t ctx kr = some v) {i : Nat}
    (hi : s.tags.idxOf? v.ident = some i) (hroot : ctx = [] → d.result = none) (hD : s'.data <+: D)
    (htags : s'.tags = s.tags) (rs : List Nat) (refs : List (Nat × Nat)) :
    After t T D s' ctx kr (finish D.length (lastOf ctx kr)
      { d with bufferPos := s'.data.length, next := s'.data.length, reads := rs, refs := refs }
      (.inr i) false false).toSum := by
  have hS1 : Sync t T D s' { d with bufferPos := s'.data.length, next := s'.data.length, reads := rs, refs := refs }
      ctx kr :=
    hS.extend hD (htags ▸ List.prefix_refl _) (htags ▸ hS.tags) (htags ▸ hS.objs) le_rfl hS.objsCap rs refs
  have ho : i = T.idxOf v.ident := (idxOf_of_idxOf? hT hS.tags hi).symm
  obtain ⟨d3, hat, hS3, hres3⟩ := hS1.attach hwf hT
    (fun F rest h => doneOf_of_mem hS.frames.nodup (h ▸ List.mem_cons_self)) hv
    (htags ▸ mem_of_idxOf_eq_some hi) hroot
  rw [fillDone_doneOf] at hS3
  unfold finish
  simp only [readLength, Bool.false_eq_true, if_false, Step.cont_bind, ho, hat]
  unfold After
  cases hlast : lastOf ctx kr
  · simp only [Bool.false_eq_true, if_false, Step.toSum]
    exact ⟨d3, rfl, hS3⟩
  · simp only [if_true]
    rw [fill_snd_of_lastOf hlast] at hS3
    exact hS3.unwind_close hwf hres3 (fill_full_of_lastOf hlast)

/-- The header of a new collection with elements: stored, attached, and pushed as the innermost
frame, whose header carried the end bit when the collection is the last element of its own. -/
theorem finish_header (hwf : t.WellFormed) (hT : T.Nodup) (hcap : T.length ≤ objsCapacityMax)
    (hmax : t.depth < stackCapacityMax) {s s' : OSSerialize} {d : Unser} {ctx : List Frame} {kr : Bool}
    (hS : Sync t T D s d ctx kr) {v : OSObject} (hv : nextObj t ctx kr = some v)
    (hroot : ctx = [] → d.result = none) (hcount : v.count ≠ 0) (hD : s'.data <+: D) (hT' : s'.tags <+: T)
    (htags : s'.tags = s.tags ++ [v.ident]) (rs : List Nat) (refs : List (Nat × Nat)) :
    ∃ d', finish D.length (lastOf ctx kr)
        { d with bufferPos := s'.data.length, next := s'.data.length, reads := rs, refs := refs }
        (.inl (shapeUpTo T.idxOf 0 v)) true false = .cont d' ∧
      Sync t T D s' d' (⟨s.tags.length, v, 0, lastOf ctx kr⟩ :: (fill ctx kr).1) false := by
  have hvt := nextObj_mem hS.frames hv
  -- the new frame's slot is the next index, above every open one
  have hslots : ∀ F ∈ ctx, F.slot < s.tags.length := fun F hF => hS.objs.1 ▸ (hS.frames.slot F hF).1
  have hfresh : s.tags.length ∉ ctx.map Frame.slot := by
    intro h
    obtain ⟨F, hF, he⟩ := List.mem_map.1 h
    exact absurd (hslots F hF) (by omega)
  obtain ⟨d2, hst, hS2, hres2⟩ : ∃ d2, storeObject (shapeUpTo T.idxOf 0 v)
      { d with bufferPos := s'.data.length, next := s'.data.length, reads := rs, refs := refs } = .cont d2 ∧
      SyncWith t T D (doneOf (⟨s.tags.length, v, 0, lastOf ctx kr⟩ :: ctx)) s' d2 ctx kr ∧ d2.result = d.result :=
    hS.store hwf hD hvt htags hT' hcap (fun j hj => by rw [doneOf_cons, if_neg (by simp; omega)])
      (by rw [doneOf_cons, if_pos rfl]; rfl) rs refs
  have ho : T.idxOf v.ident = s.tags.length := idxOf_fresh hT (htags ▸ hT')
  obtain ⟨d3, hat, hS3, hres3⟩ := hS2.attach hwf hT
    (fun F rest h => by
      subst h
      rw [doneOf_cons, if_neg (by have := hslots F List.mem_cons_self; simp; omega)]
      exact doneOf_of_mem hS.frames.nodup List.mem_cons_self) hv (by simp [htags])
    (fun h => hres2.trans (hroot h))
  rw [fillDone_doneOf_cons _ _ _ hfresh, fill_snd_of_count hv hcount] at hS3
  rw [ho] at hat
  unfold finish
  simp only [readLength, Bool.false_eq_true, if_false, Step.cont_bind, hst, hS.objs.1, hat]
  refine hS3.descend_cont hres3 ⟨?_, ?_⟩ ⟨hvt, hcount⟩ rfl (by rw [map_slot_fill]; exact hfresh)
    (chain_push hv hcount hS3.frames.chain _) (depthOk_push hv hcount hS.frames.depth _ _) hmax
  · have := hS3.objs.1
    rw [htags] at this
    simp [this]
  · exact getElem?_of_extend hT' (by simp [htags])

end Finish

/-! ## Whole iterations -/

section Iterations

variable {t : OSObject} {T : List Ident} {D : List UInt8}

/-- **The record of a new object without elements**, read and decoded in one iteration. -/
theorem step_leaf (hwf : t.WellFormed) (hT : T.Nodup) (hcap : T.length ≤ objsCapacityMax)
    {s s' : OSSerialize} {d : Unser} {ctx : List Frame} {kr : Bool} (hS : Sync t T D s d ctx kr) {v : OSObject}
    (hv : nextObj t ctx kr = some v) (hroot : ctx = [] → d.result = none) (hend : s.endCollection = lastOf ctx kr)
    (hcount : v.count = 0) {tag len : Nat} {bits : List UInt8} (ht : tag < 2 ^ 7) (hl : len < 2 ^ 24)
    (h : addBinaryObject s v.ident (2 ^ 24 * tag ||| len) bits = (s', true)) (hD : s'.data <+: D)
    (hT' : s'.tags <+: T)
    (hfetch : ∀ (rest : List UInt8) (d0 : Unser),
      d0.bufferPos = (s.data ++ le 4 (2 ^ 31 * s.endCollection.toNat + 2 ^ 24 * tag + len)).length →
      d0.next = (s.data ++ le 4 (2 ^ 31 * s.endCollection.toNat + 2 ^ 24 * tag + len)).length →
      ∃ d1, fetch (toMem (s.data ++ le 4 (2 ^ 31 * s.endCollection.toNat + 2 ^ 24 * tag + len) ++ padded bits ++ rest))
          (s.data ++ le 4 (2 ^ 31 * s.endCollection.toNat + 2 ^ 24 * tag + len) ++ padded bits ++ rest).length false
          d0 (2 ^ 31 * s.endCollection.toNat + 2 ^ 24 * tag + len) =
        (d1, ⟨some (.inl (shape T.idxOf v)), false, false⟩) ∧
        Moved d0 d1 ((s.data ++ le 4 (2 ^ 31 * s.endCollection.toNat + 2 ^ 24 * tag + len)).length +
          (padded bits).length)) :
    After t T D s' ctx kr (step (toMem D) D.length false d).toSum := by
  obtain ⟨hdata, htags, -⟩ := addBinaryObject_eq ht hl h
  obtain ⟨rest, rfl⟩ := hD
  obtain ⟨d1, hstep, hm⟩ := step_at s.data (padded bits) rest hS.pos hS.next
    (record_key_lt s.endCollection ht hl) fun d0 h1 h2 _ => hfetch rest d0 h1 h2
  rw [(record_endBit s.endCollection ht hl).trans hend, ← hdata] at hstep
  rw [← List.length_append, ← hdata] at hm
  rw [hstep, hm]
  exact finish_leaf hwf hT hcap hS hv hroot hcount ⟨rest, rfl⟩ hT' htags _ _

/-- **The record of a back reference**, read and decoded in one iteration. -/
theorem step_ref (hwf : t.WellFormed) (hT : T.Nodup) (hcap : T.length ≤ objsCapacityMax)
    {s s' : OSSerialize} {d : Unser} {ctx : List Frame} {kr : Bool} (hS : Sync t T D s d ctx kr) {v : OSObject}
    (hv : nextObj t ctx kr = some v) (hroot : ctx = [] → d.result = none) (hend : s.endCollection = lastOf ctx kr)
    {i : Nat} (hi : s.tags.idxOf? v.ident = some i) (h : addBackReference s i = (s', true)) (hD : s'.data <+: D) :
    After t T D s' ctx kr (step (toMem D) D.length false d).toSum := by
  have hiT : i < s.tags.length := (List.idxOf?_eq_some_iff.1 hi).1
  have hi24 : i < 2 ^ 24 := by
    have := hS.tags.length_le
    unfold objsCapacityMax at hcap
    omega
  obtain ⟨hdata, htags, -⟩ := addBackReference_eq hi24 h
  obtain ⟨rest, rfl⟩ := hD
  obtain ⟨d1, hstep, hm⟩ := step_at s.data [] rest hS.pos hS.next (record_key_lt s.endCollection (by decide) hi24)
    fun d0 h1 h2 h3 => fetch_ref_at _ rest _ (by rw [h3]; exact hS.objs.1 ▸ hiT) hi24 h1 h2
  rw [(record_endBit s.endCollection (by decide : 12 < 2 ^ 7) hi24).trans hend, List.append_nil, ← hdata] at hstep
  rw [← hdata] at hm
  rw [hstep, hm]
  exact finish_ref hwf hT hS hv hi hroot ⟨rest, rfl⟩ htags _ _

/-- **The header of a new collection with elements**, read in one iteration that pushes its
frame. -/
theorem step_header (hwf : t.WellFormed) (hT : T.Nodup) (hcap : T.length ≤ objsCapacityMax)
    (hmax : t.depth < stackCapacityMax) {s s' : OSSerialize} {d : Unser} {ctx : List Frame} {kr : Bool}
    (hS : Sync t T D s d ctx kr) {v : OSObject} (hv : nextObj t ctx kr = some v)
    (hroot : ctx = [] → d.result = none) (hend : s.endCollection = lastOf ctx kr) (hcount : v.count ≠ 0)
    {tag : Nat} (htag : tag = 1 ∨ tag = 2 ∨ tag = 3) (hl : v.count < 2 ^ 24)
    (hkind : shapeUpTo T.idxOf 0 v = if tag = 1 then .dictionary [] else if tag = 2 then .array [] else .set [])
    (h : addBinaryObject s v.ident (2 ^ 24 * tag ||| v.count) [] = (s', true)) (hD : s'.data <+: D)
    (hT' : s'.tags <+: T) :
    ∃ d', step (toMem D) D.length false d = .cont d' ∧
      Sync t T D s' d' (⟨s.tags.length, v, 0, lastOf ctx kr⟩ :: (fill ctx kr).1) false := by
  have ht : tag < 2 ^ 7 := by omega
  obtain ⟨hdata, htags, -⟩ := addBinaryObject_eq ht hl h
  obtain ⟨rest, rfl⟩ := hD
  obtain ⟨d1, hstep, hm⟩ := step_at s.data (padded []) rest hS.pos hS.next (record_key_lt s.endCollection ht hl)
    fun d0 h1 h2 _ => let ⟨hf, hm⟩ := fetch_collection_at _ rest _ htag hl h1 h2; ⟨d0, hf, hm⟩
  rw [(record_endBit s.endCollection ht hl).trans hend, ← hdata, ← hkind,
    show (v.count != 0) = true by simpa using hcount] at hstep
  rw [← List.length_append, ← hdata] at hm
  rw [hstep, hm]
  exact finish_header hwf hT hcap hmax hS hv hroot hcount ⟨rest, rfl⟩ hT' htags _ _

end Iterations

end Libkern.Binary
