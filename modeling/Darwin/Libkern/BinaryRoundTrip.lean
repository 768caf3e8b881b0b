import Darwin.Libkern.BinaryRoundTripIteration
import Darwin.Libkern.UnserializeBinarySafety
import Mathlib.Data.List.Dedup

/-!
# The binary round trip

`binarySerializeInternal` and the decoder's loop run in step: by induction on the object tree,
the records the encoder writes for an object take the decoder from a state in `Sync` with the
encoder's to the state in `Sync` after it (`binarySerializeInternal_sim`), through the elements of a
collection (`serializeElems_sim`, `serializeEntries_sim`). The root written from
`binaryWithCapacity` then leaves the loop with `ok` and every object decoded.

The conditions on the graph are the decoder's: an empty symbol is refused
(`emptyKey_not_decoded`), a 64th level of nesting overflows its stack (`deepNesting_not_decoded`),
it stores no more than `objsCapacityMax` objects (`tooManyObjects_not_decoded`), and a count of
`2 ^ 24` runs into the type bits of a header (`arrayHeader_reads_as_emptySet`).
-/

namespace Libkern.Binary

open OSObject Bytes

/-- What the simulation assumes of the object graph `t`, the encoder's final `tags` `T` and its
output `D`. -/
structure RoundTripOk (t : OSObject) (T : List Ident) (D : List UInt8) : Prop where
  wf : t.WellFormed
  sound : Sound t
  nodup : T.Nodup
  cap : T.length ≤ objsCapacityMax
  depth : t.depth < stackCapacityMax
  len : D.length + 2 ^ 25 < 2 ^ 32

/-- One iteration of the decoder on the buffer `D`, in the indexed format or not, as a machine
step. -/
def decodeStep (D : List UInt8) (d : Unser) : Unser ⊕ (Unser × Bool) := (step (toMem D) D.length false d).toSum

theorem loop_eq_run (mem : Nat → UInt8) (b : Nat) (ix : Bool) :
    ∀ (fuel : Nat) (s : Unser), loop mem b ix fuel s = Machine.run (fun d => (step mem b ix d).toSum) fuel s
  | 0, _ => rfl
  | fuel + 1, s => by
    simp only [loop, Machine.run]
    cases step mem b ix s with
    | cont s' => exact loop_eq_run mem b ix fuel s'
    | stop s' ok => rfl

theorem RoundTripOk.sound_of_mem {t : OSObject} {T : List Ident} {D : List UInt8} (hok : RoundTripOk t T D)
    {v : OSObject} (hv : v ∈ t.nodes) : Sound v :=
  fun u hu => hok.sound u (mem_nodes_trans hu hv)

/-- What is written before the end of `D` is far from the encoder's limit. -/
theorem RoundTripOk.len_of_prefix {t : OSObject} {T : List Ident} {D : List UInt8} (hok : RoundTripOk t T D)
    {data : List UInt8} (h : data <+: D) : data.length + 2 ^ 25 < 2 ^ 32 := by
  have := h.length_le
  have := hok.len
  omega

section Simulation

variable {t : OSObject} {T : List Ident} {D : List UInt8}

/-- `Sync` does not look at the pending end bit. -/
theorem SyncWith.setEnd {δ : Nat → Option Nat} {s : OSSerialize} {d : Unser} {ctx : List Frame} {kr : Bool}
    (h : SyncWith t T D δ s d ctx kr) (b : Bool) : SyncWith t T D δ { s with endCollection := b } d ctx kr :=
  { h with }

/-- The collection read next closes with its last element: the frame pushed for it goes with
the frames below when its header had the end bit. -/
theorem after_of_afterClose {s : OSSerialize} {ctx : List Frame} {kr : Bool} {v : OSObject}
    (hv : nextObj t ctx kr = some v) (hc : v.count ≠ 0) (slot done : Nat) {r : Unser ⊕ (Unser × Bool)}
    (h : AfterClose t T D s (⟨slot, v, done, lastOf ctx kr⟩ :: (fill ctx kr).1) r) : After t T D s ctx kr r := by
  unfold After
  cases hlast : lastOf ctx kr
  · rw [hlast] at h
    simp only [Bool.false_eq_true, if_false]
    cases r with
    | inl d =>
      obtain ⟨rest, hrest, hS⟩ := h
      simp only [closeFrames, Bool.false_eq_true, if_false, Option.some.injEq] at hrest
      subst hrest
      exact ⟨d, rfl, fill_snd_of_count hv hc ▸ hS⟩
    | inr r => simp [AfterClose, closeFrames] at h
  · rw [hlast] at h
    simp only [if_true]
    cases r with
    | inl d => simpa [AfterClose, closeFrames] using h
    | inr r => simpa [AfterClose, closeFrames] using h

theorem data_prefix_of_grows {s s' : OSSerialize} (hg : Grows s s') (hD : s'.data <+: D) : s.data <+: D :=
  hg.1.trans hD

theorem tags_prefix_of_grows {s s' : OSSerialize} (hg : Grows s s') (hT : s'.tags <+: T) : s.tags <+: T :=
  hg.2.1.trans hT

/-- An element, or the value of an entry, is counted in its frame when it is attached. -/
theorem fill_elem {F : Frame} {rest : List Frame} {kr : Bool} (h : (F.node.isDictionary && !kr) = false) :
    fill (F :: rest) kr = ({ F with done := F.done + 1 } :: rest, false) := by
  simp [fill, h]

theorem lastOf_elem {F : Frame} {rest : List Frame} {kr : Bool} (h : (F.node.isDictionary && !kr) = false) :
    lastOf (F :: rest) kr = (F.done + 1 == F.node.count) := by
  simp [lastOf, h]

/-- Closing a frame depends on its header only. -/
theorem afterClose_setDone {s : OSSerialize} {F : Frame} {rest : List Frame} (k : Nat) {r : Unser ⊕ (Unser × Bool)}
    (h : AfterClose t T D s ({ F with done := k } :: rest) r) : AfterClose t T D s (F :: rest) r := by
  rcases r with d | ⟨d, ok⟩ <;> exact h

theorem after_close {s : OSSerialize} {ctx : List Frame} {kr : Bool} {r : Unser ⊕ (Unser × Bool)}
    (hlast : lastOf ctx kr = true) (h : After t T D s ctx kr r) : AfterClose t T D s (fill ctx kr).1 r := by
  unfold After at h
  rwa [if_pos hlast] at h

/-- An object that is not the last of its collection leaves the decoder in the loop, in step
again: what follows runs from there. -/
theorem reaches_after_cont {s : OSSerialize} {ctx : List Frame} {kr : Bool} {d : Unser}
    {Q : Unser ⊕ (Unser × Bool) → Prop} (hlast : lastOf ctx kr = false)
    (h : Machine.Reaches (decodeStep D) (After t T D s ctx kr) d)
    (hk : ∀ d', Sync t T D s d' (fill ctx kr).1 (fill ctx kr).2 → Machine.Reaches (decodeStep D) Q d') :
    Machine.Reaches (decodeStep D) Q d := by
  unfold After at h
  rw [hlast] at h
  simp only [Bool.false_eq_true, if_false] at h
  refine h.trans (fun d' hd' => ?_) (fun r hr => ?_)
  · obtain ⟨d'', heq, hS⟩ := hd'
    cases heq
    exact hk d' hS
  · obtain ⟨_, heq, -⟩ := hr
    cases heq

mutual
/-- **Encoder and decoder agree on one object**: from states in step, the records
`binarySerializeInternal` writes for the object read next take the decoder to the state in step
after it. -/
theorem binarySerializeInternal_sim (hok : RoundTripOk t T D) :
    ∀ (v : OSObject) {s s' : OSSerialize} {d : Unser} {ctx : List Frame} {kr : Bool},
      Sync t T D s d ctx kr → nextObj t ctx kr = some v → (ctx = [] → d.result = none) →
      s.endCollection = lastOf ctx kr → binarySerializeInternal s v = (s', true) → s'.data <+: D →
      s'.tags <+: T → Machine.Reaches (decodeStep D) (After t T D s' ctx kr) d
  | .dictionary id es, s, s', d, ctx, kr, hS, hv, hroot, hend, h, hD, hT' => by
    have hvt := nextObj_mem hS.frames hv
    rw [binarySerializeInternal] at h
    split at h
    · -- already tagged: a back reference
      exact .last (step_ref hok.wf hok.nodup hok.cap hS hv hroot hend ‹_› h hD)
    · obtain ⟨hhdr, hbody⟩ := andThen_eq_true h
      generalize hr : addBinaryObject s (.obj id) (kOSSerializeDictionary ||| es.length) [] = r at hhdr hbody
      obtain ⟨s1, ok⟩ := r
      dsimp only at hhdr hbody
      subst hhdr
      rw [show kOSSerializeDictionary = 2 ^ 24 * 1 from rfl] at hr
      have hl : es.length < 2 ^ 24 := (hok.sound _ hvt).2
      have hg := serializeEntries_grows s1 es.length 0 es
      rw [hbody] at hg
      cases es with
      | nil =>
        -- an empty dictionary is read like a scalar
        simp only [serializeEntries, Prod.mk.injEq] at hbody
        obtain ⟨rfl, -⟩ := hbody
        exact .last (step_leaf hok.wf hok.nodup hok.cap hS hv hroot hend rfl (by decide) hl hr hD hT'
          fun rest d0 h1 h2 => ⟨d0, fetch_collection_at _ rest s.endCollection (Or.inl rfl) hl h1 h2⟩)
      | cons e es =>
        obtain ⟨d', hstep, hS'⟩ := step_header hok.wf hok.nodup hok.cap hok.depth hS hv hroot hend
          (by simp [count]) (Or.inl rfl) hl rfl hr (data_prefix_of_grows hg hD) (tags_prefix_of_grows hg hT')
        have hend1 := (addBinaryObject_eq (by decide) hl hr).2.2
        exact .next (by simp [decodeStep, hstep, Step.toSum])
          ((serializeEntries_sim hok (e :: es) hS' rfl rfl rfl hend1 (List.cons_ne_nil _ _) hbody hD hT').mono
            fun r hr => after_of_afterClose hv (by simp [count]) _ _ hr)
  | .array id es, s, s', d, ctx, kr, hS, hv, hroot, hend, h, hD, hT' => by
    have hvt := nextObj_mem hS.frames hv
    rw [binarySerializeInternal] at h
    split at h
    · exact .last (step_ref hok.wf hok.nodup hok.cap hS hv hroot hend ‹_› h hD)
    · obtain ⟨hhdr, hbody⟩ := andThen_eq_true h
      generalize hr : addBinaryObject s (.obj id) (kOSSerializeArray ||| es.length) [] = r at hhdr hbody
      obtain ⟨s1, ok⟩ := r
      dsimp only at hhdr hbody
      subst hhdr
      rw [show kOSSerializeArray = 2 ^ 24 * 2 from rfl] at hr
      have hl : es.length < 2 ^ 24 := (hok.sound _ hvt).2
      have hg := serializeElems_grows s1 es.length 0 es
      rw [hbody] at hg
      cases es with
      | nil =>
        simp only [serializeElems, Prod.mk.injEq] at hbody
        obtain ⟨rfl, -⟩ := hbody
        exact .last (step_leaf hok.wf hok.nodup hok.cap hS hv hroot hend rfl (by decide) hl hr hD hT'
          fun rest d0 h1 h2 => ⟨d0, fetch_collection_at _ rest s.endCollection (Or.inr (Or.inl rfl)) hl h1 h2⟩)
      | cons e es =>
        obtain ⟨d', hstep, hS'⟩ := step_header hok.wf hok.nodup hok.cap hok.depth hS hv hroot hend
          (by simp [count]) (Or.inr (Or.inl rfl)) hl rfl hr (data_prefix_of_grows hg hD)
          (tags_prefix_of_grows hg hT')
        exact .next (by simp [decodeStep, hstep, Step.toSum])
          ((serializeElems_sim hok (e :: es) hS' rfl rfl rfl rfl (List.cons_ne_nil _ _) hbody hD hT').mono
            fun r hr => after_of_afterClose hv (by simp [count]) _ _ hr)
  | .set id ms, s, s', d, ctx, kr, hS, hv, hroot, hend, h, hD, hT' => by
    have hvt := nextObj_mem hS.frames hv
    rw [binarySerializeInternal] at h
    split at h
    · exact .last (step_ref hok.wf hok.nodup hok.cap hS hv hroot hend ‹_› h hD)
    · obtain ⟨hhdr, hbody⟩ := andThen_eq_true h
      generalize hr : addBinaryObject s (.obj id) (kOSSerializeSet ||| ms.length) [] = r at hhdr hbody
      obtain ⟨s1, ok⟩ := r
      dsimp only at hhdr hbody
      subst hhdr
      rw [show kOSSerializeSet = 2 ^ 24 * 3 from rfl] at hr
      have hl : ms.length < 2 ^ 24 := (hok.sound _ hvt).2
      have hg := serializeElems_grows s1 ms.length 0 ms
      rw [hbody] at hg
      cases ms with
      | nil =>
        simp only [serializeElems, Prod.mk.injEq] at hbody
        obtain ⟨rfl, -⟩ := hbody
        exact .last (step_leaf hok.wf hok.nodup hok.cap hS hv hroot hend rfl (by decide) hl hr hD hT'
          fun rest d0 h1 h2 => ⟨d0, fetch_collection_at _ rest s.endCollection (Or.inr (Or.inr rfl)) hl h1 h2⟩)
      | cons e ms =>
        obtain ⟨d', hstep, hS'⟩ := step_header hok.wf hok.nodup hok.cap hok.depth hS hv hroot hend
          (by simp [count]) (Or.inr (Or.inr rfl)) hl rfl hr (data_prefix_of_grows hg hD)
          (tags_prefix_of_grows hg hT')
        exact .next (by simp [decodeStep, hstep, Step.toSum])
          ((serializeElems_sim hok (e :: ms) hS' rfl rfl rfl rfl (List.cons_ne_nil _ _) hbody hD hT').mono
            fun r hr => after_of_afterClose hv (by simp [count]) _ _ hr)
  | .number id size value, s, s', d, ctx, kr, hS, hv, hroot, hend, h, hD, hT' => by
    obtain ⟨⟨hs64, hvalue⟩, hsize⟩ := hok.sound _ (nextObj_mem hS.frames hv)
    rw [binarySerializeInternal] at h
    split at h
    · exact .last (step_ref hok.wf hok.nodup hok.cap hS hv hroot hend ‹_› h hD)
    · rw [serializeScalar, show kOSSerializeNumber = 2 ^ 24 * 4 from rfl] at h
      exact .last (step_leaf hok.wf hok.nodup hok.cap hS hv hroot hend rfl (by decide) (by omega) h hD hT'
        fun rest d0 h1 h2 => fetch_number_at _ rest _ hsize hvalue h1 h2)
  | .boolean b, s, s', d, ctx, kr, hS, hv, hroot, hend, h, hD, hT' => by
    rw [binarySerializeInternal] at h
    split at h
    · exact .last (step_ref hok.wf hok.nodup hok.cap hS hv hroot hend ‹_› h hD)
    · rw [serializeScalar, show kOSSerializeBoolean = 2 ^ 24 * 11 from rfl] at h
      exact .last (step_leaf hok.wf hok.nodup hok.cap hS hv hroot hend rfl (by decide) (by split <;> decide) h
        hD hT' fun rest d0 h1 h2 => fetch_boolean_at _ rest _ b h1 h2)
  | .symbol str, s, s', d, ctx, kr, hS, hv, hroot, hend, h, hD, hT' => by
    obtain ⟨⟨h0, hk⟩, hne⟩ := hok.sound _ (nextObj_mem hS.frames hv)
    rw [binarySerializeInternal] at h
    split at h
    · exact .last (step_ref hok.wf hok.nodup hok.cap hS hv hroot hend ‹_› h hD)
    · rw [serializeScalar, show kOSSerializeSymbol = 2 ^ 24 * 8 from rfl] at h
      exact .last (step_leaf hok.wf hok.nodup hok.cap hS hv hroot hend rfl (by decide)
        (by unfold kMaxStringLength at hk; omega) h hD hT' fun rest d0 h1 h2 =>
          fetch_symbol_at _ rest _ hne h0 hk h1 h2)
  | .string id str, s, s', d, ctx, kr, hS, hv, hroot, hend, h, hD, hT' => by
    obtain ⟨⟨h0, hk⟩, -⟩ := hok.sound _ (nextObj_mem hS.frames hv)
    rw [binarySerializeInternal] at h
    split at h
    · exact .last (step_ref hok.wf hok.nodup hok.cap hS hv hroot hend ‹_› h hD)
    · rw [serializeScalar, show kOSSerializeString = 2 ^ 24 * 9 from rfl] at h
      exact .last (step_leaf hok.wf hok.nodup hok.cap hS hv hroot hend rfl (by decide)
        (by unfold kMaxStringLength at hk; omega) h hD hT' fun rest d0 h1 h2 => fetch_string_at _ rest _ h0 hk h1 h2)
  | .data id bytes disable, s, s', d, ctx, kr, hS, hv, hroot, hend, h, hD, hT' => by
    obtain ⟨-, hdis, hl⟩ := hok.sound _ (nextObj_mem hS.frames hv)
    subst hdis
    rw [binarySerializeInternal] at h
    split at h
    · exact .last (step_ref hok.wf hok.nodup hok.cap hS hv hroot hend ‹_› h hD)
    · simp only [serializeScalar, Bool.false_eq_true, if_false, List.take_length,
        show kOSSerializeData = 2 ^ 24 * 10 from rfl] at h
      exact .last (step_leaf hok.wf hok.nodup hok.cap hS hv hroot hend rfl (by decide) hl h hD hT'
        fun rest d0 h1 h2 => fetch_data_at _ rest _ hl h1 h2)

/-- The elements `i ..< count` of an array or a set, from the frame of the collection. -/
theorem serializeElems_sim (hok : RoundTripOk t T D) :
    ∀ (vs : List OSObject) {s s' : OSSerialize} {d : Unser} {F : Frame} {rest : List Frame} {count i : Nat},
      Sync t T D s d (F :: rest) false → F.node.isDictionary = false → F.node.elems.drop F.done = vs →
      count = F.node.count → i = F.done → vs ≠ [] → serializeElems s count i vs = (s', true) →
      s'.data <+: D → s'.tags <+: T → Machine.Reaches (decodeStep D) (AfterClose t T D s' (F :: rest)) d
  | [], _, _, _, _, _, _, _, _, _, _, _, _, hne, _, _, _ => absurd rfl hne
  | v :: vs, s, s', d, F, rest, count, i, hS, hdict, hdrop, hcount, hi, _, h, hD, hT' => by
    rw [serializeElems] at h
    obtain ⟨hok1, hrest⟩ := andThen_eq_true h
    generalize hr : withFallback (binarySerializeInternal · v) { s with endCollection := i + 1 == count } = r
      at hok1 hrest
    obtain ⟨s2, ok⟩ := r
    dsimp only at hok1 hrest
    subst hok1
    have hg := serializeElems_grows s2 count (i + 1) vs
    rw [hrest] at hg
    have hpos : (F.node.isDictionary && !false) = false := by simp [hdict]
    have hel : F.node.elems[F.done]? = some v := by rw [← List.head?_drop, hdrop]; rfl
    have hv : nextObj t (F :: rest) false = some v := by simp [nextObj, Frame.next, hdict, hel]
    have hbsi := element_eq (hok.sound_of_mem (nextObj_mem hS.frames hv)) hr (hok.len_of_prefix (hg.1.trans hD))
    have hA := binarySerializeInternal_sim hok v (hS.setEnd _) hv (fun h => absurd h (List.cons_ne_nil _ _))
      (by rw [lastOf_elem hpos, hi, hcount]) hbsi (hg.1.trans hD) (hg.2.1.trans hT')
    have hlen := congrArg List.length hdrop
    rw [List.length_drop, length_elems, List.length_cons] at hlen
    cases vs with
    | nil =>
      -- the last element: its end bit closes the frame
      simp only [serializeElems, Prod.mk.injEq] at hrest
      obtain ⟨rfl, -⟩ := hrest
      have hlast : lastOf (F :: rest) false = true := by
        rw [lastOf_elem hpos]
        simp only [List.length_nil] at hlen
        simp only [beq_iff_eq]
        omega
      exact hA.mono fun r hr => afterClose_setDone _ (fill_elem hpos ▸ after_close hlast hr)
    | cons w vs =>
      have hlast : lastOf (F :: rest) false = false := by
        rw [lastOf_elem hpos]
        simp only [List.length_cons] at hlen
        simp only [beq_eq_false_iff_ne]
        omega
      refine reaches_after_cont hlast hA fun d' hS' => ?_
      rw [fill_elem hpos] at hS'
      have hdrop' : F.node.elems.drop (F.done + 1) = w :: vs := by
        rw [← List.drop_drop, hdrop]
        rfl
      exact (serializeElems_sim hok (w :: vs) hS' hdict hdrop' hcount (congrArg (· + 1) hi)
        (List.cons_ne_nil _ _) hrest hD hT').mono fun r hr => afterClose_setDone _ hr

/-- The entries `i ..< count` of a dictionary, each a key and its value, from the frame of the
dictionary. -/
theorem serializeEntries_sim (hok : RoundTripOk t T D) :
    ∀ (es : List (List UInt8 × OSObject)) {s s' : OSSerialize} {d : Unser} {F : Frame} {rest : List Frame}
      {id i : Nat} {all : List (List UInt8 × OSObject)},
      Sync t T D s d (F :: rest) false → F.node = .dictionary id all → all.drop F.done = es → i = F.done →
      s.endCollection = false → es ≠ [] → serializeEntries s all.length i es = (s', true) →
      s'.data <+: D → s'.tags <+: T → Machine.Reaches (decodeStep D) (AfterClose t T D s' (F :: rest)) d
  | [], _, _, _, _, _, _, _, _, _, _, _, _, _, hne, _, _, _ => absurd rfl hne
  | (k, v) :: es, s, s', d, F, rest, id, i, all, hS, hN, hdrop, hi, hend, _, h, hD, hT' => by
    rw [serializeEntries] at h
    obtain ⟨hok1, h1⟩ := andThen_eq_true h
    generalize hrk : serializeKey s k = rk at hok1 h1
    obtain ⟨s1, ok1⟩ := rk
    dsimp only at hok1 h1
    subst hok1
    obtain ⟨hok2, hrest⟩ := andThen_eq_true h1
    generalize hr : withFallback (binarySerializeInternal · v) { s1 with endCollection := i + 1 == all.length } = r
      at hok2 hrest
    obtain ⟨s2, ok⟩ := r
    dsimp only at hok2 hrest
    subst hok2
    have hg := serializeEntries_grows s2 all.length (i + 1) es
    rw [hrest] at hg
    have hg1 : Grows s1 s2 :=
      Grows.of_setEnd (hr ▸ withFallback_grows (fun s' => binarySerializeInternal_grows s' v) _)
    have hdict : F.node.isDictionary = true := by rw [hN]; rfl
    have hel : all[F.done]? = some (k, v) := by rw [← List.head?_drop, hdrop]; rfl
    -- the key, read into the dictionary's pending symbol
    have hvk : nextObj t (F :: rest) false = some (.symbol k) := by
      simp [nextObj, Frame.next, Frame.key, hN, isDictionary, hel]
    have hlastk : lastOf (F :: rest) false = false := by simp [lastOf, hdict]
    have hK := binarySerializeInternal_sim hok (.symbol k) hS hvk (fun h => absurd h (List.cons_ne_nil _ _))
      (hend.trans hlastk.symm) ((binarySerializeInternal_symbol s k).trans hrk) (hg1.1.trans (hg.1.trans hD))
      (hg1.2.1.trans (hg.2.1.trans hT'))
    refine reaches_after_cont hlastk hK fun d1 hS1 => ?_
    simp only [fill, hdict, Bool.not_false, Bool.and_self, if_true] at hS1
    -- the value, attached under the key
    have hpos : (F.node.isDictionary && !true) = false := by simp
    have hvv : nextObj t (F :: rest) true = some v := by
      simp [nextObj, Frame.next, hN, elems, hel]
    have hbsi := element_eq (hok.sound_of_mem (nextObj_mem hS1.frames hvv)) hr
      (hok.len_of_prefix (hg.1.trans hD))
    have hcount : F.node.count = all.length := by rw [hN]; rfl
    have hA := binarySerializeInternal_sim hok v (hS1.setEnd _) hvv (fun h => absurd h (List.cons_ne_nil _ _))
      (by rw [lastOf_elem hpos, hi, hcount]) hbsi (hg.1.trans hD) (hg.2.1.trans hT')
    have hlen := congrArg List.length hdrop
    rw [List.length_drop, List.length_cons] at hlen
    cases es with
    | nil =>
      simp only [serializeEntries, Prod.mk.injEq] at hrest
      obtain ⟨rfl, -⟩ := hrest
      have hlast : lastOf (F :: rest) true = true := by
        rw [lastOf_elem hpos, hcount]
        simp only [List.length_nil] at hlen
        simp only [beq_iff_eq]
        omega
      exact hA.mono fun r hr => afterClose_setDone _ (fill_elem hpos ▸ after_close hlast hr)
    | cons e es =>
      have hlast : lastOf (F :: rest) true = false := by
        rw [lastOf_elem hpos, hcount]
        simp only [List.length_cons] at hlen
        simp only [beq_eq_false_iff_ne]
        omega
      refine reaches_after_cont hlast hA fun d' hS' => ?_
      rw [fill_elem hpos] at hS'
      have hdrop' : all.drop (F.done + 1) = e :: es := by
        rw [← List.drop_drop, hdrop]
        rfl
      exact (serializeEntries_sim hok (e :: es) hS' hN hdrop' (congrArg (· + 1) hi)
        (binarySerializeInternal_endCollection _ v hbsi) (List.cons_ne_nil _ _) hrest hD hT').mono
        fun r hr => afterClose_setDone _ hr
end

end Simulation

/-! ## From `binaryWithCapacity` to `OSUnserializeBinary` -/

section RoundTrip

variable {t : OSObject} {T : List Ident} {D : List UInt8}

/-- The state `binaryWithCapacity` starts from. -/
def initSerialize : OSSerialize := ⟨kOSSerializeBinarySignature, [], true⟩

theorem serializeBinary_eq {inCapacity : Nat} (h : serializeBinary inCapacity t = some D) :
    ∃ s', binarySerialize initSerialize t = (s', true) ∧ D = s'.data := by
  unfold serializeBinary binaryWithCapacity at h
  by_cases hc : inCapacity < 4
  · simp [hc] at h
  · simp [hc] at h
    exact ⟨_, Prod.ext rfl h.1, h.2.symm⟩

/-- The checks of the signature pass on what the encoder wrote: not the indexed format. -/
theorem checkSignature_binary (r : List UInt8) :
    checkSignature (toMem (kOSSerializeBinarySignature ++ r)) (kOSSerializeBinarySignature ++ r).length true =
      (some false, [0, 0, 1]) := by
  simp [checkSignature, toMem, kOSSerializeIndexedBinarySignature, kOSSerializeBinarySignature]

/-- Before the loop the decoder is in step with the encoder's initial state. -/
theorem sync_init (hD : kOSSerializeBinarySignature <+: D) (rs : List Nat) :
    Sync t T D initSerialize (Unser.init rs) [] false where
  data := hD
  tags := List.nil_prefix
  pos := rfl
  next := rfl
  objs := ⟨rfl, by simp [initSerialize]⟩
  objsCap := by simp [Unser.init]
  stackIdx := rfl
  stackLen := rfl
  stackCap := Or.inl ⟨rfl, rfl⟩
  markers := trivial
  parent := rfl
  dict := rfl
  array := rfl
  set := rfl
  sym := rfl
  keyTagged := by simp
  attached := by simp
  result := by simp
  frames := ⟨List.nodup_nil, by simp, by simp, trivial, trivial, by simp⟩

/-- Only outcomes of the loop satisfy what the root leads to. -/
theorem after_root_stop {s : OSSerialize} (d : Unser) : ¬After t T D s [] false (.inl d) := by
  simp [After, lastOf, fill, AfterClose, closeFrames]

/-- **The assumptions of the simulation** hold of a serialization that succeeded, for a graph
within the decoder's limits. -/
theorem roundTripOk_of_serialize {s' : OSSerialize} (hwf : t.WellFormed) (hs : Sound t)
    (hdepth : t.depth < stackCapacityMax) (hobjs : (t.nodes.map ident).dedup.length ≤ objsCapacityMax)
    (h : binarySerialize initSerialize t = (s', true)) (hlen : s'.data.length + 2 ^ 25 < 2 ^ 32) :
    RoundTripOk t s'.tags s'.data where
  wf := hwf
  sound := hs
  nodup := by
    have hg := binarySerializeInternal_grows initSerialize t
    rw [show binarySerializeInternal initSerialize t = (s', true) from h] at hg
    exact hg.2.2 List.nodup_nil
  cap := by
    have hnd : s'.tags.Nodup := by
      have hg := binarySerializeInternal_grows initSerialize t
      rw [show binarySerializeInternal initSerialize t = (s', true) from h] at hg
      exact hg.2.2 List.nodup_nil
    have hsub : s'.tags ⊆ (t.nodes.map ident).dedup := fun x hx =>
      List.mem_dedup.2 (binarySerialize_tags_sub rfl t x (by rw [h]; exact hx))
    exact (hnd.length_le_of_subset hsub).trans hobjs
  depth := hdepth
  len := hlen

/-- A run of the loop on the encoder's output ends with `ok` and everything decoded. -/
theorem loop_done (hok : RoundTripOk t T D) {s' : OSSerialize} (hsig : kOSSerializeBinarySignature <+: D)
    (h : binarySerializeInternal initSerialize t = (s', true)) (hD : s'.data = D) (hT : s'.tags = T)
    (rs : List Nat) {fuel : Nat} {r : Unser × Bool} (hrun : loop (toMem D) D.length false fuel (Unser.init rs) = some r) :
    r.2 = true ∧ Done t T s' r.1 := by
  have hreach := binarySerializeInternal_sim hok t (sync_init hsig rs) rfl (fun _ => rfl) rfl h
    (hD ▸ List.prefix_refl _) (hT ▸ List.prefix_refl _)
  rw [loop_eq_run] at hrun
  obtain ⟨d, ok⟩ := r
  have hafter := hreach.run_stop after_root_stop hrun
  exact (after_close rfl hafter).2

/-- After the signature the decoder enters the loop; a loop that ends with `ok` returns its
result. -/
theorem OSUnserializeBinary_of_loop (r : List UInt8) {d : Unser}
    (hloop : loop (toMem (kOSSerializeBinarySignature ++ r)) (kOSSerializeBinarySignature ++ r).length false
      ((kOSSerializeBinarySignature ++ r).length / 4 + 1) (Unser.init [0, 0, 1]) = some (d, true)) :
    OSUnserializeBinary (toMem (kOSSerializeBinarySignature ++ r)) (kOSSerializeBinarySignature ++ r).length true =
      d.result.map (d.objs, ·) := by
  unfold OSUnserializeBinary unserializeRun
  rw [checkSignature_binary]
  simp only [hloop]

/-- **The binary round trip.** An object graph whose objects the format can carry (`Sound`:
counts and lengths within 24 bits, numbers of 8, 16, 32 or 64 bits, no empty symbol, data not
disabled), nested less deep than the decoder's stack and with no more distinct objects than its
`objsArray` holds, serialized by `binaryWithCapacity` and `binarySerialize` far enough from the
32-bit limit, is decoded by `OSUnserializeBinary` to the same graph. Every object `u` is decoded
at an index `f u.ident` of its own, to `shape f u`: its scalar value, or its elements in order,
each named by its own index. -/
theorem OSUnserializeBinary_serializeBinary {inCapacity : Nat} (hwf : t.WellFormed) (hs : Sound t)
    (hdepth : t.depth < stackCapacityMax) (hobjs : (t.nodes.map ident).dedup.length ≤ objsCapacityMax)
    (h : serializeBinary inCapacity t = some D) (hlen : D.length + 2 ^ 25 < 2 ^ 32) :
    ∃ (objs : List DObj) (f : Ident → Nat), OSUnserializeBinary (toMem D) D.length true = some (objs, f t.ident) ∧
      (∀ u ∈ t.nodes, objs[f u.ident]? = some (shape f u)) ∧
      ∀ u ∈ t.nodes, ∀ v ∈ t.nodes, f u.ident = f v.ident → u = v := by
  obtain ⟨s', hser, hD⟩ := serializeBinary_eq h
  subst hD
  have hok := roundTripOk_of_serialize hwf hs hdepth hobjs hser hlen
  have hsig : kOSSerializeBinarySignature <+: s'.data := by
    have hg := binarySerializeInternal_grows initSerialize t
    rw [show binarySerializeInternal initSerialize t = (s', true) from hser] at hg
    exact hg.1
  obtain ⟨r, hr⟩ := hsig
  -- the loop finishes: every iteration consumes four bytes at least
  have hb : 4 ≤ s'.data.length := by
    rw [← hr]
    simp [kOSSerializeBinarySignature]
  have hrs : ∀ x ∈ [0, 0, 1], x < s'.data.length := by
    intro x hx
    simp only [List.mem_cons, List.not_mem_nil, or_false] at hx
    omega
  obtain ⟨d, ok, hloop, -⟩ := loop_logged (toMem s'.data) false (s'.data.length / 4 + 1) (init_head hb hrs)
    (by simp only [Unser.init]; omega)
  obtain ⟨hok', hdone⟩ := loop_done hok ⟨r, hr⟩ hser rfl rfl [0, 0, 1] hloop
  dsimp only at hok' hdone
  subst hok'
  have htagged := binarySerialize_tags_all hwf hs rfl hser hlen
  refine ⟨d.objs, s'.tags.idxOf, ?_, fun u hu => ?_, fun u hu v hv huv => ?_⟩
  · rw [← hr] at hloop ⊢
    rw [OSUnserializeBinary_of_loop r hloop, hdone.result]
    rfl
  · exact hdone.objs.2 u hu _ (getElem?_idxOf_of_mem hok.nodup (List.prefix_refl _) (htagged u hu))
  · exact hwf.1 u hu v hv (idxOf_injective (htagged u hu) huv)

/-- A dictionary whose two values are one number: the second is written as a back reference. -/
def sharedNumber : OSObject := .dictionary 0 [([97], .number 1 8 5), ([98], .number 1 8 5)]

/-- What the encoder writes for `sharedNumber`: the signature, the dictionary's header with the end
bit of the root, the key `"a"`, the number, the key `"b"` and a back reference to tag 2 with the
end bit. -/
def sharedNumberBytes : List UInt8 :=
  [0xD3, 0, 0, 0, 2, 0, 0, 0x81, 2, 0, 0, 0x08, 97, 0, 0, 0, 8, 0, 0, 0x04, 5, 0, 0, 0, 0, 0, 0, 0,
    2, 0, 0, 0x08, 98, 0, 0, 0, 2, 0, 0, 0x8C]

theorem sharedNumber_round_trip :
    sharedNumber.WellFormed ∧ Sound sharedNumber ∧ sharedNumber.depth < stackCapacityMax ∧
      (sharedNumber.nodes.map ident).dedup.length ≤ objsCapacityMax ∧
      serializeBinary 64 sharedNumber = some sharedNumberBytes ∧ sharedNumberBytes.length + 2 ^ 25 < 2 ^ 32 ∧
      ∃ (objs : List DObj) (f : Ident → Nat),
        OSUnserializeBinary (toMem sharedNumberBytes) sharedNumberBytes.length true =
          some (objs, f sharedNumber.ident) ∧
        (∀ u ∈ sharedNumber.nodes, objs[f u.ident]? = some (shape f u)) ∧
        ∀ u ∈ sharedNumber.nodes, ∀ v ∈ sharedNumber.nodes, f u.ident = f v.ident → u = v := by
  have hwf : sharedNumber.WellFormed := by
    simp [WellFormed, sharedNumber, nodes, entriesNodes, ident, Valid, kMaxStringLength]
  have hs : Sound sharedNumber := by
    simp [Sound, sharedNumber, nodes, entriesNodes, Valid, Encodable, kMaxStringLength]
  have hd : sharedNumber.depth < stackCapacityMax := by decide
  have ho : (sharedNumber.nodes.map ident).dedup.length ≤ objsCapacityMax := by decide
  have h : serializeBinary 64 sharedNumber = some sharedNumberBytes := by decide
  have hl : sharedNumberBytes.length + 2 ^ 25 < 2 ^ 32 := by decide
  exact ⟨hwf, hs, hd, ho, h, hl, OSUnserializeBinary_serializeBinary hwf hs hd ho h hl⟩

/-- A dictionary with the empty key: the encoder writes the symbol with length 1, its NUL, and
`OSUnserializeBinary` stops at `if (len < 2) break;` and returns `NULL`. -/
theorem emptyKey_not_decoded :
    serializeBinary 64 (.dictionary 0 [([], .boolean true)]) =
        some [0xD3, 0, 0, 0, 1, 0, 0, 0x81, 1, 0, 0, 0x08, 0, 0, 0, 0, 1, 0, 0, 0x8B] ∧
      OSUnserializeBinary (toMem [0xD3, 0, 0, 0, 1, 0, 0, 0x81, 1, 0, 0, 0x08, 0, 0, 0, 0, 1, 0, 0, 0x8B]) 20 true =
        none :=
  ⟨by decide, by decide⟩

/-- `n` arrays, each the only element of the one around it, around `true`. -/
def nestedArrays : Nat → OSObject
  | 0 => .boolean true
  | n + 1 => .array n [nestedArrays n]

theorem mem_nodes_nestedArrays {n : Nat} {u : OSObject} :
    u ∈ (nestedArrays n).nodes ↔ ∃ k ≤ n, u = nestedArrays k := by
  induction n with
  | zero => simp [nestedArrays, nodes]
  | succ n ih =>
    rw [nestedArrays, nodes, List.mem_cons, listNodes, listNodes, List.append_nil, ih, ← nestedArrays]
    constructor
    · rintro (rfl | ⟨k, hk, rfl⟩)
      · exact ⟨n + 1, le_rfl, rfl⟩
      · exact ⟨k, by omega, rfl⟩
    · rintro ⟨k, hk, rfl⟩
      rcases Nat.lt_or_ge k (n + 1) with hlt | hge
      · exact .inr ⟨k, by omega, rfl⟩
      · exact .inl (by rw [show k = n + 1 by omega])

theorem ident_nestedArrays_inj {k j : Nat} (h : (nestedArrays k).ident = (nestedArrays j).ident) :
    k = j := by
  cases k <;> cases j <;> simp_all [nestedArrays, ident]

theorem nestedArrays_wellFormed (n : Nat) : (nestedArrays n).WellFormed ∧ Sound (nestedArrays n) := by
  refine ⟨⟨fun u hu v hv huv => ?_, fun u hu => ?_⟩, fun u hu => ?_⟩
  · obtain ⟨k, -, rfl⟩ := mem_nodes_nestedArrays.1 hu
    obtain ⟨j, -, rfl⟩ := mem_nodes_nestedArrays.1 hv
    rw [ident_nestedArrays_inj huv]
  all_goals
    obtain ⟨k, -, rfl⟩ := mem_nodes_nestedArrays.1 hu
    cases k <;> simp [nestedArrays, Valid, Encodable]

/-- Sixty-four arrays around `true`: every condition of the round trip but the depth holds, and the
decoder, whose stack holds 63 open collections, returns `NULL`. -/
theorem deepNesting_not_decoded :
    (nestedArrays 64).WellFormed ∧ Sound (nestedArrays 64) ∧
      ((nestedArrays 64).nodes.map ident).dedup.length ≤ objsCapacityMax ∧
      (nestedArrays 64).depth = stackCapacityMax ∧
      ∃ D, serializeBinary 64 (nestedArrays 64) = some D ∧ D.length + 2 ^ 25 < 2 ^ 32 ∧
        OSUnserializeBinary (toMem D) D.length true = none := by
  obtain ⟨hwf, hs⟩ := nestedArrays_wellFormed 64
  refine ⟨hwf, hs, by decide +kernel, by decide +kernel,
    [0xD3, 0, 0, 0] ++ (List.replicate 64 [1, 0, 0, 0x82]).flatten ++ [1, 0, 0, 0x8B],
    by decide +kernel, by decide +kernel, by decide +kernel⟩

/-- A graph with more distinct objects than `objsArray` may hold is never decoded: the round trip
gives each its own index in the objects returned, and `OSUnserializeBinary` returns at most
`objsCapacityMax` of them. -/
theorem tooManyObjects_not_decoded (hmany : objsCapacityMax < (t.nodes.map ident).dedup.length) :
    ¬ ∃ (objs : List DObj) (f : Ident → Nat), OSUnserializeBinary (toMem D) D.length true = some (objs, f t.ident) ∧
      (∀ u ∈ t.nodes, objs[f u.ident]? = some (shape f u)) ∧
      ∀ u ∈ t.nodes, ∀ v ∈ t.nodes, f u.ident = f v.ident → u = v := by
  rintro ⟨objs, f, hdec, hobjs, hinj⟩
  -- `f` sends the identities of the graph, one to one, to indices of `objs`
  have hmaps : Set.MapsTo f (t.nodes.map ident).toFinset (Finset.range objs.length) := by
    intro i hi
    obtain ⟨u, hu, rfl⟩ := List.mem_map.1 (List.mem_toFinset.1 hi)
    exact Finset.mem_range.2 (List.getElem?_eq_some_iff.1 (hobjs u hu)).1
  have hinjOn : Set.InjOn f (t.nodes.map ident).toFinset := by
    intro i hi j hj hij
    obtain ⟨u, hu, rfl⟩ := List.mem_map.1 (List.mem_toFinset.1 hi)
    obtain ⟨v, hv, rfl⟩ := List.mem_map.1 (List.mem_toFinset.1 hj)
    rw [hinj u hu v hv hij]
  have hcard := Finset.card_le_card_of_injOn f hmaps hinjOn
  rw [List.card_toFinset, Finset.card_range] at hcard
  have hle := OSUnserializeBinary_objs_le _ _ _ hdec
  omega

/-- The header `kOSSerializeArray | count` that `binarySerializeInternal` writes for an array of
`2 ^ 24` elements has its count carried into the type bits: the decoder reads an empty set. -/
theorem arrayHeader_reads_as_emptySet (mem : Nat → UInt8) (bufferSize : Nat) (indexed : Bool) (s : Unser)
    {es : List OSObject} (hes : es.length = 2 ^ 24) :
    fetch mem bufferSize indexed s (kOSSerializeArray ||| es.length) = (s, ⟨some (.inl (.set [])), false, indexed⟩) := by
  have ht : kOSSerializeTypeMask &&& (kOSSerializeArray ||| 2 ^ 24) = kOSSerializeSet := by decide
  have hl : (kOSSerializeArray ||| 2 ^ 24) &&& kOSSerializeDataMask = 0 := by decide
  rw [hes, fetch]
  simp only [ht, hl, show kOSSerializeSet ≠ kOSSerializeDictionary by decide,
    show kOSSerializeSet ≠ kOSSerializeArray by decide, if_false, if_true]
  rfl

end RoundTrip

end Libkern.Binary
