import Darwin.Lib.Machine
import Darwin.Libkern.SerializeBinaryOutput
import Darwin.Libkern.UnserializeBinaryRecords

/-!
# The decoder in step with the encoder

The round trip is a simulation: while `binarySerializeInternal` walks the object tree and appends
records, `OSUnserializeBinary` reads them back one iteration per record, and `Sync` relates the
encoder's state to the decoder's at every record boundary.

* `objsArray` holds, at the index the encoder's `tags` gives each object, what the decoder builds
  for it (`shape`); a collection whose elements are still being read holds the ones read so far.
* The collections the encoder is inside form a context of `Frame`s, innermost first. The decoder
  has one `stackArray` slot for each: `NULL` when the collection's header carried the end bit, else
  the collection it sits in. The end bit of a last element unwinds all the frames whose header
  had the end bit, and one more (`closeFrames`).
* `parent`, `dict`, `array`, `set` name the innermost frame, and `sym` the key read for the current
  entry of a dictionary.
-/

namespace Libkern.Binary

open OSObject

/-! ## What the decoder builds -/

/-- The decoded form of `u` with only the first `k` elements of a collection, each named by `f`
of its identity; a dictionary's keys are their characters. -/
def shapeUpTo (f : Ident → Nat) (k : Nat) : OSObject → DObj
  | .dictionary _ es => .dictionary ((es.take k).map fun e => (e.1, f e.2.ident))
  | .array _ es => .array ((es.take k).map fun v => f v.ident)
  | .set _ ms => .set ((ms.take k).map fun v => f v.ident)
  | .number _ size value => .number size value
  | .boolean b => .boolean b
  | .symbol s => .symbol s
  | .string _ s => .string s
  | .data _ bytes _ => .data bytes

/-- The decoded form of `u`, its elements named by `f` of their identities. -/
def shape (f : Ident → Nat) (u : OSObject) : DObj := shapeUpTo f u.count u

/-- The decoded form of an object, or of the open collection with `k` elements read. -/
def expected (f : Ident → Nat) : Option Nat → OSObject → DObj
  | some k, u => shapeUpTo f k u
  | none, u => shape f u

/-! ## Open collections -/

/-- A collection the encoder is inside: its index, the object, how many of its elements have been
attached, and whether its header carried the end bit. -/
structure Frame where
  slot : Nat
  node : OSObject
  done : Nat
  headerEnd : Bool

/-- The key of the entry of a dictionary frame that is being read. -/
def Frame.key (F : Frame) : Option (List UInt8) :=
  match F.node with
  | .dictionary _ es => es[F.done]?.map Prod.fst
  | _ => none

/-- The object read next into the collection of `F`: the key (`kr = false`) or the value of entry
`done` of a dictionary, element `done` of an array or a set. -/
def Frame.next (F : Frame) (kr : Bool) : Option OSObject :=
  if F.node.isDictionary && !kr then F.key.map .symbol else F.node.elems[F.done]?

/-- The object read next: the root, or the next one of the innermost frame. -/
def nextObj (t : OSObject) : List Frame → Bool → Option OSObject
  | [], _ => some t
  | F :: _, kr => F.next kr

/-- The context after the next object has been attached; `true` when a key is waiting for its
value. -/
def fill : List Frame → Bool → List Frame × Bool
  | [], _ => ([], false)
  | F :: rest, kr =>
    if F.node.isDictionary && !kr then (F :: rest, true) else ({ F with done := F.done + 1 } :: rest, false)

/-- The open counts after the next object has been attached. -/
def fillDone (δ : Nat → Option Nat) : List Frame → Bool → Nat → Option Nat
  | [], _ => δ
  | F :: _, kr => if F.node.isDictionary && !kr then δ else Function.update δ F.slot (some (F.done + 1))

/-- Whether the next object is the last of its collection, the one the encoder writes with the end
bit; the root is written with it too. -/
def lastOf : List Frame → Bool → Bool
  | [], _ => true
  | F :: _, kr => if F.node.isDictionary && !kr then false else F.done + 1 == F.node.count

/-- The unwinding after an end bit: frames whose header had the end bit go with the one below. -/
def closeFrames : List Frame → Option (List Frame)
  | [] => none
  | F :: rest => if F.headerEnd then closeFrames rest else some rest

/-- The `stackArray` slot of `F`: `NULL` after a header with the end bit, else the frame below. -/
def marker (F : Frame) (rest : List Frame) : Option Nat :=
  if F.headerEnd then none else rest.head?.map Frame.slot

/-- `stackArray[1 ..= stackIdx]` holds the frames' markers, the innermost at `stackIdx`. -/
def StackHolds (arr : List (Option Nat)) : List Frame → Prop
  | [] => True
  | F :: rest => arr.getD (rest.length + 1) none = marker F rest ∧ StackHolds arr rest

/-- A frame's header had the end bit exactly when the frame below has had all its elements
attached; the outermost header always has it. -/
def Chain : List Frame → Prop
  | [] => True
  | [F] => F.headerEnd = true
  | F :: G :: rest => F.headerEnd = (G.done == G.node.count) ∧ Chain (G :: rest)

/-- The number of elements attached to the open collection at index `j`. -/
def doneOf (ctx : List Frame) (j : Nat) : Option Nat := (ctx.find? (·.slot == j)).map Frame.done

/-- A frame `k` levels up from the bottom holds collections nested at most `m - k` deep. -/
def DepthOk (m : Nat) : List Frame → Prop
  | [] => True
  | F :: rest => rest.length + F.node.depth ≤ m ∧ DepthOk m rest

/-- The innermost frame's index when `p` holds of its object. -/
def kindSlot (p : OSObject → Bool) : List Frame → Option Nat
  | [] => none
  | F :: _ => if p F.node then some F.slot else none

/-- An iteration's outcome as a machine step. -/
def Step.toSum : Step → Unser ⊕ (Unser × Bool)
  | .cont s => .inl s
  | .stop s ok => .inr (s, ok)

/-! ## The simulation relation -/

section Sim

variable (t : OSObject) (T : List Ident) (D : List UInt8)

/-- `objsArray` against the encoder's `tags`: the object tagged `j` is decoded at `j`, a collection
with `δ j` elements while it is open. -/
def ObjsOk (tags : List Ident) (objs : List DObj) (δ : Nat → Option Nat) : Prop :=
  objs.length = tags.length ∧
    ∀ u ∈ t.nodes, ∀ j, tags[j]? = some u.ident → objs[j]? = some (expected T.idxOf (δ j) u)

/-- The frames: distinct indices of tagged non-empty collections of `t`; a key waiting for its
value belongs to an entry of the innermost one, a dictionary. -/
structure FramesOk (n : Nat) (ctx : List Frame) (kr : Bool) : Prop where
  nodup : (ctx.map Frame.slot).Nodup
  slot : ∀ F ∈ ctx, F.slot < n ∧ T[F.slot]? = some F.node.ident
  node : ∀ F ∈ ctx, F.node ∈ t.nodes ∧ F.node.count ≠ 0 ∧ F.done ≤ F.node.count
  chain : Chain ctx
  depth : DepthOk t.depth ctx
  keyed : kr = true → ∃ F rest, ctx = F :: rest ∧ F.node.isDictionary = true ∧ F.done < F.node.count

/-- The decoder against the encoder state `s` after the same records: same position, `objsArray`
against `tags` with `δ` elements read into each open collection, the container stack against the
frames `ctx`. -/
structure SyncWith (δ : Nat → Option Nat) (s : OSSerialize) (d : Unser) (ctx : List Frame) (kr : Bool) :
    Prop where
  data : s.data <+: D
  tags : s.tags <+: T
  pos : d.bufferPos = s.data.length
  next : d.next = s.data.length
  objs : ObjsOk t T s.tags d.objs δ
  objsCap : d.objs.length ≤ d.objsCapacity ∧ d.objsCapacity % 64 = 0 ∧ d.objsCapacity ≤ objsCapacityMax
  stackIdx : d.stackIdx = ctx.length
  stackLen : d.stackArray.length = d.stackCapacity
  stackCap : (ctx = [] ∧ d.stackCapacity = 0) ∨ (ctx.length < stackCapacityMax ∧ d.stackCapacity = stackCapacityMax)
  markers : StackHolds d.stackArray ctx
  parent : d.parent = ctx.head?.map Frame.slot
  dict : d.dict = kindSlot isDictionary ctx
  array : d.array = kindSlot isArray ctx
  set : d.set = kindSlot isSet ctx
  sym : d.sym = if kr then (ctx.head?.bind Frame.key).map fun k => T.idxOf (.sym k) else none
  keyTagged : kr = true → ∀ k, ctx.head?.bind Frame.key = some k → Ident.sym k ∈ s.tags
  attached : ∀ F ∈ ctx, ∀ v ∈ F.node.elems.take F.done, v.ident ∈ s.tags
  result : ctx ≠ [] → d.result = some (T.idxOf t.ident)
  frames : FramesOk t T d.objs.length ctx kr

/-- **The decoder at a record boundary**: the open collections hold the elements the frames
count. -/
abbrev Sync (s : OSSerialize) (d : Unser) (ctx : List Frame) (kr : Bool) : Prop :=
  SyncWith t T D (doneOf ctx) s d ctx kr

/-- The decoder has left the loop with every object of the encoder's `tags` decoded. -/
structure Done (s : OSSerialize) (d : Unser) : Prop where
  tags : s.tags <+: T
  objs : ObjsOk t T s.tags d.objs fun _ => none
  result : d.result = some (T.idxOf t.ident)

/-- The outcome of an iteration that ends with the last element of the innermost frame of `ctx`. -/
def AfterClose (s : OSSerialize) (ctx : List Frame) : Unser ⊕ (Unser × Bool) → Prop
  | .inl d => ∃ rest, closeFrames ctx = some rest ∧ Sync t T D s d rest false
  | .inr (d, ok) => closeFrames ctx = none ∧ ok = true ∧ Done t T s d

/-- The outcome of the iteration that ends the next object at `(ctx, kr)`. -/
def After (s : OSSerialize) (ctx : List Frame) (kr : Bool) : Unser ⊕ (Unser × Bool) → Prop :=
  if lastOf ctx kr then AfterClose t T D s (fill ctx kr).1
  else fun r => ∃ d, r = .inl d ∧ Sync t T D s d (fill ctx kr).1 (fill ctx kr).2

end Sim

end Libkern.Binary
