import Darwin.Lib.Bytes
import Darwin.Libkern.OSObject
import Darwin.Libkern.BinaryFormat

/-!
# The binary encoder (`libkern/c++/OSSerializeBinary.cpp:47-326`)

`OSSerialize` in binary mode, without an editor and without `setIndexed`: the bytes written so
far, the `tags` array of every object written (its index is the number a back reference carries)
and the `endCollection` flag, which the next record consumes as its end bit.

Growth of the buffer (`ensureCapacity`) is taken to succeed; what is kept is the check that the
32-bit `length` does not overflow. A failed `addBinaryObject` has already appended its object to
`tags`, and `binarySerializeInternal`'s fallback `serialize()` call (which in binary mode is
`previouslySerialized`, i.e. `binarySerialize` again) then writes a back reference to it. Both
are modelled. The padding up to a multiple of four bytes is written as zeros; no decoder reads it.
-/

namespace Libkern.Binary

open OSObject

/-- The state of a binary `OSSerialize`. -/
structure OSSerialize where
  /-- `data[0 .. length)`. -/
  data : List UInt8
  tags : List Ident
  endCollection : Bool

/-- **`OSSerialize::binaryWithCapacity` (`:51`)**: the signature, and the end bit pending for the
root. -/
def binaryWithCapacity (inCapacity : Nat) : Option OSSerialize :=
  if inCapacity < 4 then none else some ⟨kOSSerializeBinarySignature, [], true⟩

/-- `alignSize = (size + 3) & ~3`. -/
def align4 (n : Nat) : Nat := (n + 3) / 4 * 4

/-- **`OSSerialize::addBinary` (`:75`)**. -/
def addBinary (s : OSSerialize) (bits : List UInt8) : OSSerialize × Bool :=
  let alignSize := align4 bits.length
  if s.data.length + alignSize < 2 ^ 32 then
    ({ s with data := s.data ++ bits ++ List.replicate (alignSize - bits.length) 0 }, true)
  else (s, false)

/-- **`OSSerialize::addBinaryObject` (`:112`)**: the object goes to `tags` before anything can
fail. -/
def addBinaryObject (s : OSSerialize) (o : Ident) (key : Nat) (bits : List UInt8) : OSSerialize × Bool :=
  let s := { s with tags := s.tags ++ [o] }
  let alignSize := align4 (bits.length + 4)
  if s.data.length + alignSize < 2 ^ 32 then
    let key := if s.endCollection then key ||| kOSSerializeEndCollecton else key
    ({ s with data := s.data ++ Bytes.le 4 key ++ bits ++ List.replicate (alignSize - 4 - bits.length) 0,
              endCollection := false }, true)
  else (s, false)

/-- The back-reference branch of `binarySerializeInternal` (`:225-237`). -/
def addBackReference (s : OSSerialize) (tagIdx : Nat) : OSSerialize × Bool :=
  let key := kOSSerializeObject ||| tagIdx
  let key := if s.endCollection then key ||| kOSSerializeEndCollecton else key
  addBinary { s with endCollection := false } (Bytes.le 4 key)

/-- The branches of `binarySerializeInternal` for an object that is not a collection
(`:298-320`). -/
def serializeScalar (s : OSSerialize) : OSObject → OSSerialize × Bool
  | .number id size value => addBinaryObject s (.obj id) (kOSSerializeNumber ||| size) (Bytes.le 8 value)
  | .boolean b => addBinaryObject s (.bool b) (kOSSerializeBoolean ||| (if b then 1 else 0)) []
  | .symbol str => addBinaryObject s (.sym str) (kOSSerializeSymbol ||| (str.length + 1)) (str ++ [0])
  | .string id str => addBinaryObject s (.obj id) (kOSSerializeString ||| str.length) str
  | .data id bytes disable =>
    let len := if disable then 0 else bytes.length
    addBinaryObject s (.obj id) (kOSSerializeData ||| len) (bytes.take len)
  | _ => (s, false)

/-- `ok = binarySerialize(v); if (!ok) ok = v->serialize(this);` with `ser` the first call. -/
def withFallback (ser : OSSerialize → OSSerialize × Bool) (s : OSSerialize) : OSSerialize × Bool :=
  let (s, ok) := ser s
  if ok then (s, true) else ser s

/-- `if (!ok) return false;` after a call: `body` runs on the state a call that succeeded left. -/
def andThen (r : OSSerialize × Bool) (body : OSSerialize → OSSerialize × Bool) : OSSerialize × Bool :=
  if r.2 then body r.1 else (r.1, false)

/-- `binarySerialize` of a dictionary key, an `OSSymbol`. -/
def serializeKey (s : OSSerialize) (k : List UInt8) : OSSerialize × Bool :=
  match s.tags.idxOf? (.sym k) with
  | some tagIdx => addBackReference s tagIdx
  | none => serializeScalar s (.symbol k)

mutual
/-- **`OSSerialize::binarySerializeInternal` (`:208`)**. -/
def binarySerializeInternal (s : OSSerialize) (o : OSObject) : OSSerialize × Bool :=
  match s.tags.idxOf? o.ident with
  | some tagIdx => addBackReference s tagIdx
  | none =>
    match o with
    | .dictionary id es =>
      andThen (addBinaryObject s (.obj id) (kOSSerializeDictionary ||| es.length) []) fun s =>
        serializeEntries s es.length 0 es
    | .array id es =>
      andThen (addBinaryObject s (.obj id) (kOSSerializeArray ||| es.length) []) fun s =>
        serializeElems s es.length 0 es
    | .set id ms =>
      andThen (addBinaryObject s (.obj id) (kOSSerializeSet ||| ms.length) []) fun s =>
        serializeElems s ms.length 0 ms
    | o@(.number ..) | o@(.boolean _) | o@(.symbol _) | o@(.string ..) | o@(.data ..) => serializeScalar s o

/-- The element loop of an array or a set; `i` elements are done, out of `count`. -/
def serializeElems (s : OSSerialize) (count i : Nat) : List OSObject → OSSerialize × Bool
  | [] => (s, true)
  | v :: vs =>
    andThen (withFallback (binarySerializeInternal · v) { s with endCollection := (i + 1 == count) }) fun s =>
      serializeElems s count (i + 1) vs

/-- The entry loop of a dictionary: the key, then the value with the end bit on the last. -/
def serializeEntries (s : OSSerialize) (count i : Nat) : List (List UInt8 × OSObject) → OSSerialize × Bool
  | [] => (s, true)
  | (k, v) :: es =>
    andThen (serializeKey s k) fun s =>
      andThen (withFallback (binarySerializeInternal · v) { s with endCollection := (i + 1 == count) }) fun s =>
        serializeEntries s count (i + 1) es
end

/-- **`OSSerialize::binarySerialize` (`:186`)**; without an index it only runs the internal
function. -/
def binarySerialize (s : OSSerialize) (o : OSObject) : OSSerialize × Bool :=
  binarySerializeInternal s o

/-- `binaryWithCapacity` and then `binarySerialize` of the root: the bytes `text()` returns. -/
def serializeBinary (inCapacity : Nat) (o : OSObject) : Option (List UInt8) :=
  match binaryWithCapacity inCapacity with
  | none => none
  | some s =>
    let (s, ok) := binarySerialize s o
    if ok then some s.data else none

theorem binarySerializeInternal_symbol (s : OSSerialize) (k : List UInt8) :
    binarySerializeInternal s (.symbol k) = serializeKey s k := by
  rw [binarySerializeInternal, serializeKey]
  rfl

end Libkern.Binary
