import Darwin.Libkern.XMLLexer
import Darwin.Libkern.OSObject

/-!
# The XML serializer (`libkern/c++/OSSerialize.cpp:79-190` and the classes' `serialize`)

An `OSSerialize` made by `withCapacity`, not binary: the text written so far and `tags`, every
object `previouslySerialized` has seen, whose index an `ID` or `IDREF` attribute carries. The
buffer is taken to grow as long as the 32-bit `length`, which counts the NUL after the text,
has room. Booleans are written without an `ID` and never tagged.
-/

namespace Libkern.XML

open OSObject

/-- An XML `OSSerialize`: `data[0 .. length - 1)` and `tags`. -/
structure XMLSerialize where
  data : List UInt8
  tags : List Ident

/-- `if (!step) return false;`, then `body` on the state `step` left. -/
def andThen (r : XMLSerialize × Bool) (body : XMLSerialize → XMLSerialize × Bool) : XMLSerialize × Bool :=
  if r.2 then body r.1 else (r.1, false)

/-- **`OSSerialize::addChar` (`:160`)**. -/
def addChar (s : XMLSerialize) (c : UInt8) : XMLSerialize × Bool :=
  if s.data.length + 2 < 2 ^ 32 then ({ s with data := s.data ++ [c] }, true) else (s, false)

/-- The characters of a nonempty string, each with `addChar`, up to the first that fails. -/
def addChars (s : XMLSerialize) : List UInt8 → XMLSerialize × Bool
  | [] => (s, true)
  | c :: cs => andThen (addChar s c) fun s => addChars s cs

/-- **`OSSerialize::addString` (`:181`)**: `rc` starts `false`, so the empty string fails. -/
def addString (s : XMLSerialize) : List UInt8 → XMLSerialize × Bool
  | [] => (s, false)
  | c :: cs => addChars s (c :: cs)

/-- `snprintf(temp, sizeof(temp), "%u", n)`. -/
def decimal (n : Nat) : List UInt8 := (Nat.toDigits 10 n).map Char.toUInt8

/-- **`OSSerialize::previouslySerialized` (`:79`)**: `true` after writing a reference to an
object seen before (the result of `addString` is not checked), else `false` with the object
appended to `tags`. -/
def previouslySerialized (s : XMLSerialize) (o : Ident) : Bool × XMLSerialize :=
  match s.tags.idxOf? o with
  | some tagIdx =>
    let s := (addString s (lit "<reference IDREF=\"")).1
    let s := (addString s (decimal tagIdx)).1
    (true, (addString s (lit "\"/>")).1)
  | none => (false, { s with tags := s.tags ++ [o] })

/-- **`OSSerialize::addXMLStartTag` (`:108`)**: `<tagString ID="n">` for the index `n` of `o` in
`tags`. -/
def addXMLStartTag (s : XMLSerialize) (o : Ident) (tagString : List UInt8) : XMLSerialize × Bool :=
  andThen (addChar s '<'.toUInt8) fun s =>
  andThen (addString s tagString) fun s =>
  andThen (addString s (lit " ID=\"")) fun s =>
  andThen (addString s (decimal (s.tags.idxOf o))) fun s =>
  andThen (addChar s '"'.toUInt8) fun s =>
  addChar s '>'.toUInt8

/-- **`OSSerialize::addXMLEndTag` (`:142`)**: `</tagString>`. -/
def addXMLEndTag (s : XMLSerialize) (tagString : List UInt8) : XMLSerialize × Bool :=
  andThen (addChar s '<'.toUInt8) fun s =>
  andThen (addChar s '/'.toUInt8) fun s =>
  andThen (addString s tagString) fun s =>
  addChar s '>'.toUInt8

/-- The loop `while (*c)` of `OSString::serialize` and of a key in `OSDictionary::serialize`:
`<`, `>` and `&` as entities. -/
def addEscaped (s : XMLSerialize) : List UInt8 → XMLSerialize × Bool
  | [] => (s, true)
  | c :: cs =>
    if c = 0 then (s, true)
    else
      andThen
        (if c = '<'.toUInt8 then addString s (lit "&lt;")
          else if c = '>'.toUInt8 then addString s (lit "&gt;")
          else if c = '&'.toUInt8 then addString s (lit "&amp;")
          else addChar s c)
        fun s => addEscaped s cs

/-- `__CFPLDataEncodeTable` (`OSData.cpp:504`). -/
def CFPLDataEncodeTable : List UInt8 := lit "ABCDEFGHIJKLMNOPQRSTUVWXYZabcdefghijklmnopqrstuvwxyz0123456789+/"

def encodeChar (v : Nat) : UInt8 := CFPLDataEncodeTable.getD v 0

/-- The base64 loop of `OSData::serialize` (`OSData.cpp:507`) from byte `i`, `prev` being
`p[-1]`, then the padding after the last byte. -/
def addDataBytes (s : XMLSerialize) (i : Nat) (prev : UInt8) : List UInt8 → XMLSerialize × Bool
  | [] =>
    if i % 3 = 1 then
      andThen (addChar s (encodeChar ((prev.toNat * 16) &&& 0x30))) fun s =>
      andThen (addChar s '='.toUInt8) fun s => addChar s '='.toUInt8
    else if i % 3 = 2 then
      andThen (addChar s (encodeChar ((prev.toNat * 4) &&& 0x3c))) fun s => addChar s '='.toUInt8
    else (s, true)
  | b :: bs =>
    if i % 3 = 0 then
      andThen (addChar s (encodeChar ((b.toNat / 4) &&& 0x3f))) fun s => addDataBytes s (i + 1) b bs
    else if i % 3 = 1 then
      andThen (addChar s (encodeChar (((prev.toNat * 256 + b.toNat) / 16) &&& 0x3f))) fun s =>
        addDataBytes s (i + 1) b bs
    else
      andThen (addChar s (encodeChar (((prev.toNat * 256 + b.toNat) / 64) &&& 0x3f))) fun s =>
      andThen (addChar s (encodeChar (b.toNat &&& 0x3f))) fun s => addDataBytes s (i + 1) b bs

/-- `0x%lx`, or `0x%lx%08lx` of the two halves when the high one is not zero
(`OSNumber.cpp:190`). -/
def hexValue (value : Nat) : List UInt8 :=
  let hex (n : Nat) : List UInt8 := (Nat.toDigits 16 n).map Char.toUInt8
  if value / 2 ^ 32 ≠ 0 then
    lit "0x" ++ hex (value / 2 ^ 32) ++
      List.replicate (8 - (hex (value % 2 ^ 32)).length) '0'.toUInt8 ++ hex (value % 2 ^ 32)
  else lit "0x" ++ hex value

/-- `if (s->previouslySerialized(this)) return true;` before `body`. -/
def withPrevious (s : XMLSerialize) (o : Ident) (body : XMLSerialize → XMLSerialize × Bool) : XMLSerialize × Bool :=
  match previouslySerialized s o with
  | (true, s) => (s, true)
  | (false, s) => body s

/-- `OSString::serialize` (`OSString.cpp:358`), also `OSSymbol`'s. -/
def serializeString (s : XMLSerialize) (o : Ident) (str : List UInt8) : XMLSerialize × Bool :=
  withPrevious s o fun s =>
    andThen (addXMLStartTag s o (lit "string")) fun s =>
    andThen (addEscaped s str) fun s => addXMLEndTag s (lit "string")

mutual
/-- **`serialize(OSSerialize *)`** of the eight classes (`OSDictionary.cpp:723`,
`OSArray.cpp:479`, `OSSet.cpp:390`, `OSNumber.cpp:176`, `OSBoolean.cpp:138`,
`OSString.cpp:358`, `OSData.cpp:507`). -/
def serialize (s : XMLSerialize) : OSObject → XMLSerialize × Bool
  | .dictionary id es =>
    withPrevious s (.obj id) fun s =>
      andThen (addXMLStartTag s (.obj id) (lit "dict")) fun s =>
      andThen (serializeEntries s es) fun s => addXMLEndTag s (lit "dict")
  | .array id es =>
    withPrevious s (.obj id) fun s =>
      andThen (addXMLStartTag s (.obj id) (lit "array")) fun s =>
      andThen (serializeList s es) fun s => addXMLEndTag s (lit "array")
  | .set id ms =>
    withPrevious s (.obj id) fun s =>
      andThen (addXMLStartTag s (.obj id) (lit "set")) fun s =>
      andThen (serializeList s ms) fun s => addXMLEndTag s (lit "set")
  | .number id size value =>
    withPrevious s (.obj id) fun s =>
      andThen (addXMLStartTag s (.obj id) (lit "integer size=\"" ++ decimal size ++ lit "\"")) fun s =>
      andThen (addString s (hexValue value)) fun s => addXMLEndTag s (lit "integer")
  | .boolean b => addString s (if b then lit "<true/>" else lit "<false/>")
  | .symbol str => serializeString s (.sym str) str
  | .string id str => serializeString s (.obj id) str
  | .data id bytes disable =>
    withPrevious s (.obj id) fun s =>
      andThen (addXMLStartTag s (.obj id) (lit "data")) fun s =>
      andThen (addDataBytes s 0 0 (if disable then [] else bytes)) fun s => addXMLEndTag s (lit "data")

/-- The elements of an array or the members of a set, in order. -/
def serializeList (s : XMLSerialize) : List OSObject → XMLSerialize × Bool
  | [] => (s, true)
  | v :: vs => andThen (serialize s v) fun s => serializeList s vs

/-- The entries of a dictionary: `<key>`, the key's characters, `</key>`, then the value. -/
def serializeEntries (s : XMLSerialize) : List (List UInt8 × OSObject) → XMLSerialize × Bool
  | [] => (s, true)
  | (k, v) :: es =>
    andThen (addString s (lit "<key>")) fun s =>
    andThen (addEscaped s k) fun s =>
    andThen (addXMLEndTag s (lit "key")) fun s =>
    andThen (serialize s v) fun s => serializeEntries s es
end

/-- `OSSerialize::withCapacity` and `serialize` of the root: the text `text()` holds before its
NUL. -/
def serializeXML (o : OSObject) : Option (List UInt8) :=
  let (s, ok) := serialize ⟨[], []⟩ o
  if ok then some s.data else none

end Libkern.XML
