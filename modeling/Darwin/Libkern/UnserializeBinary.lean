import Darwin.Lib.Bytes
import Darwin.Libkern.OSObject
import Darwin.Libkern.BinaryFormat

/-!
# The binary decoder (`libkern/c++/OSSerializeBinary.cpp:330-633`)

`OSUnserializeBinary` reads a buffer of `bufferSize` bytes through the memory `mem`; the memory
past the buffer is arbitrary. One iteration of its `while (ok)` loop is `step`: read a key, build
or look up the object (the `switch`), store it in `objsArray`, add it to the collection being
filled, then descend into a new collection or unwind the container stack on an end bit.

`objsArray` is `objs` (its length is `objsIdx`); `stackArray` is a list of `stackCapacity` slots
indexed by `stackIdx`. Objects are named by their index in `objsArray`; two indices name one
object exactly when `objIdent` says so (`kOSBooleanTrue` is one object, and `OSSymbol`s are
uniqued). Reference counts and the final `release` loop are not modelled; allocation succeeds.

Three ghost logs record what the loop touches: `reads`, every byte offset of the buffer read;
`refs`, every back reference followed, with `objsIdx` at that moment; `stackAccess`, every index
of `stackArray` read or written, with `stackCapacity` at that moment.
-/

namespace Libkern.Binary

/-- An object the decoder has built, as `objsArray` holds it: a collection refers to its members by
their index in `objsArray`, a dictionary to its keys by their characters. -/
inductive DObj where
  | dictionary (entries : List (List UInt8 × Nat))
  | array (elems : List Nat)
  | set (members : List Nat)
  | number (size : Nat) (value : Nat)
  | boolean (b : Bool)
  | symbol (s : List UInt8)
  | string (s : List UInt8)
  | data (bytes : List UInt8)
  deriving DecidableEq, Repr

/-- The identity of the object at index `i` of `objsArray`: the pointer that `OSSet::containsObject`
compares. -/
def objIdent (objs : List DObj) (i : Nat) : Ident :=
  match objs[i]? with
  | some (.boolean b) => .bool b
  | some (.symbol s) => .sym s
  | _ => .obj i

def objsCapacityMax : Nat := 16 * 1024 * 1024
def stackCapacityMax : Nat := 64

/-- The state of `OSUnserializeBinary` at the head of its loop. -/
structure Unser where
  bufferPos : Nat
  /-- The byte offset `next` points to. -/
  next : Nat
  objs : List DObj
  objsCapacity : Nat
  stackArray : List (Option Nat)
  stackCapacity : Nat
  stackIdx : Nat
  parent : Option Nat
  dict : Option Nat
  array : Option Nat
  set : Option Nat
  sym : Option Nat
  result : Option Nat
  reads : List Nat
  refs : List (Nat × Nat)
  stackAccess : List (Nat × Nat)

/-- One iteration's outcome: go round again, or leave the loop with `ok`. -/
inductive Step where
  | cont (s : Unser)
  | stop (s : Unser) (ok : Bool)

def Step.bind : Step → (Unser → Step) → Step
  | .cont s, f => f s
  | .stop s ok, _ => .stop s ok

@[simp] theorem Step.cont_bind (s : Unser) (f : Unser → Step) : (Step.cont s).bind f = f s := rfl
@[simp] theorem Step.stop_bind (s : Unser) (ok : Bool) (f : Unser → Step) :
    (Step.stop s ok).bind f = .stop s ok := rfl

/-! ## The library constructors the `switch` calls -/

/-- `strnlen(p, maxlen)`: the index of the first NUL at `p`, or `maxlen`. -/
def strnlen (mem : Nat → UInt8) (p : Nat) : Nat → Nat
  | 0 => 0
  | n + 1 => if mem p = 0 then 0 else strnlen mem (p + 1) n + 1

/-- The `n` bytes at `p`. -/
def bytesAt (mem : Nat → UInt8) (p n : Nat) : List UInt8 := (List.range n).map (fun i => mem (p + i))

/-- **`OSSymbol::withCString`** (`OSSymbol.cpp:571`, via `OSString::initWithCString`): the
characters before the first NUL, refused from `kMaxStringLength` on; the offsets it reads. -/
def symbolWithCString (mem : Nat → UInt8) (p : Nat) : Option DObj × List Nat :=
  let n := strnlen mem p kMaxStringLength
  if n ≥ kMaxStringLength then (none, Bytes.span p n)
  else (some (.symbol (bytesAt mem p n)), Bytes.span p (n + 1))

/-- **`OSString::withStringOfLength`** (`OSString.cpp:106`): refused from `kMaxStringLength` on and
when the bytes hold a NUL. -/
def stringWithStringOfLength (mem : Nat → UInt8) (p len : Nat) : Option DObj × List Nat :=
  if len ≥ kMaxStringLength then (none, [])
  else
    let n := strnlen mem p len
    if n < len then (none, Bytes.span p (n + 1))
    else (some (.string (bytesAt mem p len)), Bytes.span p len)

/-- **`OSNumber::withNumber`** (`OSNumber.cpp:57`): `value & sizeMask`. -/
def numberWithNumber (value len : Nat) : DObj := .number len (value &&& (2 ^ len - 1))

/-! ## One iteration -/

/-- What a record's `switch` produced: `o` (none is `NULL`), and the locals it set. -/
structure Fetched where
  /-- A new object, or the index a back reference names. -/
  o : Option (DObj ⊕ Nat)
  newCollect : Bool
  hasLength : Bool

/-- `o` is `NULL`: the `switch` gave up on the record. -/
def Fetched.null : Fetched := ⟨none, false, false⟩

/-- `wordLen = (len + 3) >> 2`. -/
def wordLen (len : Nat) : Nat := (len + 3) >>> 2

/-- `case kOSSerializeObject:` (`:463`). -/
def fetchObject (s : Unser) (len : Nat) : Unser × Fetched :=
  if len ≥ s.objs.length then (s, .null)
  else ({ s with refs := s.refs ++ [(len, s.objs.length)] }, ⟨some (.inr len), false, false⟩)

/-- `case kOSSerializeNumber:` (`:471`). -/
def fetchNumber (mem : Nat → UInt8) (bufferSize : Nat) (s : Unser) (len : Nat) : Unser × Fetched :=
  let bufferPos := s.bufferPos + 8
  if bufferPos > bufferSize then ({ s with bufferPos }, .null)
  else if len ≠ 32 ∧ len ≠ 64 ∧ len ≠ 16 ∧ len ≠ 8 then ({ s with bufferPos }, .null)
  else
    let value := (Bytes.rd 4 mem (s.next + 4) <<< 32) ||| Bytes.rd 4 mem s.next
    ({ s with bufferPos, next := s.next + 8, reads := s.reads ++ Bytes.span s.next 8 },
      ⟨some (.inl (numberWithNumber value len)), false, false⟩)

/-- `case kOSSerializeSymbol:` (`:486`): the NUL at `next[len - 1]` is checked first. -/
def fetchSymbol (mem : Nat → UInt8) (bufferSize : Nat) (s : Unser) (len : Nat) : Unser × Fetched :=
  let bufferPos := s.bufferPos + wordLen len * 4
  if bufferPos > bufferSize then ({ s with bufferPos }, .null)
  else if len < 2 then ({ s with bufferPos }, .null)
  else
    let s := { s with bufferPos, reads := s.reads ++ [s.next + len - 1] }
    if mem (s.next + len - 1) ≠ 0 then (s, .null)
    else
      let (o, rs) := symbolWithCString mem s.next
      ({ s with next := s.next + wordLen len * 4, reads := s.reads ++ rs }, ⟨o.map .inl, false, false⟩)

/-- `case kOSSerializeString:` (`:501`). -/
def fetchString (mem : Nat → UInt8) (bufferSize : Nat) (s : Unser) (len : Nat) : Unser × Fetched :=
  let bufferPos := s.bufferPos + wordLen len * 4
  if bufferPos > bufferSize then ({ s with bufferPos }, .null)
  else
    let (o, rs) := stringWithStringOfLength mem s.next len
    ({ s with bufferPos, next := s.next + wordLen len * 4, reads := s.reads ++ rs }, ⟨o.map .inl, false, false⟩)

/-- `case kOSSerializeData:` (`:510`). -/
def fetchData (mem : Nat → UInt8) (bufferSize : Nat) (s : Unser) (len : Nat) : Unser × Fetched :=
  let bufferPos := s.bufferPos + wordLen len * 4
  if bufferPos > bufferSize then ({ s with bufferPos }, .null)
  else
    ({ s with bufferPos, next := s.next + wordLen len * 4, reads := s.reads ++ Bytes.span s.next len },
      ⟨some (.inl (.data (bytesAt mem s.next len))), false, false⟩)

/-- The `switch (kOSSerializeTypeMask & key)` (`:443-531`), after the key was read. -/
def fetch (mem : Nat → UInt8) (bufferSize : Nat) (indexed : Bool) (s : Unser) (key : Nat) : Unser × Fetched :=
  let len := key &&& kOSSerializeDataMask
  let t := kOSSerializeTypeMask &&& key
  if t = kOSSerializeDictionary then (s, ⟨some (.inl (.dictionary [])), len != 0, indexed⟩)
  else if t = kOSSerializeArray then (s, ⟨some (.inl (.array [])), len != 0, indexed⟩)
  else if t = kOSSerializeSet then (s, ⟨some (.inl (.set [])), len != 0, indexed⟩)
  else if t = kOSSerializeObject then fetchObject s len
  else if t = kOSSerializeNumber then fetchNumber mem bufferSize s len
  else if t = kOSSerializeSymbol then fetchSymbol mem bufferSize s len
  else if t = kOSSerializeString then fetchString mem bufferSize s len
  else if t = kOSSerializeData then fetchData mem bufferSize s len
  else if t = kOSSerializeBoolean then (s, ⟨some (.inl (.boolean (len != 0))), false, false⟩)
  else (s, .null)

/-- `if (hasLength)`: the indexed format's length word after a collection's key (`:537-544`). -/
def readLength (bufferSize : Nat) (hasLength : Bool) (s : Unser) : Step :=
  if hasLength then
    let bufferPos := s.bufferPos + 4
    if bufferPos > bufferSize then .stop { s with bufferPos } false
    else .cont { s with bufferPos, next := s.next + 4, reads := s.reads ++ Bytes.span s.next 4 }
  else .cont s

/-- `setAtIndex(objs, objsIdx, o)` and `objsIdx++` for a new object (`:546-553`). -/
def storeObject (o : DObj) (s : Unser) : Step :=
  if s.objs.length ≥ s.objsCapacity then
    if s.objsCapacity ≥ objsCapacityMax then .stop s false
    else .cont { s with objsCapacity := s.objsCapacity + 64, objs := s.objs ++ [o] }
  else .cont { s with objs := s.objs ++ [o] }

/-- `OSDictionary::setObject(aKey, anObject)` (`OSDictionary.cpp:379`): replace the value of a
present key, else append. -/
def setEntry (es : List (List UInt8 × Nat)) (k : List UInt8) (v : Nat) : List (List UInt8 × Nat) :=
  if k ∈ es.map Prod.fst then es.map (fun e => if e.1 = k then (k, v) else e) else es ++ [(k, v)]

/-- The characters of the key object at index `k`: a symbol's, or the symbol
`OSSymbol::withString` makes of a string; `NULL` for anything else. -/
def keyOf (objs : List DObj) (k : Nat) : Option (List UInt8) :=
  match objs[k]? with
  | some (.symbol s) => some s
  | some (.string s) => some s
  | _ => none

/-- Update the collection at index `i`. -/
def modifyObj (objs : List DObj) (i : Nat) (f : DObj → DObj) : List DObj := objs.modify i f

/-- Adding `o` to the collection being filled, or making it the result (`:555-596`). -/
def attach (s : Unser) (o : Nat) : Step :=
  match s.dict, s.array, s.set with
  | some d, _, _ =>
    match s.sym with
    | none => .cont { s with sym := some o }
    | some k =>
      let s' := { s with sym := none }
      if o = d then .cont s'
      else
        match keyOf s.objs k with
        | none => .stop s' false
        | some key =>
          .cont { s' with objs := modifyObj s.objs d fun
                    | .dictionary es => .dictionary (setEntry es key o)
                    | x => x }
  | none, some a, _ => .cont { s with objs := modifyObj s.objs a fun
                                | .array es => .array (es ++ [o])
                                | x => x }
  | none, none, some st =>
    match s.objs[st]? with
    | some (.set ms) =>
      if ms.any (fun m => objIdent s.objs m == objIdent s.objs o) then .stop s false
      else .cont { s with objs := modifyObj s.objs st fun _ => .set (ms ++ [o]) }
    | _ => .cont s
  | none, none, none =>
    if s.result.isSome then .stop s false else .cont { s with result := some o }

/-- `if (newCollect)`: push `parent` and make the new collection current (`:602-614`). -/
def descend (o : Nat) (c : DObj) (s : Unser) : Step :=
  let stackIdx := s.stackIdx + 1
  let grow := stackIdx ≥ s.stackCapacity
  if grow ∧ s.stackCapacity ≥ stackCapacityMax then .stop { s with stackIdx } false
  else
    let (arr, cap) := if grow then (s.stackArray ++ List.replicate 64 none, s.stackCapacity + 64)
                      else (s.stackArray, s.stackCapacity)
    .cont { s with stackIdx, stackArray := arr.set stackIdx s.parent, stackCapacity := cap,
                   stackAccess := s.stackAccess ++ [(stackIdx, cap)],
                   parent := some o,
                   dict := if c matches .dictionary _ then some o else none,
                   array := if c matches .array _ then some o else none,
                   set := if c matches .set _ then some o else none }

/-- `while (stackIdx) { parent = stackArray[stackIdx]; stackIdx--; if (parent) break; }`, with
`stackIdx` as fuel. -/
def popParent (s : Unser) : Nat → Unser
  | 0 => s
  | n + 1 =>
    let parent := s.stackArray.getD s.stackIdx none
    let s := { s with parent, stackIdx := s.stackIdx - 1,
                      stackAccess := s.stackAccess ++ [(s.stackIdx, s.stackCapacity)] }
    if parent.isSome then s else popParent s n

/-- `if (end)`: unwind to the innermost collection still open (`:616-631`). -/
def unwind (s : Unser) : Step :=
  let s := popParent { s with parent := none } s.stackIdx
  match s.parent with
  | none => .stop s true
  | some p =>
    let s := { s with set := none, dict := none, array := none }
    match s.objs[p]? with
    | some (DObj.dictionary _) => .cont { s with dict := some p }
    | some (DObj.array _) => .cont { s with array := some p }
    | some (DObj.set _) => .cont { s with set := some p }
    | _ => .stop s false

/-- The rest of an iteration once the `switch` produced `fo` (`:533-632`): the indexed format's
length word, storing a new object, adding it to the collection being filled, then the push of a new
collection or the unwinding on an end bit. -/
def finish (bufferSize : Nat) (end_ : Bool) (s : Unser) (fo : DObj ⊕ Nat) (newCollect hasLength : Bool) : Step :=
  let o := match fo with | .inl _ => s.objs.length | .inr i => i
  (readLength bufferSize hasLength s).bind fun s =>
  (match fo with | .inl c => storeObject c s | .inr _ => .cont s).bind fun s =>
  (attach s o).bind fun s =>
  let s := if end_ then { s with parent := none } else s
  match fo, newCollect with
  | .inl c, true => descend o c s
  | _, _ => if end_ then unwind s else .cont s

/-- **One iteration of the `while (ok)` loop (`:414-632`).** -/
def step (mem : Nat → UInt8) (bufferSize : Nat) (indexed : Bool) (s : Unser) : Step :=
  let bufferPos := s.bufferPos + 4
  if bufferPos > bufferSize then .stop { s with bufferPos } false
  else
    let key := Bytes.rd 4 mem s.next
    let s := { s with bufferPos, next := s.next + 4, reads := s.reads ++ Bytes.span s.next 4 }
    let end_ := key &&& kOSSerializeEndCollecton != 0
    match fetch mem bufferSize indexed s key with
    | (s, ⟨none, _, _⟩) => .stop s false
    | (s, ⟨some fo, newCollect, hasLength⟩) => finish bufferSize end_ s fo newCollect hasLength

/-- The loop, with `fuel` iterations at most; `none` when the fuel ran out. -/
def loop (mem : Nat → UInt8) (bufferSize : Nat) (indexed : Bool) : Nat → Unser → Option (Unser × Bool)
  | 0, _ => none
  | fuel + 1, s =>
    match step mem bufferSize indexed s with
    | .cont s => loop mem bufferSize indexed fuel s
    | .stop s ok => some (s, ok)

/-- The state before the loop: past the signature, nothing built. -/
def Unser.init (reads : List Nat) : Unser :=
  ⟨4, 4, [], 0, [], 0, 0, none, none, none, none, none, none, reads, [], []⟩

/-- The signature checks (`:395-407`): `none` for `NULL`, else whether the buffer is in the
indexed format; and the offsets the checks read. `aligned` is `!(3 & (uintptr_t) buffer)`. -/
def checkSignature (mem : Nat → UInt8) (bufferSize : Nat) (aligned : Bool) : Option Bool × List Nat :=
  if bufferSize < 4 then (none, [])
  else if (mem 0).toNat = kOSSerializeIndexedBinarySignature then (if aligned then some true else none, [0])
  -- `strcmp(kOSSerializeBinarySignature, buffer)` reads `buffer[1]` only after a match at 0
  else if mem 0 ≠ 0xD3 then (none, [0, 0])
  else if mem 1 ≠ 0 then (none, [0, 0, 1])
  else (if aligned then some false else none, [0, 0, 1])

/-- The loop run of `OSUnserializeBinary` from its initial state: the last state and `ok`, or the
offsets read before the signature check returned `NULL`. Every iteration consumes four bytes at
least, so `bufferSize / 4 + 1` iterations are enough. -/
def unserializeRun (mem : Nat → UInt8) (bufferSize : Nat) (aligned : Bool) : Option (Unser × Bool) ⊕ List Nat :=
  match checkSignature mem bufferSize aligned with
  | (none, rs) => .inr rs
  | (some indexed, rs) => .inl (loop mem bufferSize indexed (bufferSize / 4 + 1) (Unser.init rs))

/-- **`OSUnserializeBinary` (`:355`)**: the objects built and the index of the result, or `NULL`. -/
def OSUnserializeBinary (mem : Nat → UInt8) (bufferSize : Nat) (aligned : Bool) : Option (List DObj × Nat) :=
  match unserializeRun mem bufferSize aligned with
  | .inl (some (s, true)) => s.result.map (s.objs, ·)
  | _ => none

end Libkern.Binary
