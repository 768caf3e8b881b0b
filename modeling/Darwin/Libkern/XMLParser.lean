import Darwin.Libkern.XMLLexer
import Darwin.Libkern.UnserializeBinary

/-!
# The parser of `OSUnserializeXML` (`libkern/c++/OSUnserializeXML.y:175-403`, `:1095-1413`)

The grammar, with the actions that build objects:

    input    : /* empty */ | object | SYNTAX_ERROR
    object   : dict | array | set | string | data | number | boolean | idref
    dict     : '{' '}' | '{' pairs '}' | DICTIONARY
    pairs    : pair | pairs pair
    pair     : key object
    key      : KEY
    array    : '(' ')' | '(' elements ')' | ARRAY
    set      : '[' ']' | '[' elements ']' | SET
    elements : object | elements object

Every state of the generated LALR automaton (`OSUnserializeXML.cpp`) that shifts has no default
reduction except state 0, whose default is `input: /* empty */`; every other reduction is the
state's only action and is taken without a look-ahead. So `yyparse` reads a token exactly when it
must choose a shift, and the parser is the recursive descent below: a token that cannot be shifted
is `syntax error`, except in state 0, where it is `unexpected end of buffer`.

The state stack holds one state per grammar symbol read plus state 0. The kernel compiles the
skeleton as C++ with a `YYSTYPE` (`object_t *`) not declared trivial, so `YYSTACK_RELOCATE` is not
defined and the stack never grows past `YYINITDEPTH`: a shift onto `k` states with
`YYINITDEPTH ≤ k + 1` is `memory exhausted`. Reductions pop at least one state for the one they
push, so only shifts can fill the stack.

Objects are named by their index in `objs`, which starts with `kOSBooleanFalse` and
`kOSBooleanTrue`; a symbol is looked up among those built before (`OSSymbol::withCString`).
Allocations succeed. The recursion runs on `fuel`, one unit per call, which
`OSUnserializeXML` gives as one more than the buffer's length: every token shifted is at a later
position of the buffer than the one before.
-/

namespace Libkern.XML

open Libkern.Binary (DObj)

/-- `MAX_OBJECTS` and `MAX_REFED_OBJECTS` (`:67`). -/
def MAX_OBJECTS : Nat := 131071

def MAX_REFED_OBJECTS : Nat := 65535

/-- `YYINITDEPTH` (`OSUnserializeXML.cpp:983`): the size of the parser's stacks. -/
def YYINITDEPTH : Nat := 200

/-- The parser's part of `parser_state_t` with the lexer's. -/
structure Parser where
  lexer : Lexer
  /-- Every object built, by index. -/
  objs : List DObj
  /-- `state->tags`: each key `rememberObject` set, with its object, the latest first. -/
  tags : List (Nat × Nat)
  parsedObjectCount : Nat
  retrievedObjectCount : Nat

/-- The state `OSUnserializeXML` starts `yyparse` from. -/
def Parser.init : Parser := ⟨Lexer.init, [.boolean false, .boolean true], [], 0, 0⟩

/-- What `OSUnserializeerror` reports: the message and `lineNumber`. -/
structure ParseError where
  message : String
  lineNumber : Nat
  deriving DecidableEq, Repr

/-- `yyerror(msg)`, then `YYERROR` or `YYABORT`. -/
def fail {α : Type} (msg : String) (p : Parser) : Except ParseError α := .error ⟨msg, p.lexer.lineNumber⟩

/-- `snprintf(key, 16, "%u", tag)`: the `int` read as unsigned. -/
def tagKey (tag : Int) : Nat := (tag % 2 ^ 32).toNat

/-- **`rememberObject` (`:1163`)**: `state->tags->setObject(key, o)`. -/
def rememberObject (tag : Int) (o : Nat) (p : Parser) : Parser := { p with tags := (tagKey tag, o) :: p.tags }

/-- `if (o->idref >= 0) rememberObject(state, o->idref, ...)`. -/
def rememberIf (idref : Int) (o : Nat) (p : Parser) : Parser := if 0 ≤ idref then rememberObject idref o p else p

/-- **`retrieveObject` (`:1174`)**: the object remembered under `tag`. -/
def retrieveObject (tag : Int) (p : Parser) : Option Nat := p.tags.lookup (tagKey tag)

/-- A new object: its index. -/
def Parser.alloc (o : DObj) (p : Parser) : Nat × Parser := (p.objs.length, { p with objs := p.objs ++ [o] })

/-- `OSSet::initWithObjects` (`OSSet.cpp:72`): each object not yet a member is appended. -/
def setMembers (members : List Nat) : List Nat → List Nat
  | [] => members
  | o :: os => if o ∈ members then setMembers members os else setMembers (members ++ [o]) os

/-- `sizeMask` (`OSNumber.cpp:40`), `~0ULL >> (64 - size)`; the shift by 64 of `size == 0` is
taken modulo 64, as the hardware does. -/
def sizeMask (size : Nat) : Nat := (2 ^ 64 - 1) >>> ((64 - size) % 64)

/-- **`buildDictionary` (`:1189`)**: `dict->setObject(o->key, o->object)` for each pair in order.
A `NULL` key is refused by `setObject`, and its `release()` then dereferences it. -/
def buildDictionary (idref : Int) (pairs : List (Option (List UInt8) × Nat)) (p : Parser) :
    Except ParseError (Nat × Parser) :=
  match pairs.mapM fun e => e.1.map fun k => (k, e.2) with
  | none => fail "NULL key" p
  | some entries =>
    let (o, p) := p.alloc (.dictionary entries)
    .ok (o, rememberIf idref o p)

/-- **`buildArray` (`:1230`)**. -/
def buildArray (idref : Int) (elems : List Nat) (p : Parser) : Nat × Parser :=
  let (o, p) := p.alloc (.array elems)
  (o, rememberIf idref o p)

/-- **`buildSet` (`:1265`)**: `OSSet::withArray` of the array `buildArray` made, remembered in its
place. The array is not kept: nothing can name it. -/
def buildSet (idref : Int) (elems : List Nat) (p : Parser) : Nat × Parser :=
  let (o, p) := p.alloc (.set (setMembers [] elems))
  (o, rememberIf idref o p)

/-- **`buildString` (`:1282`)**: `OSString::withCString` refuses `kMaxStringLength` characters. -/
def buildString (idref : Int) (s : List UInt8) (p : Parser) : Except ParseError (Nat × Parser) :=
  if kMaxStringLength ≤ s.length then fail "buildString" p
  else
    let (o, p) := p.alloc (.string s)
    .ok (o, rememberIf idref o p)

/-- **`buildSymbol` (`:1298`)**: the existing symbol, else a new one, which
`OSString::initWithCString` refuses at `kMaxStringLength` characters (`NULL`, remembered nowhere).
The key is its characters. -/
def buildSymbol (idref : Int) (s : List UInt8) (p : Parser) : Option (List UInt8) × Parser :=
  match p.objs.idxOf? (.symbol s) with
  | some o => (some s, rememberIf idref o p)
  | none =>
    if kMaxStringLength ≤ s.length then (none, p)
    else
      let (o, p) := p.alloc (.symbol s)
      (some s, rememberIf idref o p)

/-- **`buildData` (`:1314`)**. -/
def buildData (idref : Int) (bytes : List UInt8) (p : Parser) : Nat × Parser :=
  let (o, p) := p.alloc (.data bytes)
  (o, rememberIf idref o p)

/-- **`buildNumber` (`:1336`)**: `OSNumber::withNumber` refuses more than 64 bits. -/
def buildNumber (idref : Int) (size number : Nat) (p : Parser) : Except ParseError (Nat × Parser) :=
  if 64 < size then fail "buildNumber" p
  else
    let (o, p) := p.alloc (.number size (number &&& sizeMask size))
    .ok (o, rememberIf idref o p)

/-- **`buildBoolean` (`:1349`)**: `kOSBooleanFalse` or `kOSBooleanTrue`. -/
def buildBoolean (number : Nat) : Nat := if number = 0 then 0 else 1

/-- `STATE->parsedObjectCount++` and its test, after every `object` reduction. -/
def countObject (o : Nat) (p : Parser) : Except ParseError (Nat × Parser) :=
  let p := { p with parsedObjectCount := p.parsedObjectCount + 1 }
  if MAX_OBJECTS < p.parsedObjectCount then fail "maximum object count" p else .ok (o, p)

/-- The action of `object: idref`: the remembered object, counted as retrieved and as parsed. -/
def retrieveIdref (idref : Int) (p : Parser) : Except ParseError (Nat × Parser) :=
  match retrieveObject idref p with
  | none => fail "forward reference detected" p
  | some o =>
    let p := { p with retrievedObjectCount := p.retrievedObjectCount + 1 }
    if MAX_REFED_OBJECTS < p.retrievedObjectCount then fail "maximum object reference count" p
    else countObject o p

/-- The tokens that begin an `object`. -/
def Token.startsObject : Token → Bool
  | .lbrace _ | .lparen _ | .lbracket _ | .dictionary _ | .array _ | .set _ | .boolean _ | .data .. | .idref _
  | .number .. | .string .. => true
  | _ => false

/-- A scalar token, which is one `object` by itself: the object's index. -/
def buildScalar (tok : Token) (p : Parser) : Except ParseError (Nat × Parser) :=
  match tok with
  | .dictionary idref => buildDictionary idref [] p
  | .array idref => .ok (buildArray idref [] p)
  | .set idref => .ok (buildSet idref [] p)
  | .string idref s => buildString idref s p
  | .data idref bytes => .ok (buildData idref bytes p)
  | .number idref size number => buildNumber idref size number p
  | .boolean number => .ok (buildBoolean number, p)
  | _ => fail "syntax error" p

section Parse

variable (buf : List UInt8)

/-- `yylex` for the next look-ahead. -/
def Parser.lex (p : Parser) : Token × Parser :=
  let r := yylex buf p.lexer
  (r.1, { p with lexer := r.2 })

/-- The states on the stack below the next element of a collection whose opening token sits at
height `h`: the opening token alone before the first, with `elements` or `pairs` after it. -/
def elementBase (h : Nat) (first : Bool) : Nat := if first then h else h + 1

mutual
/-- **`object`** from its first token `tok`, with `k` states on the stack: the object's index. -/
def parseObject : Nat → Nat → Token → Parser → Except ParseError (Nat × Parser)
  | 0, _, _, p => fail "fuel" p
  | fuel + 1, k, tok, p =>
    if !tok.startsObject then fail "syntax error" p
    else if YYINITDEPTH ≤ k + 1 then fail "memory exhausted" p
    else
      match tok with
      | .lbrace idref =>
        let (t, p) := p.lex buf
        match parsePairs fuel (k + 1) [] t p with
        | .error e => .error e
        | .ok (pairs, p) =>
          match buildDictionary idref pairs p with
          | .error e => .error e
          | .ok (o, p) => countObject o p
      | .lparen idref =>
        let (t, p) := p.lex buf
        match parseElements fuel false (k + 1) [] t p with
        | .error e => .error e
        | .ok (elems, p) =>
          let (o, p) := buildArray idref elems p
          countObject o p
      | .lbracket idref =>
        let (t, p) := p.lex buf
        match parseElements fuel true (k + 1) [] t p with
        | .error e => .error e
        | .ok (elems, p) =>
          let (o, p) := buildSet idref elems p
          countObject o p
      | .idref idref => retrieveIdref idref p
      | tok =>
        match buildScalar tok p with
        | .error e => .error e
        | .ok (o, p) => countObject o p

/-- **`elements`** of an array (`)` closes it) or a set (`]`), after `acc`, from the look-ahead `t`;
the opening token sits at height `h`. -/
def parseElements : Nat → Bool → Nat → List Nat → Token → Parser → Except ParseError (List Nat × Parser)
  | 0, _, _, _, _, p => fail "fuel" p
  | fuel + 1, isSet, h, acc, t, p =>
    if t = (if isSet then .rbracket else .rparen) then
      if YYINITDEPTH ≤ elementBase h (acc = []) + 1 then fail "memory exhausted" p else .ok (acc, p)
    else
      match parseObject fuel (elementBase h (acc = [])) t p with
      | .error e => .error e
      | .ok (o, p) =>
        let (t, p) := p.lex buf
        parseElements fuel isSet h (acc ++ [o]) t p

/-- **`pairs`** of a dictionary after `acc`, from the look-ahead `t`; the `{` sits at height `h`.
Each pair after the first is checked against the earlier keys (`pairs: pairs pair`). -/
def parsePairs : Nat → Nat → List (Option (List UInt8) × Nat) → Token → Parser →
    Except ParseError (List (Option (List UInt8) × Nat) × Parser)
  | 0, _, _, _, p => fail "fuel" p
  | fuel + 1, h, acc, t, p =>
    match t with
    | .rbrace =>
      if YYINITDEPTH ≤ elementBase h (acc = []) + 1 then fail "memory exhausted" p else .ok (acc, p)
    | .key idref s =>
      if YYINITDEPTH ≤ elementBase h (acc = []) + 1 then fail "memory exhausted" p
      else
        -- `key: KEY` is reduced before the value's first token is read
        let (key, p) := buildSymbol idref s p
        let (t, p) := p.lex buf
        match parseObject fuel (elementBase h (acc = []) + 1) t p with
        | .error e => .error e
        | .ok (v, p) =>
          if acc.any (fun e => e.1 == key) then fail "duplicate dictionary key" p
          else
            let (t, p) := p.lex buf
            parsePairs fuel h (acc ++ [(key, v)]) t p
    | _ => fail "syntax error" p
end

/-- **`yyparse`**: `input` from state 0, the only state whose default reduction
(`input: /* empty */`) is taken on a token it cannot shift. -/
def yyparse (fuel : Nat) (p : Parser) : Except ParseError (Nat × Parser) :=
  let (t, p) := p.lex buf
  if t.startsObject then parseObject buf fuel 1 t p
  else if t = .syntaxError then fail "syntax error" p
  else fail "unexpected end of buffer" p

end Parse

/-- **`OSUnserializeXML` (`:1374`)** of the NUL-terminated `buffer`: the objects built and the
index of `parsedObject`, or `NULL`. -/
def OSUnserializeXML (buffer : List UInt8) : Option (List DObj × Nat) :=
  match yyparse buffer (buffer.length + 1) Parser.init with
  | .ok (o, p) => some (p.objs, o)
  | .error _ => none

/-- The error `OSUnserializeXML` reports, `"OSUnserializeXML: %s near line %d\n"`. -/
def OSUnserializeXMLError (buffer : List UInt8) : Option ParseError :=
  match yyparse buffer (buffer.length + 1) Parser.init with
  | .ok _ => none
  | .error e => some e

theorem OSUnserializeXML_eq_none_of_error {buffer : List UInt8} {e : ParseError}
    (h : OSUnserializeXMLError buffer = some e) : OSUnserializeXML buffer = none := by
  unfold OSUnserializeXMLError at h
  unfold OSUnserializeXML
  split at h
  · exact absurd h (by simp)
  · next he => rw [he]

end Libkern.XML
