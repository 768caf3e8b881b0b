import Darwin.IOKit.StringFuncs

/-!
# The lexer of `OSUnserializeXML` (`libkern/c++/OSUnserializeXML.y:416-1089`)

`parseBuffer` is the list `buf`; memory past its end reads as NUL. The state keeps
`parseBufferIndex` and `lineNumber` of `parser_state_t` and, as ghosts, what the lexer reads and
writes: the index of every `currentChar()` and `nextChar()`, every byte `getString` reads back
from the span it measured, and every byte written into the buffers of `getCFEncodedData` and
`getHexData` with the length allocated at the time.

The local `c` of the C functions is the character last read, `cur buf s`: every assignment to it
is `c = currentChar()` or `c = nextChar()`, except in `getCFEncodedData`, which masks it first.
Allocations are taken to succeed.
-/

namespace Libkern.XML

open IOKit

/-- The bytes of a C string literal. -/
def lit (s : String) : List UInt8 := s.toList.map Char.toUInt8

/-- `TAG_MAX_LENGTH` and `TAG_MAX_ATTRIBUTES` (`:413`). -/
def TAG_MAX_LENGTH : Nat := 32

def TAG_MAX_ATTRIBUTES : Nat := 32

/-- `DATA_ALLOC_SIZE` (`:763`). -/
def DATA_ALLOC_SIZE : Nat := 4096

/-- `isSpace` (`:428`): no newline, which the callers count as a line. -/
def isSpace (c : UInt8) : Bool := c == ' '.toUInt8 || c == '\t'.toUInt8

def isAlpha (c : UInt8) : Bool :=
  ('A'.toUInt8 ≤ c && c ≤ 'Z'.toUInt8) || ('a'.toUInt8 ≤ c && c ≤ 'z'.toUInt8)

def isDigit (c : UInt8) : Bool := '0'.toUInt8 ≤ c && c ≤ '9'.toUInt8

/-- `isAlphaDigit`: the lower-case hex letters only. -/
def isAlphaDigit (c : UInt8) : Bool := 'a'.toUInt8 ≤ c && c ≤ 'f'.toUInt8

def isHexDigit (c : UInt8) : Bool := isDigit c || isAlphaDigit c

def isAlphaNumeric (c : UInt8) : Bool := isAlpha c || isDigit c || c == '-'.toUInt8

/-- The lexer's part of `parser_state_t`, with its ghost logs. -/
structure Lexer where
  parseBufferIndex : Nat
  lineNumber : Nat
  /-- Every index `currentChar()` or `nextChar()` read. -/
  reads : List Nat
  /-- Every read of `getString`'s decoding loop: `(start, length, index)`. -/
  spanReads : List (Nat × Nat × Nat)
  /-- Every byte written by `getCFEncodedData` or `getHexData`: `(index, allocated length)`. -/
  dataWrites : List (Nat × Nat)

/-- The state of `OSUnserializeXML` before the first token. -/
def Lexer.init : Lexer := ⟨0, 1, [], [], []⟩

section Chars

variable (buf : List UInt8)

def charAt (i : Nat) : UInt8 := buf.getD i 0

/-- The character last read: the value of the local `c`. -/
def cur (s : Lexer) : UInt8 := charAt buf s.parseBufferIndex

/-- `currentChar()`: a read at `parseBufferIndex`. -/
def currentChar (s : Lexer) : Lexer := { s with reads := s.reads ++ [s.parseBufferIndex] }

/-- `nextChar()`: `parseBuffer[++parseBufferIndex]`. -/
def nextChar (s : Lexer) : Lexer :=
  { s with parseBufferIndex := s.parseBufferIndex + 1, reads := s.reads ++ [s.parseBufferIndex + 1] }

/-- `if (c == '\n') lineNumber++;` for the character `c`. -/
def lineIf (c : UInt8) (s : Lexer) : Lexer := if c = '\n'.toUInt8 then { s with lineNumber := s.lineNumber + 1 } else s

/-- `if (c == '\n') lineNumber++;` for the character last read. -/
def countLine (s : Lexer) : Lexer := lineIf (cur buf s) s

@[simp] theorem currentChar_index (s : Lexer) : (currentChar s).parseBufferIndex = s.parseBufferIndex := rfl

@[simp] theorem nextChar_index (s : Lexer) : (nextChar s).parseBufferIndex = s.parseBufferIndex + 1 := rfl

@[simp] theorem lineIf_index (c : UInt8) (s : Lexer) : (lineIf c s).parseBufferIndex = s.parseBufferIndex := by
  unfold lineIf
  split <;> rfl

@[simp] theorem countLine_index (s : Lexer) : (countLine buf s).parseBufferIndex = s.parseBufferIndex :=
  lineIf_index _ s

@[simp] theorem cur_currentChar (s : Lexer) : cur buf (currentChar s) = cur buf s := rfl

@[simp] theorem cur_lineIf (c : UInt8) (s : Lexer) : cur buf (lineIf c s) = cur buf s := by
  unfold lineIf
  split <;> rfl

@[simp] theorem cur_countLine (s : Lexer) : cur buf (countLine buf s) = cur buf s := cur_lineIf buf _ s

/-- A character other than NUL is inside `buf`. -/
theorem lt_length_of_cur_ne_zero {s : Lexer} (h : cur buf s ≠ 0) : s.parseBufferIndex < buf.length := by
  by_contra hle
  apply h
  simp [cur, charAt, List.getD_eq_getElem?_getD, List.getElem?_eq_none (Nat.le_of_not_lt hle)]

end Chars

/-! ## `getTag` (`:437`) -/

/-- `TAG_BAD`, `TAG_START`, `TAG_END`, `TAG_EMPTY`, `TAG_IGNORE`. -/
inductive TagType where
  | tagBad
  | tagStart
  | tagEnd
  | tagEmpty
  | tagIgnore
  deriving DecidableEq, Repr

/-- The `tag` array and the `attributeCount` pairs of `attributes` and `values` that `getTag`
fills. -/
structure TagData where
  tag : List UInt8
  attributes : List (List UInt8 × List UInt8)
  deriving DecidableEq, Repr

section GetTag

variable (buf : List UInt8)

theorem ne_zero_of_isSpace {c : UInt8} (h : isSpace c = true) : c ≠ 0 := by
  rintro rfl
  exact absurd h (by decide)

theorem ne_zero_of_isAlphaNumeric {c : UInt8} (h : isAlphaNumeric c = true) : c ≠ 0 := by
  rintro rfl
  exact absurd h (by decide)

/-- `while (isSpace(c)) c = nextChar();` -/
def skipSpaces (s : Lexer) : Lexer :=
  if h : isSpace (cur buf s) then skipSpaces (nextChar s) else s
termination_by buf.length - s.parseBufferIndex
decreasing_by
  have := lt_length_of_cur_ne_zero buf (ne_zero_of_isSpace h)
  simp only [nextChar_index]
  omega

theorem skipSpaces_index_ge (s : Lexer) : s.parseBufferIndex ≤ (skipSpaces buf s).parseBufferIndex := by
  fun_induction skipSpaces buf s with
  | case1 s _ ih => simp only [nextChar_index] at ih; omega
  | case2 => exact Nat.le_refl _

/-- The loop of a `<!` declaration or comment, `while (c && (c = nextChar()) != 0)`. A comment
ends at `-->`; `--` not followed by `>` is `TAG_BAD`. -/
def declarationLoop (isComment : Bool) (s : Lexer) : TagType × Lexer :=
  if h : cur buf s = 0 then (.tagBad, s)
  else
    let s1 := nextChar s
    if cur buf s1 = 0 then (.tagBad, s1)
    else
      let s1 := countLine buf s1
      if isComment then
        if cur buf s1 ≠ '-'.toUInt8 then declarationLoop true s1
        else
          let s2 := nextChar s1
          if cur buf s2 ≠ '-'.toUInt8 then declarationLoop true s2
          else
            let s3 := nextChar s2
            if cur buf s3 = '>'.toUInt8 then (.tagIgnore, nextChar s3) else (.tagBad, s3)
      else if cur buf s1 = '>'.toUInt8 then (.tagIgnore, nextChar s1) else declarationLoop false s1
termination_by buf.length - s.parseBufferIndex
decreasing_by
  all_goals
    have := lt_length_of_cur_ne_zero buf h
    simp only [nextChar_index, countLine_index]
    omega

/-- The loop of a `<?` processing instruction, `while ((c = nextChar()) != 0)`: it ends at `?>`,
or at a NUL right after a `?`. -/
def instructionLoop (s : Lexer) : TagType × Lexer :=
  if h : cur buf (nextChar s) = 0 then (.tagBad, nextChar s)
  else if cur buf (nextChar s) ≠ '?'.toUInt8 then instructionLoop (countLine buf (nextChar s))
  else if cur buf (nextChar (countLine buf (nextChar s))) = 0 then
    (.tagIgnore, nextChar (countLine buf (nextChar s)))
  else if cur buf (nextChar (countLine buf (nextChar s))) = '>'.toUInt8 then
    (.tagIgnore, nextChar (nextChar (countLine buf (nextChar s))))
  else instructionLoop (nextChar (countLine buf (nextChar s)))
termination_by buf.length - s.parseBufferIndex
decreasing_by
  all_goals
    have := lt_length_of_cur_ne_zero buf h
    simp only [nextChar_index, countLine_index] at this ⊢
    omega

/-- The tag's name, `while (isAlphaNumeric(c)) { tag[length++] = c; c = nextChar(); ... }`;
`none` for `TAG_BAD` once it reaches `TAG_MAX_LENGTH - 1` characters. -/
def tagName (tag : List UInt8) (s : Lexer) : Option (List UInt8) × Lexer :=
  if isAlphaNumeric (cur buf s) then
    if TAG_MAX_LENGTH - 1 ≤ (tag ++ [cur buf s]).length then (none, nextChar s)
    else tagName (tag ++ [cur buf s]) (nextChar s)
  else (some tag, s)
termination_by TAG_MAX_LENGTH - tag.length
decreasing_by simp only [List.length_append, List.length_singleton] at *; omega

/-- An attribute's name: the same loop as `tagName` with the length test before `nextChar()`. -/
def attributeName (name : List UInt8) (s : Lexer) : Option (List UInt8) × Lexer :=
  if isAlphaNumeric (cur buf s) then
    if TAG_MAX_LENGTH - 1 ≤ (name ++ [cur buf s]).length then (none, s)
    else attributeName (name ++ [cur buf s]) (nextChar s)
  else (some name, s)
termination_by TAG_MAX_LENGTH - name.length
decreasing_by simp only [List.length_append, List.length_singleton] at *; omega

/-- An attribute's value after its opening quote, `while (c != '"')`. The NUL test follows
`nextChar()`: the character right after the quote is stored and passed even when it is NUL. -/
def attributeValue (value : List UInt8) (s : Lexer) : Option (List UInt8) × Lexer :=
  if cur buf s = '"'.toUInt8 then (some value, s)
  else if TAG_MAX_LENGTH - 1 ≤ (value ++ [cur buf s]).length then (none, s)
  else if cur buf (nextChar s) = 0 then (none, nextChar s)
  else attributeValue (value ++ [cur buf s]) (nextChar s)
termination_by TAG_MAX_LENGTH - value.length
decreasing_by simp only [List.length_append, List.length_singleton] at *; omega

/-- The attributes, `while ((c != '>') && (c != '/'))`, each `name = "value"`; `none` for
`TAG_BAD`, also once `TAG_MAX_ATTRIBUTES` of them are read. -/
def attributeLoop (attrs : List (List UInt8 × List UInt8)) (s : Lexer) :
    Option (List (List UInt8 × List UInt8)) × Lexer :=
  if cur buf s = '>'.toUInt8 ∨ cur buf s = '/'.toUInt8 then (some attrs, s)
  else
    match attributeName buf [] (skipSpaces buf s) with
    | (none, s) => (none, s)
    | (some name, s) =>
      let s := skipSpaces buf s
      if cur buf s ≠ '='.toUInt8 then (none, s)
      else
        let s := skipSpaces buf (nextChar s)
        if cur buf s ≠ '"'.toUInt8 then (none, s)
        else
          match attributeValue buf [] (nextChar s) with
          | (none, s) => (none, s)
          | (some value, s) =>
            -- `c = nextChar(); // skip closing quote`, then the count
            if TAG_MAX_ATTRIBUTES ≤ (attrs ++ [(name, value)]).length then (none, nextChar s)
            else attributeLoop (attrs ++ [(name, value)]) (nextChar s)
termination_by TAG_MAX_ATTRIBUTES - attrs.length
decreasing_by simp only [List.length_append, List.length_singleton] at *; omega

/-- The tag `<name attr="value" ...>`, `</name>` or `<name .../>` after its first letter. -/
def elementTag (tagType : TagType) (s : Lexer) : TagType × TagData × Lexer :=
  match tagName buf [] s with
  | (none, s) => (.tagBad, ⟨[], []⟩, s)
  | (some tag, s) =>
    match attributeLoop buf [] s with
    | (none, s) => (.tagBad, ⟨tag, []⟩, s)
    | (some attrs, s) =>
      let (tagType, s) := if cur buf s = '/'.toUInt8 then (TagType.tagEmpty, nextChar s) else (tagType, s)
      if cur buf s ≠ '>'.toUInt8 then (.tagBad, ⟨tag, attrs⟩, s) else (tagType, ⟨tag, attrs⟩, nextChar s)

/-- **`getTag` (`:437`)**: the tag at `parseBufferIndex`, which must start with `<`. -/
def getTag (s : Lexer) : TagType × TagData × Lexer :=
  let s := currentChar s
  if cur buf s ≠ '<'.toUInt8 then (.tagBad, ⟨[], []⟩, s)
  else
    let s := nextChar s
    if cur buf s = '!'.toUInt8 then
      let s := nextChar s
      -- `isComment = (c == '-') && ((c = nextChar()) != 0) && (c == '-')`
      let (isComment, s) :=
        if cur buf s = '-'.toUInt8 then (decide (cur buf (nextChar s) = '-'.toUInt8), nextChar s) else (false, s)
      if !isComment && !isAlpha (cur buf s) then (.tagBad, ⟨[], []⟩, s)
      else
        let r := declarationLoop buf isComment s
        (r.1, ⟨[], []⟩, r.2)
    else if cur buf s = '?'.toUInt8 then
      let r := instructionLoop buf s
      (r.1, ⟨[], []⟩, r.2)
    else
      let (tagType, s) := if cur buf s = '/'.toUInt8 then (TagType.tagEnd, nextChar s) else (.tagStart, s)
      if !isAlpha (cur buf s) then (.tagBad, ⟨[], []⟩, s) else elementTag buf tagType s

/-! ### Progress: no part of `getTag` moves back -/

theorem declarationLoop_index_ge (isComment : Bool) (s : Lexer) :
    s.parseBufferIndex ≤ (declarationLoop buf isComment s).2.parseBufferIndex := by
  fun_induction declarationLoop buf isComment s <;> simp +zetaDelta only [nextChar_index, countLine_index] at * <;> omega

theorem instructionLoop_index_gt (s : Lexer) : s.parseBufferIndex < (instructionLoop buf s).2.parseBufferIndex := by
  fun_induction instructionLoop buf s <;> simp +zetaDelta only [nextChar_index, countLine_index] at * <;> omega

theorem tagName_index_ge (tag : List UInt8) (s : Lexer) :
    s.parseBufferIndex ≤ (tagName buf tag s).2.parseBufferIndex := by
  fun_induction tagName buf tag s <;> simp +zetaDelta only [nextChar_index] at * <;> omega

theorem attributeName_index_ge (name : List UInt8) (s : Lexer) :
    s.parseBufferIndex ≤ (attributeName buf name s).2.parseBufferIndex := by
  fun_induction attributeName buf name s <;> simp +zetaDelta only [nextChar_index] at * <;> omega

theorem attributeValue_index_ge (value : List UInt8) (s : Lexer) :
    s.parseBufferIndex ≤ (attributeValue buf value s).2.parseBufferIndex := by
  fun_induction attributeValue buf value s <;> simp +zetaDelta only [nextChar_index] at * <;> omega

theorem attributeLoop_index_ge (attrs : List (List UInt8 × List UInt8)) (s : Lexer) :
    s.parseBufferIndex ≤ (attributeLoop buf attrs s).2.parseBufferIndex := by
  fun_induction attributeLoop buf attrs s
  all_goals grind [attributeName_index_ge, attributeValue_index_ge, skipSpaces_index_ge, nextChar_index]

theorem elementTag_index_ge (tagType : TagType) (s : Lexer) :
    s.parseBufferIndex ≤ (elementTag buf tagType s).2.2.parseBufferIndex := by
  have h1 := tagName_index_ge buf [] s
  unfold elementTag
  split
  · grind
  · have h2 := attributeLoop_index_ge buf [] ‹_›
    split
    · grind
    · split
      grind [nextChar_index]

/-- `getTag` fails at once unless it starts on `<`. -/
theorem getTag_of_ne {s : Lexer} (h : cur buf s ≠ '<'.toUInt8) : getTag buf s = (.tagBad, ⟨[], []⟩, currentChar s) := by
  simp [getTag, h]

/-- From a `<`, `getTag` consumes at least that character. -/
theorem getTag_index_gt {s : Lexer} (h : cur buf s = '<'.toUInt8) :
    s.parseBufferIndex < (getTag buf s).2.2.parseBufferIndex := by
  simp only [getTag, cur_currentChar, h, ne_eq, not_true_eq_false, if_false]
  split
  · split <;> split
    all_goals first
      | grind [declarationLoop_index_ge, nextChar_index, currentChar_index]
  · split
    · have := instructionLoop_index_gt buf (nextChar (currentChar s))
      grind [nextChar_index, currentChar_index]
    · split <;> split
      all_goals first
        | grind [elementTag_index_ge, nextChar_index, currentChar_index]

theorem getTag_index_gt_of_ne_bad {s : Lexer} (h : (getTag buf s).1 ≠ .tagBad) :
    s.parseBufferIndex < (getTag buf s).2.2.parseBufferIndex := by
  by_cases hc : cur buf s = '<'.toUInt8
  · exact getTag_index_gt buf hc
  · rw [getTag_of_ne buf hc] at h
    exact absurd rfl h

end GetTag

/-! ## Payloads (`:597-882`) -/

section Payloads

variable (buf : List UInt8)

/-- `getString`'s scan for the end of the text, `while (c != 0)`, stopping at `<`. -/
def stringScan (s : Lexer) : Lexer :=
  if h : cur buf s = 0 then s
  else if cur buf s = '<'.toUInt8 then countLine buf s
  else stringScan (nextChar (countLine buf s))
termination_by buf.length - s.parseBufferIndex
decreasing_by
  have := lt_length_of_cur_ne_zero buf h
  simp only [nextChar_index, countLine_index]
  omega

/-- A read `parseBuffer[start + i]` of the decoding loop. -/
def spanRead (start length i : Nat) (s : Lexer) : Lexer :=
  { s with spanReads := s.spanReads ++ [(start, length, start + i)] }

/-- `if (state->parseBuffer[start + i++] != e) goto error;` for the characters `es` of an
entity, from `i` on: whether they all match, and the state after the reads. -/
def spanExpect (start length : Nat) : Nat → List UInt8 → Lexer → Bool × Lexer
  | _, [], s => (true, s)
  | i, e :: es, s =>
    if charAt buf (start + i) = e then spanExpect start length (i + 1) es (spanRead start length i s)
    else (false, spanRead start length i s)

/-- The copy of `[start, start + length)` into `tempString`, `&amp;`, `&lt;` and `&gt;` replaced
by their characters; `none` for `goto error`. -/
def stringCopy (start length : Nat) (i : Nat) (out : List UInt8) (s : Lexer) : Option (List UInt8) × Lexer :=
  if hi : i < length then
    if charAt buf (start + i) ≠ '&'.toUInt8 then
      stringCopy start length (i + 1) (out ++ [charAt buf (start + i)]) (spanRead start length i s)
    else if length < i + 1 + 3 then (none, spanRead start length i s)
    else if charAt buf (start + i + 1) = 'l'.toUInt8 then
      match spanExpect buf start length (i + 2) (lit "t;") (spanRead start length (i + 1) (spanRead start length i s)) with
      | (true, s) => stringCopy start length (i + 4) (out ++ ['<'.toUInt8]) s
      | (false, s) => (none, s)
    else if charAt buf (start + i + 1) = 'g'.toUInt8 then
      match spanExpect buf start length (i + 2) (lit "t;") (spanRead start length (i + 1) (spanRead start length i s)) with
      | (true, s) => stringCopy start length (i + 4) (out ++ ['>'.toUInt8]) s
      | (false, s) => (none, s)
    else if length < i + 2 + 3 then (none, spanRead start length (i + 1) (spanRead start length i s))
    else if charAt buf (start + i + 1) = 'a'.toUInt8 then
      match spanExpect buf start length (i + 2) (lit "mp;") (spanRead start length (i + 1) (spanRead start length i s)) with
      | (true, s) => stringCopy start length (i + 5) (out ++ ['&'.toUInt8]) s
      | (false, s) => (none, s)
    else (none, spanRead start length (i + 1) (spanRead start length i s))
  else (some out, s)
termination_by length - i

/-- **`getString` (`:597`)**: the text up to the next `<`, its entities decoded; `none` for
`NULL`, at the end of the buffer or after a bad entity. -/
def getString (s : Lexer) : Option (List UInt8) × Lexer :=
  let s := currentChar s
  let start := s.parseBufferIndex
  let s := stringScan buf s
  if cur buf s ≠ '<'.toUInt8 then (none, s) else stringCopy buf start (s.parseBufferIndex - start) 0 [] s

/-- `while (isDigit(c)) { n = (n * base + c - '0'); c = nextChar(); }` in `unsigned long long`. -/
def decimalLoop (n : Nat) (s : Lexer) : Nat × Lexer :=
  if h : isDigit (cur buf s) then
    decimalLoop ((n * 10 + ((cur buf s).toNat - '0'.toNat)) % 2 ^ 64) (nextChar s)
  else (n, s)
termination_by buf.length - s.parseBufferIndex
decreasing_by
  have : cur buf s ≠ 0 := by intro h0; rw [h0] at h; exact absurd h (by decide)
  have := lt_length_of_cur_ne_zero buf this
  simp only [nextChar_index]
  omega

/-- The hexadecimal digit loop of `getNumber`: lower-case letters only. -/
def hexLoop (n : Nat) (s : Lexer) : Nat × Lexer :=
  if h : isHexDigit (cur buf s) then
    let d := if isDigit (cur buf s) then (cur buf s).toNat - '0'.toNat else 0xa + (cur buf s).toNat - 'a'.toNat
    hexLoop ((n * 16 + d) % 2 ^ 64) (nextChar s)
  else (n, s)
termination_by buf.length - s.parseBufferIndex
decreasing_by
  have : cur buf s ≠ 0 := by intro h0; rw [h0] at h; exact absurd h (by decide)
  have := lt_length_of_cur_ne_zero buf this
  simp only [nextChar_index]
  omega

/-- **`getNumber` (`:700`)**: `0x` and hexadecimal digits, or an optional `-` and decimal
digits, as an `unsigned long long`. -/
def getNumber (s : Lexer) : Nat × Lexer :=
  let s := currentChar s
  let (base, s) :=
    if cur buf s = '0'.toUInt8 then
      if cur buf (nextChar s) = 'x'.toUInt8 then (16, nextChar (nextChar s)) else (10, nextChar s)
    else (10, s)
  if base = 10 then
    let (negate, s) := if cur buf s = '-'.toUInt8 then (true, nextChar s) else (false, s)
    let (n, s) := decimalLoop buf 0 s
    (if negate then (2 ^ 64 - n) % 2 ^ 64 else n, s)
  else hexLoop buf 0 s

/-- `__CFPLDataDecodeTable` (`:744`): the value of a base64 character, `-1` for the others;
`=` counts as a zero digit. -/
def CFPLDataDecodeTable : List Int :=
  [-1, -1, -1, -1, -1, -1, -1, -1,
   -1, -1, -1, -1, -1, -1, -1, -1,
   -1, -1, -1, -1, -1, -1, -1, -1,
   -1, -1, -1, -1, -1, -1, -1, -1,
   -1, -1, -1, -1, -1, -1, -1, -1,
   -1, -1, -1, 62, -1, -1, -1, 63,
   52, 53, 54, 55, 56, 57, 58, 59,
   60, 61, -1, -1, -1, 0, -1, -1,
   -1, 0, 1, 2, 3, 4, 5, 6,
   7, 8, 9, 10, 11, 12, 13, 14,
   15, 16, 17, 18, 19, 20, 21, 22,
   23, 24, 25, -1, -1, -1, -1, -1,
   -1, 26, 27, 28, 29, 30, 31, 32,
   33, 34, 35, 36, 37, 38, 39, 40,
   41, 42, 43, 44, 45, 46, 47, 48,
   49, 50, 51, -1, -1, -1, -1, -1]

/-- The locals of `getCFEncodedData`'s loop. -/
structure CFDecoder where
  numeq : Nat
  cntr : Nat
  acc : Nat
  /-- `tmpbuf[0 .. tmpbufpos)`. -/
  tmpbuf : List UInt8
  tmpbuflen : Nat

/-- `tmpbuf[tmpbufpos++] = b` for each `b` of `bs`, logged with the length allocated. -/
def CFDecoder.emit (d : CFDecoder) (bs : List UInt8) (s : Lexer) : CFDecoder × Lexer :=
  ({ d with tmpbuf := d.tmpbuf ++ bs },
    { s with dataWrites := s.dataWrites ++ (List.range bs.length).map fun k => (d.tmpbuf.length + k, d.tmpbuflen) })

/-- One base64 digit `v` of value: four of them are three bytes, fewer after `=` padding. -/
def CFDecoder.digit (d : CFDecoder) (v : Nat) (s : Lexer) : CFDecoder × Lexer :=
  let d := { d with cntr := d.cntr + 1, acc := (d.acc * 64 + v) % 2 ^ 32 }
  if d.cntr % 4 = 0 then
    -- `if (tmpbuflen <= tmpbufpos + 2)` the buffer grows by `DATA_ALLOC_SIZE`
    let d := if d.tmpbuflen ≤ d.tmpbuf.length + 2 then { d with tmpbuflen := d.tmpbuflen + DATA_ALLOC_SIZE } else d
    d.emit ([(d.acc / 2 ^ 16 % 256).toUInt8] ++ (if d.numeq < 2 then [(d.acc / 2 ^ 8 % 256).toUInt8] else []) ++
      (if d.numeq < 1 then [(d.acc % 256).toUInt8] else [])) s
  else (d, s)

/-- The body of `getCFEncodedData`'s loop on the masked character `c`, up to its
`c = nextChar()`. -/
def cfStep (d : CFDecoder) (c : UInt8) (s : Lexer) : CFDecoder × Lexer :=
  let d := { d with numeq := if c = '='.toUInt8 then d.numeq + 1 else 0 }
  match CFPLDataDecodeTable.getD c.toNat (-1) with
  | .negSucc _ => (d, lineIf c s)
  | .ofNat v => d.digit v (lineIf c s)

@[simp] theorem CFDecoder.emit_index (d : CFDecoder) (bs : List UInt8) (s : Lexer) :
    (d.emit bs s).2.parseBufferIndex = s.parseBufferIndex := rfl

@[simp] theorem CFDecoder.digit_index (d : CFDecoder) (v : Nat) (s : Lexer) :
    (d.digit v s).2.parseBufferIndex = s.parseBufferIndex := by
  unfold CFDecoder.digit
  dsimp only
  split <;> simp

theorem cfStep_index (d : CFDecoder) (c : UInt8) (s : Lexer) :
    (cfStep d c s).2.parseBufferIndex = s.parseBufferIndex := by
  unfold cfStep
  cases CFPLDataDecodeTable.getD c.toNat (-1) <;> simp

/-- The loop of `getCFEncodedData`, `while (c != '<')` with `c &= 0x7f` first. -/
def cfLoop (d : CFDecoder) (s : Lexer) : Option (List UInt8) × Lexer :=
  if cur buf s = '<'.toUInt8 then (if d.tmpbuf = [] then none else some d.tmpbuf, s)
  else if h : cur buf s &&& 0x7f = 0 then (none, s)
  else cfLoop (cfStep d (cur buf s &&& 0x7f) s).1 (nextChar (cfStep d (cur buf s &&& 0x7f) s).2)
termination_by buf.length - s.parseBufferIndex
decreasing_by
  have : cur buf s ≠ 0 := by intro h0; rw [h0] at h; exact h rfl
  have := lt_length_of_cur_ne_zero buf this
  simp only [nextChar_index, cfStep_index]
  omega

/-- **`getCFEncodedData` (`:766`)**: the bytes of the base64 text up to the next `<`; `none` for
`NULL`, at a NUL or when there are none. -/
def getCFEncodedData (s : Lexer) : Option (List UInt8) × Lexer :=
  cfLoop buf ⟨0, 0, 0, [], DATA_ALLOC_SIZE⟩ (currentChar s)

/-- The value of a hexadecimal digit of `getHexData`. -/
def hexNibble (c : UInt8) : Option Nat :=
  if isDigit c then some (c.toNat - '0'.toNat)
  else if isAlphaDigit c then some (0xa + (c.toNat - 'a'.toNat))
  else none

theorem ne_zero_of_hexNibble {c : UInt8} {v : Nat} (h : hexNibble c = some v) : c ≠ 0 := by
  rintro rfl
  rw [show hexNibble 0 = none by decide] at h
  cases h

/-- The buffer of `getHexData`: the bytes `start[0 .. d)`, its length `buflen` and `lastStart`. -/
structure HexBuffer where
  bytes : List UInt8
  buflen : Nat
  lastStart : Nat

/-- `*d = hi << 4 | lo; d++;`, then the buffer grows by `DATA_ALLOC_SIZE` once
`d - lastStart` reaches it. -/
def HexBuffer.push (h : HexBuffer) (b : UInt8) (s : Lexer) : HexBuffer × Lexer :=
  let s := { s with dataWrites := s.dataWrites ++ [(h.bytes.length, h.buflen)] }
  let h := { h with bytes := h.bytes ++ [b] }
  if DATA_ALLOC_SIZE ≤ h.bytes.length - h.lastStart then
    ({ h with buflen := h.buflen + DATA_ALLOC_SIZE, lastStart := h.bytes.length }, s)
  else (h, s)

theorem HexBuffer.push_index (h : HexBuffer) (b : UInt8) (s : Lexer) :
    (h.push b s).2.parseBufferIndex = s.parseBufferIndex := by
  unfold HexBuffer.push
  dsimp only
  split <;> rfl

/-- The loop of `getHexData`, `while (c != '<')`: spaces skipped, a newline counted, else two
hexadecimal digits; `none` for `goto error`. -/
def hexDataLoop (hb : HexBuffer) (s : Lexer) : Option (List UInt8) × Lexer :=
  if cur buf s = '<'.toUInt8 then (some hb.bytes, s)
  else if hn : cur buf (skipSpaces buf s) = '\n'.toUInt8 then
    hexDataLoop hb (nextChar (countLine buf (skipSpaces buf s)))
  else
    match hhi : hexNibble (cur buf (skipSpaces buf s)) with
    | none => (none, skipSpaces buf s)
    | some hi =>
      match hexNibble (cur buf (nextChar (skipSpaces buf s))) with
      | none => (none, nextChar (skipSpaces buf s))
      | some lo =>
        let r := hb.push (hi * 16 + lo).toUInt8 (nextChar (skipSpaces buf s))
        hexDataLoop r.1 (nextChar r.2)
termination_by buf.length - s.parseBufferIndex
decreasing_by
  · have h1 := skipSpaces_index_ge buf s
    have h2 := lt_length_of_cur_ne_zero buf (show cur buf (skipSpaces buf s) ≠ 0 by rw [hn]; decide)
    simp only [nextChar_index, countLine_index]
    omega
  · have h1 := skipSpaces_index_ge buf s
    have h2 := lt_length_of_cur_ne_zero buf (ne_zero_of_hexNibble hhi)
    simp only [nextChar_index, HexBuffer.push_index]
    omega

/-- **`getHexData` (`:822`)**: pairs of hexadecimal digits up to the next `<`; `none` for `NULL`
after a character that is not one. -/
def getHexData (s : Lexer) : Option (List UInt8) × Lexer :=
  hexDataLoop buf ⟨[], DATA_ALLOC_SIZE, 0⟩ (currentChar s)

end Payloads

/-! ## `yylex` (`:884`) -/

/-- The tokens of the grammar with the fields of the `object_t` that `yylex` fills for them:
`idref` from an `ID` attribute (`-1` without one), `number` of a boolean or an integer, `size`
of an integer, the bytes of a data and the characters of a key or a string. -/
inductive Token where
  | eof
  | syntaxError
  | lbrace (idref : Int)
  | rbrace
  | lparen (idref : Int)
  | rparen
  | lbracket (idref : Int)
  | rbracket
  | dictionary (idref : Int)
  | array (idref : Int)
  | set (idref : Int)
  | boolean (number : Nat)
  | data (idref : Int) (bytes : List UInt8)
  | idref (idref : Int)
  | key (idref : Int) (string : List UInt8)
  | number (idref : Int) (size : Nat) (number : Nat)
  | string (idref : Int) (string : List UInt8)
  deriving DecidableEq, Repr

/-- A `long` stored into an `int`: the low 32 bits, as a signed number. -/
def toCInt (x : Int) : Int := (x + 2 ^ 31) % 2 ^ 32 - 2 ^ 31

/-- The loop over the attributes for `ID` and `IDREF`: `.inl` for a token it returns, else the
`idref` of the last `ID`. An `IDREF` makes any empty tag a reference. -/
def idAttributes (tagType : TagType) (idref : Int) : List (List UInt8 × List UInt8) → Token ⊕ Int
  | [] => .inr idref
  | (a, v) :: rest =>
    if a.getD 0 0 = 'I'.toUInt8 ∧ a.getD 1 0 = 'D'.toUInt8 then
      if a.getD 2 0 = 'R'.toUInt8 ∧ a.getD 3 0 = 'E'.toUInt8 ∧ a.getD 4 0 = 'F'.toUInt8 ∧ a.getD 5 0 = 0 then
        if tagType ≠ .tagEmpty then .inl .syntaxError else .inl (.idref (toCInt (strtol v 0)))
      else if a.getD 2 0 = 0 then idAttributes tagType (toCInt (strtol v 0)) rest
      else .inl .syntaxError
    else idAttributes tagType idref rest

section Yylex

variable (buf : List UInt8)

/-- `if ((getTag(...) != TAG_END) || strcmp(tag, name)) return SYNTAX_ERROR;` then `tok`. -/
def closeWith (name : List UInt8) (tok : Token) (s : Lexer) : Token × Lexer :=
  match getTag buf s with
  | (.tagEnd, td, s) => (if td.tag = name then tok else .syntaxError, s)
  | (_, _, s) => (.syntaxError, s)

/-- The `switch (*tag)` of `yylex` for a tag other than `plist`, with its `idref`. -/
def tagToken (tagType : TagType) (td : TagData) (idref : Int) (s : Lexer) : Token × Lexer :=
  if td.tag = lit "array" then
    (if tagType = .tagEmpty then .array idref else if tagType = .tagStart then .lparen idref else .rparen, s)
  else if td.tag = lit "dict" then
    (if tagType = .tagEmpty then .dictionary idref else if tagType = .tagStart then .lbrace idref else .rbrace, s)
  else if td.tag = lit "data" then
    if tagType = .tagEmpty then (.data idref [], s)
    else
      -- CF encoded is the default form
      let isHexFormat := td.attributes.any fun av => av.1 = lit "format" ∧ av.2 = lit "hex"
      let r := if isHexFormat then getHexData buf s else getCFEncodedData buf s
      closeWith buf (lit "data") (.data idref (r.1.getD [])) r.2
  else if td.tag = lit "false" then (if tagType = .tagEmpty then .boolean 0 else .syntaxError, s)
  else if td.tag = lit "integer" then
    -- `object->size = strtoul(values[i], NULL, 0)`, 64 by default; an `int`, read back unsigned
    let size := td.attributes.foldl (fun size av => if av.1 = lit "size" then strtoul av.2 0 % 2 ^ 32 else size) 64
    if tagType = .tagEmpty then (.number idref size 0, s)
    else
      let r := getNumber buf s
      closeWith buf (lit "integer") (.number idref size r.1) r.2
  else if td.tag = lit "key" then
    if tagType = .tagEmpty then (.syntaxError, s)
    else
      match getString buf s with
      | (none, s) => (.syntaxError, s)
      | (some str, s) => closeWith buf (lit "key") (.key idref str) s
  else if td.tag = lit "string" then
    if tagType = .tagEmpty then (.string idref [], s)
    else
      match getString buf s with
      | (none, s) => (.syntaxError, s)
      | (some str, s) => closeWith buf (lit "string") (.string idref str) s
  else if td.tag = lit "set" then
    (if tagType = .tagEmpty then .set idref else if tagType = .tagStart then .lbracket idref else .rbracket, s)
  else if td.tag = lit "true" then (if tagType = .tagEmpty then .boolean 1 else .syntaxError, s)
  else (.syntaxError, s)

/-- **`yylex` (`:884`)**: spaces and newlines skipped, `0` at the NUL, else the token of the next
tag; comments, declarations, processing instructions and `plist` tags are skipped (`goto top`). -/
def yylex (s : Lexer) : Token × Lexer :=
  if hn : cur buf (skipSpaces buf (currentChar s)) = '\n'.toUInt8 then
    yylex (nextChar (countLine buf (skipSpaces buf (currentChar s))))
  else if h0 : cur buf (skipSpaces buf (currentChar s)) = 0 then (.eof, skipSpaces buf (currentChar s))
  else
    match hg : getTag buf (skipSpaces buf (currentChar s)) with
    | (tagType, td, s') =>
      if hb : tagType = .tagBad then (.syntaxError, s')
      else if tagType = .tagIgnore then yylex s'
      else
        -- `newObject`, then the attributes, then the `switch`
        match idAttributes tagType (-1) td.attributes with
        | .inl tok => (tok, s')
        | .inr idref => if td.tag = lit "plist" then yylex s' else tagToken buf tagType td idref s'
termination_by buf.length - s.parseBufferIndex
decreasing_by
  all_goals
    have h1 := skipSpaces_index_ge buf (currentChar s)
    simp only [currentChar_index] at h1
  · have h2 := lt_length_of_cur_ne_zero buf (show cur buf (skipSpaces buf (currentChar s)) ≠ 0 by rw [hn]; decide)
    simp only [nextChar_index, countLine_index]
    omega
  all_goals
    have h2 := lt_length_of_cur_ne_zero buf h0
    have h3 := getTag_index_gt_of_ne_bad buf (s := skipSpaces buf (currentChar s)) (by rw [hg]; exact hb)
    rw [hg] at h3
    simp only at h3
    omega

/-- An attribute value cut off by the NUL right after its opening quote: `<a b="`. -/
def unterminatedValue : List UInt8 := lit "<a b=\"" ++ [0]

/-- The value loop stores the NUL after the quote and calls `nextChar()` before its NUL test: the
first `yylex` reads index 7, past the terminator at index 6. -/
theorem yylex_reads_past_nul :
    unterminatedValue.idxOf 0 = 6 ∧ 7 ∈ (yylex unterminatedValue Lexer.init).2.reads := by
  decide +kernel

end Yylex

end Libkern.XML
