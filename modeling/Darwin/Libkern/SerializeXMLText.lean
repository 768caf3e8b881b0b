import Darwin.Libkern.SerializeXML

/-!
# What the XML serializer writes

`lexemes` lists what `serialize` writes as the pieces one call of `yylex` reads back: a
collection's start and end tags, a `<key>` element, a whole string, number or data element, a
boolean and a reference. `serialize_wrote` says that `serialize` writes their text, or fills the
buffer; so a serialization that succeeds is that text (`serializeXML_eq_some`) and one whose text
fits always succeeds (`serializeXML_of_fits`).

`previouslySerialized` ignores the results of the `addString`s of a reference, so a reference can
report success with the buffer full; the collection around it then fails at its end tag.
-/

namespace Libkern.XML

open OSObject

/-! ## The pieces of the text -/

/-- The three collections, by the name of their tag. -/
inductive Coll where
  | dict
  | array
  | set
  deriving DecidableEq, Repr

def Coll.name : Coll → List UInt8
  | .dict => lit "dict"
  | .array => lit "array"
  | .set => lit "set"

/-- What the serializer writes, as `yylex` reads it: one token each. -/
inductive Lexeme where
  | startTag (c : Coll) (id : Nat)
  | endTag (c : Coll)
  | key (k : List UInt8)
  | string (id : Nat) (s : List UInt8)
  | number (id size value : Nat)
  | data (id : Nat) (bytes : List UInt8)
  | boolean (b : Bool)
  | reference (id : Nat)
  deriving DecidableEq, Repr

/-- One character as `addEscaped` writes it. -/
def escapeChar (c : UInt8) : List UInt8 :=
  if c = '<'.toUInt8 then lit "&lt;"
  else if c = '>'.toUInt8 then lit "&gt;"
  else if c = '&'.toUInt8 then lit "&amp;"
  else [c]

/-- The text `addEscaped` writes: the characters before the first NUL. -/
def escape : List UInt8 → List UInt8
  | [] => []
  | c :: cs => if c = 0 then [] else escapeChar c ++ escape cs

/-- The text `addDataBytes` writes. -/
def base64 (i : Nat) (prev : UInt8) : List UInt8 → List UInt8
  | [] =>
    if i % 3 = 1 then [encodeChar ((prev.toNat * 16) &&& 0x30), '='.toUInt8, '='.toUInt8]
    else if i % 3 = 2 then [encodeChar ((prev.toNat * 4) &&& 0x3c), '='.toUInt8]
    else []
  | b :: bs =>
    if i % 3 = 0 then encodeChar ((b.toNat / 4) &&& 0x3f) :: base64 (i + 1) b bs
    else if i % 3 = 1 then encodeChar (((prev.toNat * 256 + b.toNat) / 16) &&& 0x3f) :: base64 (i + 1) b bs
    else
      encodeChar (((prev.toNat * 256 + b.toNat) / 64) &&& 0x3f) :: encodeChar (b.toNat &&& 0x3f) ::
        base64 (i + 1) b bs

/-- `<tag ID="id">`, as `addXMLStartTag` writes it. -/
def startText (tag : List UInt8) (id : Nat) : List UInt8 :=
  ['<'.toUInt8] ++ (tag ++ (lit " ID=\"" ++ (decimal id ++ (['"'.toUInt8] ++ ['>'.toUInt8]))))

/-- `</tag>`, as `addXMLEndTag` writes it. -/
def endText (tag : List UInt8) : List UInt8 := ['<'.toUInt8] ++ (['/'.toUInt8] ++ (tag ++ ['>'.toUInt8]))

/-- `<reference IDREF="id"/>`. -/
def referenceText (id : Nat) : List UInt8 := lit "<reference IDREF=\"" ++ (decimal id ++ lit "\"/>")

/-- The tag string `OSNumber::serialize` passes to `addXMLStartTag`. -/
def integerTag (size : Nat) : List UInt8 := lit "integer size=\"" ++ decimal size ++ lit "\""

def Lexeme.text : Lexeme → List UInt8
  | .startTag c id => startText c.name id
  | .endTag c => endText c.name
  | .key k => lit "<key>" ++ (escape k ++ endText (lit "key"))
  | .string id s => startText (lit "string") id ++ (escape s ++ endText (lit "string"))
  | .number id size value => startText (integerTag size) id ++ (hexValue value ++ endText (lit "integer"))
  | .data id bytes => startText (lit "data") id ++ (base64 0 0 bytes ++ endText (lit "data"))
  | .boolean b => if b then lit "<true/>" else lit "<false/>"
  | .reference id => referenceText id

/-- The text of a list of pieces. -/
def textOf (ls : List Lexeme) : List UInt8 := ls.flatMap Lexeme.text

@[simp] theorem textOf_nil : textOf [] = [] := rfl

@[simp] theorem textOf_cons (l : Lexeme) (ls : List Lexeme) : textOf (l :: ls) = l.text ++ textOf ls := rfl

@[simp] theorem textOf_append (ls ms : List Lexeme) : textOf (ls ++ ms) = textOf ls ++ textOf ms := by
  simp [textOf]

/-- `previouslySerialized` and what follows it: a reference to an object in `tags`, else `body`
with the object's index, after it joins `tags`. -/
def withRef (tags : List Ident) (i : Ident) (body : Nat → List Ident → List Lexeme × List Ident) :
    List Lexeme × List Ident :=
  if i ∈ tags then ([.reference (tags.idxOf i)], tags) else body tags.length (tags ++ [i])

mutual
/-- The pieces `serialize` writes for an object when `tags` holds the objects seen before, and
`tags` after it. -/
def lexemes (tags : List Ident) : OSObject → List Lexeme × List Ident
  | .dictionary id es =>
    withRef tags (.obj id) fun n tags =>
      let r := entriesLexemes tags es
      (.startTag .dict n :: r.1 ++ [.endTag .dict], r.2)
  | .array id es =>
    withRef tags (.obj id) fun n tags =>
      let r := listLexemes tags es
      (.startTag .array n :: r.1 ++ [.endTag .array], r.2)
  | .set id ms =>
    withRef tags (.obj id) fun n tags =>
      let r := listLexemes tags ms
      (.startTag .set n :: r.1 ++ [.endTag .set], r.2)
  | .number id size value => withRef tags (.obj id) fun n tags => ([.number n size value], tags)
  | .boolean b => ([.boolean b], tags)
  | .symbol s => withRef tags (.sym s) fun n tags => ([.string n s], tags)
  | .string id s => withRef tags (.obj id) fun n tags => ([.string n s], tags)
  | .data id bytes disable =>
    withRef tags (.obj id) fun n tags => ([.data n (if disable then [] else bytes)], tags)

def listLexemes (tags : List Ident) : List OSObject → List Lexeme × List Ident
  | [] => ([], tags)
  | v :: vs =>
    let r := lexemes tags v
    let rs := listLexemes r.2 vs
    (r.1 ++ rs.1, rs.2)

def entriesLexemes (tags : List Ident) : List (List UInt8 × OSObject) → List Lexeme × List Ident
  | [] => ([], tags)
  | (k, v) :: es =>
    let r := lexemes tags v
    let rs := entriesLexemes r.2 es
    (.key k :: r.1 ++ rs.1, rs.2)
end

/-! ## Writing or filling the buffer -/

/-- `n` bytes of text fit the buffer: `length`, which counts the NUL after them, is 32 bits. -/
def Fits (n : Nat) : Prop := n + 1 < 2 ^ 32

instance (n : Nat) : Decidable (Fits n) := inferInstanceAs (Decidable (n + 1 < 2 ^ 32))

/-- No `addChar` succeeds any more. -/
def Full (s : XMLSerialize) : Prop := ¬ Fits (s.data.length + 1)

/-- What an operation that ends with `r` did from `s`: if `T` fits after the text, it wrote `T`
and left `tags'`; else it filled the buffer and, when `closed`, reports failure. -/
def Wrote (s : XMLSerialize) (T : List UInt8) (tags' : List Ident) (closed : Bool) (r : XMLSerialize × Bool) : Prop :=
  if Fits (s.data ++ T).length then r = (⟨s.data ++ T, tags'⟩, true) else Full r.1 ∧ (closed = true → r.2 = false)

/-- From a full buffer `op` leaves it full and, when `closed`, reports failure. -/
def FullStable (op : XMLSerialize → XMLSerialize × Bool) (closed : Bool) : Prop :=
  ∀ s, Full s → Full (op s).1 ∧ (closed = true → (op s).2 = false)

variable {s : XMLSerialize}

theorem fits_of_le {m n : Nat} (h : m ≤ n) (hn : Fits n) : Fits m := by
  unfold Fits at *
  omega

theorem FullStable.weaken {op : XMLSerialize → XMLSerialize × Bool} {c : Bool} (h : FullStable op c) :
    FullStable op false :=
  fun s hs => ⟨(h s hs).1, by simp⟩

theorem Wrote.weaken {T : List UInt8} {tags' : List Ident} {c : Bool} {r : XMLSerialize × Bool}
    (h : Wrote s T tags' c r) : Wrote s T tags' false r := by
  unfold Wrote at *
  split
  · rename_i hf
    rwa [if_pos hf] at h
  · rename_i hf
    rw [if_neg hf] at h
    exact ⟨h.1, fun h => nomatch h⟩

theorem wrote_nil : Wrote s [] s.tags false (s, true) := by
  unfold Wrote
  split
  · simp
  · rename_i hf
    exact ⟨fun h => hf (fits_of_le (by simp) h), fun h => nomatch h⟩

theorem addChar_wrote (c : UInt8) : Wrote s [c] s.tags true (addChar s c) := by
  unfold Wrote addChar
  by_cases h : s.data.length + 2 < 2 ^ 32
  · have hf : Fits (s.data ++ [c]).length := by simp only [Fits, List.length_append, List.length_singleton]; omega
    rw [if_pos hf, if_pos h]
  · have hf : ¬ Fits (s.data ++ [c]).length := by simp only [Fits, List.length_append, List.length_singleton]; omega
    rw [if_neg hf, if_neg h]
    exact ⟨by simp only [Full, Fits]; omega, fun _ => rfl⟩

theorem addChar_full (c : UInt8) : FullStable (fun s => addChar s c) true := by
  intro s hs
  have h : ¬ s.data.length + 2 < 2 ^ 32 := by simp only [Full, Fits] at hs; omega
  have hc : addChar s c = (s, false) := if_neg h
  show Full (addChar s c).1 ∧ (true = true → (addChar s c).2 = false)
  rw [hc]
  exact ⟨hs, fun _ => rfl⟩

theorem andThen_full {r : XMLSerialize × Bool} {body : XMLSerialize → XMLSerialize × Bool} {c : Bool}
    (hr : Full r.1) (hb : FullStable body c) : Full (andThen r body).1 ∧ (c = true → (andThen r body).2 = false) := by
  unfold andThen
  split
  · exact hb r.1 hr
  · exact ⟨hr, fun _ => rfl⟩

theorem FullStable.seq {op body : XMLSerialize → XMLSerialize × Bool} {c₁ c₂ : Bool} (h₁ : FullStable op c₁)
    (h₂ : FullStable body c₂) : FullStable (fun s => andThen (op s) body) c₂ :=
  fun s hs => andThen_full (h₁ s hs).1 h₂

/-- The rule of sequence: `andThen` writes the text of its step and then that of its body. -/
theorem andThen_wrote {T₁ T₂ : List UInt8} {tags₁ tags₂ : List Ident} {c₁ c₂ : Bool} {r : XMLSerialize × Bool}
    {body : XMLSerialize → XMLSerialize × Bool} (h₁ : Wrote s T₁ tags₁ c₁ r)
    (h₂ : Wrote ⟨s.data ++ T₁, tags₁⟩ T₂ tags₂ c₂ (body ⟨s.data ++ T₁, tags₁⟩)) (hb : FullStable body c₂) :
    Wrote s (T₁ ++ T₂) tags₂ c₂ (andThen r body) := by
  unfold Wrote at *
  by_cases hfit : Fits (s.data ++ T₁).length
  · simp only [hfit, if_true] at h₁
    subst h₁
    simp only [andThen, if_true]
    simpa only [List.append_assoc] using h₂
  · have hnot : ¬ Fits (s.data ++ (T₁ ++ T₂)).length := fun h =>
      hfit (fits_of_le (by simp) h)
    simp only [hfit, hnot, if_false] at h₁ ⊢
    exact andThen_full h₁.1 hb

theorem andThen_pure (r : XMLSerialize × Bool) : andThen r (fun s => (s, true)) = r := by
  obtain ⟨s, b⟩ := r
  cases b <;> rfl

/-- A step that fails on a full buffer makes every sequence it starts fail. -/
theorem FullStable.andThen_first {op body : XMLSerialize → XMLSerialize × Bool} (h : FullStable op true) :
    FullStable (fun s => andThen (op s) body) true := by
  intro s hs
  obtain ⟨h1, h2⟩ := h s hs
  have hr : Libkern.XML.andThen (op s) body = ((op s).1, false) := by
    simp [Libkern.XML.andThen, h2 rfl]
  dsimp only
  rw [hr]
  exact ⟨h1, fun _ => rfl⟩

theorem Wrote.of_eq {T T' : List UInt8} {tags' : List Ident} {c : Bool} {r : XMLSerialize × Bool} (hT : T = T')
    (h : Wrote s T tags' c r) : Wrote s T' tags' c r := hT ▸ h

theorem addChars_full (c : UInt8) (cs : List UInt8) : FullStable (fun s => addChars s (c :: cs)) true :=
  (addChar_full c).andThen_first

theorem addChars_wrote (c : UInt8) (cs : List UInt8) : Wrote s (c :: cs) s.tags true (addChars s (c :: cs)) := by
  induction cs generalizing s c with
  | nil =>
    simpa only [addChars, andThen_pure] using addChar_wrote c
  | cons c' cs ih =>
    have h := andThen_wrote (addChar_wrote (s := s) c) (ih (s := ⟨s.data ++ [c], s.tags⟩) c') (addChars_full c' cs)
    simpa only [addChars, List.singleton_append] using h

theorem addString_wrote {cs : List UInt8} (h : cs ≠ []) : Wrote s cs s.tags true (addString s cs) := by
  obtain ⟨c, cs, rfl⟩ := List.exists_cons_of_ne_nil h
  exact addChars_wrote c cs

theorem addString_full (cs : List UInt8) : FullStable (fun s => addString s cs) true := by
  intro s hs
  cases cs with
  | nil => exact ⟨hs, fun _ => rfl⟩
  | cons c cs => exact addChars_full c cs s hs

theorem decimal_ne_nil (n : Nat) : decimal n ≠ [] := by
  simp [decimal, Nat.toDigits_ne_nil]

theorem hexValue_ne_nil (n : Nat) : hexValue n ≠ [] := by
  unfold hexValue
  split <;> simp [lit]

theorem addXMLStartTag_wrote {o : Ident} {tag : List UInt8} (htag : tag ≠ []) :
    Wrote s (startText tag (s.tags.idxOf o)) s.tags true (addXMLStartTag s o tag) := by
  unfold addXMLStartTag startText
  refine andThen_wrote (addChar_wrote _) (andThen_wrote (addString_wrote htag)
    (andThen_wrote (addString_wrote (by simp [lit])) (andThen_wrote (addString_wrote (decimal_ne_nil _))
      (andThen_wrote (addChar_wrote _) (addChar_wrote _) (addChar_full _)) ?_) ?_) ?_) ?_
  · exact (addChar_full _).andThen_first
  · exact FullStable.andThen_first fun s hs => addString_full _ s hs
  · exact (addString_full _).andThen_first
  · exact (addString_full _).andThen_first

theorem addXMLStartTag_full {o : Ident} {tag : List UInt8} : FullStable (fun s => addXMLStartTag s o tag) true :=
  (addChar_full _).andThen_first

theorem addXMLEndTag_wrote {tag : List UInt8} (htag : tag ≠ []) :
    Wrote s (endText tag) s.tags true (addXMLEndTag s tag) := by
  unfold addXMLEndTag endText
  refine andThen_wrote (addChar_wrote _) (andThen_wrote (addChar_wrote _)
    (andThen_wrote (addString_wrote htag) (addChar_wrote _) (addChar_full _)) ?_) ?_
  · exact (addString_full _).andThen_first
  · exact (addChar_full _).andThen_first

theorem addXMLEndTag_full {tag : List UInt8} : FullStable (fun s => addXMLEndTag s tag) true :=
  (addChar_full _).andThen_first

/-- The step of `addEscaped` for one character other than NUL. -/
theorem escapeChar_wrote (c : UInt8) :
    Wrote s (escapeChar c) s.tags true
      (if c = '<'.toUInt8 then addString s (lit "&lt;")
        else if c = '>'.toUInt8 then addString s (lit "&gt;")
        else if c = '&'.toUInt8 then addString s (lit "&amp;")
        else addChar s c) := by
  unfold escapeChar
  split_ifs
  · exact addString_wrote (by simp [lit])
  · exact addString_wrote (by simp [lit])
  · exact addString_wrote (by simp [lit])
  · exact addChar_wrote c

theorem escapeChar_full (c : UInt8) :
    FullStable (fun s => if c = '<'.toUInt8 then addString s (lit "&lt;")
        else if c = '>'.toUInt8 then addString s (lit "&gt;")
        else if c = '&'.toUInt8 then addString s (lit "&amp;")
        else addChar s c) true := by
  intro s hs
  split_ifs
  · exact addString_full _ s hs
  · exact addString_full _ s hs
  · exact addString_full _ s hs
  · exact addChar_full c s hs

theorem addEscaped_full (str : List UInt8) : FullStable (fun s => addEscaped s str) false := by
  induction str with
  | nil => exact fun s hs => ⟨hs, fun h => nomatch h⟩
  | cons c cs ih =>
    intro s hs
    unfold addEscaped
    split
    · exact ⟨hs, fun h => nomatch h⟩
    · exact andThen_full ((escapeChar_full c) s hs).1 ih

theorem addEscaped_wrote (str : List UInt8) : Wrote s (escape str) s.tags false (addEscaped s str) := by
  induction str generalizing s with
  | nil => exact wrote_nil
  | cons c cs ih =>
    unfold addEscaped escape
    split
    · exact wrote_nil
    · exact andThen_wrote (escapeChar_wrote c) ih (addEscaped_full cs)


theorem addDataBytes_full (i : Nat) (prev : UInt8) (bytes : List UInt8) :
    FullStable (fun s => addDataBytes s i prev bytes) false := by
  intro s hs
  -- every branch but the empty tail starts with an `addChar`
  cases bytes with
  | nil =>
    unfold addDataBytes
    split_ifs
    · exact ⟨((addChar_full _).andThen_first s hs).1, fun h => nomatch h⟩
    · exact ⟨((addChar_full _).andThen_first s hs).1, fun h => nomatch h⟩
    · exact ⟨hs, fun h => nomatch h⟩
  | cons b bs =>
    unfold addDataBytes
    split_ifs
    · exact ⟨((addChar_full _).andThen_first s hs).1, fun h => nomatch h⟩
    · exact ⟨((addChar_full _).andThen_first s hs).1, fun h => nomatch h⟩
    · exact ⟨((addChar_full _).andThen_first s hs).1, fun h => nomatch h⟩

theorem addDataBytes_wrote (i : Nat) (prev : UInt8) (bytes : List UInt8) :
    Wrote s (base64 i prev bytes) s.tags false (addDataBytes s i prev bytes) := by
  induction bytes generalizing s i prev with
  | nil =>
    unfold addDataBytes base64
    split_ifs
    · exact (andThen_wrote (addChar_wrote _) (andThen_wrote (addChar_wrote _) (addChar_wrote _) (addChar_full _))
        (addChar_full _).andThen_first).weaken
    · exact (andThen_wrote (addChar_wrote _) (addChar_wrote _) (addChar_full _)).weaken
    · exact wrote_nil
  | cons b bs ih =>
    unfold addDataBytes base64
    split_ifs
    · exact andThen_wrote (addChar_wrote _) (ih (i + 1) b) (addDataBytes_full _ _ _)
    · exact andThen_wrote (addChar_wrote _) (ih (i + 1) b) (addDataBytes_full _ _ _)
    · exact andThen_wrote (addChar_wrote _) (andThen_wrote (addChar_wrote _) (ih (i + 1) b) (addDataBytes_full _ _ _))
        (addChar_full _).andThen_first.weaken

/-- A step whose result is ignored: the text is written all the same. -/
theorem Wrote.seq_fst {T₁ T₂ : List UInt8} {tags₁ tags₂ : List Ident} {c₁ c₂ : Bool} {r : XMLSerialize × Bool}
    {op : XMLSerialize → XMLSerialize × Bool} (h₁ : Wrote s T₁ tags₁ c₁ r)
    (h₂ : Wrote ⟨s.data ++ T₁, tags₁⟩ T₂ tags₂ c₂ (op ⟨s.data ++ T₁, tags₁⟩)) (hop : FullStable op c₂) :
    Wrote s (T₁ ++ T₂) tags₂ c₂ (op r.1) := by
  unfold Wrote at *
  by_cases hfit : Fits (s.data ++ T₁).length
  · rw [if_pos hfit] at h₁
    subst h₁
    simpa only [List.append_assoc] using h₂
  · have hnot : ¬ Fits (s.data ++ (T₁ ++ T₂)).length := fun h => hfit (fits_of_le (by simp) h)
    rw [if_neg hfit] at h₁
    rw [if_neg hnot]
    exact hop r.1 h₁.1

/-- An operation reported as successful whatever it did. -/
theorem Wrote.report_true {T : List UInt8} {tags' : List Ident} {c : Bool} {r : XMLSerialize × Bool}
    (h : Wrote s T tags' c r) : Wrote s T tags' false (r.1, true) := by
  unfold Wrote at *
  split
  · rename_i hf
    rw [if_pos hf] at h
    rw [h]
  · rename_i hf
    rw [if_neg hf] at h
    exact ⟨h.1, fun h => nomatch h⟩

theorem FullStable.fst_seq {op₁ op₂ : XMLSerialize → XMLSerialize × Bool} {c₁ c₂ : Bool} (h₁ : FullStable op₁ c₁)
    (h₂ : FullStable op₂ c₂) : FullStable (fun s => op₂ (op₁ s).1) c₂ :=
  fun s hs => h₂ _ (h₁ s hs).1

theorem idxOf?_of_mem {o : Ident} {tags : List Ident} (h : o ∈ tags) : tags.idxOf? o = some (tags.idxOf o) := by
  unfold List.idxOf? List.idxOf
  rw [List.findIdx?_eq_some_iff_findIdx_eq]
  exact ⟨List.idxOf_lt_length_of_mem h, rfl⟩

theorem previouslySerialized_of_not_mem {o : Ident} (h : o ∉ s.tags) :
    previouslySerialized s o = (false, ⟨s.data, s.tags ++ [o]⟩) := by
  have : s.tags.idxOf? o = none := List.idxOf?_eq_none_iff.2 h
  simp [previouslySerialized, this]

/-- A reference: its three `addString`s, whose results are not checked. -/
theorem withPrevious_of_mem {o : Ident} {body : XMLSerialize → XMLSerialize × Bool} (h : o ∈ s.tags) :
    Wrote s (referenceText (s.tags.idxOf o)) s.tags false (withPrevious s o body) := by
  unfold withPrevious previouslySerialized
  rw [idxOf?_of_mem h]
  dsimp only
  unfold referenceText
  exact (Wrote.seq_fst (addString_wrote (by simp [lit]))
    (Wrote.seq_fst (addString_wrote (decimal_ne_nil _)) (addString_wrote (by simp [lit])) (addString_full _))
    ((addString_full _).fst_seq (addString_full _))).report_true

/-- `withPrevious` writes a reference to an object seen before, else what its body writes. -/
theorem withPrevious_wrote {i : Ident} {body : XMLSerialize → XMLSerialize × Bool}
    {lex : Nat → List Ident → List Lexeme × List Ident}
    (h : i ∉ s.tags → Wrote ⟨s.data, s.tags ++ [i]⟩ (textOf (lex s.tags.length (s.tags ++ [i])).1)
      (lex s.tags.length (s.tags ++ [i])).2 true (body ⟨s.data, s.tags ++ [i]⟩)) :
    Wrote s (textOf (withRef s.tags i lex).1) (withRef s.tags i lex).2 (decide (i ∉ s.tags)) (withPrevious s i body) := by
  unfold withRef
  by_cases hi : i ∈ s.tags
  · simp only [hi, if_true, textOf_cons, Lexeme.text, textOf_nil, List.append_nil, not_true_eq_false,
      decide_false]
    exact withPrevious_of_mem hi
  · simp only [hi, if_false, not_false_eq_true, decide_true]
    unfold withPrevious
    rw [previouslySerialized_of_not_mem hi]
    exact h hi

theorem Wrote.of_closed {T : List UInt8} {tags' : List Ident} {r : XMLSerialize × Bool}
    (h : Wrote s T tags' true r) (c : Bool) : Wrote s T tags' c r := by
  cases c
  · exact h.weaken
  · exact h

theorem withPrevious_full {i : Ident} {body : XMLSerialize → XMLSerialize × Bool} (hb : FullStable body true) :
    FullStable (fun s => withPrevious s i body) false := by
  intro s hs
  by_cases hi : i ∈ s.tags
  · dsimp only
    unfold withPrevious previouslySerialized
    rw [idxOf?_of_mem hi]
    exact ⟨((addString_full _).fst_seq ((addString_full _).fst_seq (addString_full _)) s hs).1, fun h => nomatch h⟩
  · dsimp only
    unfold withPrevious
    rw [previouslySerialized_of_not_mem hi]
    dsimp only
    exact ⟨(hb ⟨s.data, s.tags ++ [i]⟩ hs).1, fun h => nomatch h⟩

/-- From a full buffer nothing more is written. -/
theorem serialize_full (o : OSObject) : FullStable (fun s => serialize s o) false := by
  cases o with
  | boolean b => exact (addString_full _).weaken
  | symbol str => exact withPrevious_full addXMLStartTag_full.andThen_first
  | string id str => exact withPrevious_full addXMLStartTag_full.andThen_first
  | _ => exact withPrevious_full addXMLStartTag_full.andThen_first

theorem serializeList_full (vs : List OSObject) : FullStable (fun s => serializeList s vs) false := by
  induction vs with
  | nil => exact fun s hs => ⟨hs, fun h => nomatch h⟩
  | cons v vs ih => exact (serialize_full v).seq ih

theorem serializeEntries_full (es : List (List UInt8 × OSObject)) :
    FullStable (fun s => serializeEntries s es) false := by
  cases es with
  | nil => exact fun s hs => ⟨hs, fun h => nomatch h⟩
  | cons e es => exact (addString_full _).andThen_first.weaken

theorem idxOf_append_self {o : Ident} {tags : List Ident} (h : o ∉ tags) : (tags ++ [o]).idxOf o = tags.length := by
  rw [List.idxOf_append_of_notMem h]
  simp

mutual
/-- **`serialize` writes the text of `lexemes`**, or fills the buffer; an object not seen before
then reports failure. -/
theorem serialize_wrote : ∀ (o : OSObject) (s : XMLSerialize),
    Wrote s (textOf (lexemes s.tags o).1) (lexemes s.tags o).2 (decide (o.ident ∉ s.tags)) (serialize s o)
  | .dictionary id es, s => by
    unfold serialize lexemes
    refine withPrevious_wrote fun hnew => Wrote.of_eq ?_ (andThen_wrote (addXMLStartTag_wrote (by simp [lit]))
      (andThen_wrote (serializeEntries_wrote es _) (addXMLEndTag_wrote (by simp [lit])) addXMLEndTag_full)
      ((serializeEntries_full es).seq addXMLEndTag_full))
    simp [idxOf_append_self hnew, Lexeme.text, Coll.name]
  | .array id vs, s => by
    unfold serialize lexemes
    refine withPrevious_wrote fun hnew => Wrote.of_eq ?_ (andThen_wrote (addXMLStartTag_wrote (by simp [lit]))
      (andThen_wrote (serializeList_wrote vs _) (addXMLEndTag_wrote (by simp [lit])) addXMLEndTag_full)
      ((serializeList_full vs).seq addXMLEndTag_full))
    simp [idxOf_append_self hnew, Lexeme.text, Coll.name]
  | .set id ms, s => by
    unfold serialize lexemes
    refine withPrevious_wrote fun hnew => Wrote.of_eq ?_ (andThen_wrote (addXMLStartTag_wrote (by simp [lit]))
      (andThen_wrote (serializeList_wrote ms _) (addXMLEndTag_wrote (by simp [lit])) addXMLEndTag_full)
      ((serializeList_full ms).seq addXMLEndTag_full))
    simp [idxOf_append_self hnew, Lexeme.text, Coll.name]
  | .number id size value, s => by
    unfold serialize lexemes
    refine withPrevious_wrote fun hnew => Wrote.of_eq ?_ (andThen_wrote (addXMLStartTag_wrote (by simp [lit]))
      (andThen_wrote (addString_wrote (hexValue_ne_nil value)) (addXMLEndTag_wrote (by simp [lit])) addXMLEndTag_full)
      ((addString_full _).andThen_first))
    simp [idxOf_append_self hnew, Lexeme.text, integerTag]
  | .boolean b, s => by
    unfold serialize lexemes
    exact Wrote.of_eq (by cases b <;> simp [Lexeme.text]) ((addString_wrote (by cases b <;> simp [lit])).of_closed _)
  | .symbol str, s => by
    unfold serialize lexemes serializeString
    refine withPrevious_wrote fun hnew => Wrote.of_eq ?_ (andThen_wrote (addXMLStartTag_wrote (by simp [lit]))
      (andThen_wrote (addEscaped_wrote str) (addXMLEndTag_wrote (by simp [lit])) addXMLEndTag_full)
      ((addEscaped_full str).seq addXMLEndTag_full))
    simp [idxOf_append_self hnew, Lexeme.text]
  | .string id str, s => by
    unfold serialize lexemes serializeString
    refine withPrevious_wrote fun hnew => Wrote.of_eq ?_ (andThen_wrote (addXMLStartTag_wrote (by simp [lit]))
      (andThen_wrote (addEscaped_wrote str) (addXMLEndTag_wrote (by simp [lit])) addXMLEndTag_full)
      ((addEscaped_full str).seq addXMLEndTag_full))
    simp [idxOf_append_self hnew, Lexeme.text]
  | .data id bytes disable, s => by
    unfold serialize lexemes
    refine withPrevious_wrote fun hnew => Wrote.of_eq ?_ (andThen_wrote (addXMLStartTag_wrote (by simp [lit]))
      (andThen_wrote (addDataBytes_wrote 0 0 _) (addXMLEndTag_wrote (by simp [lit])) addXMLEndTag_full)
      ((addDataBytes_full 0 0 _).seq addXMLEndTag_full))
    simp [idxOf_append_self hnew, Lexeme.text]

theorem serializeList_wrote : ∀ (vs : List OSObject) (s : XMLSerialize),
    Wrote s (textOf (listLexemes s.tags vs).1) (listLexemes s.tags vs).2 false (serializeList s vs)
  | [], s => by
    unfold serializeList listLexemes
    exact wrote_nil
  | v :: vs, s => by
    unfold serializeList listLexemes
    exact Wrote.of_eq (by simp) (andThen_wrote (serialize_wrote v s) (serializeList_wrote vs _) (serializeList_full vs))

theorem serializeEntries_wrote : ∀ (es : List (List UInt8 × OSObject)) (s : XMLSerialize),
    Wrote s (textOf (entriesLexemes s.tags es).1) (entriesLexemes s.tags es).2 false (serializeEntries s es)
  | [], s => by
    unfold serializeEntries entriesLexemes
    exact wrote_nil
  | (k, v) :: es, s => by
    unfold serializeEntries entriesLexemes
    refine Wrote.of_eq (by simp [Lexeme.text]) (andThen_wrote (addString_wrote (by simp [lit]))
      (andThen_wrote (addEscaped_wrote k) (andThen_wrote (addXMLEndTag_wrote (by simp [lit]))
        (andThen_wrote (serialize_wrote v _) (serializeEntries_wrote es _) (serializeEntries_full es))
        ((serialize_full v).seq (serializeEntries_full es)))
        (addXMLEndTag_full.seq ((serialize_full v).seq (serializeEntries_full es))))
      ((addEscaped_full k).seq (addXMLEndTag_full.seq ((serialize_full v).seq (serializeEntries_full es)))))
end

/-- A serialization that succeeds wrote the text of `lexemes`. -/
theorem serializeXML_eq_some {o : OSObject} {D : List UInt8} (h : serializeXML o = some D) :
    D = textOf (lexemes [] o).1 := by
  have hw := serialize_wrote o ⟨[], []⟩
  unfold serializeXML at h
  rcases hr : serialize ⟨[], []⟩ o with ⟨s', ok⟩
  rw [hr] at h hw
  cases ok with
  | false => simp at h
  | true =>
    -- the root is new, so a full buffer would have reported failure
    simp only [if_true, Option.some.injEq] at h
    subst h
    unfold Wrote at hw
    split at hw
    · simp only [Prod.mk.injEq] at hw
      simp [hw.1]
    · simp at hw

/-- A serialization whose text fits the buffer succeeds. -/
theorem serializeXML_of_fits {o : OSObject} (h : Fits (textOf (lexemes [] o).1).length) :
    serializeXML o = some (textOf (lexemes [] o).1) := by
  have hw := serialize_wrote o ⟨[], []⟩
  unfold Wrote at hw
  simp only [List.nil_append] at hw
  rw [if_pos h] at hw
  simp [serializeXML, hw]

end Libkern.XML
