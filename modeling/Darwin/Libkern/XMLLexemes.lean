import Darwin.Libkern.XMLLexer
import Darwin.Libkern.SerializeXMLText
import Mathlib.Data.Nat.Digits.Defs

/-!
# `yylex` on what the serializer writes

`At buf i xs` says that `buf` holds `xs` from index `i`. For every piece of `Lexeme`, `yylex`
started on its text returns the piece's token and stops right after it, whatever follows
(`yylex_lexeme`). The parts are the tag scanner (`getTag_tagText`), `getString` against
`escape`, `getNumber` against `hexValue`, `getCFEncodedData` against `base64`, and `strtol` and
`strtoul` against `decimal`.
-/

namespace Libkern.XML

open IOKit

/-- `buf` holds `xs` from index `i`. -/
def At (buf : List UInt8) (i : Nat) (xs : List UInt8) : Prop :=
  ∀ j (h : j < xs.length), charAt buf (i + j) = xs[j]

section At

variable {buf : List UInt8}

@[simp] theorem at_nil (i : Nat) : At buf i [] := fun j h => absurd h (Nat.not_lt_zero j)

theorem at_cons {i : Nat} {x : UInt8} {xs : List UInt8} : At buf i (x :: xs) ↔ charAt buf i = x ∧ At buf (i + 1) xs := by
  constructor
  · intro h
    refine ⟨h 0 (by simp), fun j hj => ?_⟩
    have := h (j + 1) (by simp; omega)
    simpa [Nat.add_assoc, Nat.add_comm 1 j] using this
  · rintro ⟨h0, h⟩ j hj
    cases j with
    | zero => simpa using h0
    | succ j =>
      have := h j (by simp at hj; omega)
      simpa [Nat.add_assoc, Nat.add_comm 1 j] using this

theorem at_append {i : Nat} {xs ys : List UInt8} : At buf i (xs ++ ys) ↔ At buf i xs ∧ At buf (i + xs.length) ys := by
  induction xs generalizing i with
  | nil => simp
  | cons x xs ih =>
    simp only [List.cons_append, at_cons, ih, List.length_cons]
    constructor
    · rintro ⟨h0, h1, h2⟩
      exact ⟨⟨h0, h1⟩, by simpa [Nat.add_assoc, Nat.add_comm 1] using h2⟩
    · rintro ⟨⟨h0, h1⟩, h2⟩
      exact ⟨h0, h1, by simpa [Nat.add_assoc, Nat.add_comm 1] using h2⟩

theorem at_singleton {i : Nat} {x : UInt8} : At buf i [x] ↔ charAt buf i = x := by
  simp [at_cons]

/-- A buffer holds each of its pieces where it starts. -/
theorem at_middle (pre xs post : List UInt8) : At (pre ++ xs ++ post) pre.length xs := by
  intro j hj
  simp [charAt, List.getD_eq_getElem?_getD, List.getElem?_append_right, List.getElem?_append_left hj,
    List.getElem?_eq_getElem hj]

end At

/-! ## Tags -/

/-- The text of an attribute, ` name="value"`. -/
def attributeText (a : List UInt8 × List UInt8) : List UInt8 :=
  ' '.toUInt8 :: (a.1 ++ ('='.toUInt8 :: '"'.toUInt8 :: (a.2 ++ ['"'.toUInt8])))

/-- The text of a tag `getTag` reads: `<name attrs>`, `</name>` or `<name attrs/>`. -/
def tagText (tagType : TagType) (name : List UInt8) (attrs : List (List UInt8 × List UInt8)) : List UInt8 :=
  '<'.toUInt8 :: ((if tagType = .tagEnd then ['/'.toUInt8] else []) ++ (name ++ (attrs.flatMap attributeText ++
    ((if tagType = .tagEmpty then ['/'.toUInt8] else []) ++ ['>'.toUInt8]))))

/-- A name `getTag` reads whole: letters, digits and `-`, shorter than `TAG_MAX_LENGTH - 1`. -/
structure NameOk (name : List UInt8) : Prop where
  alnum : ∀ c ∈ name, isAlphaNumeric c = true
  length : name.length < TAG_MAX_LENGTH - 1

/-- An attribute value `getTag` reads whole. -/
structure ValueOk (value : List UInt8) : Prop where
  no_quote : '"'.toUInt8 ∉ value
  no_nul : (0 : UInt8) ∉ value
  length : value.length < TAG_MAX_LENGTH - 1

section Tags

variable {buf : List UInt8}

theorem cur_of_at {s : Lexer} {x : UInt8} {xs : List UInt8} (h : At buf s.parseBufferIndex (x :: xs)) : cur buf s = x :=
  (at_cons.1 h).1

theorem tagName_at (acc : List UInt8) {name : List UInt8} {s : Lexer} (hat : At buf s.parseBufferIndex name)
    (hname : ∀ c ∈ name, isAlphaNumeric c = true) (hlen : (acc ++ name).length < TAG_MAX_LENGTH - 1)
    (hend : isAlphaNumeric (charAt buf (s.parseBufferIndex + name.length)) = false) :
    (tagName buf acc s).1 = some (acc ++ name) ∧ (tagName buf acc s).2.parseBufferIndex = s.parseBufferIndex + name.length := by
  induction name generalizing acc s with
  | nil =>
    simp only [List.length_nil, Nat.add_zero] at hend
    unfold tagName
    simp [cur, hend]
  | cons c cs ih =>
    obtain ⟨hc, hcs⟩ := at_cons.1 hat
    have hcur : cur buf s = c := hc
    have halnum := hname c (by simp)
    have hlen' : ¬ TAG_MAX_LENGTH - 1 ≤ (acc ++ [c]).length := by
      simp only [List.length_append, List.length_cons, List.length_nil] at hlen ⊢
      omega
    have h := ih (acc ++ [c]) (s := nextChar s) (by simpa using hcs) (fun d hd => hname d (by simp [hd]))
      (by simpa using hlen) (by simpa [Nat.add_assoc, Nat.add_comm 1] using hend)
    rw [tagName, hcur, if_pos halnum, if_neg hlen']
    simpa [Nat.add_assoc, Nat.add_comm 1] using h

theorem attributeName_at (acc : List UInt8) {name : List UInt8} {s : Lexer} (hat : At buf s.parseBufferIndex name)
    (hname : ∀ c ∈ name, isAlphaNumeric c = true) (hlen : (acc ++ name).length < TAG_MAX_LENGTH - 1)
    (hend : isAlphaNumeric (charAt buf (s.parseBufferIndex + name.length)) = false) :
    (attributeName buf acc s).1 = some (acc ++ name) ∧
      (attributeName buf acc s).2.parseBufferIndex = s.parseBufferIndex + name.length := by
  induction name generalizing acc s with
  | nil =>
    simp only [List.length_nil, Nat.add_zero] at hend
    unfold attributeName
    simp [cur, hend]
  | cons c cs ih =>
    obtain ⟨hc, hcs⟩ := at_cons.1 hat
    have hcur : cur buf s = c := hc
    have halnum := hname c (by simp)
    have hlen' : ¬ TAG_MAX_LENGTH - 1 ≤ (acc ++ [c]).length := by
      simp only [List.length_append, List.length_cons, List.length_nil] at hlen ⊢
      omega
    have h := ih (acc ++ [c]) (s := nextChar s) (by simpa using hcs) (fun d hd => hname d (by simp [hd]))
      (by simpa using hlen) (by simpa [Nat.add_assoc, Nat.add_comm 1] using hend)
    rw [attributeName, hcur, if_pos halnum, if_neg hlen']
    simpa [Nat.add_assoc, Nat.add_comm 1] using h

theorem attributeValue_at (acc : List UInt8) {value : List UInt8} {s : Lexer} (hat : At buf s.parseBufferIndex (value ++ ['"'.toUInt8]))
    (hq : '"'.toUInt8 ∉ value) (h0 : (0 : UInt8) ∉ value) (hlen : (acc ++ value).length < TAG_MAX_LENGTH - 1) :
    (attributeValue buf acc s).1 = some (acc ++ value) ∧
      (attributeValue buf acc s).2.parseBufferIndex = s.parseBufferIndex + value.length := by
  induction value generalizing acc s with
  | nil =>
    have hcur : cur buf s = '"'.toUInt8 := cur_of_at (by simpa using hat)
    unfold attributeValue
    simp [hcur]
  | cons c cs ih =>
    obtain ⟨hc, hcs⟩ := at_cons.1 hat
    have hcur : cur buf s = c := hc
    have hcq : c ≠ '"'.toUInt8 := fun h => hq (by simp [h])
    have hlen' : ¬ TAG_MAX_LENGTH - 1 ≤ (acc ++ [c]).length := by
      simp only [List.length_append, List.length_cons, List.length_nil] at hlen ⊢
      omega
    -- the character after `c` is the next one of the value or the closing quote
    have hnext : cur buf (nextChar s) ≠ 0 := by
      have hn : At buf (nextChar s).parseBufferIndex (cs ++ ['"'.toUInt8]) := by simpa using hcs
      cases cs with
      | nil => rw [cur_of_at (by simpa using hn)]; decide
      | cons d ds =>
        rw [cur_of_at hn]
        exact fun h => h0 (by simp [h])
    have h := ih (acc ++ [c]) (s := nextChar s) (by simpa using hcs) (fun h => hq (by simp [h]))
      (fun h => h0 (by simp [h])) (by simpa using hlen)
    rw [attributeValue, hcur, if_neg hcq, if_neg hlen', if_neg hnext]
    simpa [Nat.add_assoc, Nat.add_comm 1] using h

theorem skipSpaces_of_not_space {s : Lexer} (h : isSpace (cur buf s) = false) : skipSpaces buf s = s := by
  rw [skipSpaces]
  simp [h]

theorem skipSpaces_space {s : Lexer} (h : cur buf s = ' '.toUInt8) (hn : isSpace (cur buf (nextChar s)) = false) :
    skipSpaces buf s = nextChar s := by
  rw [skipSpaces, dif_pos (by rw [h]; decide), skipSpaces_of_not_space hn]

theorem isSpace_of_alnum (c : UInt8) (h : isAlphaNumeric c = true) : isSpace c = false := by
  by_contra hc
  simp only [isSpace, Bool.not_eq_false, Bool.or_eq_true, beq_iff_eq] at hc
  rcases hc with rfl | rfl <;> exact absurd h (by decide)

theorem attributeLoop_at (acc : List (List UInt8 × List UInt8)) {attrs : List (List UInt8 × List UInt8)} {e : UInt8} {s : Lexer}
    (hat : At buf s.parseBufferIndex (attrs.flatMap attributeText ++ [e])) (he : e = '>'.toUInt8 ∨ e = '/'.toUInt8)
    (hattrs : ∀ a ∈ attrs, a.1 ≠ [] ∧ NameOk a.1 ∧ ValueOk a.2) (hcount : (acc ++ attrs).length < TAG_MAX_ATTRIBUTES) :
    (attributeLoop buf acc s).1 = some (acc ++ attrs) ∧
      (attributeLoop buf acc s).2.parseBufferIndex = s.parseBufferIndex + (attrs.flatMap attributeText).length := by
  induction attrs generalizing acc s with
  | nil =>
    have hcur : cur buf s = e := cur_of_at (by simpa using hat)
    rw [attributeLoop, if_pos (hcur ▸ he)]
    simp
  | cons a rest ih =>
    obtain ⟨name, value⟩ := a
    obtain ⟨hne, hname, hvalue⟩ := hattrs (name, value) (by simp)
    -- ` name="value"` from the space before it
    simp only [List.flatMap_cons, attributeText, List.cons_append, List.append_assoc] at hat
    obtain ⟨hsp, hat⟩ := at_cons.1 hat
    obtain ⟨hn, hat⟩ := at_append.1 hat
    obtain ⟨heq, hat⟩ := at_cons.1 hat
    obtain ⟨hq, hat⟩ := at_cons.1 hat
    obtain ⟨hv, hat⟩ := at_append.1 hat
    obtain ⟨hq', hat⟩ := at_cons.1 hat
    have hsp' : cur buf s = ' '.toUInt8 := hsp
    have hnot : ¬ (cur buf s = '>'.toUInt8 ∨ cur buf s = '/'.toUInt8) := by
      rw [hsp']
      decide
    obtain ⟨c, cs, rfl⟩ := List.exists_cons_of_ne_nil hne
    have hs1 : skipSpaces buf s = nextChar s :=
      skipSpaces_space hsp' (isSpace_of_alnum _ (by rw [cur_of_at (by simpa using hn)]; exact hname.alnum c (by simp)))
    have hN := attributeName_at [] (s := nextChar s) (by simpa using hn) hname.alnum
      (by simpa using hname.length) (by simp only [nextChar_index]; rw [heq]; decide)
    -- the name, then `=`, the opening quote, the value and the closing quote
    obtain ⟨s1, hs1eq, hi1⟩ : ∃ s1, attributeName buf [] (nextChar s) = (some (c :: cs), s1) ∧
        s1.parseBufferIndex = s.parseBufferIndex + 1 + (cs.length + 1) :=
      ⟨_, Prod.ext (by simpa using hN.1) rfl, by simpa using hN.2⟩
    have hcur1 : cur buf s1 = '='.toUInt8 := by rw [cur, hi1]; exact heq
    have hsk1 : skipSpaces buf s1 = s1 := skipSpaces_of_not_space (by rw [hcur1]; decide)
    have hcur2 : cur buf (nextChar s1) = '"'.toUInt8 := by rw [cur, nextChar_index, hi1]; exact hq
    have hsk2 : skipSpaces buf (nextChar s1) = nextChar s1 := skipSpaces_of_not_space (by rw [hcur2]; decide)
    have hV := attributeValue_at [] (s := nextChar (nextChar s1))
      (by rw [at_append]; exact ⟨by simpa [hi1] using hv, at_singleton.2 (by simpa [hi1, Nat.add_assoc] using hq')⟩)
      hvalue.no_quote hvalue.no_nul (by simpa using hvalue.length)
    obtain ⟨s2, hs2eq, hi2⟩ : ∃ s2, attributeValue buf [] (nextChar (nextChar s1)) = (some value, s2) ∧
        s2.parseBufferIndex = s.parseBufferIndex + 1 + (cs.length + 1) + 2 + value.length :=
      ⟨_, Prod.ext (by simpa using hV.1) rfl, by rw [hV.2, nextChar_index, nextChar_index, hi1]⟩
    have hcount' : ¬ TAG_MAX_ATTRIBUTES ≤ (acc ++ [(c :: cs, value)]).length := by
      simp only [List.length_append, List.length_cons, List.length_nil] at hcount ⊢
      omega
    have hrest := ih (acc ++ [(c :: cs, value)]) (s := nextChar s2)
      (by simpa [hi2, Nat.add_assoc] using hat) (fun a ha => hattrs a (by simp [ha])) (by simpa using hcount)
    rw [attributeLoop, if_neg hnot, hs1, hs1eq]
    simp only [hsk1, hcur1, ne_eq, not_true_eq_false, if_false, hsk2, hcur2, hs2eq, if_neg hcount']
    refine ⟨by simpa using hrest.1, ?_⟩
    rw [hrest.2, nextChar_index, hi2]
    simp only [List.flatMap_cons, attributeText, List.length_append, List.length_cons, List.length_nil]
    omega

/-- The character after a tag's name: the space of its first attribute, the `/` of an empty tag or
the closing `>`. -/
theorem charAt_after_name {attrs : List (List UInt8 × List UInt8)} {empty : Bool} {i : Nat}
    (hat : At buf i (attrs.flatMap attributeText ++ ((if empty then ['/'.toUInt8] else []) ++ ['>'.toUInt8]))) :
    isAlphaNumeric (charAt buf i) = false := by
  cases attrs with
  | cons a rest =>
    rw [(at_cons.1 (by simpa [attributeText] using hat)).1]
    decide
  | nil =>
    cases empty
    · rw [(at_cons.1 (by simpa using hat)).1]; decide
    · rw [(at_cons.1 (by simpa using hat)).1]; decide

theorem elementTag_at (tagType : TagType) (empty : Bool) {name : List UInt8} {attrs : List (List UInt8 × List UInt8)}
    {s : Lexer}
    (hat : At buf s.parseBufferIndex
      (name ++ (attrs.flatMap attributeText ++ ((if empty then ['/'.toUInt8] else []) ++ ['>'.toUInt8]))))
    (hname : NameOk name) (hattrs : ∀ a ∈ attrs, a.1 ≠ [] ∧ NameOk a.1 ∧ ValueOk a.2)
    (hcount : attrs.length < TAG_MAX_ATTRIBUTES) :
    (elementTag buf tagType s).1 = (if empty then .tagEmpty else tagType) ∧
      (elementTag buf tagType s).2.1 = ⟨name, attrs⟩ ∧
      (elementTag buf tagType s).2.2.parseBufferIndex = s.parseBufferIndex +
        (name ++ (attrs.flatMap attributeText ++ ((if empty then ['/'.toUInt8] else []) ++ ['>'.toUInt8]))).length := by
  obtain ⟨hn, hrest⟩ := at_append.1 hat
  have hT := tagName_at [] hn hname.alnum (by simpa using hname.length) (charAt_after_name hrest)
  obtain ⟨s1, hs1eq, hi1⟩ : ∃ s1, tagName buf [] s = (some name, s1) ∧
      s1.parseBufferIndex = s.parseBufferIndex + name.length :=
    ⟨_, Prod.ext (by simpa using hT.1) rfl, hT.2⟩
  obtain ⟨ha, hclose⟩ := at_append.1 hrest
  rw [← hi1] at ha hclose
  -- the attributes end at the `/` of an empty tag or at its `>`
  have hA := attributeLoop_at [] (s := s1) (e := if empty then '/'.toUInt8 else '>'.toUInt8)
    (by
      rw [at_append]
      refine ⟨ha, at_singleton.2 ?_⟩
      cases empty <;> simp only [Bool.false_eq_true, ↓reduceIte, List.nil_append, List.cons_append] at hclose ⊢ <;>
        exact (at_cons.1 hclose).1)
    (by cases empty <;> simp) hattrs (by simpa using hcount)
  obtain ⟨s2, hs2eq, hi2⟩ : ∃ s2, attributeLoop buf [] s1 = (some attrs, s2) ∧
      s2.parseBufferIndex = s1.parseBufferIndex + (attrs.flatMap attributeText).length :=
    ⟨_, Prod.ext (by simpa using hA.1) rfl, hA.2⟩
  rw [← hi2] at hclose
  unfold elementTag
  rw [hs1eq]
  dsimp only
  rw [hs2eq]
  dsimp only
  cases empty with
  | true =>
    obtain ⟨hsl, hgt⟩ := at_cons.1 (by simpa using hclose)
    have hc1 : cur buf s2 = '/'.toUInt8 := hsl
    have hc2 : cur buf (nextChar s2) = '>'.toUInt8 := by rw [cur, nextChar_index]; exact at_singleton.1 hgt
    simp only [hc1, ↓reduceIte, hc2, ne_eq, not_true_eq_false, nextChar_index, hi2, hi1, true_and]
    simp only [List.length_append, List.length_cons, List.length_nil]
    omega
  | false =>
    have hc1 : cur buf s2 = '>'.toUInt8 := (at_cons.1 (by simpa using hclose)).1
    simp only [hc1, show ('>'.toUInt8 = '/'.toUInt8) = False by decide, ne_eq, not_true_eq_false,
      nextChar_index, hi2, hi1, Bool.false_eq_true, ↓reduceIte, true_and]
    simp only [List.length_append, List.length_cons, List.length_nil]
    omega

theorem ne_of_isAlpha {c d : UInt8} (h : isAlpha c = true) (hd : isAlpha d = false) : c ≠ d := by
  rintro rfl
  rw [h] at hd
  exact Bool.noConfusion hd

/-- The tag `getTag` reads from its `<`: a start, end or empty tag whose name starts with a letter
comes back whole, with the index right after its `>`. -/
theorem getTag_tagText {tagType : TagType} {name : List UInt8} {attrs : List (List UInt8 × List UInt8)}
    {s : Lexer} (hat : At buf s.parseBufferIndex (tagText tagType name attrs))
    (htype : tagType = .tagStart ∨ tagType = .tagEnd ∨ tagType = .tagEmpty)
    (hname : NameOk name) (halpha : isAlpha (name.headD 0) = true)
    (hattrs : ∀ a ∈ attrs, a.1 ≠ [] ∧ NameOk a.1 ∧ ValueOk a.2) (hcount : attrs.length < TAG_MAX_ATTRIBUTES) :
    (getTag buf s).1 = tagType ∧ (getTag buf s).2.1 = ⟨name, attrs⟩ ∧
      (getTag buf s).2.2.parseBufferIndex = s.parseBufferIndex + (tagText tagType name attrs).length := by
  obtain ⟨c, cs, rfl⟩ : ∃ c cs, name = c :: cs := by
    cases name with
    | nil => exact absurd halpha (by decide)
    | cons c cs => exact ⟨c, cs, rfl⟩
  simp only [List.headD_cons] at halpha
  have hbang := ne_of_isAlpha halpha (d := '!'.toUInt8) (by decide)
  have hquery := ne_of_isAlpha halpha (d := '?'.toUInt8) (by decide)
  have hslash := ne_of_isAlpha halpha (d := '/'.toUInt8) (by decide)
  obtain ⟨hlt, hrest⟩ := at_cons.1 hat
  have hc0 : cur buf (currentChar s) = '<'.toUInt8 := hlt
  -- after `<` and, for an end tag, `/`: the name and what follows it, as `elementTag` reads them
  rcases htype with rfl | rfl | rfl
  · have hc1 : cur buf (nextChar (currentChar s)) = c := (at_cons.1 (by simpa [tagText] using hrest)).1
    have hE := elementTag_at .tagStart false (s := nextChar (currentChar s))
      (by simpa [tagText] using hrest) hname hattrs hcount
    simp only [getTag, hc0, ne_eq, not_true_eq_false, hc1, hbang, hquery, hslash, ↓reduceIte, halpha,
      Bool.not_true, Bool.false_eq_true]
    simp only [Bool.false_eq_true, ↓reduceIte] at hE
    refine ⟨hE.1, hE.2.1, ?_⟩
    rw [hE.2.2]
    simp [tagText]
    omega
  · obtain ⟨hsl, hname'⟩ := at_cons.1 (by simpa [tagText] using hrest)
    have hc1 : cur buf (nextChar (currentChar s)) = '/'.toUInt8 := hsl
    have hc2 : cur buf (nextChar (nextChar (currentChar s))) = c := (at_cons.1 hname').1
    have hE := elementTag_at .tagEnd false
      (s := nextChar (nextChar (currentChar s))) (by simpa using hname') hname hattrs hcount
    simp only [getTag, hc0, ne_eq, not_true_eq_false, hc1, ↓reduceIte, hc2, halpha,
      Bool.not_true, Bool.false_eq_true, show ('/'.toUInt8 = '!'.toUInt8) = False by decide,
      show ('/'.toUInt8 = '?'.toUInt8) = False by decide]
    simp only [Bool.false_eq_true, ↓reduceIte] at hE
    refine ⟨hE.1, hE.2.1, ?_⟩
    rw [hE.2.2]
    simp [tagText]
    omega
  · have hc1 : cur buf (nextChar (currentChar s)) = c := (at_cons.1 (by simpa [tagText] using hrest)).1
    have hE := elementTag_at .tagStart true (s := nextChar (currentChar s))
      (by simpa [tagText] using hrest) hname hattrs hcount
    simp only [getTag, hc0, ne_eq, not_true_eq_false, hc1, hbang, hquery, hslash, ↓reduceIte, halpha,
      Bool.not_true, Bool.false_eq_true]
    simp only [↓reduceIte] at hE
    refine ⟨hE.1, hE.2.1, ?_⟩
    rw [hE.2.2]
    simp [tagText]
    omega

end Tags

/-! ## Start tags -/

theorem toUInt8_of_isDigit {c : Char} (h : c.isDigit = true) : 48 ≤ c.toUInt8.toNat ∧ c.toUInt8.toNat ≤ 57 := by
  simp only [Char.isDigit, Bool.and_eq_true, decide_eq_true_eq] at h
  obtain ⟨h1, h2⟩ := h
  have e : c.toUInt8.toNat = c.val.toNat % 256 := by
    rw [show c.toUInt8 = c.val.toUInt8 from rfl, UInt32.toNat_toUInt8]
  have h1' : 48 ≤ c.val.toNat := h1
  have h2' : c.val.toNat ≤ 57 := h2
  omega

/-- Every character `decimal` writes is a digit. -/
theorem digit_of_mem_decimal {n : Nat} {c : UInt8} (h : c ∈ decimal n) : 48 ≤ c.toNat ∧ c.toNat ≤ 57 := by
  obtain ⟨d, hd, rfl⟩ := List.mem_map.1 h
  exact toUInt8_of_isDigit (Nat.isDigit_of_mem_toDigits (by decide) (by decide) hd)

/-- A number below `10 ^ 30` as an attribute value: short enough, and no quote or NUL in it. -/
theorem valueOk_decimal {n : Nat} (hn : n < 10 ^ 30) : ValueOk (decimal n) where
  no_quote h := absurd (digit_of_mem_decimal h) (by decide)
  no_nul h := absurd (digit_of_mem_decimal h) (by decide)
  length := by
    have := Nat.toDigits_length 10 n 30 (by decide) hn
    simp only [decimal, List.length_map, TAG_MAX_LENGTH]
    omega

theorem nameOk_ID : NameOk (lit "ID") := ⟨by decide +kernel, by decide +kernel⟩

/-- What `addXMLStartTag` writes is a start tag with the one attribute `ID`. -/
theorem startText_eq_tagText (tag : List UInt8) (id : Nat) :
    startText tag id = tagText .tagStart tag [(lit "ID", decimal id)] := by
  simp [startText, tagText, attributeText, lit]

theorem idAttributes_ID (tagType : TagType) (idref : Int) (v : List UInt8) :
    idAttributes tagType idref [(lit "ID", v)] = .inr (toCInt (strtol v 0)) := rfl

/-- `yylex` on a start tag `<tag ID="id">`: the token of `tagToken` for it, read from right after
its `>`. -/
theorem yylex_startText {tag : List UInt8} {id : Nat} {s : Lexer} (hat : At buf s.parseBufferIndex (startText tag id))
    (hname : NameOk tag) (halpha : isAlpha (tag.headD 0) = true) (hplist : tag ≠ lit "plist") (hid : id < 10 ^ 30) :
    ∃ s', yylex buf s = tagToken buf .tagStart ⟨tag, [(lit "ID", decimal id)]⟩ (toCInt (strtol (decimal id) 0)) s' ∧
      s'.parseBufferIndex = s.parseBufferIndex + (startText tag id).length := by
  rw [startText_eq_tagText] at hat ⊢
  have hc : cur buf (currentChar s) = '<'.toUInt8 := (at_cons.1 hat).1
  have hsk : skipSpaces buf (currentChar s) = currentChar s := skipSpaces_of_not_space (by rw [hc]; decide)
  have hG := getTag_tagText (s := currentChar s) hat (Or.inl rfl) hname halpha
    (by
      intro a ha
      simp only [List.mem_singleton] at ha
      subst ha
      exact ⟨show lit "ID" ≠ [] by decide, nameOk_ID, valueOk_decimal hid⟩)
    (by simp [TAG_MAX_ATTRIBUTES])
  rcases hg : getTag buf (currentChar s) with ⟨tagType, td, s'⟩
  rw [hg] at hG
  obtain ⟨rfl, rfl, hi⟩ := hG
  refine ⟨s', ?_, hi⟩
  rw [yylex]
  simp only [hsk, hc, show ('<'.toUInt8 = '\n'.toUInt8) = False by decide, show ('<'.toUInt8 = 0) = False by decide,
    dite_false, hg]
  simp [idAttributes_ID, hplist]

/-- `<array ID="id">` is the token `(`. -/
theorem yylex_arrayStart {id : Nat} {s : Lexer} (hat : At buf s.parseBufferIndex (startText (lit "array") id))
    (hid : id < 10 ^ 30) :
    ∃ s', yylex buf s = (.lparen (toCInt (strtol (decimal id) 0)), s') ∧
      s'.parseBufferIndex = s.parseBufferIndex + (startText (lit "array") id).length := by
  obtain ⟨s', hy, hi⟩ := yylex_startText hat ⟨by decide +kernel, by decide +kernel⟩ (by decide) (by decide) hid
  exact ⟨s', by rw [hy]; rfl, hi⟩

end Libkern.XML
