import Darwin.Libkern.XMLParser
import Darwin.Libkern.XMLLexemes

/-!
# The parser's stack does not grow (`OSUnserializeXML.cpp:460-510`, `:1319-1420`)

`OSUnserializeXML.cpp` is compiled as C++ with `YYSTYPE` defined as `object_t *` (`:165`), so
`YYSTYPE_IS_TRIVIAL` is never defined, `union yyalloc` and `YYSTACK_RELOCATE` are left out, and a
full stack is `goto yyexhaustedlab` at once: the stack keeps the `YYINITDEPTH = 200` entries of
`yyssa`, though `YYMAXDEPTH` is 10000. Every collection still open holds one state on it, so a
chain of 199 start tags exhausts it (`parseObject_lparens`). The serializer writes such a chain
for 199 arrays each inside the next (`nestedArrays`), and the parser rejects that text with
`"memory exhausted"`.
-/

namespace Libkern.XML

open OSObject IOKit

section Parse

variable (buf : List UInt8)

theorem parseObject_exhausted {fuel k : Nat} {tok : Token} {p : Parser} (htok : tok.startsObject = true)
    (hk : YYINITDEPTH ≤ k + 1) : parseObject buf (fuel + 1) k tok p = fail "memory exhausted" p := by
  simp [parseObject, htok, hk]

/-- `n` more `(` after the one at height `k` push the stack past its end when `k + 1 + n` reaches
`YYINITDEPTH`: the `n`-th `(` from `pos 0` on is read at `pos n`. -/
theorem parseObject_lparens (n : Nat) :
    ∀ (pos : Nat → Nat) (fuel k : Nat) (id : Int) (p : Parser),
      (∀ m < n, ∀ s : Lexer, s.parseBufferIndex = pos m →
        ∃ id', (yylex buf s).1 = .lparen id' ∧ (yylex buf s).2.parseBufferIndex = pos (m + 1)) →
      p.lexer.parseBufferIndex = pos 0 → YYINITDEPTH ≤ k + 1 + n → 2 * n < fuel →
      ∃ line, parseObject buf fuel k (.lparen id) p = .error ⟨"memory exhausted", line⟩ := by
  induction n with
  | zero =>
    intro pos fuel k id p _ _ hk hfuel
    obtain ⟨f, rfl⟩ : ∃ f, fuel = f + 1 := ⟨fuel - 1, by omega⟩
    exact ⟨_, parseObject_exhausted buf rfl hk⟩
  | succ n ih =>
    intro pos fuel k id p hlex hp hk hfuel
    obtain ⟨f, rfl⟩ : ∃ f, fuel = f + 2 := ⟨fuel - 2, by omega⟩
    by_cases hk1 : YYINITDEPTH ≤ k + 1
    · exact ⟨_, parseObject_exhausted buf rfl hk1⟩
    -- the next token is the `(` at `pos 0`; the element it opens is the array's first
    obtain ⟨id', hy, hy'⟩ := hlex 0 (by omega) p.lexer hp
    obtain ⟨line, he⟩ := ih (fun m => pos (m + 1)) f (k + 1) id' (p.lex buf).2
      (fun m hm s hs => hlex (m + 1) (by omega) s hs) hy' (by omega) (by omega)
    refine ⟨line, ?_⟩
    have ht : (p.lex buf).1 = .lparen id' := hy
    rw [parseObject]
    simp only [Token.startsObject, Bool.not_true, Bool.false_eq_true, ↓reduceIte, hk1]
    rw [ht, parseElements]
    simp only [reduceCtorEq, Bool.false_eq_true, ↓reduceIte, elementBase, decide_true, he]

end Parse

/-- `n + 1` arrays, each the only element of the one around it. -/
def nestedArrays : Nat → OSObject
  | 0 => .array 0 []
  | n + 1 => .array (n + 1) [nestedArrays n]

/-- The text of `nestedArrays n` is `n + 1` start tags, numbered from the `tags` seen before, then
as many end tags. -/
theorem lexemes_nestedArrays (n : Nat) :
    ∀ tags : List Ident, (∀ j ≤ n, .obj j ∉ tags) →
      (lexemes tags (nestedArrays n)).1 =
        (List.range (n + 1)).map (fun m => .startTag .array (tags.length + m)) ++
          List.replicate (n + 1) (.endTag .array) := by
  induction n with
  | zero =>
    intro tags h
    simp [nestedArrays, lexemes, withRef, h 0 (Nat.le_refl 0), listLexemes]
  | succ n ih =>
    intro tags h
    have hin : Ident.obj (n + 1) ∉ tags := h (n + 1) (Nat.le_refl _)
    have hrest := ih (tags ++ [.obj (n + 1)]) (by
      intro j hj hmem
      rcases List.mem_append.1 hmem with hm | hm
      · exact h j (by omega) hm
      · simp at hm; omega)
    simp only [nestedArrays, lexemes, withRef, hin, if_false, listLexemes, hrest, List.append_nil]
    rw [List.range_succ_eq_map (n := n + 1), List.replicate_succ' (n := n + 1)]
    simp [Function.comp_def, Nat.add_assoc, Nat.add_comm 1]

/-! ## The text of the chain -/

/-- The start tags of the first `m` arrays of the chain, outermost first. -/
def nestedStarts (m : Nat) : List Lexeme := (List.range m).map fun j => .startTag .array j

theorem textOf_nestedStarts_succ (m : Nat) :
    textOf (nestedStarts (m + 1)) = textOf (nestedStarts m) ++ startText (lit "array") m := by
  simp [nestedStarts, List.range_succ, Lexeme.text, Coll.name]

theorem lexemes_nestedArrays_nil (n : Nat) :
    (lexemes [] (nestedArrays n)).1 = nestedStarts (n + 1) ++ List.replicate (n + 1) (.endTag .array) := by
  simpa [nestedStarts] using lexemes_nestedArrays n [] (by simp)

theorem startText_array_length (m : Nat) : (startText (lit "array") m).length = 13 + (decimal m).length := by
  have h5 : (lit "array").length = 5 := rfl
  have h5' : (lit " ID=\"").length = 5 := rfl
  simp only [startText, List.length_append, h5, h5', List.length_singleton]
  omega

/-- Each start tag of the chain is 13 characters and at most six digits. -/
theorem textOf_nestedStarts_length (m : Nat) (hm : m ≤ 10 ^ 6) :
    13 * m ≤ (textOf (nestedStarts m)).length ∧ (textOf (nestedStarts m)).length ≤ 19 * m := by
  induction m with
  | zero => simp [nestedStarts]
  | succ m ih =>
    have hd := Nat.toDigits_length 10 m 6 (by decide) (by omega)
    have hd' : (decimal m).length ≤ 6 := by simpa [decimal] using hd
    obtain ⟨h1, h2⟩ := ih (by omega)
    rw [textOf_nestedStarts_succ, List.length_append, startText_array_length]
    omega

theorem textOf_endTags_length (k : Nat) : (textOf (List.replicate k (.endTag .array))).length = 8 * k := by
  induction k with
  | zero => rfl
  | succ k ih =>
    rw [List.replicate_succ, textOf_cons, List.length_append, ih]
    simp only [Lexeme.text, endText, Coll.name, List.length_append, List.length_singleton]
    have h5 : (lit "array").length = 5 := rfl
    omega

/-- The text of the chain holds the start tag of its array `m` after those of the arrays around it. -/
theorem at_nestedStarts {m k : Nat} (hm : m < k) (rest : List UInt8) :
    At (textOf (nestedStarts k) ++ rest) (textOf (nestedStarts m)).length (startText (lit "array") m) := by
  obtain ⟨j, rfl⟩ : ∃ j, k = m + 1 + j := ⟨k - (m + 1), by omega⟩
  have hsplit : nestedStarts (m + 1 + j) =
      nestedStarts (m + 1) ++ (List.range j).map fun i => .startTag .array (m + 1 + i) := by
    simp [nestedStarts, List.range_add]
  rw [hsplit, textOf_append, textOf_nestedStarts_succ, List.append_assoc, List.append_assoc,
    ← List.append_assoc (textOf (nestedStarts m))]
  exact at_middle _ _ _

/-! ## What the parser makes of it -/

/-- A chain of `n + 1` arrays that reaches the end of the stack, with no more objects than
`MAX_OBJECTS`: the serializer writes it, and the parser stops at its last start tag. -/
theorem nestedArrays_rejected {n : Nat} (hdeep : YYINITDEPTH ≤ n + 2) (hcount : n + 1 ≤ MAX_OBJECTS) :
    ∃ T line, serializeXML (nestedArrays n) = some T ∧
      OSUnserializeXMLError T = some ⟨"memory exhausted", line⟩ := by
  simp only [MAX_OBJECTS] at hcount
  have hlen := textOf_nestedStarts_length (n + 1) (by omega)
  have hends := textOf_endTags_length (n + 1)
  obtain ⟨T, hTdef⟩ : ∃ T, textOf (lexemes [] (nestedArrays n)).1 = T := ⟨_, rfl⟩
  have hT : T = textOf (nestedStarts (n + 1)) ++ textOf (List.replicate (n + 1) (.endTag .array)) := by
    rw [← hTdef, lexemes_nestedArrays_nil, textOf_append]
  have hTlen : T.length = (textOf (nestedStarts (n + 1))).length + 8 * (n + 1) := by
    rw [hT, List.length_append, hends]
  have hfits : Fits T.length := by
    unfold Fits
    omega
  have hser : serializeXML (nestedArrays n) = some T := by
    rw [← hTdef]
    exact serializeXML_of_fits (by rw [hTdef]; exact hfits)
  -- the tag of array `m` starts where those of the arrays around it end
  have hlex : ∀ m ≤ n, ∀ s : Lexer, s.parseBufferIndex = (textOf (nestedStarts m)).length →
      ∃ s', yylex T s = (.lparen (toCInt (strtol (decimal m) 0)), s') ∧
        s'.parseBufferIndex = (textOf (nestedStarts (m + 1))).length := by
    intro m hm s hs
    have hat : At T s.parseBufferIndex (startText (lit "array") m) := by
      rw [hs, hT]
      exact at_nestedStarts (by omega) _
    obtain ⟨s', hy, hi⟩ := yylex_arrayStart hat (by omega)
    refine ⟨s', hy, ?_⟩
    rw [hi, hs, textOf_nestedStarts_succ, List.length_append]
  -- the first `(` is read by `yyparse`, the other `n` by `parseObject_lparens`
  obtain ⟨s1, hy1, hi1⟩ := hlex 0 (Nat.zero_le _) Lexer.init rfl
  have hlex1 : Parser.lex T Parser.init = (.lparen (toCInt (strtol (decimal 0) 0)), { Parser.init with lexer := s1 }) := by
    have hinit : Parser.init.lexer = Lexer.init := rfl
    simp only [Parser.lex, hinit, hy1]
  obtain ⟨line, he⟩ := parseObject_lparens T n (fun m => (textOf (nestedStarts (m + 1))).length) (T.length + 1) 1
    (toCInt (strtol (decimal 0) 0)) { Parser.init with lexer := s1 }
    (fun m hm s hs => by
      obtain ⟨s', hy, hi⟩ := hlex (m + 1) (by omega) s hs
      exact ⟨_, by rw [hy], by rw [hy]; exact hi⟩)
    hi1 (by omega) (by omega)
  refine ⟨T, line, hser, ?_⟩
  simp only [OSUnserializeXMLError, yyparse, hlex1, Token.startsObject, ↓reduceIte, he]

/-- 199 arrays, each inside the next: the serializer writes them and `OSUnserializeXML` returns
`NULL` for the text, having run out of stack at the last start tag. -/
theorem nestedArrays_not_unserialized :
    ∃ T, serializeXML (nestedArrays 198) = some T ∧ OSUnserializeXML T = none ∧
      (OSUnserializeXMLError T).map ParseError.message = some "memory exhausted" := by
  obtain ⟨T, line, hser, he⟩ := nestedArrays_rejected (n := 198) (by decide) (by decide)
  exact ⟨T, hser, OSUnserializeXML_eq_none_of_error he, by rw [he]; rfl⟩

end Libkern.XML
