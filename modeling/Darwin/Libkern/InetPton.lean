import Darwin.Libkern.InetNtop

/-!
# `inet_pton`: addresses read back (`libkern/net/inet_pton.c`)

| here | source |
|---|---|
| `inet_pton` | `inet_pton` (`:48-60`) |
| `pton4Loop`, `inet_pton4` | `inet_pton4` (`:72-117`) |
| `pton6Loop`, `shiftLoop`, `inet_pton6` | `inet_pton6` (`:130-240`) |

The C string `src` is a list of characters with a NUL after its end. `tmp` is a list of bytes
written in place; `inet_pton4`'s four bytes start as zeros, but each is written before it is
read. A result `some bytes` stands for a return of 1 with `bytes` copied to `dst`; `none` for 0
with `dst` untouched.

The main results are the round trips through `inet_ntop`: every IPv4 and every IPv6 address
printed by `inet_ntop` reads back as itself (`inet_pton4_fmtQuad`, `inet_pton6_presentation`).
For IPv4 the converse holds as well: `inet_pton4` accepts a string exactly when the text before
its NUL is the dotted quad `inet_ntop4` prints for the bytes it returns (`inet_pton4_iff`), so
that leading zeros, octets over 255, and a count of octets other than four are all refused.
-/

namespace Libkern.Inet

/-! ## The model -/

def NS_INADDRSZ : Nat := 4

def digits : List Char := "0123456789".toList
def xdigits_l : List Char := "0123456789abcdef".toList
def xdigits_u : List Char := "0123456789ABCDEF".toList

/-- `strchr(s, ch) - s` for a character `ch` other than NUL: its first place in `s`. -/
def strchr (s : List Char) (ch : Char) : Option Nat := s.idxOf? ch

/-- `inet_pton4`'s loop variables: `tmp[4]` and `tp` its index, `saw_digit`, `octets`. -/
structure P4 where
  tmp : List UInt8
  tp : Nat
  saw_digit : Bool
  octets : Nat

/-- The loop of `inet_pton4` (`:83-110`) over the rest of the string. -/
def pton4Loop : List Char → P4 → Option P4
  | [], st => some st
  | ch :: src, st =>
    if ch = '\x00' then some st
    else match strchr digits ch with
    | some d =>
      let new := (st.tmp.getD st.tp 0).toNat * 10 + d
      if st.saw_digit ∧ st.tmp.getD st.tp 0 = 0 then none
      else if new > 255 then none
      else
        let st := { st with tmp := st.tmp.set st.tp (UInt8.ofNat new) }
        if !st.saw_digit then
          if st.octets + 1 > 4 then none
          else pton4Loop src { st with octets := st.octets + 1, saw_digit := true }
        else pton4Loop src st
    | none =>
      if ch = '.' ∧ st.saw_digit then
        if st.octets = 4 then none
        -- `*++tp = 0`
        else
          pton4Loop src { st with tp := st.tp + 1, tmp := st.tmp.set (st.tp + 1) 0, saw_digit := false }
      else none

/-- **`inet_pton4`** (`:72-117`). -/
def inet_pton4 (src : List Char) : Option (List UInt8) :=
  match pton4Loop src ⟨[0, 0, 0, 0], 0, false, 0⟩ with
  | some st => if st.octets < 4 then none else some st.tmp
  | none => none

/-- `inet_pton6`'s loop variables: `tmp[16]` and `tp` its index, `colonp` as an index, `curtok`
as the rest of the string from it, `seen_xdigits`, `val`. -/
structure P6 where
  tmp : List UInt8
  tp : Nat
  colonp : Option Nat
  curtok : List Char
  seen_xdigits : Nat
  val : Nat

/-- `*tp++ = (u_char) (val >> 8) & 0xff; *tp++ = (u_char) val & 0xff;` (the mask of a `u_char`
keeps it). -/
def putWord (tmp : List UInt8) (tp val : Nat) : List UInt8 :=
  (tmp.set tp (UInt8.ofNat (val >>> 8))).set (tp + 1) (UInt8.ofNat val)

/-- `memcpy(tmp + tp, b, b.length)`. -/
def memcpy (tmp : List UInt8) (tp : Nat) (b : List UInt8) : List UInt8 :=
  tmp.take tp ++ b ++ tmp.drop (tp + b.length)

/-- The loop of `inet_pton6` (`:148-195`) over the rest of the string; it stops at the end of
the string, or after an embedded dotted quad. -/
def pton6Loop : List Char → P6 → Option P6
  | [], st => some st
  | ch :: src, st =>
    if ch = '\x00' then some st
    else match (strchr xdigits_l ch).or (strchr xdigits_u ch) with
    | some d =>
      if st.seen_xdigits + 1 > 4 then none
      else pton6Loop src { st with val := st.val <<< 4 ||| d, seen_xdigits := st.seen_xdigits + 1 }
    | none =>
      if ch = ':' then
        if st.seen_xdigits = 0 then
          if st.colonp.isSome then none
          else pton6Loop src { st with curtok := src, colonp := some st.tp }
        else if src.headD '\x00' = '\x00' then none
        else if st.tp + NS_INT16SZ > NS_IN6ADDRSZ then none
        else
          let st := { st with curtok := src, tmp := putWord st.tmp st.tp st.val }
          pton6Loop src { st with tp := st.tp + NS_INT16SZ, seen_xdigits := 0, val := 0 }
      else if ch = '.' ∧ st.tp + NS_INADDRSZ ≤ NS_IN6ADDRSZ then
        -- `inet_pton4(curtok, tp) > 0`, then `break`: `inet_pton4` read the rest of the string
        match inet_pton4 st.curtok with
        | some b =>
          let st := { st with tmp := memcpy st.tmp st.tp b }
          some { st with tp := st.tp + NS_INADDRSZ, seen_xdigits := 0 }
        | none => none
      else none

/-- One round of the hand-written `memmove` (`:229-230`):
`endp[-i] = colonp[n - i]; colonp[n - i] = 0;`. -/
def shiftStep (colonp n : Nat) (tmp : List UInt8) (i : Nat) : List UInt8 :=
  (tmp.set (NS_IN6ADDRSZ - i) (tmp.getD (colonp + n - i) 0)).set (colonp + n - i) 0

/-- The loop of `:228-231`, for `i = 1 .. n`. -/
def shiftLoop (tmp : List UInt8) (colonp n : Nat) : List UInt8 :=
  (List.range' 1 n).foldl (shiftStep colonp n) tmp

/-- After the loop (`:196-238`): the last group, the shift behind `::`, the length check. -/
def pton6Finish (st : P6) : Option (List UInt8) := do
  let st ← if st.seen_xdigits ≠ 0 then
      if st.tp + NS_INT16SZ > NS_IN6ADDRSZ then none
      else some { st with tmp := putWord st.tmp st.tp st.val, tp := st.tp + NS_INT16SZ }
    else some st
  let st ← match st.colonp with
    | some colonp =>
      if st.tp = NS_IN6ADDRSZ then none
      else some { st with tmp := shiftLoop st.tmp colonp (st.tp - colonp), tp := NS_IN6ADDRSZ }
    | none => some st
  if st.tp ≠ NS_IN6ADDRSZ then none else some st.tmp

/-- **`inet_pton6`** (`:130-240`). -/
def inet_pton6 (src : List Char) : Option (List UInt8) := do
  -- a leading `:` must be the first of `::`
  let src ← match src with
    | ':' :: rest => if rest.headD '\x00' ≠ ':' then none else some rest
    | _ => some src
  let st ← pton6Loop src ⟨List.replicate NS_IN6ADDRSZ 0, 0, none, src, 0, 0⟩
  pton6Finish st

/-- **`inet_pton`** (`:48-60`): the return value, and the bytes copied to `dst`. -/
def inet_pton (af : Nat) (src : List Char) : Int × Option (List UInt8) :=
  if af = AF_INET then
    match inet_pton4 src with
    | some b => (1, some b)
    | none => (0, none)
  else if af = AF_INET6 then
    match inet_pton6 src with
    | some b => (1, some b)
    | none => (0, none)
  else (-1, none)

/-! ## Characters -/

theorem strchr_digits : ∀ d, d < 10 → strchr digits (Nat.digitChar d) = some d := by decide

theorem strchr_xdigits : ∀ d, d < 16 → strchr xdigits_l (Nat.digitChar d) = some d := by decide

theorem digitChar_ne_nul : ∀ d, d < 16 → Nat.digitChar d ≠ '\x00' := by decide

theorem strchr_dot : strchr digits '.' = none ∧ strchr xdigits_l '.' = none ∧
    strchr xdigits_u '.' = none := by decide

theorem strchr_colon : strchr xdigits_l ':' = none ∧ strchr xdigits_u ':' = none := by decide

/-! ## `inet_pton4` -/

theorem pton4Loop_dot (rest : List Char) (st : P4) (hs : st.saw_digit = true) (ho : st.octets ≠ 4) :
    pton4Loop ('.' :: rest) st =
      pton4Loop rest { st with tp := st.tp + 1, tmp := st.tmp.set (st.tp + 1) 0, saw_digit := false } := by
  rw [pton4Loop, if_neg (by decide), strchr_dot.1]
  dsimp only
  rw [if_pos ⟨rfl, hs⟩, if_neg ho]

/-- One more digit of an octet that has begun with a digit other than zero. -/
theorem pton4Loop_digit_more (rest : List Char) (st : P4) {d : Nat} (hd : d < 10)
    (hs : st.saw_digit = true) (hz : st.tmp.getD st.tp 0 ≠ 0)
    (hle : (st.tmp.getD st.tp 0).toNat * 10 + d ≤ 255) :
    pton4Loop (Nat.digitChar d :: rest) st =
      pton4Loop rest { st with tmp := st.tmp.set st.tp (UInt8.ofNat ((st.tmp.getD st.tp 0).toNat * 10 + d)) } := by
  rw [pton4Loop, if_neg (digitChar_ne_nul d (by omega)), strchr_digits d hd]
  dsimp only
  rw [if_neg (fun h => hz h.2), if_neg (by omega), hs]
  rfl

/-- The first digit of an octet. -/
theorem pton4Loop_digit_first (rest : List Char) (st : P4) {d : Nat} (hd : d < 10)
    (hs : st.saw_digit = false) (hz : st.tmp.getD st.tp 0 = 0) (ho : st.octets < 4) :
    pton4Loop (Nat.digitChar d :: rest) st =
      pton4Loop rest
        { st with tmp := st.tmp.set st.tp (UInt8.ofNat d), octets := st.octets + 1, saw_digit := true } := by
  rw [pton4Loop, if_neg (digitChar_ne_nul d (by omega)), strchr_digits d hd]
  dsimp only
  rw [if_neg (fun h => absurd h.1 (by simp [hs])), hz]
  simp only [UInt8.toNat_zero, Nat.zero_mul, Nat.zero_add]
  rw [if_neg (by omega), hs]
  simp only [Bool.not_false, if_true]
  rw [if_neg (by omega)]

/-- An octet printed by `%u` is read as that octet. -/
theorem pton4Loop_toDigits {n : Nat} (hn : n < 256) :
    ∀ (rest : List Char) (st : P4), st.saw_digit = false → st.tp < st.tmp.length →
      st.tmp.getD st.tp 0 = 0 → st.octets < 4 →
      pton4Loop (Nat.toDigits 10 n ++ rest) st =
        pton4Loop rest
          { st with tmp := st.tmp.set st.tp (UInt8.ofNat n), octets := st.octets + 1, saw_digit := true } := by
  induction n using Nat.strongRecOn with
  | _ n ih =>
    intro rest st hs htp hz ho
    rcases Nat.lt_or_ge n 10 with h10 | h10
    · -- one digit
      rw [Nat.toDigits_of_lt_base h10, List.singleton_append]
      exact pton4Loop_digit_first rest st h10 hs hz ho
    · -- the digits of `n / 10`, then the last one
      rw [Nat.toDigits_of_base_le (by decide) h10, List.append_assoc, List.singleton_append,
        ih (n / 10) (by omega) (by omega) _ st hs htp hz ho]
      have hget : (st.tmp.set st.tp (UInt8.ofNat (n / 10))).getD st.tp 0 = UInt8.ofNat (n / 10) := by
        rw [List.getD_eq_getElem?_getD, List.getElem?_set_self htp]
        rfl
      have hval : (UInt8.ofNat (n / 10)).toNat = n / 10 :=
        UInt8.toNat_ofNat_of_lt' (by simp only [UInt8.size]; omega)
      rw [pton4Loop_digit_more rest _ (Nat.mod_lt n (by decide)) rfl (by
          rw [hget]
          intro h
          have := congrArg UInt8.toNat h
          rw [hval] at this
          simp at this
          omega) (by rw [hget, hval]; omega)]
      rw [hget, hval, show n / 10 * 10 + n % 10 = n by omega, List.set_set]

/-- At the end of the string the loop stops. -/
theorem pton4Loop_end {rest : List Char} (hrest : rest.headD '\x00' = '\x00') (st : P4) :
    pton4Loop rest st = some st := by
  match rest, hrest with
  | [], _ => rfl
  | c :: r, h =>
    simp only [List.headD_cons] at h
    subst h
    rw [pton4Loop, if_pos rfl]

/-- A dotted quad printed by `inet_ntop4`, up to the end of the string, reads back as its four
bytes. -/
theorem inet_pton4_fmtQuad_append (q : List UInt8) {rest : List Char}
    (hrest : rest.headD '\x00' = '\x00') :
    inet_pton4 (fmtQuad q ++ rest) = some [q.getD 0 0, q.getD 1 0, q.getD 2 0, q.getD 3 0] := by
  have h0 := (q.getD 0 0).toNat_lt
  have h1 := (q.getD 1 0).toNat_lt
  have h2 := (q.getD 2 0).toNat_lt
  have h3 := (q.getD 3 0).toNat_lt
  unfold inet_pton4 fmtQuad
  simp only [List.append_assoc, List.cons_append]
  -- each octet, then the dot after it
  rw [pton4Loop_toDigits h0 _ _ rfl (by simp) (by simp) (by simp),
    pton4Loop_dot _ _ rfl (by simp)]
  rw [pton4Loop_toDigits h1 _ _ rfl (by simp) (by simp) (by simp),
    pton4Loop_dot _ _ rfl (by simp)]
  rw [pton4Loop_toDigits h2 _ _ rfl (by simp) (by simp) (by simp),
    pton4Loop_dot _ _ rfl (by simp)]
  rw [pton4Loop_toDigits h3 _ _ rfl (by simp) (by simp) (by simp), pton4Loop_end hrest]
  simp

/-- A dotted quad printed by `inet_ntop4` reads back as its four bytes. -/
theorem inet_pton4_fmtQuad (q : List UInt8) :
    inet_pton4 (fmtQuad q) = some [q.getD 0 0, q.getD 1 0, q.getD 2 0, q.getD 3 0] := by
  rw [← List.append_nil (fmtQuad q)]
  exact inet_pton4_fmtQuad_append q rfl

theorem quad_eq {q : List UInt8} (hq : q.length = 4) :
    [q.getD 0 0, q.getD 1 0, q.getD 2 0, q.getD 3 0] = q := by
  match q, hq with
  | [a, b, c, d], _ => rfl

/-! ## `inet_pton4` accepts exactly the dotted quads -/

theorem strchr_digits_eq {ch : Char} {d : Nat} (h : strchr digits ch = some d) :
    d < 10 ∧ ch = Nat.digitChar d := by
  obtain ⟨hd, hch, -⟩ := List.idxOf?_eq_some_iff.mp h
  have hall : ∀ d, d < 10 → digits[d]? = some (Nat.digitChar d) := by decide
  have hd' : d < 10 := hd
  have := hall d hd'
  rw [List.getElem?_eq_getElem hd, hch] at this
  exact ⟨hd', Option.some.inj this⟩

/-- The text `pton4Loop` has read to reach `st`: each finished octet with its `.`, and the
digits of the octet it is in. -/
def P4.consumed (st : P4) : List Char :=
  (st.tmp.take st.tp).flatMap (fun x => Nat.toDigits 10 x.toNat ++ ['.']) ++
    (if st.saw_digit then Nat.toDigits 10 (st.tmp.getD st.tp 0).toNat else [])

/-- What the loop keeps: four bytes, at most four octets begun, and the byte of an octet not
begun still zero. -/
structure P4.Inv (st : P4) : Prop where
  length : st.tmp.length = NS_INADDRSZ
  tp_le : st.tp < NS_INADDRSZ
  octets : st.octets = st.tp + (if st.saw_digit then 1 else 0)
  fresh : st.saw_digit = false → st.tmp.getD st.tp 0 = 0

theorem P4.Inv.start : P4.Inv ⟨[0, 0, 0, 0], 0, false, 0⟩ :=
  ⟨rfl, by decide, rfl, fun _ => rfl⟩

theorem P4.consumed_start : P4.consumed ⟨[0, 0, 0, 0], 0, false, 0⟩ = [] := rfl

/-- One character other than NUL: the loop fails, or goes on from a state that keeps the
invariant and has read that character more. -/
theorem pton4Loop_step {st : P4} (hI : st.Inv) {ch : Char} (hch : ch ≠ '\x00') (rest : List Char) :
    pton4Loop (ch :: rest) st = none ∨
      ∃ st', st'.Inv ∧ st'.consumed = st.consumed ++ [ch] ∧
        pton4Loop (ch :: rest) st = pton4Loop rest st' := by
  have htp : st.tp < st.tmp.length := by rw [hI.length]; exact hI.tp_le
  rw [pton4Loop, if_neg hch]
  dsimp only
  split
  · -- a digit
    rename_i d hd
    obtain ⟨hd10, rfl⟩ := strchr_digits_eq hd
    have hv := (st.tmp.getD st.tp 0).toNat_lt
    split_ifs with hz hbig hsaw hoct
    · exact .inl rfl
    · exact .inl rfl
    · exact .inl rfl
    · -- the first digit of an octet
      have hs : st.saw_digit = false := by simpa using hsaw
      have h0 := hI.fresh hs
      rw [h0, UInt8.toNat_zero, Nat.zero_mul, Nat.zero_add] at hbig ⊢
      refine .inr ⟨_, ?_, ?_, rfl⟩
      · refine ⟨by simp [hI.length], hI.tp_le, ?_, fun h => by simp at h⟩
        simp only [hI.octets, hs]
        simp
      · simp only [P4.consumed, hs, List.take_set_of_le (Nat.le_refl _),
          Bool.false_eq_true, ↓reduceIte, List.append_nil, List.getD_eq_getElem?_getD, List.getElem?_set_self htp, Option.getD_some,
          UInt8.toNat_ofNat_of_lt' (show d < UInt8.size by simp only [UInt8.size]; omega),
          Nat.toDigits_of_lt_base hd10]
    · -- a later digit of an octet that began with a digit other than zero
      have hs : st.saw_digit = true := by simpa using hsaw
      have hz' : st.tmp.getD st.tp 0 ≠ 0 := fun h => hz ⟨hs, h⟩
      have hpos : 0 < (st.tmp.getD st.tp 0).toNat := by
        rcases Nat.eq_zero_or_pos (st.tmp.getD st.tp 0).toNat with h | h
        · exact absurd (UInt8.toNat_inj.mp (h.trans UInt8.toNat_zero.symm)) hz'
        · exact h
      have hget : (st.tmp.set st.tp (UInt8.ofNat ((st.tmp.getD st.tp 0).toNat * 10 + d))).getD
          st.tp 0 = UInt8.ofNat ((st.tmp.getD st.tp 0).toNat * 10 + d) := by
        rw [List.getD_eq_getElem?_getD, List.getElem?_set_self htp]
        rfl
      have hval : (UInt8.ofNat ((st.tmp.getD st.tp 0).toNat * 10 + d)).toNat =
          (st.tmp.getD st.tp 0).toNat * 10 + d :=
        UInt8.toNat_ofNat_of_lt' (by simp only [UInt8.size]; omega)
      refine .inr ⟨_, ?_, ?_, rfl⟩
      · exact ⟨by simp [hI.length], hI.tp_le, by simp only [hI.octets, hs], fun h => by simp [hs] at h⟩
      -- the digits of `10 v + d` are those of `v` and then `d`
      simp only [P4.consumed, hs, List.take_set_of_le (Nat.le_refl _), if_true, hget, hval]
      rw [List.append_assoc, Nat.mul_comm, ← Nat.toDigits_append_toDigits (by decide) hpos hd10,
        Nat.toDigits_of_lt_base hd10]
  · -- not a digit: only a `.` after a digit goes on
    rename_i hd
    split_ifs with hdot hfull
    · exact .inl rfl
    · obtain ⟨rfl, hs⟩ := hdot
      have hoct : st.octets = st.tp + 1 := by simpa [hs] using hI.octets
      have htp3 : st.tp + 1 < NS_INADDRSZ := by
        have := hI.tp_le
        simp only [NS_INADDRSZ] at this ⊢
        omega
      have htp1 : st.tp + 1 < st.tmp.length := by rw [hI.length]; exact htp3
      refine .inr ⟨_, ?_, ?_, rfl⟩
      · refine ⟨by simp [hI.length], htp3, by simp [hoct], fun _ => ?_⟩
        simp [List.getD_eq_getElem?_getD, List.getElem?_set_self htp1]
      · simp only [P4.consumed, hs, Bool.false_eq_true, ↓reduceIte, List.append_nil,
          List.take_set_of_le (Nat.le_refl _), List.take_add_one, List.getElem?_eq_getElem htp,
          Option.toList_some, List.flatMap_append, List.flatMap_singleton, List.getD_eq_getElem?_getD,
          Option.getD_some, List.append_assoc]
    · exact .inl rfl

/-- A run of the loop from a state that keeps the invariant: the state it ends in keeps it, and
has read the string up to its NUL. -/
theorem pton4Loop_consumed : ∀ (s : List Char) (st st' : P4), st.Inv → pton4Loop s st = some st' →
    st'.Inv ∧ st'.consumed = st.consumed ++ s.takeWhile (fun c => c ≠ '\x00')
  | [], st, st', hI, h => by
    cases h
    exact ⟨hI, by simp⟩
  | ch :: rest, st, st', hI, h => by
    by_cases hch : ch = '\x00'
    · -- the NUL ends the string
      subst hch
      rw [pton4Loop, if_pos rfl] at h
      cases h
      exact ⟨hI, by simp⟩
    · rcases pton4Loop_step hI hch rest with hnone | ⟨st₁, hI₁, hc₁, hstep⟩
      · rw [hnone] at h
        cases h
      · rw [hstep] at h
        obtain ⟨hI', hc'⟩ := pton4Loop_consumed rest st₁ st' hI₁ h
        refine ⟨hI', ?_⟩
        rw [hc', hc₁, List.takeWhile_cons_of_pos (by simpa using hch), List.append_assoc,
          List.singleton_append]

/-- Four octets read: the text is their dotted quad. -/
theorem P4.consumed_full {st : P4} (hI : st.Inv) (h4 : ¬st.octets < 4) :
    st.consumed = fmtQuad st.tmp := by
  have hoct := hI.octets
  have htp := hI.tp_le
  simp only [NS_INADDRSZ] at htp
  -- the last octet begun, and the fourth
  have hs : st.saw_digit = true := by
    cases hsd : st.saw_digit
    · simp only [hsd] at hoct
      simp at hoct
      omega
    · rfl
  have h3 : st.tp = 3 := by
    simp only [hs, if_true] at hoct
    omega
  obtain ⟨tmp, tp, saw, oct⟩ := st
  simp only at hs h3 hI
  subst hs h3
  match tmp, hI.length with
  | [a, b, c, d], _ => simp [P4.consumed, fmtQuad]

/-- `inet_pton4` accepts exactly the dotted quads `inet_ntop4` prints: it returns four bytes
`b` when, and only when, the string up to its NUL is the dotted quad of `b`. -/
theorem inet_pton4_iff (s : List Char) (b : List UInt8) :
    inet_pton4 s = some b ↔
      b.length = NS_INADDRSZ ∧ s.takeWhile (fun c => c ≠ '\x00') = fmtQuad b := by
  constructor
  · intro h
    unfold inet_pton4 at h
    split at h
    · rename_i st hst
      split_ifs at h with h4
      cases h
      obtain ⟨hI, hc⟩ := pton4Loop_consumed s _ st P4.Inv.start hst
      rw [P4.consumed_start, List.nil_append, P4.consumed_full hI h4] at hc
      exact ⟨hI.length, hc.symm⟩
    · cases h
  · rintro ⟨hlen, htw⟩
    -- the rest of the string starts with its NUL
    have hdrop : (s.dropWhile (fun c => c ≠ '\x00')).headD '\x00' = '\x00' := by
      cases hd : s.dropWhile (fun c => decide (c ≠ '\x00')) with
      | nil => rfl
      | cons c r =>
        have := List.head_dropWhile_not (fun c => decide (c ≠ '\x00')) (l := s)
          (by rw [hd]; exact List.cons_ne_nil c r)
        simp only [hd, List.head_cons, decide_eq_false_iff_not, not_not] at this
        simpa using this
    rw [← List.takeWhile_append_dropWhile (p := fun c => decide (c ≠ '\x00')) (l := s), htw,
      inet_pton4_fmtQuad_append b hdrop, quad_eq hlen]

/-! ## `inet_pton6`: the steps -/

/-- A 16-bit word as `inet_pton6` stores it, high byte first. -/
def wordBytes (w : Nat) : List UInt8 := [UInt8.ofNat (w >>> 8), UInt8.ofNat w]

/-- Words as bytes. -/
def bytesOf (ws : List Nat) : List UInt8 := ws.flatMap wordBytes

/-- `tmp` with the bytes `B` written from its start and the rest still as `memset` left it. -/
def fill (B : List UInt8) : List UInt8 := B ++ List.replicate (NS_IN6ADDRSZ - B.length) 0

theorem bytesOf_nil : bytesOf [] = [] := rfl

theorem bytesOf_cons (w : Nat) (ws : List Nat) : bytesOf (w :: ws) = wordBytes w ++ bytesOf ws := rfl

theorem bytesOf_append (ws ws' : List Nat) : bytesOf (ws ++ ws') = bytesOf ws ++ bytesOf ws' :=
  List.flatMap_append

theorem length_bytesOf (ws : List Nat) : (bytesOf ws).length = 2 * ws.length := by
  induction ws with
  | nil => rfl
  | cons w ws ih =>
    rw [bytesOf_cons, List.length_append, ih]
    simp only [wordBytes, List.length_cons, List.length_nil]
    omega

theorem putWord_fill {B : List UInt8} (h : B.length + 2 ≤ NS_IN6ADDRSZ) (w : Nat) :
    putWord (fill B) B.length w = fill (B ++ wordBytes w) := by
  obtain ⟨m, hm⟩ : ∃ m, NS_IN6ADDRSZ - B.length = m + 2 := ⟨NS_IN6ADDRSZ - B.length - 2, by omega⟩
  have hfill : fill B = B ++ 0 :: 0 :: List.replicate m 0 := by
    rw [fill, hm]
    rfl
  have hfill' : fill (B ++ wordBytes w) = B ++ wordBytes w ++ List.replicate m 0 := by
    rw [fill, List.length_append, show (wordBytes w).length = 2 from rfl,
      show NS_IN6ADDRSZ - (B.length + 2) = m by omega]
  rw [hfill, hfill', putWord, List.set_append_right _ _ (Nat.le_refl _), Nat.sub_self,
    List.set_cons_zero, List.set_append_right _ _ (by omega),
    show B.length + 1 - B.length = 0 + 1 by omega, List.set_cons_succ, List.set_cons_zero]
  simp [wordBytes]

theorem memcpy_fill {B b : List UInt8} (h : B.length + b.length ≤ NS_IN6ADDRSZ) :
    memcpy (fill B) B.length b = fill (B ++ b) := by
  unfold memcpy fill
  rw [List.take_left, List.drop_append, List.drop_eq_nil_of_le (by omega), List.nil_append,
    List.drop_replicate, List.length_append, List.append_assoc,
    show NS_IN6ADDRSZ - B.length - (B.length + b.length - B.length) =
      NS_IN6ADDRSZ - (B.length + b.length) by omega, List.append_assoc]

theorem pton6Loop_xdigit (rest : List Char) (st : P6) {d : Nat} (hd : d < 16)
    (hs : st.seen_xdigits < 4) :
    pton6Loop (Nat.digitChar d :: rest) st =
      pton6Loop rest { st with val := st.val <<< 4 ||| d, seen_xdigits := st.seen_xdigits + 1 } := by
  rw [pton6Loop, if_neg (digitChar_ne_nul d hd), strchr_xdigits d hd, Option.some_or]
  dsimp only
  rw [if_neg (by omega)]

/-- `:` after a group: the group is stored. -/
theorem pton6Loop_colon_word (rest : List Char) (st : P6) {c : Char} (hc : c ≠ '\x00')
    (hs : st.seen_xdigits ≠ 0) (htp : st.tp + NS_INT16SZ ≤ NS_IN6ADDRSZ) :
    pton6Loop (':' :: c :: rest) st =
      pton6Loop (c :: rest)
        { st with curtok := c :: rest, tmp := putWord st.tmp st.tp st.val, tp := st.tp + NS_INT16SZ,
                  seen_xdigits := 0, val := 0 } := by
  rw [pton6Loop, if_neg (by decide), strchr_colon.1, strchr_colon.2]
  dsimp only
  rw [Option.none_or, if_pos rfl, if_neg hs, List.headD_cons, if_neg hc, if_neg (by omega)]

/-- `:` with no group before it: the `::`. -/
theorem pton6Loop_colon_first (rest : List Char) (st : P6) (hs : st.seen_xdigits = 0)
    (hc : st.colonp = none) :
    pton6Loop (':' :: rest) st = pton6Loop rest { st with curtok := rest, colonp := some st.tp } := by
  rw [pton6Loop, if_neg (by decide), strchr_colon.1, strchr_colon.2]
  dsimp only
  rw [Option.none_or, if_pos rfl, if_pos hs, hc]
  rfl

/-- `.` in a group: the dotted quad from the group on, and the end of the loop. -/
theorem pton6Loop_dot (rest : List Char) (st : P6) (htp : st.tp + NS_INADDRSZ ≤ NS_IN6ADDRSZ)
    {b : List UInt8} (hb : inet_pton4 st.curtok = some b) :
    pton6Loop ('.' :: rest) st =
      some { st with tmp := memcpy st.tmp st.tp b, tp := st.tp + NS_INADDRSZ, seen_xdigits := 0 } := by
  rw [pton6Loop, if_neg (by decide), strchr_dot.2.1, strchr_dot.2.2]
  dsimp only
  rw [Option.none_or, if_neg (by decide), if_pos ⟨rfl, htp⟩, hb]

/-- A word printed by `%x` is read as that word. -/
theorem pton6Loop_hex {w : Nat} (hw : w < 65536) :
    ∀ (rest : List Char) (st : P6), st.seen_xdigits = 0 → st.val = 0 →
      pton6Loop (Nat.toDigits 16 w ++ rest) st =
        pton6Loop rest { st with val := w, seen_xdigits := (Nat.toDigits 16 w).length } := by
  induction w using Nat.strongRecOn with
  | _ w ih =>
    intro rest st hs hv
    rcases Nat.lt_or_ge w 16 with h16 | h16
    · rw [Nat.toDigits_of_lt_base h16, List.singleton_append,
        pton6Loop_xdigit rest st h16 (by omega), hs, hv, Nat.zero_shiftLeft, Nat.zero_or]
      rfl
    · have hlen := length_toDigits_hex hw
      rw [Nat.toDigits_of_base_le (by decide) h16] at hlen ⊢
      rw [List.append_assoc, List.singleton_append, ih (w / 16) (by omega) (by omega) _ st hs hv,
        pton6Loop_xdigit rest _ (Nat.mod_lt w (by decide)) (by simp at hlen ⊢; omega)]
      have hval : (w / 16) <<< 4 ||| w % 16 = w := by
        rw [← Nat.shiftLeft_add_eq_or_of_lt (by omega), Nat.shiftLeft_eq]
        omega
      simp [hval]

/-- The digits of an octet, read as a group until the `.` after them. -/
theorem pton6Loop_octet {n : Nat} (hn : n < 256) :
    ∀ (rest : List Char) (st : P6), st.seen_xdigits = 0 →
      ∃ v, pton6Loop (Nat.toDigits 10 n ++ rest) st =
        pton6Loop rest { st with val := v, seen_xdigits := (Nat.toDigits 10 n).length } := by
  induction n using Nat.strongRecOn with
  | _ n ih =>
    intro rest st hs
    rcases Nat.lt_or_ge n 10 with h10 | h10
    · rw [Nat.toDigits_of_lt_base h10, List.singleton_append,
        pton6Loop_xdigit rest st (show n < 16 by omega) (by omega), hs]
      exact ⟨_, rfl⟩
    · have hlen := length_toDigits_byte (UInt8.ofNat n)
      rw [UInt8.toNat_ofNat_of_lt' (by simp only [UInt8.size]; omega),
        Nat.toDigits_of_base_le (by decide) h10] at hlen
      rw [Nat.toDigits_of_base_le (by decide) h10, List.append_assoc, List.singleton_append]
      obtain ⟨v, hv⟩ := ih (n / 10) (by omega) (by omega) _ st hs
      rw [hv, pton6Loop_xdigit rest _ (show n % 10 < 16 by omega) (by simp at hlen ⊢; omega)]
      exact ⟨v <<< 4 ||| n % 10, by simp⟩

/-- Groups each after a colon: each colon stores the group before it, and the last group is
left to store. -/
theorem pton6Loop_colonGroups (ws : List Nat) (hw : ∀ w ∈ ws, w < 65536) :
    ∀ (B : List UInt8) (v k : Nat) (colonp : Option Nat) (curtok rest : List Char),
      0 < k → B.length + 2 * ws.length ≤ NS_IN6ADDRSZ →
      ∃ curtok' k', 0 < k' ∧
        pton6Loop (colonGroups ws ++ rest) ⟨fill B, B.length, colonp, curtok, k, v⟩ =
          pton6Loop rest ⟨fill (B ++ bytesOf (v :: ws).dropLast),
            (B ++ bytesOf (v :: ws).dropLast).length, colonp, curtok', k',
            (v :: ws).getLast (List.cons_ne_nil v ws)⟩ := by
  induction ws with
  | nil =>
    intro B v k colonp curtok rest hk _
    exact ⟨curtok, k, hk, by simp [colonGroups_nil, bytesOf_nil]⟩
  | cons w ws ih =>
    intro B v k colonp curtok rest hk hlen
    have hw0 : w < 65536 := hw w List.mem_cons_self
    simp only [List.length_cons] at hlen
    -- the colon stores `v`, then the digits of `w` make the next group
    obtain ⟨c, cs, hc⟩ := List.exists_cons_of_ne_nil (@Nat.toDigits_ne_nil w 16)
    obtain ⟨d, hd, rfl⟩ := mem_toDigits (by decide) c (hc ▸ List.mem_cons_self)
    have hstore := pton6Loop_colon_word (cs ++ (colonGroups ws ++ rest))
      ⟨fill B, B.length, colonp, curtok, k, v⟩ (digitChar_ne_nul d hd) (by simp; omega)
      (by simp [NS_INT16SZ]; omega)
    rw [← List.cons_append, ← hc] at hstore
    have hput := putWord_fill (B := B) (by omega) v
    have hread := pton6Loop_hex hw0 (colonGroups ws ++ rest)
      ⟨fill (B ++ wordBytes v), (B ++ wordBytes v).length, colonp,
        Nat.toDigits 16 w ++ (colonGroups ws ++ rest), 0, 0⟩ rfl rfl
    obtain ⟨curtok', k', hk', hrest⟩ := ih (fun w' h => hw w' (List.mem_cons_of_mem w h))
      (B ++ wordBytes v) w (Nat.toDigits 16 w).length colonp _ rest
      (Nat.length_toDigits_pos) (by simp [wordBytes]; omega)
    refine ⟨curtok', k', hk', ?_⟩
    rw [colonGroups_cons, List.cons_append, List.append_assoc, hstore]
    simp only [hput, show B.length + NS_INT16SZ = (B ++ wordBytes v).length by simp [wordBytes, NS_INT16SZ]]
    rw [hread, hrest, List.dropLast_cons_cons, bytesOf_cons, List.append_assoc,
      List.getLast_cons_cons]

/-- A block written over zeros: one round of the `memmove` moves its last byte to the end of
the zeros. -/
theorem shiftStep_block (P E : List UInt8) (x : UInt8) {z : Nat} (hz : 0 < z) :
    (((P ++ x :: (List.replicate z 0 ++ E)).set (P.length + z) x).set P.length 0) =
      P ++ List.replicate z 0 ++ x :: E := by
  obtain ⟨z, rfl⟩ : ∃ z', z = z' + 1 := ⟨z - 1, by omega⟩
  -- the last zero before `E` is at `P.length + z + 1`
  have hlist : P ++ x :: (List.replicate (z + 1) 0 ++ E) =
      (P ++ x :: List.replicate z 0) ++ 0 :: E := by
    simp [List.replicate_succ']
  have hidx : P.length + (z + 1) = (P ++ x :: List.replicate z 0).length := by
    simp only [List.length_append, List.length_cons, List.length_replicate]
  rw [hlist, hidx, List.set_append_right _ _ (Nat.le_refl _), Nat.sub_self, List.set_cons_zero,
    List.append_assoc, List.set_append_right _ _ (Nat.le_refl _), Nat.sub_self, List.cons_append,
    List.set_cons_zero]
  simp [List.replicate_succ]

/-- The rounds of the `memmove` so far have moved the bytes `E` at the end of the block `C`
behind the zeros. -/
theorem shiftLoop_rounds {A C : List UInt8} (h : A.length + C.length < NS_IN6ADDRSZ) :
    ∀ D E : List UInt8, C = D ++ E →
      (List.range' 1 E.length).foldl (shiftStep A.length C.length) (fill (A ++ C)) =
        A ++ D ++ List.replicate (NS_IN6ADDRSZ - A.length - C.length) 0 ++ E := by
  intro D E
  -- on the bytes moved: round `i` moves the `i`-th byte from the end
  induction E generalizing D with
  | nil =>
    rintro rfl
    simp [fill, List.append_assoc, Nat.sub_sub]
  | cons x E ih =>
    intro hC
    have hlen : C.length = D.length + 1 + E.length := by
      rw [hC, List.length_append, List.length_cons]
      omega
    rw [List.length_cons, List.range'_concat, List.foldl_append,
      ih (D ++ [x]) (by rw [hC, List.append_assoc, List.singleton_append]),
      List.foldl_cons, List.foldl_nil]
    have hP : (A ++ D).length = A.length + D.length := List.length_append
    have hl : A ++ (D ++ [x]) ++ List.replicate (NS_IN6ADDRSZ - A.length - C.length) 0 ++ E =
        (A ++ D) ++ x :: (List.replicate (NS_IN6ADDRSZ - A.length - C.length) 0 ++ E) := by
      simp
    unfold shiftStep
    rw [hl, show A.length + C.length - (1 + 1 * E.length) = (A ++ D).length by rw [hP]; omega,
      show NS_IN6ADDRSZ - (1 + 1 * E.length) =
        (A ++ D).length + (NS_IN6ADDRSZ - A.length - C.length) by rw [hP]; omega,
      List.getD_append_right _ _ _ _ (Nat.le_refl _), Nat.sub_self, List.getD_cons_zero,
      shiftStep_block _ _ _ (by omega)]

/-- The `memmove`: the bytes after `::` go to the end of `tmp`, zeros in their place. -/
theorem shiftLoop_fill {A C : List UInt8} (h : A.length + C.length < NS_IN6ADDRSZ) :
    shiftLoop (fill (A ++ C)) A.length C.length =
      A ++ List.replicate (NS_IN6ADDRSZ - A.length - C.length) 0 ++ C := by
  rw [shiftLoop, shiftLoop_rounds h [] C rfl, List.append_nil]

/-- The group pending at the end of the string is stored before the shift. -/
theorem pton6Finish_store (st : P6) (hk : st.seen_xdigits ≠ 0)
    (h : st.tp + NS_INT16SZ ≤ NS_IN6ADDRSZ) :
    pton6Finish st = pton6Finish
      { st with tmp := putWord st.tmp st.tp st.val, tp := st.tp + NS_INT16SZ, seen_xdigits := 0 } := by
  simp only [pton6Finish, Option.bind_eq_bind, Option.bind_some, if_pos hk,
    if_neg (show ¬(st.tp + NS_INT16SZ > NS_IN6ADDRSZ) by omega), ne_eq, not_true_eq_false, if_false]

/-- After `::` at `A` and the block `C`: the shift, and sixteen bytes. -/
theorem pton6Finish_shift {A C : List UInt8} (h : A.length + C.length < NS_IN6ADDRSZ)
    (curtok : List Char) (v : Nat) :
    pton6Finish ⟨fill (A ++ C), (A ++ C).length, some A.length, curtok, 0, v⟩ =
      some (A ++ List.replicate (NS_IN6ADDRSZ - A.length - C.length) 0 ++ C) := by
  have htp : (A ++ C).length - A.length = C.length := by simp
  simp only [pton6Finish, Option.bind_eq_bind, Option.bind_some, ne_eq, not_true_eq_false,
    if_false]
  rw [if_neg (by simp only [List.length_append]; omega), htp, shiftLoop_fill h]

/-- No `::`: sixteen bytes already. -/
theorem pton6Finish_full {B : List UInt8} (h : B.length = NS_IN6ADDRSZ) (curtok : List Char)
    (v : Nat) : pton6Finish ⟨fill B, B.length, none, curtok, 0, v⟩ = some B := by
  simp only [pton6Finish, Option.bind_eq_bind, Option.bind_some, ne_eq, not_true_eq_false,
    if_false, h]
  simp [fill, h]

theorem wordBytes_pair (x y : UInt8) : wordBytes (x.toNat * 256 + y.toNat) = [x, y] := by
  have hx := x.toNat_lt
  have hy := y.toNat_lt
  have hhi : (x.toNat * 256 + y.toNat) >>> 8 = x.toNat := by
    rw [Nat.shiftRight_eq_div_pow]
    omega
  simp only [wordBytes, hhi, UInt8.ofNat_toNat, List.cons.injEq, true_and, and_true]
  apply UInt8.toNat_inj.mp
  rw [UInt8.toNat_ofNat']
  omega

theorem bytesOf_addrWords {src : List UInt8} (h : src.length = NS_IN6ADDRSZ) :
    bytesOf (addrWords src) = src := by
  match src, h with
  | [b0, b1, b2, b3, b4, b5, b6, b7, b8, b9, b10, b11, b12, b13, b14, b15], _ =>
    simp [addrWords, bytesOf, wordBytes_pair, List.range_succ]

theorem bytesOf_replicate_zero (l : Nat) : bytesOf (List.replicate l 0) = List.replicate (2 * l) 0 := by
  induction l with
  | zero => rfl
  | succ l ih =>
    rw [List.replicate_succ, bytesOf_cons, ih, show 2 * (l + 1) = 2 * l + 1 + 1 by omega]
    rfl

theorem bytesOf_dropLast {ws : List Nat} (hws : ws ≠ []) :
    bytesOf ws.dropLast ++ wordBytes (ws.getLast hws) = bytesOf ws := by
  conv_rhs => rw [← List.dropLast_append_getLast hws]
  rw [bytesOf_append, bytesOf_cons, bytesOf_nil, List.append_nil]

/-- The groups of `w :: ws`, the first without a colon before it: the words but the last stored,
the last one pending. -/
theorem pton6Loop_hexGroups {w : Nat} {ws : List Nat} (hw : ∀ x ∈ w :: ws, x < 65536)
    {B : List UInt8} (h : B.length + 2 * ws.length ≤ NS_IN6ADDRSZ) (colonp : Option Nat)
    (curtok rest : List Char) :
    ∃ curtok' k', 0 < k' ∧
      pton6Loop (hexGroups (w :: ws) ++ rest) ⟨fill B, B.length, colonp, curtok, 0, 0⟩ =
        pton6Loop rest ⟨fill (B ++ bytesOf (w :: ws).dropLast),
          (B ++ bytesOf (w :: ws).dropLast).length, colonp, curtok', k',
          (w :: ws).getLast (List.cons_ne_nil w ws)⟩ := by
  have hfirst := pton6Loop_hex (hw w List.mem_cons_self) (colonGroups ws ++ rest)
    ⟨fill B, B.length, colonp, curtok, 0, 0⟩ rfl rfl
  obtain ⟨curtok', k', hk', hrest⟩ := pton6Loop_colonGroups ws
    (fun x hx => hw x (List.mem_cons_of_mem w hx)) B w _ colonp curtok rest
    Nat.length_toDigits_pos h
  exact ⟨curtok', k', hk', by rw [hexGroups_cons, List.append_assoc, hfirst]; exact hrest⟩

/-- Storing the pending last word. -/
theorem putWord_pending {B : List UInt8} {ws : List Nat} (hws : ws ≠ [])
    (h : B.length + 2 * ws.length ≤ NS_IN6ADDRSZ) :
    putWord (fill (B ++ bytesOf ws.dropLast)) (B ++ bytesOf ws.dropLast).length (ws.getLast hws) =
        fill (B ++ bytesOf ws) ∧
      (B ++ bytesOf ws.dropLast).length + NS_INT16SZ = (B ++ bytesOf ws).length := by
  have hpos := List.length_pos_of_ne_nil hws
  have hlen : (B ++ bytesOf ws.dropLast).length = B.length + 2 * ws.length - 2 := by
    simp only [List.length_append, length_bytesOf, List.length_dropLast]
    omega
  refine ⟨?_, ?_⟩
  · rw [putWord_fill (by omega), List.append_assoc, bytesOf_dropLast hws]
  · simp only [hlen, List.length_append, length_bytesOf, NS_INT16SZ]
    omega

/-- The pending last word is stored at the end of the string. -/
theorem pton6Finish_pending {B : List UInt8} {ws : List Nat} (hws : ws ≠ [])
    (h : B.length + 2 * ws.length ≤ NS_IN6ADDRSZ) (colonp : Option Nat) (curtok : List Char)
    {k : Nat} (hk : 0 < k) (v : Nat) :
    pton6Finish ⟨fill (B ++ bytesOf ws.dropLast), (B ++ bytesOf ws.dropLast).length, colonp,
        curtok, k, ws.getLast hws⟩ =
      pton6Finish ⟨fill (B ++ bytesOf ws), (B ++ bytesOf ws).length, colonp, curtok, 0, v⟩ := by
  obtain ⟨hput, htp⟩ := putWord_pending hws h
  have hend : (B ++ bytesOf ws).length ≤ NS_IN6ADDRSZ := by
    simp only [List.length_append, length_bytesOf]
    omega
  rw [pton6Finish_store _ (by simp only; omega) (by simp only; omega)]
  simp only [hput, htp]
  -- `val` is not read after the loop
  simp [pton6Finish]

/-- A text that starts with `::`: the `::` is at `tmp`'s start. -/
theorem inet_pton6_colons (t : List Char) :
    inet_pton6 (':' :: ':' :: t) =
      (pton6Loop t ⟨fill [], 0, some 0, t, 0, 0⟩).bind pton6Finish := by
  unfold inet_pton6
  simp only [List.headD_cons, ne_eq, not_true_eq_false, if_false, Option.bind_eq_bind,
    Option.bind_some]
  rw [pton6Loop_colon_first _ _ rfl rfl]
  rfl

/-- After `::` at `A`, the groups `rs` to the end of the string: the bytes after `::` are moved
to the end of `tmp`. -/
theorem pton6_after_gap {A : List UInt8} {rs : List Nat} (hrs : ∀ w ∈ rs, w < 65536)
    (h : A.length + 2 * rs.length < NS_IN6ADDRSZ) (curtok : List Char) :
    (pton6Loop (hexGroups rs) ⟨fill A, A.length, some A.length, curtok, 0, 0⟩).bind pton6Finish =
      some (A ++ List.replicate (NS_IN6ADDRSZ - A.length - 2 * rs.length) 0 ++ bytesOf rs) := by
  cases rs with
  | nil =>
    -- nothing after `::`
    have := pton6Finish_shift (A := A) (C := []) (by simpa using h) curtok 0
    simpa [hexGroups_nil, pton6Loop, bytesOf_nil] using this
  | cons w rs =>
    simp only [List.length_cons] at h ⊢
    obtain ⟨curtok', k', hk', hloop⟩ := pton6Loop_hexGroups (B := A) hrs (by omega) (some A.length) curtok []
    rw [List.append_nil] at hloop
    rw [hloop]
    simp only [pton6Loop, Option.bind_some]
    rw [pton6Finish_pending (List.cons_ne_nil w rs) (by simp only [List.length_cons]; omega) _ _ hk' 0,
      pton6Finish_shift (by simp only [length_bytesOf, List.length_cons]; omega), length_bytesOf,
      List.length_cons]

/-- An embedded dotted quad after the bytes `B`: its four bytes are stored, and the loop ends. -/
theorem pton6Loop_fmtQuad {B : List UInt8} (h : B.length + NS_INADDRSZ ≤ NS_IN6ADDRSZ)
    (q : List UInt8) (colonp : Option Nat) (v : Nat) :
    ∃ v', pton6Loop (fmtQuad q) ⟨fill B, B.length, colonp, fmtQuad q, 0, v⟩ =
      some ⟨fill (B ++ [q.getD 0 0, q.getD 1 0, q.getD 2 0, q.getD 3 0]),
        (B ++ [q.getD 0 0, q.getD 1 0, q.getD 2 0, q.getD 3 0]).length, colonp, fmtQuad q, 0, v'⟩ := by
  have htext : fmtQuad q = Nat.toDigits 10 (q.getD 0 0).toNat ++ '.' ::
      (Nat.toDigits 10 (q.getD 1 0).toNat ++ '.' :: (Nat.toDigits 10 (q.getD 2 0).toNat ++ '.' ::
        Nat.toDigits 10 (q.getD 3 0).toNat)) := rfl
  -- the first octet is read as a group, up to the `.` that hands the token to `inet_pton4`
  obtain ⟨v', hv'⟩ := pton6Loop_octet (q.getD 0 0).toNat_lt
    ('.' :: (Nat.toDigits 10 (q.getD 1 0).toNat ++ '.' :: (Nat.toDigits 10 (q.getD 2 0).toNat ++
      '.' :: Nat.toDigits 10 (q.getD 3 0).toNat)))
    ⟨fill B, B.length, colonp, fmtQuad q, 0, v⟩ rfl
  refine ⟨v', ?_⟩
  conv_lhs => arg 1; rw [htext]
  rw [hv', pton6Loop_dot _ _ h (inet_pton4_fmtQuad q)]
  simp only [memcpy_fill (B := B) (b := [q.getD 0 0, q.getD 1 0, q.getD 2 0, q.getD 3 0])
    (by simp only [List.length_cons, List.length_nil]; simp only [NS_INADDRSZ] at h; omega),
    List.length_append, List.length_cons, List.length_nil, NS_INADDRSZ]

/-- A text that does not start with `:` is read from its start. -/
theorem inet_pton6_of_head {t : List Char} (h : t.head? ≠ some ':') :
    inet_pton6 t = (pton6Loop t ⟨fill [], 0, none, t, 0, 0⟩).bind pton6Finish := by
  unfold inet_pton6
  split
  · exact absurd rfl h
  · rfl

theorem head_hexGroups (w : Nat) (ws : List Nat) (rest : List Char) :
    (hexGroups (w :: ws) ++ rest).head? ≠ some ':' := by
  obtain ⟨c, cs, hc⟩ := List.exists_cons_of_ne_nil (@Nat.toDigits_ne_nil w 16)
  have hmem : c ∈ Nat.toDigits 16 w := hc ▸ List.mem_cons_self
  rw [hexGroups_cons, hc, List.cons_append, List.cons_append, List.head?_cons]
  intro heq
  exact colon_not_mem_toDigits_hex w (Option.some.inj heq ▸ hmem)

/-- A dotted quad starts with a digit. -/
theorem fmtQuad_head (q : List UInt8) : ∃ c cs, fmtQuad q = c :: cs ∧ c ≠ '\x00' := by
  obtain ⟨c, cs, hc⟩ := List.exists_cons_of_ne_nil (@Nat.toDigits_ne_nil (q.getD 0 0).toNat 10)
  obtain ⟨d, hd, rfl⟩ := mem_toDigits (by decide) _ (hc ▸ List.mem_cons_self)
  exact ⟨_, _, by rw [fmtQuad, hc, List.cons_append], digitChar_ne_nul d (by omega)⟩

/-- Eight groups and no `::`. -/
theorem inet_pton6_hexGroups {ws : List Nat} (hlen : ws.length = 8) (hw : ∀ w ∈ ws, w < 65536) :
    inet_pton6 (hexGroups ws) = some (bytesOf ws) := by
  obtain ⟨w, ws', rfl⟩ := List.exists_cons_of_ne_nil (List.ne_nil_of_length_pos (show 0 < ws.length by omega))
  simp only [List.length_cons] at hlen
  obtain ⟨curtok', k', hk', hloop⟩ := pton6Loop_hexGroups (B := []) hw
    (by simp only [List.length_nil, NS_IN6ADDRSZ]; omega) none (hexGroups (w :: ws')) []
  simp only [List.append_nil, List.length_nil, List.nil_append] at hloop
  rw [← List.append_nil (hexGroups (w :: ws')), inet_pton6_of_head (head_hexGroups w ws' []),
    List.append_nil, hloop]
  simp only [pton6Loop, Option.bind_some]
  have := pton6Finish_pending (B := []) (List.cons_ne_nil w ws')
    (by simp only [List.length_nil, List.length_cons, NS_IN6ADDRSZ]; omega) none curtok' hk' 0
  simp only [List.nil_append] at this
  rw [this, pton6Finish_full (by simp only [length_bytesOf, List.length_cons, NS_IN6ADDRSZ]; omega)]

/-- A run of zero words elided by `::`, with the groups before and after it. -/
theorem inet_pton6_elided {ws : List Nat} (hlen : ws.length = 8) (hw : ∀ w ∈ ws, w < 65536)
    {b l : Nat} (hrun : Runs.IsRun 0 ws b l) :
    inet_pton6 (hexGroups (ws.take b) ++ ':' :: ':' :: hexGroups (ws.drop (b + l))) =
      some (bytesOf ws) := by
  have hbl := hrun.end_le_length
  have hl := hrun.1
  have hdrop : ∀ w ∈ ws.drop (b + l), w < 65536 := fun w h => hw w (List.mem_of_mem_drop h)
  have hdlen : (ws.drop (b + l)).length = 8 - (b + l) := by simp [hlen]
  -- the bytes: the words before the run, zeros, the words after it
  have hbytes : bytesOf ws =
      bytesOf (ws.take b) ++ List.replicate (2 * l) 0 ++ bytesOf (ws.drop (b + l)) := by
    conv_lhs => rw [hrun.eq_take_append]
    rw [bytesOf_append, bytesOf_append, bytesOf_replicate_zero]
  have hzeros : NS_IN6ADDRSZ - (bytesOf (ws.take b)).length - 2 * (ws.drop (b + l)).length =
      2 * l := by
    rw [length_bytesOf, hdlen, List.length_take, hlen, NS_IN6ADDRSZ]
    omega
  rcases Nat.eq_zero_or_pos b with rfl | hb
  · -- a leading run: the text starts with `::`
    have hgap := pton6_after_gap (A := []) hdrop
      (by simp only [List.length_nil, hdlen, NS_IN6ADDRSZ]; omega) (hexGroups (ws.drop (0 + l)))
    rw [List.take_zero, bytesOf_nil] at hzeros hbytes
    rw [List.take_zero, hexGroups_nil, List.nil_append, inet_pton6_colons, hbytes, ← hzeros]
    exact hgap
  · -- the groups before the run, then `::`
    obtain ⟨w, T, hT⟩ := List.exists_cons_of_ne_nil
      (List.ne_nil_of_length_pos (show 0 < (ws.take b).length by simp only [List.length_take]; omega))
    have hTw : ∀ x ∈ w :: T, x < 65536 := fun x h => hw x (List.mem_of_mem_take (hT ▸ h))
    have hTlen : (w :: T).length = b := by rw [← hT, List.length_take]; omega
    obtain ⟨curtok', k', hk', hloop⟩ := pton6Loop_hexGroups (B := []) hTw
      (by simp only [List.length_nil, NS_IN6ADDRSZ]; simp only [List.length_cons] at hTlen; omega)
      none (hexGroups (w :: T) ++ ':' :: ':' :: hexGroups (ws.drop (b + l)))
      (':' :: ':' :: hexGroups (ws.drop (b + l)))
    simp only [List.length_nil, List.nil_append] at hloop
    obtain ⟨hput, htp⟩ := putWord_pending (B := []) (List.cons_ne_nil w T)
      (by simp only [List.length_nil, NS_IN6ADDRSZ]; omega)
    simp only [List.nil_append] at hput htp
    have hgap := pton6_after_gap (A := bytesOf (w :: T)) hdrop
      (by rw [length_bytesOf, hTlen, hdlen, NS_IN6ADDRSZ]; omega) (hexGroups (ws.drop (b + l)))
    rw [hT, inet_pton6_of_head (head_hexGroups w T _), hloop,
      pton6Loop_colon_word _ _ (by decide) (by simp only; omega)
        (by simp only; rw [htp, length_bytesOf, hTlen, NS_IN6ADDRSZ]; omega)]
    simp only [hput, htp]
    rw [pton6Loop_colon_first _ _ rfl rfl]
    rw [hbytes, ← hzeros, hT]
    exact hgap

/-- The bytes of an address whose words from 0 on are `l` zeros. -/
theorem eq_zeros_append {src : List UInt8} (hsrc : src.length = NS_IN6ADDRSZ) {l : Nat}
    (hrun : Runs.IsRun 0 (addrWords src) 0 l) :
    src = List.replicate (2 * l) 0 ++ bytesOf ((addrWords src).drop l) := by
  conv_lhs => rw [← bytesOf_addrWords hsrc, hrun.eq_take_append]
  rw [List.take_zero, List.nil_append, Nat.zero_add, bytesOf_append, bytesOf_replicate_zero]

/-- `::a.b.c.d`. -/
theorem inet_pton6_quad {src : List UInt8} (hsrc : src.length = NS_IN6ADDRSZ)
    (hrun : Runs.IsRun 0 (addrWords src) 0 6) :
    inet_pton6 (':' :: ':' :: fmtQuad (src.drop 12)) = some src := by
  have hsplit := eq_zeros_append hsrc hrun
  have hq : src.drop 12 = bytesOf ((addrWords src).drop 6) := by
    conv_lhs => rw [hsplit]
    exact List.drop_left' (by simp)
  obtain ⟨v', hloop⟩ := pton6Loop_fmtQuad (B := []) (by decide) (src.drop 12) (some 0) 0
  have hfin := pton6Finish_shift (A := []) (C := [(src.drop 12).getD 0 0, (src.drop 12).getD 1 0,
    (src.drop 12).getD 2 0, (src.drop 12).getD 3 0]) (by simp [NS_IN6ADDRSZ])
    (fmtQuad (src.drop 12)) v'
  rw [quad_eq (by simp [hsrc, NS_IN6ADDRSZ])] at hloop hfin
  simp only [List.length_nil, List.nil_append] at hloop hfin
  rw [inet_pton6_colons, hloop, Option.bind_some, hfin, hq]
  exact congrArg some hsplit.symm

/-- `::ffff:a.b.c.d`. -/
theorem inet_pton6_ffff_quad {src : List UInt8} (hsrc : src.length = NS_IN6ADDRSZ)
    (hrun : Runs.IsRun 0 (addrWords src) 0 5) (hf : (addrWords src).getD 5 0 = 0xffff) :
    inet_pton6 (':' :: ':' :: (['f', 'f', 'f', 'f', ':'] ++ fmtQuad (src.drop 12))) = some src := by
  have hsplit := eq_zeros_append hsrc hrun
  -- word 5 is `0xffff`, and the rest the quad
  have hdrop5 : (addrWords src).drop 5 = 0xffff :: (addrWords src).drop 6 := by
    rw [List.getD_eq_getElem _ _ (by simp [length_addrWords])] at hf
    rw [List.drop_eq_getElem_cons (by simp [length_addrWords]), hf]
  rw [hdrop5, bytesOf_cons] at hsplit
  have hq : src.drop 12 = bytesOf ((addrWords src).drop 6) := by
    conv_lhs => rw [hsplit]
    rw [← List.append_assoc]
    exact List.drop_left' (by simp [wordBytes])
  -- the group `ffff`, stored at the `:` before the quad
  obtain ⟨c, cs, hc, hc0⟩ := fmtQuad_head (src.drop 12)
  have htext : ['f', 'f', 'f', 'f', ':'] ++ fmtQuad (src.drop 12) =
      Nat.toDigits 16 0xffff ++ ':' :: fmtQuad (src.drop 12) := rfl
  have hput : putWord (fill []) 0 0xffff = fill (wordBytes 0xffff) := putWord_fill (by decide) _
  have hword : pton6Loop (Nat.toDigits 16 0xffff ++ ':' :: fmtQuad (src.drop 12))
      ⟨fill [], 0, some 0, Nat.toDigits 16 0xffff ++ ':' :: fmtQuad (src.drop 12), 0, 0⟩ =
        pton6Loop (fmtQuad (src.drop 12))
          ⟨fill (wordBytes 0xffff), (wordBytes 0xffff).length, some 0, fmtQuad (src.drop 12), 0, 0⟩ := by
    rw [pton6Loop_hex (by decide) _ _ rfl rfl, hc,
      pton6Loop_colon_word _ _ hc0 (show (Nat.toDigits 16 0xffff).length ≠ 0 by decide)
        (show 0 + NS_INT16SZ ≤ NS_IN6ADDRSZ by decide)]
    simp only [hput]
    rfl
  obtain ⟨v', hloop⟩ := pton6Loop_fmtQuad (B := wordBytes 0xffff) (by decide) (src.drop 12) (some 0) 0
  have hfin := pton6Finish_shift (A := []) (C := wordBytes 0xffff ++ [(src.drop 12).getD 0 0,
    (src.drop 12).getD 1 0, (src.drop 12).getD 2 0, (src.drop 12).getD 3 0])
    (by simp [NS_IN6ADDRSZ, wordBytes]) (fmtQuad (src.drop 12)) v'
  rw [quad_eq (by simp [hsrc, NS_IN6ADDRSZ])] at hloop hfin
  simp only [List.length_nil, List.nil_append] at hfin
  rw [inet_pton6_colons, htext, hword, hloop, Option.bind_some, hfin]
  congr 1
  conv_rhs => rw [hsplit]
  rw [← hq]
  simp [hsrc, wordBytes, NS_IN6ADDRSZ]

/-- Every text of an address as `inet_ntop6` prints it, with any run of zero words elided, reads
back as the address. -/
theorem inet_pton6_presentation {src : List UInt8} (hsrc : src.length = NS_IN6ADDRSZ)
    (o : Option (Nat × Nat)) (ho : ∀ b l, o = some (b, l) → Runs.IsRun 0 (addrWords src) b l) :
    inet_pton6 (presentation src (addrWords src) o) = some src := by
  have hlen := length_addrWords src
  have hw := addrWords_lt src
  match o, ho with
  | none, _ =>
    rw [presentation, inet_pton6_hexGroups hlen hw, bytesOf_addrWords hsrc]
  | some (b, l), ho =>
    have hrun := ho b l rfl
    rw [presentation]
    split_ifs with h6 h5
    · -- `::a.b.c.d`
      obtain ⟨rfl, rfl⟩ := h6
      rw [List.take_zero, hexGroups_nil, List.nil_append]
      exact inet_pton6_quad hsrc hrun
    · -- `::ffff:a.b.c.d`
      obtain ⟨rfl, rfl, hf⟩ := h5
      rw [List.take_zero, hexGroups_nil, List.nil_append]
      exact inet_pton6_ffff_quad hsrc hrun hf
    · rw [inet_pton6_elided hlen hw hrun, bytesOf_addrWords hsrc]

/-! ## `inet_ntop` and `inet_pton` -/

theorem inet_ntop_inet6 (src : List UInt8) (size : Nat) :
    inet_ntop AF_INET6 src size = inet_ntop6 src size := by
  simp [inet_ntop, AF_INET, AF_INET6]

theorem inet_ntop_inet (src : List UInt8) (size : Nat) :
    inet_ntop AF_INET src size = inet_ntop4 src size := by
  simp [inet_ntop]

theorem inet_pton_inet6 {src : List Char} {dst : List UInt8} (h : inet_pton6 src = some dst) :
    inet_pton AF_INET6 src = (1, some dst) := by
  simp [inet_pton, AF_INET, AF_INET6, h]

theorem inet_pton_inet {src : List Char} {dst : List UInt8} (h : inet_pton4 src = some dst) :
    inet_pton AF_INET src = (1, some dst) := by
  simp [inet_pton, h]

/-- **IPv6**: the text `inet_ntop` prints, `::` in it exactly when the address has a run of two
or more zero words, `NULL` exactly when the text and a NUL do not fit, its writes inside `tmp` and
`dst`, and with room for any text, `inet_pton` reads the address back. -/
theorem inet_ntop6_round_trip {a : List UInt8} (ha : a.length = NS_IN6ADDRSZ) (size : Nat) :
    ∃ text : List Char,
      (((∀ b l, Runs.IsRun 0 (addrWords a) b l → l < 2) ∧ text = presentation a (addrWords a) none) ∨
        ∃ b l, 2 ≤ l ∧ Runs.FirstLongest 0 (addrWords a) b l ∧
          text = presentation a (addrWords a) (some (b, l))) ∧
      ([':', ':'] <:+: text ↔ ∃ b l, 2 ≤ l ∧ Runs.IsRun 0 (addrWords a) b l) ∧
      (inet_ntop AF_INET6 a size).ret = (if text.length + 1 ≤ size then some text else none) ∧
      (∀ j ∈ (inet_ntop AF_INET6 a size).tmp_writes, j < sizeof_tmp6) ∧
      (∀ j ∈ (inet_ntop AF_INET6 a size).dst_writes, j < size) ∧
      (sizeof_tmp6 ≤ size →
        (inet_ntop AF_INET6 a size).ret = some text ∧ inet_pton AF_INET6 text = (1, some a)) := by
  obtain ⟨text, hcases, hret, htmp, hdst⟩ := inet_ntop6_spec a size
  rw [inet_ntop_inet6]
  have hlen := length_addrWords a
  have hw := addrWords_lt a
  -- the text, what `::` says of it, and that it reads back
  have hshape : text.length ≤ 40 ∧
      ([':', ':'] <:+: text ↔ ∃ b l, 2 ≤ l ∧ Runs.IsRun 0 (addrWords a) b l) ∧
      inet_pton6 text = some a := by
    rcases hcases with ⟨hno, rfl⟩ | ⟨b, l, h2, hfl, rfl⟩
    · refine ⟨length_presentation_le hlen hw none (fun _ _ h => by cases h), ?_,
        inet_pton6_presentation ha none (fun _ _ h => by cases h)⟩
      refine ⟨fun h => absurd h (not_infix_hexGroups _), ?_⟩
      rintro ⟨b, l, h2, hr⟩
      have := hno b l hr
      omega
    · have hbl := hfl.1.end_le_length
      refine ⟨length_presentation_le hlen hw (some (b, l))
          (fun b' l' h => by cases h; exact ⟨h2, by omega⟩),
        ⟨fun _ => ⟨b, l, h2, hfl.1⟩, fun _ => infix_presentation_some a _ b l⟩,
        inet_pton6_presentation ha (some (b, l)) (fun b' l' h => by cases h; exact hfl.1)⟩
  obtain ⟨hle, hinfix, hpton⟩ := hshape
  refine ⟨text, hcases, hinfix, hret, fun j hj => ?_, fun j hj => ?_, fun hsize => ?_⟩
  · have := htmp j hj
    simp only [sizeof_tmp6]
    omega
  · rw [hdst] at hj
    split_ifs at hj with hfit
    · have := List.mem_range.mp hj
      omega
    · exact absurd hj List.not_mem_nil
  · simp only [sizeof_tmp6] at hsize
    exact ⟨by rw [hret, if_pos (by omega)], inet_pton_inet6 hpton⟩

/-- **IPv4**: the dotted quad, `NULL` exactly when it and a NUL do not fit, the writes inside
`tmp` and `dst`, and with room for any quad, `inet_pton` reads the address back. -/
theorem inet_ntop4_round_trip {a : List UInt8} (ha : a.length = NS_INADDRSZ) (size : Nat) :
    (inet_ntop AF_INET a size).ret =
        (if (fmtQuad a).length + 1 ≤ size then some (fmtQuad a) else none) ∧
      (∀ j ∈ (inet_ntop AF_INET a size).tmp_writes, j < sizeof_tmp4) ∧
      (∀ j ∈ (inet_ntop AF_INET a size).dst_writes, j < size) ∧
      (sizeof_tmp4 ≤ size →
        (inet_ntop AF_INET a size).ret = some (fmtQuad a) ∧ inet_pton AF_INET (fmtQuad a) = (1, some a)) := by
  rw [inet_ntop_inet]
  obtain ⟨hret, htmp, hdst⟩ := inet_ntop4_spec a size
  refine ⟨hret, htmp, hdst, fun hsize => ⟨?_, ?_⟩⟩
  · have := (length_fmtQuad a).2
    simp only [sizeof_tmp4] at hsize
    rw [hret, if_pos (by omega)]
  · apply inet_pton_inet
    rw [inet_pton4_fmtQuad, quad_eq ha]

/-- `inet_ntop` and `inet_pton` are inverse on every IPv6 and every IPv4 address, the IPv6 text
elides the first longest run of two or more zero words and no other, and `inet_ntop` returns
`NULL` exactly when its text and a NUL do not fit, writing only inside its `tmp` and `dst`. -/
theorem inet_ntop_pton_round_trip (a : List UInt8) (size : Nat) :
    (a.length = NS_IN6ADDRSZ →
      ∃ text : List Char,
        (((∀ b l, Runs.IsRun 0 (addrWords a) b l → l < 2) ∧
            text = presentation a (addrWords a) none) ∨
          ∃ b l, 2 ≤ l ∧ Runs.FirstLongest 0 (addrWords a) b l ∧
            text = presentation a (addrWords a) (some (b, l))) ∧
        ([':', ':'] <:+: text ↔ ∃ b l, 2 ≤ l ∧ Runs.IsRun 0 (addrWords a) b l) ∧
        (inet_ntop AF_INET6 a size).ret = (if text.length + 1 ≤ size then some text else none) ∧
        (∀ j ∈ (inet_ntop AF_INET6 a size).tmp_writes, j < sizeof_tmp6) ∧
        (∀ j ∈ (inet_ntop AF_INET6 a size).dst_writes, j < size) ∧
        (sizeof_tmp6 ≤ size →
          (inet_ntop AF_INET6 a size).ret = some text ∧ inet_pton AF_INET6 text = (1, some a))) ∧
    (a.length = NS_INADDRSZ →
      (inet_ntop AF_INET a size).ret =
          (if (fmtQuad a).length + 1 ≤ size then some (fmtQuad a) else none) ∧
        (∀ j ∈ (inet_ntop AF_INET a size).tmp_writes, j < sizeof_tmp4) ∧
        (∀ j ∈ (inet_ntop AF_INET a size).dst_writes, j < size) ∧
        (sizeof_tmp4 ≤ size →
          (inet_ntop AF_INET a size).ret = some (fmtQuad a) ∧
            inet_pton AF_INET (fmtQuad a) = (1, some a))) :=
  ⟨fun ha => inet_ntop6_round_trip ha size, fun ha => inet_ntop4_round_trip ha size⟩

/-- `2001:db8::1` is printed into a buffer of 46 bytes and read back. -/
theorem documentation_address_round_trip :
    (inet_ntop AF_INET6 [0x20, 1, 0xd, 0xb8, 0, 0, 0, 0, 0, 0, 0, 0, 0, 0, 0, 1] 46).ret =
        some "2001:db8::1".toList ∧
      inet_pton AF_INET6 "2001:db8::1".toList =
        (1, some [0x20, 1, 0xd, 0xb8, 0, 0, 0, 0, 0, 0, 0, 0, 0, 0, 0, 1]) := by
  obtain ⟨text, -, -, -, -, -, hrt⟩ :=
    (inet_ntop_pton_round_trip [0x20, 1, 0xd, 0xb8, 0, 0, 0, 0, 0, 0, 0, 0, 0, 0, 0, 1] 46).1 rfl
  obtain ⟨hret, hpton⟩ := hrt (by decide)
  have htext : text = "2001:db8::1".toList := Option.some.inj (hret.symm.trans (by decide))
  subst htext
  exact ⟨hret, hpton⟩

example : inet_pton AF_INET6 "2001:db8::1".toList =
    (1, some [0x20, 1, 0xd, 0xb8, 0, 0, 0, 0, 0, 0, 0, 0, 0, 0, 0, 1]) := by decide

example : inet_pton AF_INET6 "::ffff:192.0.2.1".toList =
    (1, some [0, 0, 0, 0, 0, 0, 0, 0, 0, 0, 0xff, 0xff, 192, 0, 2, 1]) := by decide

example : inet_pton AF_INET "192.0.02.1".toList = (0, none) := by decide

end Libkern.Inet
