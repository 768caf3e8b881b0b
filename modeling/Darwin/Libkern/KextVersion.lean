import Mathlib.Data.List.Basic
import Mathlib.Tactic.Ring

/-!
# Kext version strings (`libkern/OSKextVersion.c`)

| here | there |
| --- | --- |
| `OSKextVersionStage`, `OSKextVersionStage.toInt` | the stage enumeration (`:55-62`) |
| `__vers_isdigit`, `__vers_isspace`, `__vers_digit_for_char`, `__VERS_isreleasestate` | `:67-113` |
| `__OSKextVersionStageForString`, `__OSKextVersionStringForStage` | `:118-185` |
| `scanField`, `tooManyDigits`, `scanLevel` | the digit loops of `OSKextParseVersionString` and the checks after them |
| `parseFields`, `minorVersion`, `revision`, `releaseState` | `OSKextParseVersionString` up to `finish:` (`:188-380`) |
| `finish`, `OSKextParseVersionString` | `finish:` (`:382-395`) and the whole function |
| `vsnprintf`, `scnprintf` | `bsd/kern/subr_prf.c:467-503` |
| `strlcpy`, `strlcat` | `osfmk/device/subrs.c:484-549` |
| `OSKextVersionGetString` | `:400-490` |

A C string is a `List Char` read through `charAt`, which gives NUL past its end; `NULL`
pointers are not modelled. The parser's labels are functions that end in the fields `finish:`
reads (`parseFields`), or in `none` where the C code returns `-1` before it. The printer writes
into a buffer of `bufferLength` characters through the kernel's own `scnprintf`, `strlcat` and
`strlcpy`, each of which cuts what does not fit; `versionText` is what the fields print as with
nothing cut. `VERS_STAGE_DIGITS`, which no code reads, is left out.
-/

namespace Libkern.KextVersion

def VERS_MAJOR_DIGITS : Nat := 4
def VERS_MINOR_DIGITS : Nat := 4
def VERS_REVISION_DIGITS : Nat := 4
def VERS_STAGE_LEVEL_DIGITS : Nat := 3

def VERS_MAJOR_MAX : Int := 9999
def VERS_STAGE_LEVEL_MAX : Int := 255

def VERS_MAJOR_MULT : Int := 1000000000000
def VERS_MINOR_MULT : Int := 100000000
def VERS_REVISION_MULT : Int := 10000
def VERS_STAGE_MULT : Int := 1000

/-- `kOSKextVersionMaxLength` (`OSKextLibPrivate.h:662`). -/
def kOSKextVersionMaxLength : Nat := 20

inductive OSKextVersionStage
  | kOSKextVersionStageInvalid
  | kOSKextVersionStageDevelopment
  | kOSKextVersionStageAlpha
  | kOSKextVersionStageBeta
  | kOSKextVersionStageCandidate
  | kOSKextVersionStageRelease
  deriving DecidableEq, Repr

open OSKextVersionStage

/-- The value of each stage (`:55-62`). -/
def OSKextVersionStage.toInt : OSKextVersionStage → Int
  | kOSKextVersionStageInvalid => 0
  | kOSKextVersionStageDevelopment => 1
  | kOSKextVersionStageAlpha => 3
  | kOSKextVersionStageBeta => 5
  | kOSKextVersionStageCandidate => 7
  | kOSKextVersionStageRelease => 9

/-! ## Characters -/

set_option linter.style.nameCheck false in
def __vers_isdigit (c : Char) : Bool :=
  c == '0' || c == '1' || c == '2' || c == '3' || c == '4' || c == '5' || c == '6' ||
    c == '7' || c == '8' || c == '9'

set_option linter.style.nameCheck false in
def __vers_isspace (c : Char) : Bool :=
  c == ' ' || c == '\t' || c == '\r' || c == '\n'

set_option linter.style.nameCheck false in
def __vers_digit_for_char (c : Char) : Int :=
  match c with
  | '0' => 0
  | '1' => 1
  | '2' => 2
  | '3' => 3
  | '4' => 4
  | '5' => 5
  | '6' => 6
  | '7' => 7
  | '8' => 8
  | '9' => 9
  | _ => -1

set_option linter.style.nameCheck false in
def __VERS_isreleasestate (c : Char) : Bool :=
  c == 'd' || c == 'a' || c == 'b' || c == 'f'

/-- The character at `i` of a C string: NUL past its end. -/
def charAt (s : List Char) (i : Nat) : Char := s.getD i '\x00'

/-- Whitespace or the end of the string. -/
def atEnd (c : Char) : Bool := __vers_isspace c || c == '\x00'

set_option linter.style.nameCheck false in
/-- `__OSKextVersionStageForString` (`:118-168`) at position `p`: the stage, and where the stage
level starts. -/
def __OSKextVersionStageForString (s : List Char) (p : Nat) : OSKextVersionStage × Nat :=
  if atEnd (charAt s p) then (kOSKextVersionStageRelease, p)
  else
    match charAt s p with
    | 'd' =>
      if __vers_isdigit (charAt s (p + 1)) then (kOSKextVersionStageDevelopment, p + 1)
      else (kOSKextVersionStageInvalid, p)
    | 'a' =>
      if __vers_isdigit (charAt s (p + 1)) then (kOSKextVersionStageAlpha, p + 1)
      else (kOSKextVersionStageInvalid, p)
    | 'b' =>
      if __vers_isdigit (charAt s (p + 1)) then (kOSKextVersionStageBeta, p + 1)
      else (kOSKextVersionStageInvalid, p)
    | 'f' =>
      if __vers_isdigit (charAt s (p + 1)) then (kOSKextVersionStageCandidate, p + 1)
      else if charAt s (p + 1) == 'c' && __vers_isdigit (charAt s (p + 2)) then
        (kOSKextVersionStageCandidate, p + 2)
      else (kOSKextVersionStageInvalid, p)
    | _ => (kOSKextVersionStageInvalid, p)

set_option linter.style.nameCheck false in
/-- `__OSKextVersionStringForStage` (`:171-185`), `none` for `NULL`. -/
def __OSKextVersionStringForStage (stage : Int) : Option (List Char) :=
  if stage = kOSKextVersionStageDevelopment.toInt then some ['d']
  else if stage = kOSKextVersionStageAlpha.toInt then some ['a']
  else if stage = kOSKextVersionStageBeta.toInt then some ['b']
  else if stage = kOSKextVersionStageCandidate.toInt then some ['f']
  else if stage = kOSKextVersionStageRelease.toInt then some []
  else none

/-! ## `OSKextParseVersionString` -/

/-- How a field's digit loop ends. -/
inductive Exit
  /-- whitespace or NUL: `vers_stage = kOSKextVersionStageRelease; goto finish;` -/
  | finish
  /-- a stage letter: `goto release_state;` -/
  | releaseState
  /-- a period: `current_char_p++; goto` the next field -/
  | period
  /-- the loop has scanned all the digits the field may have -/
  | full
  /-- `return -1;` -/
  | fail
  deriving DecidableEq, Repr

/-- The digit loop of the major, minor and revision fields, `k` digits still allowed: how it
ends, the field's value and the position reached. -/
def scanField (s : List Char) : Nat → Nat → Nat → Exit × Nat × Nat
  | 0, v, p => (.full, v, p)
  | k + 1, v, p =>
    let c := charAt s p
    if atEnd c then (.finish, v, p)
    else if __vers_isdigit c then
      let vers_digit := __vers_digit_for_char c
      if vers_digit < 0 then (.fail, v, p)
      else scanField s k (v * 10 + vers_digit.toNat) (p + 1)
    else if __VERS_isreleasestate c then (.releaseState, v, p)
    else if c == '.' then (.period, v, p + 1)
    else (.fail, v, p)

/-- "Check for too many digits" after a full field: a period is skipped, a digit is an error. -/
def tooManyDigits (s : List Char) (p : Nat) : Option Nat :=
  if charAt s p == '.' then some (p + 1)
  else if __vers_isdigit (charAt s p) then none
  else some p

/-- The stage-level loop (`:344-364`): digits only, and whitespace or NUL ends it once a digit
has been read. -/
def scanLevel (s : List Char) : Nat → Nat → Nat → Nat → Exit × Nat × Nat
  | 0, _, v, p => (.full, v, p)
  | k + 1, num_digits_scanned, v, p =>
    let c := charAt s p
    if atEnd c then
      if num_digits_scanned ≠ 0 then (.finish, v, p) else (.fail, v, p)
    else if __vers_isdigit c then
      let vers_digit := __vers_digit_for_char c
      if vers_digit < 0 then (.fail, v, p)
      else scanLevel s k (num_digits_scanned + 1) (v * 10 + vers_digit.toNat) (p + 1)
    else (.fail, v, p)

/-- What `finish:` reads. -/
structure Fields where
  vers_major : Nat
  vers_minor : Nat
  vers_revision : Nat
  vers_stage : OSKextVersionStage
  vers_stage_level : Nat
  deriving DecidableEq, Repr

/-- `release_state:` and the stage level (`:328-380`). -/
def releaseState (s : List Char) (p vers_major vers_minor vers_revision : Nat) : Option Fields :=
  if atEnd (charAt s p) then
    some ⟨vers_major, vers_minor, vers_revision, kOSKextVersionStageRelease, 0⟩
  else
    let (vers_stage, p) := __OSKextVersionStageForString s p
    if vers_stage = kOSKextVersionStageInvalid then none
    else
      match scanLevel s VERS_STAGE_LEVEL_DIGITS 0 0 p with
      -- `goto finish` from inside the loop skips the check against `VERS_STAGE_LEVEL_MAX`
      | (.finish, vers_stage_level, _) =>
        some ⟨vers_major, vers_minor, vers_revision, vers_stage, vers_stage_level⟩
      | (.full, vers_stage_level, p) =>
        if !atEnd (charAt s p) then none
        else if (vers_stage_level : Int) > VERS_STAGE_LEVEL_MAX then none
        else some ⟨vers_major, vers_minor, vers_revision, vers_stage, vers_stage_level⟩
      | _ => none

/-- `revision:` (`:292-326`). Its loop has no branch for a period, which is an error there. -/
def revision (s : List Char) (p vers_major vers_minor : Nat) : Option Fields :=
  match scanField s VERS_REVISION_DIGITS 0 p with
  | (.finish, vers_revision, _) =>
    some ⟨vers_major, vers_minor, vers_revision, kOSKextVersionStageRelease, 0⟩
  | (.releaseState, vers_revision, p) => releaseState s p vers_major vers_minor vers_revision
  | (.full, vers_revision, p) =>
    (tooManyDigits s p).bind fun p => releaseState s p vers_major vers_minor vers_revision
  | (.period, _, _) => none
  | (.fail, _, _) => none

/-- `minor_version:` (`:253-290`). -/
def minorVersion (s : List Char) (p vers_major : Nat) : Option Fields :=
  match scanField s VERS_MINOR_DIGITS 0 p with
  | (.finish, vers_minor, _) => some ⟨vers_major, vers_minor, 0, kOSKextVersionStageRelease, 0⟩
  | (.releaseState, vers_minor, p) => releaseState s p vers_major vers_minor 0
  | (.period, vers_minor, p) => revision s p vers_major vers_minor
  | (.full, vers_minor, p) => (tooManyDigits s p).bind fun p => revision s p vers_major vers_minor
  | (.fail, _, _) => none

/-- `OSKextParseVersionString` (`:188-380`) up to `finish:`: the major version and what follows. -/
def parseFields (versionString : List Char) : Option Fields :=
  if charAt versionString 0 == '\x00' then none
  else
    let vers_major := __vers_digit_for_char (charAt versionString 0)
    if vers_major < 0 then none
    else
      match scanField versionString (VERS_MAJOR_DIGITS - 1) vers_major.toNat 1 with
      | (.finish, vers_major, _) => some ⟨vers_major, 0, 0, kOSKextVersionStageRelease, 0⟩
      | (.releaseState, vers_major, p) => releaseState versionString p vers_major 0 0
      | (.period, vers_major, p) => minorVersion versionString p vers_major
      | (.full, vers_major, p) =>
        (tooManyDigits versionString p).bind fun p => minorVersion versionString p vers_major
      | (.fail, _, _) => none

/-- `finish:` (`:382-393`). -/
def finish (f : Fields) : Int :=
  if f.vers_stage = kOSKextVersionStageCandidate ∧ f.vers_stage_level = 0 then -1
  else
    f.vers_major * VERS_MAJOR_MULT + f.vers_minor * VERS_MINOR_MULT +
      f.vers_revision * VERS_REVISION_MULT + f.vers_stage.toInt * VERS_STAGE_MULT +
      f.vers_stage_level

/-- **`OSKextParseVersionString`** (`:188-395`). -/
def OSKextParseVersionString (versionString : List Char) : Int :=
  match parseFields versionString with
  | some f => finish f
  | none => -1

/-! ## `OSKextVersionGetString` -/

/-- The length of the C string in `buf`. -/
def strlen (buf : List Char) : Nat := (buf.takeWhile (· != '\x00')).length

/-- `str` written over `buf` from `pos` on. -/
def writeAt (buf : List Char) (pos : Nat) (str : List Char) : List Char :=
  buf.take pos ++ str ++ buf.drop (pos + str.length)

/-- `vsnprintf(buf + pos, size, ...)` of the formatted `text` (`subr_prf.c:467-479`): at most
`size - 1` characters and a NUL, and the length of the whole text. -/
def vsnprintf (buf : List Char) (pos size : Nat) (text : List Char) : List Char × Nat :=
  if size = 0 then (buf, text.length)
  else (writeAt buf pos (text.take (size - 1) ++ ['\x00']), text.length)

/-- `scnprintf` (`subr_prf.c:484-503`): what was written, not what was meant to be. -/
def scnprintf (buf : List Char) (pos size : Nat) (text : List Char) : List Char × Nat :=
  let (buf, i) := vsnprintf buf pos size text
  (buf, if i ≥ size then size - 1 else i)

/-- `strlcpy` (`subrs.c:523-549`). -/
def strlcpy (buf src : List Char) (siz : Nat) : List Char :=
  if siz = 0 then buf else writeAt buf 0 (src.take (siz - 1) ++ ['\x00'])

/-- `strlcat` (`subrs.c:484-511`). -/
def strlcat (buf src : List Char) (siz : Nat) : List Char :=
  let dlen := min (strlen buf) siz
  if siz - dlen = 0 then buf
  else writeAt buf dlen (src.take (siz - dlen - 1) ++ ['\x00'])

/-- `"%u"` of `(uint32_t)x`. -/
def fmtU (x : Int) : List Char := Nat.toDigits 10 (x % 2 ^ 32).toNat

/-- **`OSKextVersionGetString`** (`:400-490`) into a buffer of `bufferLength` characters: `none`
for `FALSE`, else the buffer. -/
def OSKextVersionGetString (aVersion : Int) (bufferLength : Nat) : Option (List Char) :=
  if bufferLength < kOSKextVersionMaxLength then none
  else
    -- `bzero(buffer, bufferLength * sizeof(char))`
    let buffer := List.replicate bufferLength '\x00'
    if aVersion < 0 then some (strlcpy buffer "(invalid)".toList bufferLength)
    else if aVersion = 0 then some (strlcpy buffer "(missing)".toList bufferLength)
    else
      let vers_major := aVersion / VERS_MAJOR_MULT
      if vers_major > VERS_MAJOR_MAX then some (strlcpy buffer "(invalid)".toList bufferLength)
      else
        -- the operands are positive, where C's division and `/` agree
        let vers_minor := (aVersion - vers_major * VERS_MAJOR_MULT) / VERS_MINOR_MULT
        let vers_revision :=
          (aVersion - (vers_major * VERS_MAJOR_MULT + vers_minor * VERS_MINOR_MULT)) /
            VERS_REVISION_MULT
        let vers_stage :=
          (aVersion - (vers_major * VERS_MAJOR_MULT + vers_minor * VERS_MINOR_MULT +
            vers_revision * VERS_REVISION_MULT)) / VERS_STAGE_MULT
        let vers_stage_level :=
          aVersion - (vers_major * VERS_MAJOR_MULT + vers_minor * VERS_MINOR_MULT +
            vers_revision * VERS_REVISION_MULT + vers_stage * VERS_STAGE_MULT)
        if vers_stage_level > VERS_STAGE_LEVEL_MAX then
          some (strlcpy buffer "(invalid)".toList bufferLength)
        else
          let (buffer, cpos) := scnprintf buffer 0 bufferLength (fmtU vers_major)
          let buffer := buffer.set cpos '.'
          let cpos := cpos + 1
          let (buffer, n) := scnprintf buffer cpos (bufferLength - cpos) (fmtU vers_minor)
          let cpos := cpos + n
          -- the revision is printed only if nonzero
          let (buffer, cpos) :=
            if vers_revision ≠ 0 then
              let buffer := buffer.set cpos '.'
              let (buffer, n) :=
                scnprintf buffer (cpos + 1) (bufferLength - (cpos + 1)) (fmtU vers_revision)
              (buffer, cpos + 1 + n)
            else (buffer, cpos)
          match __OSKextVersionStringForStage vers_stage with
          | none => some (strlcpy buffer "(invalid)".toList bufferLength)
          | some stage_string =>
            let (buffer, cpos) :=
              if stage_string ≠ [] then
                (strlcat buffer stage_string bufferLength, cpos + stage_string.length)
              else (buffer, cpos)
            if vers_stage < kOSKextVersionStageRelease.toInt then
              some (vsnprintf buffer cpos (bufferLength - cpos) (fmtU vers_stage_level)).1
            else some buffer

/-! ## Characters -/

/-- A decimal digit's character passes the tests the way the digit does. -/
theorem digitChar_spec : ∀ n < 10,
    __vers_isdigit (Nat.digitChar n) = true ∧ __vers_digit_for_char (Nat.digitChar n) = n ∧
      (Nat.digitChar n).toNat - '0'.toNat = n := by
  decide

/-- The characters `__vers_isdigit` accepts are the ten digits: none of them ends a field or is
a stage letter, and each is valued `c - '0'`. -/
theorem isdigit_spec {c : Char} (h : __vers_isdigit c = true) :
    atEnd c = false ∧ __VERS_isreleasestate c = false ∧ c ≠ '.' ∧
      0 ≤ __vers_digit_for_char c ∧ __vers_digit_for_char c ≤ 9 ∧
      (__vers_digit_for_char c).toNat = c.toNat - '0'.toNat := by
  simp only [__vers_isdigit, Bool.or_eq_true, beq_iff_eq, or_assoc] at h
  rcases h with h | h | h | h | h | h | h | h | h | h <;> subst h <;> decide

theorem charAt_of_drop {s t : List Char} {p : Nat} {c : Char} (h : s.drop p = c :: t) :
    charAt s p = c := by
  have hp : s[p]? = some c := by
    rw [← Nat.add_zero p, ← List.getElem?_drop, h]
    rfl
  simp [charAt, List.getD_eq_getElem?_getD, hp]

theorem charAt_of_drop_nil {s : List Char} {p : Nat} (h : s.drop p = []) :
    charAt s p = '\x00' := by
  have hp : s[p]? = none := by
    rw [← Nat.add_zero p, ← List.getElem?_drop, h]
    rfl
  simp [charAt, List.getD_eq_getElem?_getD, hp]

theorem drop_succ_of_drop {s t : List Char} {p : Nat} {c : Char} (h : s.drop p = c :: t) :
    s.drop (p + 1) = t := by
  rw [← List.drop_drop, h, List.drop_one, List.tail_cons]

theorem drop_add_of_drop {s ds rest : List Char} {p : Nat} (h : s.drop p = ds ++ rest) :
    s.drop (p + ds.length) = rest := by
  rw [← List.drop_drop, h, List.drop_left]

/-! ## The loops over a block of digits -/

/-- A field's loop reads a block of digits into the value it carries. -/
theorem scanField_digits (s : List Char) :
    ∀ (ds rest : List Char) (k v p : Nat), s.drop p = ds ++ rest →
      (∀ c ∈ ds, __vers_isdigit c = true) → ds.length ≤ k →
      scanField s k v p = scanField s (k - ds.length) (Nat.ofDigitChars 10 ds v) (p + ds.length)
  | [], _, _, _, _, _, _, _ => by simp [Nat.ofDigitChars]
  | _ :: _, _, 0, _, _, _, _, hk => absurd hk (by simp)
  | c :: ds, rest, k + 1, v, p, hs, hd, hk => by
    obtain ⟨hend, -, -, hnn, -, hval⟩ := isdigit_spec (hd c List.mem_cons_self)
    have hstep : scanField s (k + 1) v p =
        scanField s k (Nat.ofDigitChars 10 [c] v) (p + 1) := by
      rw [scanField, charAt_of_drop hs]
      simp only [hend, hd c List.mem_cons_self, Bool.false_eq_true, if_false, if_true,
        Int.not_lt.mpr hnn, hval, Nat.ofDigitChars, List.foldl_cons, List.foldl_nil]
      rw [Nat.mul_comm]
    rw [hstep, scanField_digits s ds rest k _ (p + 1) (drop_succ_of_drop hs)
      (fun c hc => hd c (List.mem_cons_of_mem _ hc)) (by simp only [List.length_cons] at hk; omega)]
    simp only [List.length_cons, Nat.ofDigitChars, List.foldl_cons, List.foldl_nil]
    congr 1 <;> omega

/-- A field's loop over a block of digits: the digits are read, and unless the block fills the
field, the character after it decides how the loop ends. -/
theorem scanField_block {s ds rest : List Char} {k v p : Nat} (hs : s.drop p = ds ++ rest)
    (hd : ∀ c ∈ ds, __vers_isdigit c = true) (hk : ds.length ≤ k)
    (hc : __vers_isdigit (charAt s (p + ds.length)) = false) :
    scanField s k v p =
      if ds.length = k then (.full, Nat.ofDigitChars 10 ds v, p + ds.length)
      else scanField s 1 (Nat.ofDigitChars 10 ds v) (p + ds.length) := by
  rw [scanField_digits s ds rest k v p hs hd hk]
  split_ifs with heq
  · rw [heq, Nat.sub_self, scanField]
  · -- one more digit would be allowed, but the next character is not one
    obtain ⟨j, hj⟩ : ∃ j, k - ds.length = j + 1 := ⟨k - ds.length - 1, by omega⟩
    rw [hj, scanField, scanField]
    simp [hc]

section Stops

variable {s : List Char} {k v q : Nat}

theorem scanField_stop_period (h : charAt s q = '.') :
    scanField s (k + 1) v q = (.period, v, q + 1) := by
  simp [scanField, h, atEnd, __vers_isspace, __vers_isdigit, __VERS_isreleasestate]

theorem scanField_stop_letter (h : __VERS_isreleasestate (charAt s q) = true) :
    scanField s (k + 1) v q = (.releaseState, v, q) := by
  have hc := h
  simp only [__VERS_isreleasestate, Bool.or_eq_true, beq_iff_eq, or_assoc] at hc
  rcases hc with hc | hc | hc | hc <;>
    simp [scanField, hc, atEnd, __vers_isspace, __vers_isdigit, __VERS_isreleasestate]

theorem scanField_stop_end (h : atEnd (charAt s q) = true) :
    scanField s (k + 1) v q = (.finish, v, q) := by
  simp [scanField, h]

theorem tooManyDigits_period (h : charAt s q = '.') : tooManyDigits s q = some (q + 1) := by
  simp [tooManyDigits, h]

theorem tooManyDigits_of_ne (h : charAt s q ≠ '.') (hd : __vers_isdigit (charAt s q) = false) :
    tooManyDigits s q = some q := by
  simp [tooManyDigits, h, hd]

/-- A stage letter is neither a digit nor a period. -/
theorem letter_spec {c : Char} (h : __VERS_isreleasestate c = true) :
    __vers_isdigit c = false ∧ c ≠ '.' ∧ atEnd c = false := by
  simp only [__VERS_isreleasestate, Bool.or_eq_true, beq_iff_eq, or_assoc] at h
  rcases h with rfl | rfl | rfl | rfl <;> decide

/-- Whitespace and NUL are neither digits nor periods. -/
theorem end_spec {c : Char} (h : atEnd c = true) : __vers_isdigit c = false ∧ c ≠ '.' := by
  simp only [atEnd, __vers_isspace, Bool.or_eq_true, beq_iff_eq, or_assoc] at h
  rcases h with rfl | rfl | rfl | rfl | rfl <;> decide

end Stops

/-- The stage-level loop reads a block of digits, counting them. -/
theorem scanLevel_digits (s : List Char) :
    ∀ (ds rest : List Char) (k n v p : Nat), s.drop p = ds ++ rest →
      (∀ c ∈ ds, __vers_isdigit c = true) → ds.length ≤ k →
      scanLevel s k n v p =
        scanLevel s (k - ds.length) (n + ds.length) (Nat.ofDigitChars 10 ds v) (p + ds.length)
  | [], _, _, _, _, _, _, _, _ => by simp [Nat.ofDigitChars]
  | _ :: _, _, 0, _, _, _, _, _, hk => absurd hk (by simp)
  | c :: ds, rest, k + 1, n, v, p, hs, hd, hk => by
    obtain ⟨hend, -, -, hnn, -, hval⟩ := isdigit_spec (hd c List.mem_cons_self)
    have hstep : scanLevel s (k + 1) n v p =
        scanLevel s k (n + 1) (Nat.ofDigitChars 10 [c] v) (p + 1) := by
      rw [scanLevel, charAt_of_drop hs]
      simp only [hend, hd c List.mem_cons_self, Bool.false_eq_true, if_false, if_true,
        Int.not_lt.mpr hnn, hval, Nat.ofDigitChars, List.foldl_cons, List.foldl_nil]
      rw [Nat.mul_comm]
    rw [hstep, scanLevel_digits s ds rest k _ _ (p + 1) (drop_succ_of_drop hs)
      (fun c hc => hd c (List.mem_cons_of_mem _ hc)) (by simp only [List.length_cons] at hk; omega)]
    simp only [List.length_cons, Nat.ofDigitChars, List.foldl_cons, List.foldl_nil]
    congr 1 <;> omega

theorem scanLevel_stop_end {s : List Char} {k n v q : Nat} (h : atEnd (charAt s q) = true)
    (hn : n ≠ 0) : scanLevel s (k + 1) n v q = (.finish, v, q) := by
  simp [scanLevel, h, hn]

/-! ## The labels on well-formed text -/

section Labels

variable {s ds rest : List Char} {p : Nat}

/-- Digits then a period: `minor_version:` goes on to `revision:` after the period. -/
theorem minorVersion_period (vers_major : Nat) (hs : s.drop p = ds ++ '.' :: rest)
    (hd : ∀ c ∈ ds, __vers_isdigit c = true) (hk : ds.length ≤ VERS_MINOR_DIGITS) :
    minorVersion s p vers_major =
      revision s (p + ds.length + 1) vers_major (Nat.ofDigitChars 10 ds 0) := by
  have hc : charAt s (p + ds.length) = '.' := charAt_of_drop (drop_add_of_drop hs)
  unfold minorVersion
  rw [scanField_block hs hd hk (by rw [hc]; rfl)]
  split_ifs
  · simp [tooManyDigits_period hc]
  · simp [scanField_stop_period hc]

/-- Digits then a stage letter: `minor_version:` ends in `release_state:` at the letter, through
`revision:` when the minor version has all its digits. -/
theorem minorVersion_letter (vers_major : Nat) {c : Char} (hs : s.drop p = ds ++ c :: rest)
    (hl : __VERS_isreleasestate c = true) (hd : ∀ c ∈ ds, __vers_isdigit c = true)
    (hk : ds.length ≤ VERS_MINOR_DIGITS) :
    minorVersion s p vers_major =
      releaseState s (p + ds.length) vers_major (Nat.ofDigitChars 10 ds 0) 0 := by
  have hc : charAt s (p + ds.length) = c := charAt_of_drop (drop_add_of_drop hs)
  obtain ⟨hnd, hnp, -⟩ := letter_spec hl
  rw [← hc] at hl hnd hnp
  unfold minorVersion
  rw [scanField_block hs hd hk hnd]
  split_ifs
  · -- the letter comes after a full field, and `revision:` meets it at once
    simp [tooManyDigits_of_ne hnp hnd, revision, VERS_REVISION_DIGITS, scanField_stop_letter hl]
  · simp [scanField_stop_letter hl]

/-- Digits then whitespace or NUL: `minor_version:` ends the string at release. -/
theorem minorVersion_end (vers_major : Nat) (hs : s.drop p = ds ++ rest)
    (he : atEnd (charAt s (p + ds.length)) = true) (hd : ∀ c ∈ ds, __vers_isdigit c = true)
    (hk : ds.length ≤ VERS_MINOR_DIGITS) :
    minorVersion s p vers_major =
      some ⟨vers_major, Nat.ofDigitChars 10 ds 0, 0, kOSKextVersionStageRelease, 0⟩ := by
  obtain ⟨hnd, hnp⟩ := end_spec he
  unfold minorVersion
  rw [scanField_block hs hd hk hnd]
  split_ifs
  · simp [tooManyDigits_of_ne hnp hnd, revision, VERS_REVISION_DIGITS, scanField_stop_end he]
  · simp [scanField_stop_end he]

/-- Digits then a stage letter: `revision:` ends in `release_state:` at the letter. -/
theorem revision_letter (vers_major vers_minor : Nat) {c : Char} (hs : s.drop p = ds ++ c :: rest)
    (hl : __VERS_isreleasestate c = true) (hd : ∀ c ∈ ds, __vers_isdigit c = true)
    (hk : ds.length ≤ VERS_REVISION_DIGITS) :
    revision s p vers_major vers_minor =
      releaseState s (p + ds.length) vers_major vers_minor (Nat.ofDigitChars 10 ds 0) := by
  have hc : charAt s (p + ds.length) = c := charAt_of_drop (drop_add_of_drop hs)
  obtain ⟨hnd, hnp, -⟩ := letter_spec hl
  rw [← hc] at hl hnd hnp
  unfold revision
  rw [scanField_block hs hd hk hnd]
  split_ifs
  · simp [tooManyDigits_of_ne hnp hnd]
  · simp [scanField_stop_letter hl]

theorem releaseState_end (vers_major vers_minor vers_revision : Nat)
    (he : atEnd (charAt s p) = true) :
    releaseState s p vers_major vers_minor vers_revision =
      some ⟨vers_major, vers_minor, vers_revision, kOSKextVersionStageRelease, 0⟩ := by
  simp [releaseState, he]

/-- Digits then whitespace or NUL: `revision:` ends the string at release. -/
theorem revision_end (vers_major vers_minor : Nat) (hs : s.drop p = ds ++ rest)
    (he : atEnd (charAt s (p + ds.length)) = true) (hd : ∀ c ∈ ds, __vers_isdigit c = true)
    (hk : ds.length ≤ VERS_REVISION_DIGITS) :
    revision s p vers_major vers_minor =
      some ⟨vers_major, vers_minor, Nat.ofDigitChars 10 ds 0, kOSKextVersionStageRelease, 0⟩ := by
  obtain ⟨hnd, hnp⟩ := end_spec he
  unfold revision
  rw [scanField_block hs hd hk hnd]
  split_ifs
  · simp [tooManyDigits_of_ne hnp hnd, releaseState_end _ _ _ he]
  · simp [scanField_stop_end he]

/-- The letter `OSKextVersionGetString` prints for a stage, followed by a digit, is read back
as that stage. -/
theorem stageForString_letter {st : OSKextVersionStage} {c : Char}
    (hst : __OSKextVersionStringForStage st.toInt = some [c]) (hc : charAt s p = c)
    (hdig : __vers_isdigit (charAt s (p + 1)) = true) :
    __OSKextVersionStageForString s p = (st, p + 1) := by
  cases st <;> simp [__OSKextVersionStringForStage, OSKextVersionStage.toInt] at hst <;> subst hst <;>
    simp [__OSKextVersionStageForString, hc, hdig, atEnd, __vers_isspace]

/-- A stage letter, the digits of its level, then whitespace or NUL: `release_state:` reads the
stage and the level. -/
theorem releaseState_stage (vers_major vers_minor vers_revision : Nat) {st : OSKextVersionStage}
    {c : Char} (hst : __OSKextVersionStringForStage st.toInt = some [c])
    (hs : s.drop p = c :: (ds ++ rest)) (hd : ∀ c ∈ ds, __vers_isdigit c = true) (hne : ds ≠ [])
    (hk : ds.length ≤ VERS_STAGE_LEVEL_DIGITS) (he : atEnd (charAt s (p + 1 + ds.length)) = true)
    (hmax : Nat.ofDigitChars 10 ds 0 ≤ 255) :
    releaseState s p vers_major vers_minor vers_revision =
      some ⟨vers_major, vers_minor, vers_revision, st, Nat.ofDigitChars 10 ds 0⟩ := by
  have hc : charAt s p = c := charAt_of_drop hs
  have hs1 : s.drop (p + 1) = ds ++ rest := drop_succ_of_drop hs
  have hdig : __vers_isdigit (charAt s (p + 1)) = true := by
    obtain ⟨d, ds', rfl⟩ := List.exists_cons_of_ne_nil hne
    rw [charAt_of_drop hs1]
    exact hd d List.mem_cons_self
  -- the letter is a real stage's, so neither the end nor `kOSKextVersionStageInvalid`
  have hletter : atEnd c = false ∧ st ≠ kOSKextVersionStageInvalid := by
    cases st <;> simp [__OSKextVersionStringForStage, OSKextVersionStage.toInt] at hst ⊢ <;>
      subst hst <;> decide
  unfold releaseState
  rw [hc, stageForString_letter hst hc hdig]
  simp only [hletter.1, hletter.2, Bool.false_eq_true, if_false]
  rw [scanLevel_digits s ds rest _ 0 0 (p + 1) hs1 hd hk]
  by_cases h3 : ds.length = VERS_STAGE_LEVEL_DIGITS
  · -- three digits fill the level, which is then checked against `VERS_STAGE_LEVEL_MAX`
    have hmax' : ¬((Nat.ofDigitChars 10 ds 0 : Int) > VERS_STAGE_LEVEL_MAX) := by
      unfold VERS_STAGE_LEVEL_MAX
      omega
    have hzero : VERS_STAGE_LEVEL_DIGITS - ds.length = 0 := by omega
    rw [hzero, scanLevel]
    simp [he, hmax']
  · obtain ⟨j, hj⟩ : ∃ j, VERS_STAGE_LEVEL_DIGITS - ds.length = j + 1 :=
      ⟨VERS_STAGE_LEVEL_DIGITS - ds.length - 1, by omega⟩
    have hn : 0 + ds.length ≠ 0 := by
      simp only [Nat.zero_add, ne_eq, List.length_eq_zero_iff]
      exact hne
    rw [hj, scanLevel_stop_end he hn]

/-- The major version, a period and what follows: `OSKextParseVersionString` goes on to
`minor_version:` after the period. -/
theorem parseFields_period {d : Char} (hs : s = d :: (ds ++ '.' :: rest))
    (hd : ∀ c ∈ d :: ds, __vers_isdigit c = true) (hk : ds.length + 1 ≤ VERS_MAJOR_DIGITS) :
    parseFields s = minorVersion s (ds.length + 2) (Nat.ofDigitChars 10 (d :: ds) 0) := by
  obtain ⟨hend, -, -, hnn, -, hval⟩ := isdigit_spec (hd d List.mem_cons_self)
  have hc0 : charAt s 0 = d := charAt_of_drop (by rw [hs]; rfl)
  have hs1 : s.drop 1 = ds ++ '.' :: rest := by
    rw [hs]
    rfl
  have hnul : (d == '\x00') = false := by
    simp only [atEnd, Bool.or_eq_false_iff] at hend
    exact hend.2
  have hcp : charAt s (1 + ds.length) = '.' := charAt_of_drop (drop_add_of_drop hs1)
  have hval' : Nat.ofDigitChars 10 (d :: ds) 0 =
      Nat.ofDigitChars 10 ds (__vers_digit_for_char d).toNat := by
    simp [Nat.ofDigitChars, hval]
  unfold parseFields
  simp only [hc0, hnul, Bool.false_eq_true, if_false, Int.not_lt.mpr hnn]
  rw [scanField_block hs1 (fun c hc => hd c (List.mem_cons_of_mem _ hc))
    (by unfold VERS_MAJOR_DIGITS at hk ⊢; omega) (by rw [hcp]; rfl), hval']
  split_ifs
  · simp only [tooManyDigits_period hcp, Option.bind_some]
    congr 1
    omega
  · simp only [scanField_stop_period hcp]
    congr 1
    omega

end Labels

/-! ## What a version prints as -/

/-- The fields of an accepted string: each number within its digits, a real stage, and a
stage level of at most `VERS_STAGE_LEVEL_MAX` that is `0` at release and not `0` for a
candidate. -/
structure Fields.Valid (f : Fields) : Prop where
  major_lt : f.vers_major < 10000
  minor_lt : f.vers_minor < 10000
  revision_lt : f.vers_revision < 10000
  stage_ne : f.vers_stage ≠ kOSKextVersionStageInvalid
  level_le : f.vers_stage_level ≤ 255
  release_level : f.vers_stage = kOSKextVersionStageRelease → f.vers_stage_level = 0
  candidate_level : f.vers_stage = kOSKextVersionStageCandidate → f.vers_stage_level ≠ 0

/-- What `OSKextVersionGetString` prints for the fields when nothing is cut: the major and minor
versions, the revision if it is not zero, the stage's letter and, below release, the level. -/
def versionText (f : Fields) : List Char :=
  Nat.toDigits 10 f.vers_major ++ '.' :: (Nat.toDigits 10 f.vers_minor ++
    ((if f.vers_revision ≠ 0 then '.' :: Nat.toDigits 10 f.vers_revision else []) ++
      ((__OSKextVersionStringForStage f.vers_stage.toInt).getD [] ++
        if f.vers_stage.toInt < kOSKextVersionStageRelease.toInt then
          Nat.toDigits 10 f.vers_stage_level
        else [])))

/-- `"%u"` prints digits only. -/
theorem toDigits_isdigit (n : Nat) : ∀ c ∈ Nat.toDigits 10 n, __vers_isdigit c = true := by
  induction n using Nat.strongRecOn with
  | _ n ih =>
    rw [Nat.toDigits_eq_if (by decide)]
    split_ifs with h
    · simp only [List.mem_singleton]
      rintro c rfl
      exact (digitChar_spec n h).1
    · intro c hc
      rcases List.mem_append.mp hc with hc | hc
      · exact ih (n / 10) (by omega) c hc
      · rw [List.mem_singleton.mp hc]
        exact (digitChar_spec (n % 10) (Nat.mod_lt _ (by decide))).1

theorem length_toDigits_le {n k : Nat} (h : n < 10 ^ k) (hk : 0 < k) :
    (Nat.toDigits 10 n).length ≤ k :=
  (Nat.length_toDigits_le_iff (by decide) hk).mpr h

/-- Past the text, only NULs: the end of the string. -/
theorem atEnd_of_drop_nuls {s : List Char} {q k : Nat} (h : s.drop q = List.replicate k '\x00') :
    atEnd (charAt s q) = true := by
  cases k with
  | zero => simp [charAt_of_drop_nil h, atEnd]
  | succ k => simp [charAt_of_drop (by rw [h]; rfl), atEnd]

/-- The letter each stage below release prints as. -/
theorem stageString_of_lt_release {st : OSKextVersionStage} (hne : st ≠ kOSKextVersionStageInvalid)
    (hlt : st.toInt < kOSKextVersionStageRelease.toInt) :
    ∃ c, __OSKextVersionStringForStage st.toInt = some [c] ∧ __VERS_isreleasestate c = true := by
  cases st <;> simp_all [__OSKextVersionStringForStage, OSKextVersionStage.toInt, __VERS_isreleasestate]

theorem stageString_release :
    __OSKextVersionStringForStage kOSKextVersionStageRelease.toInt = some [] := rfl

/-- The stage part of a printed version, from its letter on, is read back by `release_state:`. -/
theorem releaseState_stageText {s : List Char} {q k : Nat} (vers_major vers_minor vers_revision : Nat)
    {st : OSKextVersionStage} {c : Char} {l : Nat}
    (hst : __OSKextVersionStringForStage st.toInt = some [c]) (hl : l ≤ 255)
    (hs : s.drop q = c :: (Nat.toDigits 10 l ++ List.replicate k '\x00')) :
    releaseState s q vers_major vers_minor vers_revision =
      some ⟨vers_major, vers_minor, vers_revision, st, l⟩ := by
  have hs1 : s.drop (q + 1) = Nat.toDigits 10 l ++ List.replicate k '\x00' := drop_succ_of_drop hs
  have hval : Nat.ofDigitChars 10 (Nat.toDigits 10 l) 0 = l := Nat.ofDigitChars_ten_toDigits
  have h := releaseState_stage vers_major vers_minor vers_revision hst hs (toDigits_isdigit l)
    Nat.toDigits_ne_nil (length_toDigits_le (k := 3) (by omega) (by decide))
    (atEnd_of_drop_nuls (drop_add_of_drop hs1)) (by rw [hval]; exact hl)
  rwa [hval] at h

/-- The printed text of valid fields, and any NULs after it, parse back to the fields. -/
theorem parseFields_versionText {f : Fields} (hf : f.Valid) (k : Nat) :
    parseFields (versionText f ++ List.replicate k '\x00') = some f := by
  obtain ⟨M, m, r, st, l⟩ := f
  obtain ⟨d, ds, hD⟩ := List.exists_cons_of_ne_nil (@Nat.toDigits_ne_nil M 10)
  have hMlen : ds.length + 1 ≤ VERS_MAJOR_DIGITS := by
    have h := length_toDigits_le (k := 4) hf.major_lt (by decide)
    rw [hD, List.length_cons] at h
    exact h
  have hval : ∀ n, Nat.ofDigitChars 10 (Nat.toDigits 10 n) 0 = n := fun _ =>
    Nat.ofDigitChars_ten_toDigits
  have hmlen : (Nat.toDigits 10 m).length ≤ VERS_MINOR_DIGITS := length_toDigits_le hf.minor_lt (by decide)
  have hrlen : (Nat.toDigits 10 r).length ≤ VERS_REVISION_DIGITS :=
    length_toDigits_le hf.revision_lt (by decide)
  -- the major version and its period
  generalize hT : (Nat.toDigits 10 m ++
    ((if r ≠ 0 then '.' :: Nat.toDigits 10 r else []) ++
      ((__OSKextVersionStringForStage st.toInt).getD [] ++
        if st.toInt < kOSKextVersionStageRelease.toInt then Nat.toDigits 10 l else []))) ++
    List.replicate k '\x00' = T
  have hs : versionText ⟨M, m, r, st, l⟩ ++ List.replicate k '\x00' = d :: (ds ++ '.' :: T) := by
    simp only [versionText, hD, ← hT, List.cons_append, List.append_assoc]
  have hdrop : (versionText ⟨M, m, r, st, l⟩ ++ List.replicate k '\x00').drop (ds.length + 2) = T := by
    rw [hs]
    simp
  have hmajor : Nat.ofDigitChars 10 (d :: ds) 0 = M := by rw [← hD]; exact hval M
  rw [parseFields_period hs (by rw [← hD]; exact toDigits_isdigit M) hMlen, hmajor]
  generalize versionText ⟨M, m, r, st, l⟩ ++ List.replicate k '\x00' = s at hdrop
  subst hT
  -- the rest depends on whether the revision and the stage level are printed
  by_cases hrel : st = kOSKextVersionStageRelease
  · have hl : l = 0 := hf.release_level hrel
    subst hrel hl
    by_cases hr : r = 0
    · subst hr
      have h' : s.drop (ds.length + 2) = Nat.toDigits 10 m ++ List.replicate k '\x00' := by
        simpa [__OSKextVersionStringForStage, OSKextVersionStage.toInt] using hdrop
      rw [minorVersion_end M h' (atEnd_of_drop_nuls (drop_add_of_drop h')) (toDigits_isdigit m)
        hmlen, hval m]
    · have h' : s.drop (ds.length + 2) =
          Nat.toDigits 10 m ++ '.' :: (Nat.toDigits 10 r ++ List.replicate k '\x00') := by
        simpa [hr, __OSKextVersionStringForStage, OSKextVersionStage.toInt] using hdrop
      have h'' := drop_succ_of_drop (drop_add_of_drop h')
      rw [minorVersion_period M h' (toDigits_isdigit m) hmlen, hval m,
        revision_end M m h'' (atEnd_of_drop_nuls (drop_add_of_drop h'')) (toDigits_isdigit r) hrlen,
        hval r]
  · have hlt : st.toInt < kOSKextVersionStageRelease.toInt := by
      cases st with
      | kOSKextVersionStageInvalid => exact absurd rfl hf.stage_ne
      | kOSKextVersionStageRelease => exact absurd rfl hrel
      | _ => decide
    obtain ⟨c, hst, hletter⟩ := stageString_of_lt_release hf.stage_ne hlt
    by_cases hr : r = 0
    · subst hr
      have h' : s.drop (ds.length + 2) =
          Nat.toDigits 10 m ++ c :: (Nat.toDigits 10 l ++ List.replicate k '\x00') := by
        simpa [hst, hlt] using hdrop
      rw [minorVersion_letter M h' hletter (toDigits_isdigit m) hmlen, hval m,
        releaseState_stageText M m 0 hst hf.level_le (drop_add_of_drop h')]
    · have h' : s.drop (ds.length + 2) = Nat.toDigits 10 m ++ '.' ::
          (Nat.toDigits 10 r ++ c :: (Nat.toDigits 10 l ++ List.replicate k '\x00')) := by
        simpa [hr, hst, hlt] using hdrop
      have h'' := drop_succ_of_drop (drop_add_of_drop h')
      rw [minorVersion_period M h' (toDigits_isdigit m) hmlen, hval m,
        revision_letter M m h'' hletter (toDigits_isdigit r) hrlen, hval r,
        releaseState_stageText M m r hst hf.level_le (drop_add_of_drop h'')]

/-! ## The buffer while the text fits -/

section Buffer

variable {buf P text : List Char} {pos size : Nat}

/-- A C string with no NUL in it, then NULs: its length is the string's. -/
theorem strlen_text_nuls (hP : '\x00' ∉ P) (size : Nat) :
    strlen (P ++ List.replicate size '\x00') = P.length := by
  induction P with
  | nil => cases size <;> simp [strlen, List.replicate_succ]
  | cons c P ih =>
    have hc : (c != '\x00') = true := by
      rw [bne_iff_ne]
      rintro rfl
      exact hP List.mem_cons_self
    have ih' := ih fun h => hP (List.mem_cons_of_mem _ h)
    simp only [strlen, List.cons_append, List.takeWhile_cons, hc, if_true, List.length_cons] at ih' ⊢
    rw [ih']

/-- Writing a string and its NUL where the buffer has room for both. -/
theorem writeAt_fits (hbuf : buf = P ++ List.replicate size '\x00') (hpos : pos = P.length)
    (h : text.length < size) :
    writeAt buf pos (text ++ ['\x00']) = P ++ text ++ List.replicate (size - text.length) '\x00' := by
  subst hbuf hpos
  have hk : size - (P.length + (text.length + 1) - P.length) = (size - text.length - 1) := by omega
  have htail : size - text.length = (size - text.length - 1) + 1 := by omega
  rw [writeAt, List.take_left' rfl, List.drop_append, List.drop_eq_nil_of_le (by simp),
    List.nil_append, List.drop_replicate, List.length_append, List.length_singleton, hk, htail,
    List.replicate_succ, Nat.add_sub_cancel]
  simp only [List.append_assoc, List.singleton_append]

theorem vsnprintf_fits (hbuf : buf = P ++ List.replicate size '\x00') (hpos : pos = P.length)
    (h : text.length < size) :
    vsnprintf buf pos size text =
      (P ++ text ++ List.replicate (size - text.length) '\x00', text.length) := by
  rw [vsnprintf, if_neg (by omega), List.take_of_length_le (by omega), writeAt_fits hbuf hpos h]

theorem scnprintf_fits (hbuf : buf = P ++ List.replicate size '\x00') (hpos : pos = P.length)
    (h : text.length < size) :
    scnprintf buf pos size text =
      (P ++ text ++ List.replicate (size - text.length) '\x00', text.length) := by
  simp only [scnprintf, vsnprintf_fits hbuf hpos h, if_neg (Nat.not_le.mpr h)]

theorem set_fits (hbuf : buf = P ++ List.replicate size '\x00') (hpos : pos = P.length)
    (h : 0 < size) (c : Char) :
    buf.set pos c = P ++ [c] ++ List.replicate (size - 1) '\x00' := by
  subst hbuf hpos
  obtain ⟨k, rfl⟩ : ∃ k, size = k + 1 := ⟨size - 1, by omega⟩
  rw [List.set_append_right _ _ (Nat.le_refl _), Nat.sub_self, List.replicate_succ]
  simp

theorem strlcat_fits {siz : Nat} (hbuf : buf = P ++ List.replicate size '\x00') (hP : '\x00' ∉ P)
    (hsiz : siz = P.length + size) (h : text.length < size) :
    strlcat buf text siz = P ++ text ++ List.replicate (size - text.length) '\x00' := by
  have hlen : strlen buf = P.length := by rw [hbuf]; exact strlen_text_nuls hP size
  subst hsiz
  simp only [strlcat, hlen, Nat.min_eq_left (Nat.le_add_right _ _), Nat.add_sub_cancel_left]
  rw [if_neg (by omega), List.take_of_length_le (by omega), writeAt_fits hbuf rfl h]

end Buffer

/-! ## Printing a version -/

/-- `finish:` packs valid fields. -/
theorem finish_of_valid {f : Fields} (hf : f.Valid) :
    finish f = f.vers_major * VERS_MAJOR_MULT + f.vers_minor * VERS_MINOR_MULT +
      f.vers_revision * VERS_REVISION_MULT + f.vers_stage.toInt * VERS_STAGE_MULT +
      f.vers_stage_level := by
  rw [finish, if_neg]
  rintro ⟨hc, hl⟩
  exact hf.candidate_level hc hl

theorem toInt_bounds {st : OSKextVersionStage} (h : st ≠ kOSKextVersionStageInvalid) :
    1 ≤ st.toInt ∧ st.toInt ≤ 9 := by
  cases st with
  | kOSKextVersionStageInvalid => exact absurd rfl h
  | _ => decide

theorem fmtU_of_lt {n : Nat} (h : n < 2 ^ 32) : fmtU n = Nat.toDigits 10 n := by
  rw [fmtU, Int.emod_eq_of_lt (Int.natCast_nonneg n) (by omega), Int.toNat_natCast]

/-- **`OSKextVersionGetString`** prints valid fields in full into a buffer of
`kOSKextVersionMaxLength` characters, NULs after the text. -/
theorem getString_finish {f : Fields} (hf : f.Valid) :
    OSKextVersionGetString (finish f) kOSKextVersionMaxLength =
      some (versionText f ++
        List.replicate (kOSKextVersionMaxLength - (versionText f).length) '\x00') := by
  obtain ⟨M, m, r, st, l⟩ := f
  have hS := toInt_bounds hf.stage_ne
  have hX := finish_of_valid hf
  have hMb := hf.major_lt
  have hmb := hf.minor_lt
  have hrb := hf.revision_lt
  have hlb := hf.level_le
  simp only at hX hMb hmb hrb hlb hS
  simp only [versionText]
  generalize finish ⟨M, m, r, st, l⟩ = X at hX
  -- `OSKextVersionGetString` takes the packed fields apart again
  unfold VERS_MAJOR_MULT VERS_MINOR_MULT VERS_REVISION_MULT VERS_STAGE_MULT at hX
  have hpos : ¬X < 0 ∧ X ≠ 0 := by omega
  have hM : X / VERS_MAJOR_MULT = M := by unfold VERS_MAJOR_MULT; omega
  have hMmax : ¬(M : Int) > VERS_MAJOR_MAX := by unfold VERS_MAJOR_MAX; omega
  have hm : (X - M * VERS_MAJOR_MULT) / VERS_MINOR_MULT = m := by
    unfold VERS_MAJOR_MULT VERS_MINOR_MULT; omega
  have hr : (X - (M * VERS_MAJOR_MULT + m * VERS_MINOR_MULT)) / VERS_REVISION_MULT = r := by
    unfold VERS_MAJOR_MULT VERS_MINOR_MULT VERS_REVISION_MULT; omega
  have hst : (X - (M * VERS_MAJOR_MULT + m * VERS_MINOR_MULT + r * VERS_REVISION_MULT)) /
      VERS_STAGE_MULT = st.toInt := by
    unfold VERS_MAJOR_MULT VERS_MINOR_MULT VERS_REVISION_MULT VERS_STAGE_MULT; omega
  have hl : X - (M * VERS_MAJOR_MULT + m * VERS_MINOR_MULT + r * VERS_REVISION_MULT +
      st.toInt * VERS_STAGE_MULT) = l := by
    unfold VERS_MAJOR_MULT VERS_MINOR_MULT VERS_REVISION_MULT VERS_STAGE_MULT; omega
  have hlmax : ¬(l : Int) > VERS_STAGE_LEVEL_MAX := by unfold VERS_STAGE_LEVEL_MAX; omega
  simp only [OSKextVersionGetString, kOSKextVersionMaxLength, Nat.lt_irrefl, if_false, hpos.1,
    hpos.2, hM, hMmax, hm, hr, hst, hl, hlmax, fmtU_of_lt (n := M) (by omega),
    fmtU_of_lt (n := m) (by omega), fmtU_of_lt (n := r) (by omega), fmtU_of_lt (n := l) (by omega)]
  -- the digits fit: at most `4 + 1 + 4 + 1 + 4 + 1 + 3` characters before the NUL
  have hDM := length_toDigits_le (k := 4) hMb (by decide)
  have hDm := length_toDigits_le (k := 4) hmb (by decide)
  have hDr := length_toDigits_le (k := 4) hrb (by decide)
  have hDl := length_toDigits_le (k := 3) (n := l) (by omega) (by decide)
  have hnul : ∀ n, '\x00' ∉ Nat.toDigits 10 n := fun n h => by
    have := (isdigit_spec (toDigits_isdigit n _ h)).1
    simp [atEnd] at this
  have h1 : scnprintf (List.replicate 20 '\x00') 0 20 (Nat.toDigits 10 M) =
      (Nat.toDigits 10 M ++ List.replicate (20 - (Nat.toDigits 10 M).length) '\x00',
        (Nat.toDigits 10 M).length) :=
    scnprintf_fits (P := []) (by simp) (by simp) (by omega)
  rw [h1]
  dsimp only
  rw [set_fits rfl rfl (by omega)]
  have h2 : scnprintf (Nat.toDigits 10 M ++ ['.'] ++
      List.replicate (20 - (Nat.toDigits 10 M).length - 1) '\x00') ((Nat.toDigits 10 M).length + 1)
      (20 - ((Nat.toDigits 10 M).length + 1)) (Nat.toDigits 10 m) =
      (Nat.toDigits 10 M ++ ['.'] ++ Nat.toDigits 10 m ++ List.replicate
        (20 - ((Nat.toDigits 10 M).length + 1) - (Nat.toDigits 10 m).length) '\x00',
        (Nat.toDigits 10 m).length) :=
    scnprintf_fits (by rw [Nat.sub_sub]) (by simp) (by omega)
  rw [h2]
  dsimp only
  -- after the revision, if it is printed, the buffer holds `Q` and NULs
  generalize hQ : Nat.toDigits 10 M ++ '.' :: (Nat.toDigits 10 m ++
    if r ≠ 0 then '.' :: Nat.toDigits 10 r else []) = Q
  have hQnul : '\x00' ∉ Q := by
    rw [← hQ]
    split_ifs <;> simp [hnul]
  have hQlen : Q.length ≤ 14 := by
    rw [← hQ]
    split_ifs <;> simp <;> omega
  generalize hA : Nat.toDigits 10 M = A at hQ hDM ⊢
  generalize hB : Nat.toDigits 10 m = B at hQ hDm ⊢
  -- the text from the stage on, and the whole text as `Q` and that
  generalize hT : (__OSKextVersionStringForStage st.toInt).getD [] ++
    (if st.toInt < kOSKextVersionStageRelease.toInt then Nat.toDigits 10 l else []) = T
  have hText : A ++ '.' :: (B ++ ((if r ≠ 0 then '.' :: Nat.toDigits 10 r else []) ++ T)) = Q ++ T := by
    rw [← hQ]
    simp only [List.cons_append, List.append_assoc]
  rw [hText]
  by_cases hr0 : r = 0
  -- no revision: the buffer already holds `Q`
  have hr0' : ¬((r : Int) ≠ 0) := by simp [hr0]
  have hQ0 : A ++ ['.'] ++ B = Q := by
    rw [← hQ]
    simp [hr0]
  have hcount : 20 - (A.length + 1) - B.length = 20 - Q.length := by
    rw [← hQ0]
    simp only [List.length_append, List.length_singleton]
    omega
  have hcpos : A.length + 1 + B.length = Q.length := by
    rw [← hQ0]
    simp only [List.length_append, List.length_singleton]
  simp only [hr0', if_false, hcount, hcpos, hQ0]
  rotate_left
  -- a revision: a period and its digits
  have hr0' : (r : Int) ≠ 0 := by omega
  have hQ0 : A ++ ['.'] ++ B ++ ['.'] ++ Nat.toDigits 10 r = Q := by
    rw [← hQ]
    simp [hr0]
  have h3 : (A ++ ['.'] ++ B ++ List.replicate (20 - (A.length + 1) - B.length) '\x00').set
      (A.length + 1 + B.length) '.' =
      A ++ ['.'] ++ B ++ ['.'] ++ List.replicate (20 - (A.length + 1) - B.length - 1) '\x00' :=
    set_fits rfl (by simp only [List.length_append, List.length_singleton]) (by omega) '.'
  have h4 : scnprintf (A ++ ['.'] ++ B ++ ['.'] ++
      List.replicate (20 - (A.length + 1) - B.length - 1) '\x00')
      (A.length + 1 + B.length + 1) (20 - (A.length + 1 + B.length + 1)) (Nat.toDigits 10 r) =
      (Q ++ List.replicate (20 - Q.length) '\x00', (Nat.toDigits 10 r).length) := by
    rw [scnprintf_fits (P := A ++ ['.'] ++ B ++ ['.'])
      (by congr 2; omega) (by simp only [List.length_append, List.length_singleton]) (by omega),
      ← hQ0]
    simp only [List.length_append, List.length_singleton]
    congr 3
    omega
  have hcpos : A.length + 1 + B.length + 1 + (Nat.toDigits 10 r).length = Q.length := by
    rw [← hQ0]
    simp only [List.length_append, List.length_singleton]
  simp only [hr0', ne_eq, not_false_eq_true, if_true, h3, h4, hcpos]
  -- both ways the buffer holds `Q`; then the stage's letter and the level
  all_goals
    by_cases hrel : st = kOSKextVersionStageRelease
    · subst hrel
      have hT0 : T = [] := by
        rw [← hT]
        rfl
      subst hT0
      simp only [stageString_release, Int.lt_irrefl, if_false, ne_eq, not_true_eq_false,
        List.append_nil]
    · have hlt : st.toInt < kOSKextVersionStageRelease.toInt := by
        cases st with
        | kOSKextVersionStageInvalid => exact absurd rfl hf.stage_ne
        | kOSKextVersionStageRelease => exact absurd rfl hrel
        | _ => decide
      obtain ⟨c, hst, -⟩ := stageString_of_lt_release hf.stage_ne hlt
      have hT1 : T = c :: Nat.toDigits 10 l := by
        rw [← hT, hst, if_pos hlt]
        rfl
      subst hT1
      have h5 : strlcat (Q ++ List.replicate (20 - Q.length) '\x00') [c] 20 =
          Q ++ [c] ++ List.replicate (20 - Q.length - 1) '\x00' :=
        strlcat_fits rfl hQnul (by omega) (by simp only [List.length_singleton]; omega)
      have h6 : (vsnprintf (Q ++ [c] ++ List.replicate (20 - Q.length - 1) '\x00') (Q.length + 1)
          (20 - (Q.length + 1)) (Nat.toDigits 10 l)).1 =
          Q ++ c :: Nat.toDigits 10 l ++
            List.replicate (20 - (Q ++ c :: Nat.toDigits 10 l).length) '\x00' := by
        rw [vsnprintf_fits (P := Q ++ [c]) (by rw [Nat.sub_sub]) (by simp) (by omega)]
        simp only [List.length_append, List.length_cons, List.append_assoc, List.singleton_append]
        congr 3
        omega
      simp only [hst, hlt, if_true, ne_eq, List.cons_ne_nil, not_false_eq_true, h5,
        List.length_singleton, h6]

/-! ## What an accepted string gives -/

/-- One more digit keeps a value below the next power of ten. -/
theorem digit_step_lt {v d x k : Nat} (hd : d ≤ 9) (hx : x < (v * 10 + d + 1) * 10 ^ k) :
    x < (v + 1) * 10 ^ (k + 1) :=
  calc x < (v * 10 + d + 1) * 10 ^ k := hx
    _ ≤ (v * 10 + 10) * 10 ^ k := Nat.mul_le_mul_right _ (by omega)
    _ = (v + 1) * 10 ^ (k + 1) := by ring

/-- One round of a field's loop either stops with the value it has, or reads one more digit. -/
theorem scanField_succ_cases {s : List Char} {k v p : Nat} {e : Exit} {x q : Nat}
    (h : scanField s (k + 1) v p = (e, x, q)) :
    x = v ∨ ∃ d ≤ 9, scanField s k (v * 10 + d) (p + 1) = (e, x, q) := by
  simp only [scanField] at h
  by_cases hdig : __vers_isdigit (charAt s p) = true
  · obtain ⟨hend, -, -, hnn, hle, -⟩ := isdigit_spec hdig
    simp only [hend, hdig, Bool.false_eq_true, if_false, if_true, Int.not_lt.mpr hnn] at h
    exact .inr ⟨_, by omega, h⟩
  · simp only [hdig, Bool.false_eq_true, if_false] at h
    left
    split_ifs at h <;> cases h <;> rfl

theorem lt_mul_pow (v k : Nat) : v < (v + 1) * 10 ^ k :=
  calc v < (v + 1) * 1 := by omega
    _ ≤ (v + 1) * 10 ^ k := Nat.mul_le_mul_left _ (Nat.one_le_pow _ _ (by decide))

/-- A field's loop with `k` digits allowed reads a value below `(v + 1) * 10 ^ k`. -/
theorem scanField_lt (s : List Char) :
    ∀ (k v p : Nat) {e : Exit} {x q : Nat}, scanField s k v p = (e, x, q) → x < (v + 1) * 10 ^ k
  | 0, v, p, e, x, q, h => by
    rw [scanField] at h
    cases h
    simp
  | k + 1, v, p, e, x, q, h => by
    rcases scanField_succ_cases h with rfl | ⟨d, hd, h'⟩
    · exact lt_mul_pow x (k + 1)
    · exact digit_step_lt hd (scanField_lt s k _ (p + 1) h')

/-- One round of the stage-level loop: it stops with the value it has, and only after a digit
when that stop is `finish`, or it reads one more digit. -/
theorem scanLevel_succ_cases {s : List Char} {k n v p : Nat} {e : Exit} {x q : Nat}
    (h : scanLevel s (k + 1) n v p = (e, x, q)) :
    x = v ∨ ∃ d ≤ 9, scanLevel s k (n + 1) (v * 10 + d) (p + 1) = (e, x, q) := by
  simp only [scanLevel] at h
  by_cases hdig : __vers_isdigit (charAt s p) = true
  · obtain ⟨hend, -, -, hnn, hle, -⟩ := isdigit_spec hdig
    simp only [hend, hdig, Bool.false_eq_true, if_false, if_true, Int.not_lt.mpr hnn] at h
    exact .inr ⟨_, by omega, h⟩
  · simp only [hdig, Bool.false_eq_true, if_false] at h
    left
    split_ifs at h <;> cases h <;> rfl

/-- The stage-level loop with `k` digits allowed reads a value below `(v + 1) * 10 ^ k`. -/
theorem scanLevel_lt (s : List Char) :
    ∀ (k n v p : Nat) {e : Exit} {x q : Nat}, scanLevel s k n v p = (e, x, q) →
      x < (v + 1) * 10 ^ k
  | 0, n, v, p, e, x, q, h => by
    rw [scanLevel] at h
    cases h
    simp
  | k + 1, n, v, p, e, x, q, h => by
    rcases scanLevel_succ_cases h with rfl | ⟨d, hd, h'⟩
    · exact lt_mul_pow x (k + 1)
    · exact digit_step_lt hd (scanLevel_lt s k _ _ (p + 1) h')

/-- Whitespace or NUL stops the stage-level loop before its last digit: one digit fewer. -/
theorem scanLevel_finish_lt (s : List Char) :
    ∀ (k n v p : Nat) {x q : Nat}, scanLevel s (k + 1) n v p = (.finish, x, q) →
      x < (v + 1) * 10 ^ k
  | k, n, v, p, x, q, h => by
    rcases scanLevel_succ_cases h with rfl | ⟨d, hd, h'⟩
    · exact lt_mul_pow x k
    · cases k with
      | zero =>
        rw [scanLevel] at h'
        cases h'
      | succ k => exact digit_step_lt hd (scanLevel_finish_lt s k _ _ (p + 1) h')

/-- `__OSKextVersionStageForString` away from the end never gives `kOSKextVersionStageRelease`. -/
theorem stageForString_ne_release {s : List Char} {p : Nat} (h : atEnd (charAt s p) = false) :
    (__OSKextVersionStageForString s p).1 ≠ kOSKextVersionStageRelease := by
  unfold __OSKextVersionStageForString
  simp only [h, Bool.false_eq_true, if_false]
  split <;> (try split_ifs) <;> simp

/-- What `release_state:` reaches `finish:` with: the fields it was given, a real stage, and a
level of at most `VERS_STAGE_LEVEL_MAX` that is `0` at release. -/
theorem releaseState_ok {s : List Char} {p vers_major vers_minor vers_revision : Nat} {f : Fields}
    (h : releaseState s p vers_major vers_minor vers_revision = some f) :
    f.vers_major = vers_major ∧ f.vers_minor = vers_minor ∧ f.vers_revision = vers_revision ∧
      f.vers_stage ≠ kOSKextVersionStageInvalid ∧ f.vers_stage_level ≤ 255 ∧
      (f.vers_stage = kOSKextVersionStageRelease → f.vers_stage_level = 0) := by
  unfold releaseState at h
  by_cases hend : atEnd (charAt s p) = true
  · simp only [hend, if_true, Option.some.injEq] at h
    subst h
    simp
  · have hend' : atEnd (charAt s p) = false := by simpa using hend
    have hrel := stageForString_ne_release hend'
    simp only [hend', Bool.false_eq_true, if_false] at h
    generalize __OSKextVersionStageForString s p = sp at h hrel
    obtain ⟨st, p'⟩ := sp
    dsimp only at h hrel
    by_cases hinv : st = kOSKextVersionStageInvalid
    · simp [hinv] at h
    simp only [hinv, if_false] at h
    generalize hlv : scanLevel s VERS_STAGE_LEVEL_DIGITS 0 0 p' = lv at h
    obtain ⟨e, x, q⟩ := lv
    cases e with
    | finish =>
      -- stopped before the third digit: at most two digits
      have hx := scanLevel_finish_lt s 2 0 0 p' hlv
      simp only [Option.some.injEq] at h
      subst h
      exact ⟨rfl, rfl, rfl, hinv, show x ≤ 255 by omega, fun h => absurd h hrel⟩
    | full =>
      simp only [Bool.not_eq_true'] at h
      split_ifs at h with h1 h2
      simp only [Option.some.injEq] at h
      subst h
      refine ⟨rfl, rfl, rfl, hinv, show x ≤ 255 from ?_, fun h => absurd h hrel⟩
      unfold VERS_STAGE_LEVEL_MAX at h2
      omega
    | releaseState => simp at h
    | period => simp at h
    | fail => simp at h

/-- `revision:` reaches `finish:` with a revision of at most four digits. -/
theorem revision_ok {s : List Char} {p vers_major vers_minor : Nat} {f : Fields}
    (h : revision s p vers_major vers_minor = some f) :
    f.vers_major = vers_major ∧ f.vers_minor = vers_minor ∧ f.vers_revision < 10000 ∧
      f.vers_stage ≠ kOSKextVersionStageInvalid ∧ f.vers_stage_level ≤ 255 ∧
      (f.vers_stage = kOSKextVersionStageRelease → f.vers_stage_level = 0) := by
  unfold revision at h
  generalize hsc : scanField s VERS_REVISION_DIGITS 0 p = sc at h
  obtain ⟨e, x, q⟩ := sc
  have hx : x < 10000 := by simpa [VERS_REVISION_DIGITS] using scanField_lt s _ 0 p hsc
  cases e with
  | finish =>
    simp only [Option.some.injEq] at h
    subst h
    exact ⟨rfl, rfl, hx, by simp, by simp, fun _ => rfl⟩
  | releaseState =>
    obtain ⟨h1, h2, h3, h4⟩ := releaseState_ok h
    exact ⟨h1, h2, h3 ▸ hx, h4⟩
  | full =>
    cases htm : tooManyDigits s q with
    | none => simp [htm] at h
    | some q' =>
      simp only [htm, Option.bind_some] at h
      obtain ⟨h1, h2, h3, h4⟩ := releaseState_ok h
      exact ⟨h1, h2, h3 ▸ hx, h4⟩
  | period => simp at h
  | fail => simp at h

/-- `minor_version:` reaches `finish:` with a minor version and a revision of at most four
digits each. -/
theorem minorVersion_ok {s : List Char} {p vers_major : Nat} {f : Fields}
    (h : minorVersion s p vers_major = some f) :
    f.vers_major = vers_major ∧ f.vers_minor < 10000 ∧ f.vers_revision < 10000 ∧
      f.vers_stage ≠ kOSKextVersionStageInvalid ∧ f.vers_stage_level ≤ 255 ∧
      (f.vers_stage = kOSKextVersionStageRelease → f.vers_stage_level = 0) := by
  unfold minorVersion at h
  generalize hsc : scanField s VERS_MINOR_DIGITS 0 p = sc at h
  obtain ⟨e, x, q⟩ := sc
  have hx : x < 10000 := by simpa [VERS_MINOR_DIGITS] using scanField_lt s _ 0 p hsc
  cases e with
  | finish =>
    simp only [Option.some.injEq] at h
    subst h
    exact ⟨rfl, hx, by simp, by simp, by simp, fun _ => rfl⟩
  | releaseState =>
    obtain ⟨h1, h2, h3, h4⟩ := releaseState_ok h
    exact ⟨h1, h2 ▸ hx, h3 ▸ by decide, h4⟩
  | period =>
    obtain ⟨h1, h2, h3, h4⟩ := revision_ok h
    exact ⟨h1, h2 ▸ hx, h3, h4⟩
  | full =>
    cases htm : tooManyDigits s q with
    | none => simp [htm] at h
    | some q' =>
      simp only [htm, Option.bind_some] at h
      obtain ⟨h1, h2, h3, h4⟩ := revision_ok h
      exact ⟨h1, h2 ▸ hx, h3, h4⟩
  | fail => simp at h

theorem digit_for_char_le (c : Char) : __vers_digit_for_char c ≤ 9 := by
  unfold __vers_digit_for_char
  split <;> decide

/-- `OSKextParseVersionString` reaches `finish:` with fields within their digits, a real stage
and a level of at most `VERS_STAGE_LEVEL_MAX` that is `0` at release. -/
theorem parseFields_ok {s : List Char} {f : Fields} (h : parseFields s = some f) :
    f.vers_major < 10000 ∧ f.vers_minor < 10000 ∧ f.vers_revision < 10000 ∧
      f.vers_stage ≠ kOSKextVersionStageInvalid ∧ f.vers_stage_level ≤ 255 ∧
      (f.vers_stage = kOSKextVersionStageRelease → f.vers_stage_level = 0) := by
  unfold parseFields at h
  by_cases hnul : (charAt s 0 == '\x00') = true
  · simp [hnul] at h
  by_cases hneg : __vers_digit_for_char (charAt s 0) < 0
  · simp [hnul, hneg] at h
  simp only [hnul, hneg, Bool.false_eq_true, if_false] at h
  generalize hsc : scanField s (VERS_MAJOR_DIGITS - 1) (__vers_digit_for_char (charAt s 0)).toNat 1 =
    sc at h
  obtain ⟨e, x, q⟩ := sc
  -- the first digit and at most three more
  have hx : x < 10000 := by
    have h1 := scanField_lt s _ _ 1 hsc
    have h2 := digit_for_char_le (charAt s 0)
    simp only [VERS_MAJOR_DIGITS] at h1
    omega
  cases e with
  | finish =>
    simp only [Option.some.injEq] at h
    subst h
    exact ⟨hx, by simp, by simp, by simp, by simp, fun _ => rfl⟩
  | releaseState =>
    obtain ⟨h1, h2, h3, h4⟩ := releaseState_ok h
    exact ⟨h1 ▸ hx, h2 ▸ by decide, h3 ▸ by decide, h4⟩
  | period =>
    obtain ⟨h1, h2⟩ := minorVersion_ok h
    exact ⟨h1 ▸ hx, h2⟩
  | full =>
    cases htm : tooManyDigits s q with
    | none => simp [htm] at h
    | some q' =>
      simp only [htm, Option.bind_some] at h
      obtain ⟨h1, h2⟩ := minorVersion_ok h
      exact ⟨h1 ▸ hx, h2⟩
  | fail => simp at h

/-- An accepted string's fields are valid, and its version is their packing. -/
theorem accepted_valid {s : List Char} (h : 0 < OSKextParseVersionString s) :
    ∃ f, parseFields s = some f ∧ f.Valid ∧ OSKextParseVersionString s = finish f := by
  unfold OSKextParseVersionString at h ⊢
  cases hp : parseFields s with
  | none =>
    rw [hp] at h
    exact absurd h (by decide)
  | some f =>
    rw [hp] at h
    dsimp only at h
    obtain ⟨h1, h2, h3, h4, h5, h6⟩ := parseFields_ok hp
    -- `finish:` rejects a candidate without a level
    have h7 : f.vers_stage = kOSKextVersionStageCandidate → f.vers_stage_level ≠ 0 := by
      intro hc hl
      have hneg : finish f = -1 := by
        unfold finish
        exact if_pos ⟨hc, hl⟩
      rw [hneg] at h
      exact absurd h (by decide)
    exact ⟨f, rfl, ⟨h1, h2, h3, h4, h5, h6, h7⟩, rfl⟩

/-! ## The order of versions -/

/-- The order of the stages: development, alpha, beta, candidate, release. -/
def OSKextVersionStage.rank : OSKextVersionStage → Nat
  | kOSKextVersionStageInvalid => 0
  | kOSKextVersionStageDevelopment => 1
  | kOSKextVersionStageAlpha => 2
  | kOSKextVersionStageBeta => 3
  | kOSKextVersionStageCandidate => 4
  | kOSKextVersionStageRelease => 5

/-- The fields in the order they are compared. -/
def Fields.key (f : Fields) : List Nat :=
  [f.vers_major, f.vers_minor, f.vers_revision, f.vers_stage.rank, f.vers_stage_level]

/-- The stages' values follow their order. -/
theorem toInt_eq_rank {st : OSKextVersionStage} (h : st ≠ kOSKextVersionStageInvalid) :
    st.toInt = 2 * (st.rank : Int) - 1 ∧ 1 ≤ st.rank ∧ st.rank ≤ 5 := by
  cases st with
  | kOSKextVersionStageInvalid => exact absurd rfl h
  | _ => decide

theorem rank_injective {a b : OSKextVersionStage} (h : a.rank = b.rank) : a = b := by
  cases a <;> cases b <;> first | rfl | exact absurd h (by decide)

/-- Packing is strictly monotone for the lexicographic order of valid fields. -/
theorem finish_lt_iff {f g : Fields} (hf : f.Valid) (hg : g.Valid) :
    finish f < finish g ↔ f.key < g.key := by
  rw [finish_of_valid hf, finish_of_valid hg]
  obtain ⟨hsf, hrf, hrf'⟩ := toInt_eq_rank hf.stage_ne
  obtain ⟨hsg, hrg, hrg'⟩ := toInt_eq_rank hg.stage_ne
  have := hf.major_lt; have := hf.minor_lt; have := hf.revision_lt; have := hf.level_le
  have := hg.major_lt; have := hg.minor_lt; have := hg.revision_lt; have := hg.level_le
  -- the key is compared field by field; the packed value digit block by digit block
  simp only [Fields.key, List.cons_lt_cons_iff, List.not_lt_nil, and_false, or_false]
  rw [hsf, hsg]
  unfold VERS_MAJOR_MULT VERS_MINOR_MULT VERS_REVISION_MULT VERS_STAGE_MULT
  omega

/-- The longest print, `"9999.9999.9999d255"`, has 18 characters. -/
theorem versionText_length_lt {f : Fields} (hf : f.Valid) :
    (versionText f).length < kOSKextVersionMaxLength := by
  obtain ⟨M, m, r, st, l⟩ := f
  have hM : (Nat.toDigits 10 M).length ≤ 4 := length_toDigits_le hf.major_lt (by decide)
  have hm : (Nat.toDigits 10 m).length ≤ 4 := length_toDigits_le hf.minor_lt (by decide)
  have hr : (Nat.toDigits 10 r).length ≤ 4 := length_toDigits_le hf.revision_lt (by decide)
  have hl : (Nat.toDigits 10 l).length ≤ 3 :=
    length_toDigits_le (show l < 10 ^ 3 from Nat.lt_of_le_of_lt hf.level_le (by decide)) (by decide)
  have hs : ((__OSKextVersionStringForStage st.toInt).getD []).length ≤ 1 := by
    cases st <;> decide
  simp only [versionText, List.length_append, List.length_cons] at hs ⊢
  unfold kOSKextVersionMaxLength
  split_ifs <;> simp only [List.length_cons, List.length_nil] <;> omega

/-- Every accepted version string is printed in full by `OSKextVersionGetString`, the print
parses back to the same version, and the packed versions compare as the fields do, the stages
ordered development, alpha, beta, candidate, release. -/
theorem version_round_trip_and_order (s₁ s₂ : List Char)
    (h₁ : 0 < OSKextParseVersionString s₁) (h₂ : 0 < OSKextParseVersionString s₂) :
    ∃ f₁ f₂, parseFields s₁ = some f₁ ∧ parseFields s₂ = some f₂ ∧
      (versionText f₁).length < kOSKextVersionMaxLength ∧
      OSKextVersionGetString (OSKextParseVersionString s₁) kOSKextVersionMaxLength =
        some (versionText f₁ ++
          List.replicate (kOSKextVersionMaxLength - (versionText f₁).length) '\x00') ∧
      OSKextParseVersionString (versionText f₁ ++
          List.replicate (kOSKextVersionMaxLength - (versionText f₁).length) '\x00') =
        OSKextParseVersionString s₁ ∧
      (OSKextParseVersionString s₁ < OSKextParseVersionString s₂ ↔ f₁.key < f₂.key) := by
  obtain ⟨f₁, hp₁, hv₁, he₁⟩ := accepted_valid h₁
  obtain ⟨f₂, hp₂, hv₂, he₂⟩ := accepted_valid h₂
  refine ⟨f₁, f₂, hp₁, hp₂, versionText_length_lt hv₁, ?_, ?_, ?_⟩
  · rw [he₁]
    exact getString_finish hv₁
  · rw [he₁, OSKextParseVersionString, parseFields_versionText hv₁]
  · rw [he₁, he₂]
    exact finish_lt_iff hv₁ hv₂

/-- `1.2.3b4` prints back as itself and comes before the release `1.2.3`. -/
theorem beta_four_round_trip_before_release :
    OSKextVersionGetString (OSKextParseVersionString "1.2.3b4".toList) kOSKextVersionMaxLength =
        some ("1.2.3b4".toList ++ List.replicate 13 '\x00') ∧
      OSKextParseVersionString "1.2.3b4".toList < OSKextParseVersionString "1.2.3".toList := by
  obtain ⟨f₁, f₂, hp₁, hp₂, -, hget, -, hlt⟩ :=
    version_round_trip_and_order "1.2.3b4".toList "1.2.3".toList (by decide) (by decide)
  have hf₁ : f₁ = ⟨1, 2, 3, kOSKextVersionStageBeta, 4⟩ :=
    Option.some.inj (hp₁.symm.trans (by decide))
  have hf₂ : f₂ = ⟨1, 2, 3, kOSKextVersionStageRelease, 0⟩ :=
    Option.some.inj (hp₂.symm.trans (by decide))
  subst hf₁ hf₂
  exact ⟨hget.trans (by decide), hlt.mpr (by decide)⟩

example : OSKextParseVersionString "1.2.3b4".toList = 1000200035004 := by decide

example : OSKextVersionGetString 1000200035004 20 =
    some ("1.2.3b4".toList ++ List.replicate 13 '\x00') := by decide

end Libkern.KextVersion
