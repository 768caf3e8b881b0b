import Darwin.Lib.Runs
import Mathlib.Data.List.Infix
import Mathlib.Data.List.GetD

/-!
# `inet_ntop`: addresses printed (`libkern/net/inet_ntop.c`)

| here | source |
|---|---|
| `inet_ntop` | `inet_ntop` (`:44-56`) |
| `inet_ntop4` | `inet_ntop4` (`:69-80`) |
| `toWords`, `scanLoop`, `findBest` | `inet_ntop6`, preprocessing (`:106-144`) |
| `formatLoop` | `inet_ntop6`, the format loop (`:146-172`) |
| `inet_ntop6` | `inet_ntop6` (`:88-190`) |
| `strlcpy`, `Tmp.scnprintf` | `strlcpy` (`osfmk/device/subrs.c:523-549`), `scnprintf` (`bsd/kern/subr_prf.c:467-503`) |

Each call is modelled with what it returns and with the index of every byte it writes to its
own `tmp` and to `dst` (`Ntop`), so that the bounds of those writes can be stated. `tmp` is only
ever written at `tp` and just after it, so it is kept as the text in `tmp[0, tp)` (`Tmp`); the
NUL that `scnprintf` leaves after each word is in the write log and is overwritten by the next
write.

The specification (`presentation`) prints the address's eight 16-bit words in hex with colons,
the first of its longest runs of two or more zero words replaced by `::`, and the last four
bytes as a dotted quad for `::a.b.c.d` and `::ffff:a.b.c.d`. The source's third IPv4 case,
`best.len == 7 && words[7] != 0x0001`, asks for word 6 to be printed while a run of seven from 0
covers it, and is never taken (`formatLoop_run`).
-/

namespace Libkern.Inet

/-! ## The model -/

def AF_INET : Nat := 2
def AF_INET6 : Nat := 30
def NS_IN6ADDRSZ : Nat := 16
def NS_INT16SZ : Nat := 2

/-- `sizeof "255.255.255.255"`, the buffer `inet_ntop4` formats into. -/
def sizeof_tmp4 : Nat := 16

/-- `sizeof "ffff:ffff:ffff:ffff:ffff:ffff:255.255.255.255"`, the buffer of `inet_ntop6`. -/
def sizeof_tmp6 : Nat := 46

/-- What a call leaves: the pointer it returns (`dst`, then holding this C string, or `NULL`),
and the index of every byte it wrote to its own `tmp` and to `dst`. -/
structure Ntop where
  ret : Option (List Char)
  tmp_writes : List Nat
  dst_writes : List Nat

/-- The bytes `strlcpy(dst, src, siz)` writes from `dst` on: at most `siz - 1` characters of
`src` and a NUL, nothing when `siz` is zero. -/
def strlcpy (src : List Char) (siz : Nat) : List Char :=
  if siz = 0 then [] else src.take (siz - 1) ++ ['\x00']

/-- `"%u.%u.%u.%u"` of `src[0, 4)`. -/
def fmtQuad (src : List UInt8) : List Char :=
  Nat.toDigits 10 (src.getD 0 0).toNat ++ '.' :: (Nat.toDigits 10 (src.getD 1 0).toNat ++
    '.' :: (Nat.toDigits 10 (src.getD 2 0).toNat ++ '.' :: Nat.toDigits 10 (src.getD 3 0).toNat))

/-- **`inet_ntop4`** (`:69-80`): `snprintf` into `tmp[16]` keeps at most 15 characters and a NUL
and returns the full length `l`; `NULL` unless `0 < l < size`, else `strlcpy(dst, tmp, size)`. -/
def inet_ntop4 (src : List UInt8) (size : Nat) : Ntop :=
  let tmp := (fmtQuad src).take (sizeof_tmp4 - 1)
  let tmp_writes := List.range (tmp.length + 1)
  let l := (fmtQuad src).length
  if l = 0 ∨ l ≥ size then ⟨none, tmp_writes, []⟩
  else ⟨some (tmp.take (size - 1)), tmp_writes, List.range (strlcpy tmp size).length⟩

/-- `tmp[0, tp)` of `inet_ntop6`'s buffer, and the index of every write into `tmp` so far. -/
structure Tmp where
  text : List Char
  writes : List Nat

/-- `*tp++ = c`. -/
def Tmp.putc (t : Tmp) (c : Char) : Tmp := ⟨t.text ++ [c], t.writes ++ [t.text.length]⟩

/-- `tp += scnprintf(tp, sizeof(tmp), "%x", ...)` of the digits `s`: at most `sizeof(tmp) - 1`
characters and a NUL written from `tp`, and `tp` moved past the characters. -/
def Tmp.scnprintf (t : Tmp) (s : List Char) : Tmp :=
  let k := min s.length (sizeof_tmp6 - 1)
  ⟨t.text ++ s.take k, t.writes ++ List.range' t.text.length (k + 1)⟩

/-- `words[i / 2] |= (src[i] << ((1 - (i % 2)) << 3))` for `i < 16` (`:111-114`), on words that
`memset` cleared. -/
def toWords (src : List UInt8) : List Nat :=
  (List.range NS_IN6ADDRSZ).foldl
    (fun words i => words.modify (i / 2) (· ||| (src.getD i 0).toNat <<< ((1 - i % 2) <<< 3)))
    (List.replicate (NS_IN6ADDRSZ / NS_INT16SZ) 0)

/-- `struct { int base, len; }`: a run of zero words, `base = -1` for none. -/
structure Run where
  base : Int
  len : Int
  deriving DecidableEq, Repr

/-- The body of the scan loop (`:120-134`) at word `i`. -/
def scanStep (best cur : Run) (i : Nat) (w : Nat) : Run × Run :=
  if w = 0 then
    if cur.base = -1 then (best, ⟨i, 1⟩) else (best, { cur with len := cur.len + 1 })
  else if cur.base ≠ -1 then
    (if best.base = -1 ∨ cur.len > best.len then cur else best, { cur with base := -1 })
  else (best, cur)

/-- The scan loop (`:119-135`) from word `i` on. -/
def scanLoop : List Nat → Nat → Run → Run → Run × Run
  | [], _, best, cur => (best, cur)
  | w :: ws, i, best, cur =>
    let (best, cur) := scanStep best cur i w
    scanLoop ws (i + 1) best cur

/-- The run `::` replaces (`:115-144`): the scan, the run still open at its end, and no run
shorter than two. -/
def findBest (words : List Nat) : Run :=
  let (best, cur) := scanLoop words 0 ⟨-1, 0⟩ ⟨-1, 0⟩
  let best := if cur.base ≠ -1 ∧ (best.base = -1 ∨ cur.len > best.len) then cur else best
  if best.base ≠ -1 ∧ best.len < 2 then { best with base := -1 } else best

/-- Word `i` lies in the best run of zero words (`:151-152`). -/
def Run.Covers (best : Run) (i : Nat) : Prop :=
  best.base ≠ -1 ∧ (i : Int) ≥ best.base ∧ (i : Int) < best.base + best.len

instance (best : Run) (i : Nat) : Decidable (best.Covers i) :=
  inferInstanceAs (Decidable (_ ∧ _ ∧ _))

/-- The test for an encapsulated IPv4 address (`:161-163`). -/
def Encapsulated (words : List Nat) (best : Run) (i : Nat) : Prop :=
  i = 6 ∧ best.base = 0 ∧ (best.len = 6 ∨ (best.len = 7 ∧ words.getD 7 0 ≠ 0x0001) ∨
    (best.len = 5 ∧ words.getD 5 0 = 0xffff))

instance (words : List Nat) (best : Run) (i : Nat) : Decidable (Encapsulated words best i) :=
  inferInstanceAs (Decidable (_ ∧ _ ∧ _))

/-- The format loop (`:149-172`) from word `i` on, `fuel` words left; `.error` when the nested
`inet_ntop4` returns `NULL`. -/
def formatLoop (src : List UInt8) (words : List Nat) (best : Run) :
    Nat → Nat → Tmp → Except Tmp Tmp
  | 0, _, t => .ok t
  | fuel + 1, i, t =>
    -- inside the best run of zero words: one `:` at its start
    if best.Covers i then
      formatLoop src words best fuel (i + 1) (if (i : Int) = best.base then t.putc ':' else t)
    else
      let t := if i ≠ 0 then t.putc ':' else t
      if Encapsulated words best i then
        -- `inet_ntop4(src + 12, tp, sizeof tmp - (tp - tmp))`, then `tp += strlen(tp)` and `break`
        match inet_ntop4 (src.drop 12) (sizeof_tmp6 - t.text.length) with
        | ⟨some s, _, w⟩ => .ok ⟨t.text ++ s, t.writes ++ w.map (t.text.length + ·)⟩
        | ⟨none, _, _⟩ => .error t
      else formatLoop src words best fuel (i + 1) (t.scnprintf (Nat.toDigits 16 (words.getD i 0)))

/-- **`inet_ntop6`** (`:88-190`). -/
def inet_ntop6 (src : List UInt8) (size : Nat) : Ntop :=
  let words := toWords src
  let best := findBest words
  match formatLoop src words best (NS_IN6ADDRSZ / NS_INT16SZ) 0 ⟨[], []⟩ with
  | .error t => ⟨none, t.writes, []⟩
  | .ok t =>
    -- a trailing run: its second `:`
    let t := if best.base ≠ -1 ∧ best.base + best.len = 8 then t.putc ':' else t
    let t := t.putc '\x00'
    if t.text.length > size then ⟨none, t.writes, []⟩
    else
      let s := t.text.dropLast
      ⟨some (s.take (size - 1)), t.writes, List.range (strlcpy s size).length⟩

/-- **`inet_ntop`** (`:44-56`). -/
def inet_ntop (af : Nat) (src : List UInt8) (size : Nat) : Ntop :=
  if af = AF_INET then inet_ntop4 src size
  else if af = AF_INET6 then inet_ntop6 src size
  else ⟨none, [], []⟩

/-! ## The words -/

/-- The address as eight 16-bit words in network byte order. -/
def addrWords (src : List UInt8) : List Nat :=
  (List.range 8).map fun k => (src.getD (2 * k) 0).toNat * 256 + (src.getD (2 * k + 1) 0).toNat

theorem shiftLeft_or_byte (x : Nat) (y : UInt8) : x <<< 8 ||| y.toNat = x * 256 + y.toNat := by
  rw [← Nat.shiftLeft_add_eq_or_of_lt (by have := y.toNat_lt; omega), Nat.shiftLeft_eq]

theorem toWords_eq (src : List UInt8) : toWords src = addrWords src := by
  -- the sixteen rounds of the loop, each on a known word
  simp only [toWords, addrWords, NS_IN6ADDRSZ, NS_INT16SZ, List.range_succ, List.range_zero,
    List.nil_append, List.foldl_append, List.foldl_cons, List.foldl_nil]
  simp [List.modify, List.replicate, shiftLeft_or_byte]

theorem length_addrWords (src : List UInt8) : (addrWords src).length = 8 := by
  simp [addrWords]

theorem addrWords_lt (src : List UInt8) : ∀ w ∈ addrWords src, w < 65536 := by
  simp only [addrWords, List.mem_map, List.mem_range]
  rintro w ⟨k, -, rfl⟩
  have := (src.getD (2 * k) 0).toNat_lt
  have := (src.getD (2 * k + 1) 0).toNat_lt
  omega

/-! ## The run of zero words -/

/-- `r` is the scan's record of the run `o`, `base = -1` for none. -/
def Run.Rep (r : Run) : Option (Nat × Nat) → Prop
  | none => r.base = -1
  | some (b, l) => r.base = b ∧ r.len = l

/-- What the scan knows after `i` words: `cur` records the run of `k` zeros that ends at `i`, and
`best` the first longest run before it. -/
def ScanInv (ws : List Nat) (i : Nat) (best cur : Run) : Prop :=
  ∃ k o, Runs.EndsAt 0 ws i k ∧ best.Rep o ∧ Runs.FirstLongestIn 0 ws (i - k) o ∧
    (k = 0 ∧ cur.base = -1 ∨ 0 < k ∧ cur.base = ↑(i - k) ∧ cur.len = k)

/-- The source's choice between the best run and the open one is `Runs.pick`. -/
theorem Run.Rep.pick {best cur : Run} {o : Option (Nat × Nat)} {b l : Nat} (h : best.Rep o)
    (hb : cur.base = b) (hl : cur.len = l) :
    (if best.base = -1 ∨ cur.len > best.len then cur else best).Rep (Runs.pick o b l) := by
  match o, h with
  | none, h =>
    rw [if_pos (.inl h)]
    exact ⟨hb, hl⟩
  | some (b', l'), ⟨h1, h2⟩ =>
    simp only [Runs.pick, h1, h2, hl]
    by_cases hlt : l' < l
    · rw [if_pos (.inr (by omega)), if_pos hlt]
      exact ⟨hb, hl⟩
    · rw [if_neg (by omega), if_neg hlt]
      exact ⟨h1, h2⟩

theorem scanInv_zero (ws : List Nat) : ScanInv ws 0 ⟨-1, 0⟩ ⟨-1, 0⟩ :=
  ⟨0, none, Runs.endsAt_zero, rfl, Runs.firstLongestIn_zero, .inl ⟨rfl, rfl⟩⟩

/-- One round of the scan loop keeps what the scan knows. -/
theorem scanInv_step {ws : List Nat} {i w : Nat} {best cur : Run} (h : ScanInv ws i best cur)
    (hw : ws[i]? = some w) :
    ScanInv ws (i + 1) (scanStep best cur i w).1 (scanStep best cur i w).2 := by
  obtain ⟨k, o, he, hrep, hbest, hcur⟩ := h
  unfold scanStep
  by_cases h0 : w = 0
  · -- one more zero: the open run grows, the best stays
    subst h0
    have he' := he.succ hw
    have hi : i + 1 - (k + 1) = i - k := by omega
    rcases hcur with ⟨rfl, hc⟩ | ⟨hk, hc, hl⟩
    · rw [if_pos rfl, if_pos hc]
      exact ⟨1, o, he', hrep, by rwa [hi], .inr ⟨by omega, by push_cast; omega, rfl⟩⟩
    · rw [if_pos rfl, if_neg (by omega)]
      exact ⟨k + 1, o, he', hrep, by rwa [hi], .inr ⟨by omega, by push_cast; omega,
        show cur.len + 1 = _ by omega⟩⟩
  · have hx : ws[i]? ≠ some 0 := by rw [hw]; simpa using h0
    rw [if_neg h0]
    rcases hcur with ⟨rfl, hc⟩ | ⟨hk, hc, hl⟩
    · -- no run open: nothing changes
      rw [if_neg (by simpa using hc)]
      exact ⟨0, o, Runs.endsAt_of_ne hx, hrep, hbest.skip hx, .inl ⟨rfl, hc⟩⟩
    · -- the open run closes
      rw [if_pos (by omega)]
      exact ⟨0, Runs.pick o (i - k) k, Runs.endsAt_of_ne hx, hrep.pick hc hl,
        hbest.close he hk hx, .inl ⟨rfl, rfl⟩⟩

/-- The scan loop over the words from `i` on ends knowing the whole list. -/
theorem scanInv_loop {ws : List Nat} :
    ∀ (rest : List Nat) (i : Nat) (best cur : Run), ScanInv ws i best cur → ws.drop i = rest →
      i ≤ ws.length → ScanInv ws ws.length (scanLoop rest i best cur).1 (scanLoop rest i best cur).2
  | [], i, best, cur, h, hd, hi => by
    rw [List.drop_eq_nil_iff] at hd
    rw [show ws.length = i by omega]
    exact h
  | w :: rest, i, best, cur, h, hd, hi => by
    have hw : ws[i]? = some w := by
      rw [← Nat.add_zero i, ← List.getElem?_drop, hd]
      rfl
    have hd' : ws.drop (i + 1) = rest := by
      rw [← List.drop_drop, hd]
      rfl
    have hi' : i + 1 ≤ ws.length := by
      have := (List.getElem?_eq_some_iff.mp hw).1
      omega
    exact scanInv_loop rest (i + 1) _ _ (scanInv_step h hw) hd' hi'

/-- After the loop, the run still open closes against the end of the list. -/
theorem scanInv_merge {ws : List Nat} {best cur : Run} (h : ScanInv ws ws.length best cur) :
    ∃ o n, ws.length ≤ n ∧ Runs.FirstLongestIn 0 ws n o ∧
      (if cur.base ≠ -1 ∧ (best.base = -1 ∨ cur.len > best.len) then cur else best).Rep o := by
  obtain ⟨k, o, he, hrep, hbest, hcur⟩ := h
  have hx : ws[ws.length]? ≠ some 0 := by simp
  rcases hcur with ⟨rfl, hc⟩ | ⟨hk, hc, hl⟩
  · rw [if_neg (fun h => h.1 hc)]
    exact ⟨o, ws.length, by omega, hbest, hrep⟩
  · refine ⟨Runs.pick o (ws.length - k) k, ws.length + 1, by omega, hbest.close he hk hx, ?_⟩
    have hpick := hrep.pick hc hl
    by_cases hsel : best.base = -1 ∨ cur.len > best.len
    · rw [if_pos ⟨by omega, hsel⟩]
      rwa [if_pos hsel] at hpick
    · rw [if_neg (fun h => hsel h.2)]
      rwa [if_neg hsel] at hpick

/-- The last test of the preprocessing: a best run shorter than two is dropped. -/
theorem threshold_spec {ws : List Nat} {r : Run} {o : Option (Nat × Nat)} {n : Nat}
    (hn : ws.length ≤ n) (hbest : Runs.FirstLongestIn 0 ws n o) (hr : r.Rep o) :
    let r' := if r.base ≠ -1 ∧ r.len < 2 then { r with base := -1 } else r
    (r'.base = -1 ∧ ∀ b l, Runs.IsRun 0 ws b l → l < 2) ∨
      ∃ b l : Nat, r'.base = b ∧ r'.len = l ∧ 2 ≤ l ∧ Runs.FirstLongest 0 ws b l := by
  intro r'
  match o, hr, hbest with
  | none, hr, hbest =>
    have hr' : r' = r := if_neg (fun h => h.1 hr)
    exact .inl ⟨by rw [hr']; exact hr, fun b l hrun => (hbest.no_run hn hrun).elim⟩
  | some (b, l), ⟨h1, h2⟩, hbest =>
    have hfl := hbest.firstLongest hn
    by_cases hl2 : l < 2
    · have hr' : r' = { r with base := -1 } := if_pos ⟨by omega, by omega⟩
      refine .inl ⟨by rw [hr'], fun b' l' hrun => ?_⟩
      rcases hfl.2 b' l' hrun with h3 | ⟨h3, -⟩ <;> omega
    · have hr' : r' = r := if_neg (by omega)
      rw [hr']
      exact .inr ⟨b, l, h1, h2, by omega, hfl⟩

/-- What `findBest` finds: no run of two or more zero words, or the first of the longest. -/
theorem findBest_spec (ws : List Nat) :
    ((findBest ws).base = -1 ∧ ∀ b l, Runs.IsRun 0 ws b l → l < 2) ∨
      ∃ b l : Nat, (findBest ws).base = b ∧ (findBest ws).len = l ∧ 2 ≤ l ∧
        Runs.FirstLongest 0 ws b l := by
  have hscan := scanInv_loop ws 0 ⟨-1, 0⟩ ⟨-1, 0⟩ (scanInv_zero ws) rfl (Nat.zero_le _)
  obtain ⟨o, n, hn, hbest, hrep⟩ := scanInv_merge hscan
  exact threshold_spec hn hbest hrep

/-! ## The text -/

/-- Words in hex, separated by colons. -/
def hexGroups (ws : List Nat) : List Char := [':'].intercalate (ws.map (Nat.toDigits 16))

/-- Words in hex, each after a colon. -/
def colonGroups (ws : List Nat) : List Char := ws.flatMap fun w => ':' :: Nat.toDigits 16 w

/-- What `inet_ntop6` prints for the words `ws` of `src` and the run of zero words that `::`
replaces, if any: the words before the run, `::`, and the words after it, or the last four
bytes as a dotted quad for `::a.b.c.d` and `::ffff:a.b.c.d`. -/
def presentation (src : List UInt8) (ws : List Nat) : Option (Nat × Nat) → List Char
  | none => hexGroups ws
  | some (b, l) =>
    hexGroups (ws.take b) ++ ':' :: ':' ::
      (if b = 0 ∧ l = 6 then fmtQuad (src.drop 12)
      else if b = 0 ∧ l = 5 ∧ ws.getD 5 0 = 0xffff then ['f', 'f', 'f', 'f', ':'] ++ fmtQuad (src.drop 12)
      else hexGroups (ws.drop (b + l)))

theorem hexGroups_nil : hexGroups [] = [] := rfl

theorem colonGroups_nil : colonGroups [] = [] := rfl

theorem colonGroups_cons (w : Nat) (ws : List Nat) :
    colonGroups (w :: ws) = ':' :: (Nat.toDigits 16 w ++ colonGroups ws) := rfl

theorem colonGroups_append (ws ws' : List Nat) :
    colonGroups (ws ++ ws') = colonGroups ws ++ colonGroups ws' := List.flatMap_append

theorem hexGroups_cons (w : Nat) (ws : List Nat) :
    hexGroups (w :: ws) = Nat.toDigits 16 w ++ colonGroups ws := by
  induction ws generalizing w with
  | nil => simp [hexGroups, colonGroups_nil]
  | cons w' ws ih =>
    have := ih w'
    simp only [hexGroups, List.map_cons, List.intercalate_cons_cons] at this ⊢
    rw [this, colonGroups_cons, List.append_assoc, List.singleton_append]

/-- After the first word, the words in hex each after a colon. -/
theorem colonGroups_eq_cons_hexGroups {ws : List Nat} (h : ws ≠ []) :
    colonGroups ws = ':' :: hexGroups ws := by
  obtain ⟨w, ws, rfl⟩ := List.exists_cons_of_ne_nil h
  rw [colonGroups_cons, hexGroups_cons]

theorem length_toDigits_hex {w : Nat} (hw : w < 65536) : (Nat.toDigits 16 w).length ≤ 4 :=
  (Nat.length_toDigits_le_iff (by decide) (by decide)).mpr hw

theorem length_toDigits_byte (b : UInt8) : (Nat.toDigits 10 b.toNat).length ≤ 3 :=
  (Nat.length_toDigits_le_iff (by decide) (by decide)).mpr (by have := b.toNat_lt; omega)

theorem length_fmtQuad (src : List UInt8) :
    7 ≤ (fmtQuad src).length ∧ (fmtQuad src).length ≤ 15 := by
  have h0 := length_toDigits_byte (src.getD 0 0)
  have h1 := length_toDigits_byte (src.getD 1 0)
  have h2 := length_toDigits_byte (src.getD 2 0)
  have h3 := length_toDigits_byte (src.getD 3 0)
  have p0 := @Nat.length_toDigits_pos 10 (src.getD 0 0).toNat
  have p1 := @Nat.length_toDigits_pos 10 (src.getD 1 0).toNat
  have p2 := @Nat.length_toDigits_pos 10 (src.getD 2 0).toNat
  have p3 := @Nat.length_toDigits_pos 10 (src.getD 3 0).toNat
  simp only [fmtQuad, List.length_append, List.length_cons]
  omega

/-- The digits of a number in base `b` are `Nat.digitChar` of numbers below `b`. -/
theorem mem_toDigits {b n : Nat} (hb : 1 < b) :
    ∀ c ∈ Nat.toDigits b n, ∃ d < b, c = Nat.digitChar d := by
  induction n using Nat.strongRecOn with
  | _ n ih =>
    rw [Nat.toDigits_eq_if hb]
    split_ifs with h
    · simp only [List.mem_singleton]
      rintro c rfl
      exact ⟨n, h, rfl⟩
    · intro c hc
      rcases List.mem_append.mp hc with hc | hc
      · exact ih (n / b) (Nat.div_lt_self (by omega) hb) c hc
      · exact ⟨n % b, Nat.mod_lt _ (by omega), List.mem_singleton.mp hc⟩

theorem colon_not_mem_toDigits_hex (n : Nat) : ':' ∉ Nat.toDigits 16 n := by
  intro hc
  obtain ⟨d, hd, hcd⟩ := mem_toDigits (by decide) ':' hc
  have hne : ∀ d, d < 16 → Nat.digitChar d ≠ ':' := by decide
  exact hne d hd hcd.symm

theorem length_hexGroups_le {ws : List Nat} (hw : ∀ w ∈ ws, w < 65536) :
    (colonGroups ws).length ≤ 5 * ws.length ∧ (hexGroups ws).length ≤ 5 * ws.length := by
  induction ws with
  | nil => simp [colonGroups_nil, hexGroups]
  | cons w ws ih =>
    have hw' := length_toDigits_hex (hw w List.mem_cons_self)
    obtain ⟨ih1, -⟩ := ih (fun w' hw'' => hw w' (List.mem_cons_of_mem w hw''))
    rw [colonGroups_cons, hexGroups_cons]
    simp only [List.length_cons, List.length_append]
    omega

/-! ## `::` -/

/-- A text without colons adds no `::`. -/
theorem infix_colons_append {A B : List Char} (hA : ':' ∉ A) :
    [':', ':'] <:+: A ++ B ↔ [':', ':'] <:+: B := by
  induction A with
  | nil => rfl
  | cons c A ih =>
    have hc : c ≠ ':' := fun h => hA (h ▸ List.mem_cons_self)
    rw [List.cons_append, List.infix_cons_iff, List.cons_prefix_cons,
      ih (fun h => hA (List.mem_cons_of_mem c h))]
    exact ⟨fun h => h.elim (fun h' => absurd h'.1.symm hc) id, .inr⟩

/-- Words printed in full never show `::`. -/
theorem not_infix_hexGroups (ws : List Nat) : ¬[':', ':'] <:+: hexGroups ws := by
  induction ws with
  | nil => exact fun h => by simpa [hexGroups] using h.length_le
  | cons w ws ih =>
    rw [hexGroups_cons, infix_colons_append (colon_not_mem_toDigits_hex w)]
    cases ws with
    | nil => exact fun h => by simpa [colonGroups_nil] using h.length_le
    | cons w' ws' =>
      rw [colonGroups_eq_cons_hexGroups (List.cons_ne_nil w' ws'), List.infix_cons_iff,
        List.cons_prefix_cons]
      rintro (⟨-, hp⟩ | h)
      · -- the words after the colon start with a digit
        obtain ⟨d, ds, hd⟩ := List.exists_cons_of_ne_nil (@Nat.toDigits_ne_nil w' 16)
        rw [hexGroups_cons, hd, List.cons_append, List.cons_prefix_cons] at hp
        exact colon_not_mem_toDigits_hex w' (by rw [hd, hp.1]; exact List.mem_cons_self)
      · exact ih h

/-! ## `inet_ntop4` -/

/-- The dotted quad fits: it is copied whole, and `snprintf` kept it whole. -/
theorem inet_ntop4_of_lt {src : List UInt8} {size : Nat} (h : (fmtQuad src).length < size) :
    inet_ntop4 src size = ⟨some (fmtQuad src), List.range ((fmtQuad src).length + 1),
      List.range ((fmtQuad src).length + 1)⟩ := by
  have hq := length_fmtQuad src
  have htmp : (fmtQuad src).take (sizeof_tmp4 - 1) = fmtQuad src :=
    List.take_of_length_le (by unfold sizeof_tmp4; omega)
  have hcopy : (fmtQuad src).take (size - 1) = fmtQuad src := List.take_of_length_le (by omega)
  simp only [inet_ntop4, htmp, hcopy, strlcpy, if_neg (show ¬((fmtQuad src).length = 0 ∨
    (fmtQuad src).length ≥ size) by omega), if_neg (show size ≠ 0 by omega),
    List.length_append, List.length_singleton]

/-- It does not fit: `NULL`, and nothing written to `dst`. -/
theorem inet_ntop4_of_ge {src : List UInt8} {size : Nat} (h : size ≤ (fmtQuad src).length) :
    (inet_ntop4 src size).ret = none ∧ (inet_ntop4 src size).dst_writes = [] := by
  simp only [inet_ntop4, if_pos (show (fmtQuad src).length = 0 ∨ (fmtQuad src).length ≥ size
    from .inr h), and_self]

/-- `inet_ntop4` writes inside its `tmp`. -/
theorem inet_ntop4_tmp_writes (src : List UInt8) (size : Nat) :
    ∀ j ∈ (inet_ntop4 src size).tmp_writes, j < sizeof_tmp4 := by
  have htmp : ((fmtQuad src).take (sizeof_tmp4 - 1)).length ≤ sizeof_tmp4 - 1 :=
    List.length_take_le _ _
  intro j hj
  unfold inet_ntop4 at hj
  dsimp only at hj
  split_ifs at hj <;>
  · simp only [List.mem_range] at hj
    unfold sizeof_tmp4 at htmp hj ⊢
    omega

/-! ## The format loop -/

/-- Every write into `tmp` so far was at `tp` or before it. -/
def Tmp.Within (t : Tmp) : Prop := ∀ j ∈ t.writes, j ≤ t.text.length

theorem Tmp.Within.putc {t : Tmp} (h : t.Within) (c : Char) : (t.putc c).Within := by
  intro j hj
  simp only [Tmp.putc, List.mem_append, List.mem_singleton, List.length_append,
    List.length_singleton] at hj ⊢
  rcases hj with hj | rfl
  · have := h j hj
    omega
  · omega

theorem Tmp.Within.scnprintf {t : Tmp} (h : t.Within) (s : List Char) : (t.scnprintf s).Within := by
  intro j hj
  simp only [Tmp.scnprintf, List.mem_append, List.mem_range'_1, List.length_append,
    List.length_take] at hj ⊢
  rcases hj with hj | ⟨-, hj⟩
  · have := h j hj
    omega
  · omega

theorem Tmp.scnprintf_text (t : Tmp) {s : List Char} (hs : s.length ≤ 4) :
    (t.scnprintf s).text = t.text ++ s := by
  simp only [Tmp.scnprintf, sizeof_tmp6]
  rw [List.take_of_length_le (by omega)]

section Format

variable {src : List UInt8} {ws : List Nat} {best : Run}

theorem formatLoop_covered {fuel i : Nat} {t : Tmp} (hc : best.Covers i) :
    formatLoop src ws best (fuel + 1) i t =
      formatLoop src ws best fuel (i + 1) (if (i : Int) = best.base then t.putc ':' else t) := by
  rw [formatLoop, if_pos hc]

theorem formatLoop_word {fuel i : Nat} {t : Tmp} (hc : ¬best.Covers i)
    (he : ¬Encapsulated ws best i) :
    formatLoop src ws best (fuel + 1) i t = formatLoop src ws best fuel (i + 1)
      ((if i ≠ 0 then t.putc ':' else t).scnprintf (Nat.toDigits 16 (ws.getD i 0))) := by
  rw [formatLoop, if_neg hc]
  dsimp only
  rw [if_neg he]

theorem formatLoop_encapsulated {fuel i : Nat} {t : Tmp} (hc : ¬best.Covers i)
    (he : Encapsulated ws best i)
    (hfit : (fmtQuad (src.drop 12)).length < sizeof_tmp6 - (t.putc ':').text.length) :
    formatLoop src ws best (fuel + 1) i t =
      .ok ⟨(t.putc ':').text ++ fmtQuad (src.drop 12), (t.putc ':').writes ++
        (List.range ((fmtQuad (src.drop 12)).length + 1)).map ((t.putc ':').text.length + ·)⟩ := by
  have hi : i ≠ 0 := by rw [he.1]; decide
  rw [formatLoop, if_neg hc]
  dsimp only
  rw [if_pos hi, if_pos he, inet_ntop4_of_lt hfit]

/-- Words printed in full, each after a colon. -/
theorem formatLoop_plain (m : Nat) : ∀ (i fuel : Nat) (t : Tmp), 0 < i → i + m ≤ ws.length →
    (∀ j, i ≤ j → j < i + m → ¬best.Covers j ∧ ¬Encapsulated ws best j ∧ ws.getD j 0 < 65536) →
    ∃ t', formatLoop src ws best (m + fuel) i t = formatLoop src ws best fuel (i + m) t' ∧
      t'.text = t.text ++ colonGroups ((ws.drop i).take m) ∧ (t.Within → t'.Within) := by
  induction m with
  | zero =>
    intro i fuel t _ _ _
    exact ⟨t, by rw [Nat.zero_add, Nat.add_zero], by simp [colonGroups_nil], id⟩
  | succ m ih =>
    intro i fuel t hi hm hplain
    obtain ⟨hc, he, hw⟩ := hplain i (Nat.le_refl i) (by omega)
    -- word `i`: a colon, then its digits
    have hstep := @formatLoop_word src ws best (m + fuel) i t hc he
    rw [if_pos (by omega)] at hstep
    obtain ⟨t', hrun, htext, hwithin⟩ := ih (i + 1) fuel _ (by omega) (by omega)
      (fun j hj hj' => hplain j (by omega) (by omega))
    refine ⟨t', by rw [show m + 1 + fuel = m + fuel + 1 by omega, hstep, hrun,
      show i + 1 + m = i + (m + 1) by omega], ?_, fun h => hwithin ((h.putc ':').scnprintf _)⟩
    have hdrop : ws.drop i = ws.getD i 0 :: ws.drop (i + 1) := by
      rw [List.getD_eq_getElem _ _ (by omega)]
      exact List.drop_eq_getElem_cons (by omega)
    rw [htext, Tmp.scnprintf_text _ (length_toDigits_hex hw), hdrop, List.take_succ_cons,
      colonGroups_cons]
    simp [Tmp.putc]

/-- Words inside the run after its first: nothing printed. -/
theorem formatLoop_inside (m : Nat) : ∀ (i fuel : Nat) (t : Tmp),
    (∀ j, i ≤ j → j < i + m → best.Covers j ∧ (j : Int) ≠ best.base) →
    formatLoop src ws best (m + fuel) i t = formatLoop src ws best fuel (i + m) t := by
  induction m with
  | zero => intro i fuel t _; rw [Nat.zero_add, Nat.add_zero]
  | succ m ih =>
    intro i fuel t hin
    obtain ⟨hc, hne⟩ := hin i (Nat.le_refl i) (by omega)
    rw [show m + 1 + fuel = m + fuel + 1 by omega, formatLoop_covered hc, if_neg hne,
      ih (i + 1) fuel t (fun j hj hj' => hin j (by omega) (by omega)),
      show i + 1 + m = i + (m + 1) by omega]

/-- The run: one colon at its start. -/
theorem formatLoop_run {b l fuel : Nat} {t : Tmp} (hb : best.base = b) (hl : best.len = l)
    (hl0 : 0 < l) :
    formatLoop src ws best (l + fuel) b t = formatLoop src ws best fuel (b + l) (t.putc ':') := by
  have hc : best.Covers b := ⟨by omega, by omega, by omega⟩
  rw [show l + fuel = (l - 1 + fuel) + 1 by omega, formatLoop_covered hc, if_pos (by omega),
    formatLoop_inside (l - 1) (b + 1) fuel _
      (fun j hj hj' => ⟨⟨by omega, by omega, by omega⟩, by omega⟩),
    show b + 1 + (l - 1) = b + l by omega]

/-- The words of an address are 16-bit. -/
theorem getD_lt_of_mem (hw : ∀ w ∈ ws, w < 65536) (j : Nat) : ws.getD j 0 < 65536 := by
  rw [List.getD_eq_getElem?_getD]
  cases h : ws[j]? with
  | none => decide
  | some w => exact hw w (List.mem_of_getElem? h)

/-- The dotted quad after `tp`: its writes end at its NUL. -/
theorem Tmp.Within.quad {t : Tmp} (h : t.Within) (q : List Char) :
    (⟨t.text ++ q, t.writes ++ (List.range (q.length + 1)).map (t.text.length + ·)⟩ : Tmp).Within := by
  intro j hj
  simp only [List.mem_append, List.mem_map, List.mem_range, List.length_append] at hj ⊢
  rcases hj with hj | ⟨k, hk, rfl⟩
  · have := h j hj
    omega
  · omega

theorem within_empty : (⟨[], []⟩ : Tmp).Within := fun _ hj => absurd hj List.not_mem_nil

/-- No run elided: every word printed, colons between. -/
theorem formatLoop_none (hb : best.base = -1) (hlen : ws.length = 8) (hw : ∀ w ∈ ws, w < 65536) :
    ∃ t, formatLoop src ws best 8 0 ⟨[], []⟩ = .ok t ∧ t.Within ∧ t.text = hexGroups ws := by
  have hnc : ∀ j, ¬best.Covers j := fun j hc => hc.1 hb
  have hne : ∀ j, ¬Encapsulated ws best j := fun j he => by have := he.2.1; omega
  obtain ⟨w0, rest, rfl⟩ :=
    List.exists_cons_of_ne_nil (List.ne_nil_of_length_pos (show 0 < ws.length by omega))
  have hrest : rest.length = 7 := by simpa using hlen
  -- word 0 has no colon before it
  have h0 := @formatLoop_word src _ best 7 0 ⟨[], []⟩ (hnc 0) (hne 0)
  rw [if_neg (by decide)] at h0
  obtain ⟨t, hrun, htext, hwithin⟩ := @formatLoop_plain src _ best 7 1 0 _
    (by decide) (by simp; omega) (fun j _ _ => ⟨hnc j, hne j, getD_lt_of_mem hw j⟩)
  refine ⟨t, by rw [h0, hrun]; rfl, hwithin (within_empty.scnprintf _), ?_⟩
  have hw0 : w0 < 65536 := hw w0 List.mem_cons_self
  rw [htext, List.getD_cons_zero, Tmp.scnprintf_text _ (length_toDigits_hex hw0), hexGroups_cons]
  simp [List.take_of_length_le (show rest.length ≤ 7 by omega)]

theorem hexGroups_take {b : Nat} (hb : 1 ≤ b) (hws : ws ≠ []) :
    hexGroups (ws.take b) =
      Nat.toDigits 16 (ws.getD 0 0) ++ colonGroups ((ws.drop 1).take (b - 1)) := by
  obtain ⟨w0, rest, rfl⟩ := List.exists_cons_of_ne_nil hws
  rw [show b = (b - 1) + 1 by omega, List.take_succ_cons, hexGroups_cons]
  simp

/-- After the run, the words each after a colon, and a colon more when the run is trailing. -/
theorem colonGroups_drop {n : Nat} (hn : n ≤ ws.length) :
    colonGroups (ws.drop n) ++ (if n = ws.length then [':'] else []) =
      ':' :: hexGroups (ws.drop n) := by
  by_cases hend : n = ws.length
  · rw [if_pos hend, List.drop_eq_nil_of_le (by omega)]
    rfl
  · rw [if_neg hend, List.append_nil, colonGroups_eq_cons_hexGroups (by simp; omega)]

/-- A run that starts after word 0: the words before it, a colon, the words after it. -/
theorem formatLoop_interior {b l : Nat} (hb : best.base = b) (hl : best.len = l) (h2 : 2 ≤ l)
    (hb1 : 1 ≤ b) (hbl : b + l ≤ 8) (hlen : ws.length = 8) (hw : ∀ w ∈ ws, w < 65536) :
    ∃ t, formatLoop src ws best 8 0 ⟨[], []⟩ = .ok t ∧ t.Within ∧
      t.text = hexGroups (ws.take b) ++ ':' :: colonGroups (ws.drop (b + l)) := by
  have hnc : ∀ j, (j < b ∨ b + l ≤ j) → ¬best.Covers j := by
    intro j hj hc
    obtain ⟨-, h1, h2⟩ := hc
    omega
  have hne : ∀ j, ¬Encapsulated ws best j := fun j he => by have := he.2.1; omega
  -- word 0, the words before the run, the run, the words after it
  have h0 := @formatLoop_word src ws best 7 0 ⟨[], []⟩ (hnc 0 (.inl hb1)) (hne 0)
  rw [if_neg (by decide)] at h0
  obtain ⟨t2, hrun2, htext2, hwithin2⟩ := @formatLoop_plain src ws best (b - 1) 1 (8 - b)
    ((⟨[], []⟩ : Tmp).scnprintf (Nat.toDigits 16 (ws.getD 0 0))) (by decide) (by omega) (fun j _ _ => ⟨hnc j (.inl (by omega)), hne j, getD_lt_of_mem hw j⟩)
  have hrun3 := @formatLoop_run src ws best b l (8 - b - l) t2 hb hl (by omega)
  obtain ⟨t4, hrun4, htext4, hwithin4⟩ := @formatLoop_plain src ws best (8 - b - l) (b + l) 0
    (t2.putc ':') (by omega) (by omega)
    (fun j hj _ => ⟨hnc j (.inr hj), hne j, getD_lt_of_mem hw j⟩)
  rw [Nat.add_zero] at hrun4
  refine ⟨t4, ?_, hwithin4 ((hwithin2 (within_empty.scnprintf _)).putc ':'), ?_⟩
  · rw [h0, show 7 = b - 1 + (8 - b) by omega, hrun2, show 1 + (b - 1) = b by omega,
      show 8 - b = l + (8 - b - l) by omega, hrun3, hrun4]
    rfl
  · have hws : ws ≠ [] := List.ne_nil_of_length_pos (by omega)
    have hw0 := getD_lt_of_mem hw 0
    have hput : (t2.putc ':').text = t2.text ++ [':'] := rfl
    rw [htext4, hput, htext2, Tmp.scnprintf_text _ (length_toDigits_hex hw0),
      List.take_of_length_le (show (ws.drop (b + l)).length ≤ 8 - b - l by simp; omega),
      hexGroups_take hb1 hws]
    simp

/-- A run that starts at word 0: a colon, then the words after it, or the dotted quad of an
encapsulated IPv4 address. -/
theorem formatLoop_leading {l : Nat} (hb : best.base = 0) (hl : best.len = l) (h2 : 2 ≤ l)
    (hl8 : l ≤ 8) (hlen : ws.length = 8) (hw : ∀ w ∈ ws, w < 65536) :
    ∃ t, formatLoop src ws best 8 0 ⟨[], []⟩ = .ok t ∧ t.Within ∧
      t.text = ':' :: (if l = 6 then ':' :: fmtQuad (src.drop 12)
        else if l = 5 ∧ ws.getD 5 0 = 0xffff then ':' :: ['f', 'f', 'f', 'f', ':'] ++ fmtQuad (src.drop 12)
        else colonGroups (ws.drop l)) := by
  have hnc : ∀ j, l ≤ j → ¬best.Covers j := by
    intro j hj hc
    obtain ⟨-, -, h1⟩ := hc
    omega
  have hq := length_fmtQuad (src.drop 12)
  have hrun := @formatLoop_run src ws best 0 l (8 - l) ⟨[], []⟩ hb hl (by omega)
  rw [Nat.zero_add, show l + (8 - l) = 8 by omega] at hrun
  by_cases h6 : l = 6
  · -- `::a.b.c.d`
    subst h6
    have he : Encapsulated ws best 6 := ⟨rfl, hb, .inl hl⟩
    have hquad := @formatLoop_encapsulated src ws best 1 6
      ((⟨[], []⟩ : Tmp).putc ':') (hnc 6 (Nat.le_refl 6)) he (by simp [Tmp.putc, sizeof_tmp6]; omega)
    refine ⟨_, hrun.trans hquad, (within_empty.putc ':').putc ':' |>.quad _, ?_⟩
    simp [Tmp.putc]
  rw [if_neg h6]
  by_cases h5 : l = 5 ∧ ws.getD 5 0 = 0xffff
  · -- `::ffff:a.b.c.d`: word 5, then the quad
    obtain ⟨rfl, hffff⟩ := h5
    have he5 : ¬Encapsulated ws best 5 := fun he => absurd he.1 (by decide)
    have hword := @formatLoop_word src ws best 2 5 ((⟨[], []⟩ : Tmp).putc ':')
      (hnc 5 (Nat.le_refl 5)) he5
    have hf : Nat.toDigits 16 0xffff = ['f', 'f', 'f', 'f'] := by decide
    rw [if_pos (by decide), hffff, hf] at hword
    have he : Encapsulated ws best 6 := ⟨rfl, hb, .inr (.inr ⟨hl, hffff⟩)⟩
    have hquad := @formatLoop_encapsulated src ws best 1 6
      (((⟨[], []⟩ : Tmp).putc ':').putc ':' |>.scnprintf ['f', 'f', 'f', 'f'])
      (hnc 6 (by omega)) he (by simp [Tmp.putc, Tmp.scnprintf, sizeof_tmp6]; omega)
    refine ⟨_, hrun.trans (hword.trans hquad),
      (((within_empty.putc ':').putc ':').scnprintf _).putc ':' |>.quad _, ?_⟩
    rw [if_pos ⟨rfl, hffff⟩]
    simp [Tmp.putc, Tmp.scnprintf, sizeof_tmp6]
  · -- no address inside: the words after the run
    have hne : ∀ j, l ≤ j → ¬Encapsulated ws best j := by
      rintro j hj ⟨rfl, -, h6' | ⟨h7, -⟩ | h5'⟩
      · exact h6 (by omega)
      · omega
      · exact h5 ⟨by omega, h5'.2⟩
    obtain ⟨t, hrun', htext, hwithin⟩ := @formatLoop_plain src ws best (8 - l) l 0
      ((⟨[], []⟩ : Tmp).putc ':') (by omega) (by omega)
      (fun j hj _ => ⟨hnc j hj, hne j hj, getD_lt_of_mem hw j⟩)
    rw [Nat.add_zero] at hrun'
    refine ⟨t, by rw [hrun, hrun']; rfl, hwithin (within_empty.putc ':'), ?_⟩
    rw [if_neg h5, htext,
      List.take_of_length_le (show (ws.drop l).length ≤ 8 - l by simp; omega)]
    rfl

end Format

/-! ## `inet_ntop6` -/

/-- The end of `inet_ntop6` once the words are formatted into `t`: the trailing colon, the NUL,
the check against `size` and the copy into `dst`. -/
theorem inet_ntop6_of_format {src : List UInt8} {size : Nat} {t : Tmp} {text : List Char}
    (hf : formatLoop src (toWords src) (findBest (toWords src)) 8 0 ⟨[], []⟩ = .ok t)
    (hw : t.Within)
    (ht : (if (findBest (toWords src)).base ≠ -1 ∧
        (findBest (toWords src)).base + (findBest (toWords src)).len = 8 then t.putc ':'
        else t).text = text) :
    (inet_ntop6 src size).ret = (if text.length + 1 ≤ size then some text else none) ∧
      (∀ j ∈ (inet_ntop6 src size).tmp_writes, j ≤ text.length) ∧
      (inet_ntop6 src size).dst_writes =
        (if text.length + 1 ≤ size then List.range (text.length + 1) else []) := by
  have h8 : NS_IN6ADDRSZ / NS_INT16SZ = 8 := rfl
  generalize hT : (if (findBest (toWords src)).base ≠ -1 ∧
      (findBest (toWords src)).base + (findBest (toWords src)).len = 8 then t.putc ':'
      else t) = T at ht
  have hTw : T.Within := by
    rw [← hT]
    split_ifs
    · exact hw.putc ':'
    · exact hw
  have hnul : (T.putc '\x00').text = text ++ ['\x00'] := by rw [← ht]; rfl
  have hlen : (T.putc '\x00').text.length = text.length + 1 := by simp [hnul]
  have hcopy : (T.putc '\x00').text.dropLast = text := by rw [hnul, List.dropLast_concat]
  have hwrites : ∀ j ∈ (T.putc '\x00').writes, j ≤ text.length := fun j hj => by
    -- the NUL is the last write
    simp only [Tmp.putc, List.mem_append, List.mem_singleton] at hj
    rcases hj with hj | rfl
    · exact ht ▸ hTw j hj
    · rw [ht]
  unfold inet_ntop6
  simp only [h8, hf, hT]
  by_cases hfit : text.length + 1 ≤ size
  · rw [if_neg (by omega), if_pos hfit, if_pos hfit, hcopy,
      List.take_of_length_le (show text.length ≤ size - 1 by omega)]
    refine ⟨rfl, hwrites, ?_⟩
    simp only [strlcpy, if_neg (show size ≠ 0 by omega),
      List.take_of_length_le (show text.length ≤ size - 1 by omega), List.length_append,
      List.length_singleton]
  · rw [if_pos (by omega), if_neg hfit, if_neg hfit]
    exact ⟨rfl, hwrites, rfl⟩

theorem Tmp.text_ite_putc (p : Prop) [Decidable p] (t : Tmp) (c : Char) :
    (if p then t.putc c else t).text = t.text ++ (if p then [c] else []) := by
  split_ifs <;> simp [Tmp.putc]

/-- **`inet_ntop6`** prints `presentation` of the address with the first of its longest runs of
two or more zero words, and `NULL` when that text and a NUL do not fit in `size`. Its writes
into `tmp` end at the text's NUL; into `dst` it writes the text and the NUL, or nothing. -/
theorem inet_ntop6_spec (src : List UInt8) (size : Nat) :
    ∃ text : List Char,
      (((∀ b l, Runs.IsRun 0 (addrWords src) b l → l < 2) ∧
          text = presentation src (addrWords src) none) ∨
        ∃ b l, 2 ≤ l ∧ Runs.FirstLongest 0 (addrWords src) b l ∧
          text = presentation src (addrWords src) (some (b, l))) ∧
      (inet_ntop6 src size).ret = (if text.length + 1 ≤ size then some text else none) ∧
      (∀ j ∈ (inet_ntop6 src size).tmp_writes, j ≤ text.length) ∧
      (inet_ntop6 src size).dst_writes =
        (if text.length + 1 ≤ size then List.range (text.length + 1) else []) := by
  have hlen := length_addrWords src
  have hw := addrWords_lt src
  rw [← toWords_eq] at hlen hw ⊢
  rcases findBest_spec (toWords src) with ⟨hb, hno⟩ | ⟨b, l, hb, hl, h2, hfl⟩
  · -- no run elided
    obtain ⟨t, hf, hwt, htext⟩ := @formatLoop_none src _ _ hb hlen hw
    refine ⟨t.text, .inl ⟨hno, htext⟩, inet_ntop6_of_format hf hwt ?_⟩
    rw [if_neg (fun h => h.1 hb)]
  have hbl := hfl.1.end_le_length
  rw [hlen] at hbl
  have hcond : ((findBest (toWords src)).base ≠ -1 ∧
      (findBest (toWords src)).base + (findBest (toWords src)).len = 8) ↔ b + l = 8 := by
    rw [hb, hl]
    omega
  rcases Nat.eq_zero_or_pos b with rfl | hb1
  · -- the run starts at word 0
    obtain ⟨t, hf, hwt, htext⟩ := @formatLoop_leading src _ _ l (by rw [hb]; rfl) hl h2
      (by omega) hlen hw
    refine ⟨_, .inr ⟨0, l, h2, hfl, rfl⟩, inet_ntop6_of_format hf hwt ?_⟩
    rw [Tmp.text_ite_putc, htext, presentation, if_congr hcond rfl rfl, List.take_zero,
      hexGroups_nil, List.nil_append, List.cons_append]
    by_cases h6 : l = 6
    · subst h6
      simp
    by_cases h5 : l = 5 ∧ (toWords src).getD 5 0 = 0xffff
    · obtain ⟨rfl, hffff⟩ := h5
      simp only [hffff]
      simp
    rw [if_neg h6, if_neg h5, if_neg (show ¬(0 = 0 ∧ l = 6) from fun h => h6 h.2),
      if_neg (show ¬(0 = 0 ∧ l = 5 ∧ (toWords src).getD 5 0 = 0xffff) from fun h => h5 h.2),
      Nat.zero_add]
    have := @colonGroups_drop (toWords src) l (by omega)
    rw [hlen] at this
    rw [this]
  · -- the run starts after word 0
    obtain ⟨t, hf, hwt, htext⟩ := @formatLoop_interior src _ _ b l hb hl h2 hb1 hbl hlen hw
    refine ⟨_, .inr ⟨b, l, h2, hfl, rfl⟩, inet_ntop6_of_format hf hwt ?_⟩
    rw [Tmp.text_ite_putc, htext, presentation, if_congr hcond rfl rfl,
      if_neg (show ¬(b = 0 ∧ l = 6) from fun h => absurd h.1 (by omega)),
      if_neg (show ¬(b = 0 ∧ l = 5 ∧ (toWords src).getD 5 0 = 0xffff) from
        fun h => absurd h.1 (by omega)), List.append_assoc, List.cons_append]
    have := @colonGroups_drop (toWords src) (b + l) (by omega)
    rw [hlen] at this
    rw [this]

/-- With a run elided, the text shows `::`. -/
theorem infix_presentation_some (src : List UInt8) (ws : List Nat) (b l : Nat) :
    [':', ':'] <:+: presentation src ws (some (b, l)) :=
  ⟨hexGroups (ws.take b), _, by rw [presentation, List.append_assoc]; rfl⟩

/-- The text is at most `ffff:ffff:ffff:ffff:ffff:ffff:ffff:ffff` long. -/
theorem length_presentation_le {src : List UInt8} {ws : List Nat} (hlen : ws.length = 8)
    (hw : ∀ w ∈ ws, w < 65536) :
    ∀ o : Option (Nat × Nat), (∀ b l, o = some (b, l) → 2 ≤ l ∧ b + l ≤ 8) →
      (presentation src ws o).length ≤ 40
  | none, _ => by
    have := (length_hexGroups_le hw).2
    rw [hlen] at this
    exact this
  | some (b, l), ho => by
    obtain ⟨h2, hbl⟩ := ho b l rfl
    have ht := (@length_hexGroups_le (ws.take b) (fun w h => hw w (List.mem_of_mem_take h))).2
    have hd := (@length_hexGroups_le (ws.drop (b + l))
      (fun w h => hw w (List.mem_of_mem_drop h))).2
    have hq := length_fmtQuad (src.drop 12)
    simp only [List.length_take, List.length_drop, hlen] at ht hd
    simp only [presentation, List.length_append, List.length_cons]
    split_ifs <;> (try simp only [List.length_append, List.length_cons, List.length_nil]) <;> omega

/-- **`inet_ntop4`** prints the dotted quad, and `NULL` when it and a NUL do not fit in `size`;
it writes inside its `tmp` and inside `dst`. -/
theorem inet_ntop4_spec (src : List UInt8) (size : Nat) :
    (inet_ntop4 src size).ret =
        (if (fmtQuad src).length + 1 ≤ size then some (fmtQuad src) else none) ∧
      (∀ j ∈ (inet_ntop4 src size).tmp_writes, j < sizeof_tmp4) ∧
      (∀ j ∈ (inet_ntop4 src size).dst_writes, j < size) := by
  refine ⟨?_, inet_ntop4_tmp_writes src size, ?_⟩
  · by_cases hfit : (fmtQuad src).length + 1 ≤ size
    · rw [if_pos hfit, inet_ntop4_of_lt (by omega)]
    · rw [if_neg hfit, (inet_ntop4_of_ge (by omega)).1]
  · by_cases hfit : (fmtQuad src).length + 1 ≤ size
    · rw [inet_ntop4_of_lt (by omega)]
      intro j hj
      have := List.mem_range.mp hj
      omega
    · rw [(inet_ntop4_of_ge (by omega)).2]
      exact fun j hj => absurd hj List.not_mem_nil

example : (inet_ntop AF_INET6 [0x20, 1, 0xd, 0xb8, 0, 0, 0, 0, 0, 0, 0, 0, 0, 0, 0, 1] 46).ret =
    some "2001:db8::1".toList := by decide

example : (inet_ntop AF_INET6 [0, 0, 0, 0, 0, 0, 0, 0, 0, 0, 0xff, 0xff, 192, 0, 2, 1] 46).ret =
    some "::ffff:192.0.2.1".toList := by decide

end Libkern.Inet
