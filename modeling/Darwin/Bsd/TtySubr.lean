import Mathlib

/-!
# Clists of `bsd/kern/tty_subr.c`

A `struct clist` is a ring buffer `c_cs[0 .. c_cn)` of bytes with a bitmap `c_cq` of quote bits
(`QBITS`). `c_cf` points at the first character, `c_cl` at the next open one, both `NULL` when the
clist is empty; they are modelled as offsets from `c_cs`, so `c_ce = c_cs + c_cn` is `c_cn`.
A pointer difference is an `Int`; stored into a `size_t` it is taken modulo `2 ^ 64`. Allocations
succeed (`Z_WAITOK`).

`ndqb(clp, 0)` stores `c_cl - c_cf` into a `size_t` and tests it with `count <= 0`, which for an
unsigned number only catches `0`: when the characters wrap around the end of the ring, `c_cl` is
below `c_cf`, the difference is close to `2 ^ 64`, and the `count > INT_MAX` guard returns `0`
although `c_ce - c_cf` characters are stored contiguously from `c_cf` (`ndqb_wrapped`).
-/

namespace Bsd.TtySubr

def NBBY : Nat := 8

/-- `QMEM(n)` (`:88`): the bytes of `n` quote bits. -/
def QMEM (n : Nat) : Nat := (n - 1) / NBBY + 1

def TTY_QUOTE : Nat := 0x100

def INT_MAX : Int := 2 ^ 31 - 1

/-- A pointer difference stored into a `size_t`. -/
def sizeT (d : Int) : Int := d % 2 ^ 64

/-! ## Quote bits (`sys/param.h:210`) -/

def isset (a : List UInt8) (i : Nat) : Bool := a.getD (i / NBBY) 0 &&& (1 <<< (i % NBBY).toUInt8) ≠ 0

def setbit (a : List UInt8) (i : Nat) : List UInt8 := a.modify (i / NBBY) (· ||| (1 <<< (i % NBBY).toUInt8))

def clrbit (a : List UInt8) (i : Nat) : List UInt8 := a.modify (i / NBBY) (· &&& ~~~(1 <<< (i % NBBY).toUInt8))

/-- **`clrbits`** (`:350`): the quote bits `off .. off + len - 1` cleared, a byte at a time between
the first and last byte. -/
def clrbits (cp : List UInt8) (off len : Nat) : List UInt8 :=
  if len = 1 then clrbit cp off
  else
    let sby := off / NBBY
    let sbi := off % NBBY
    let eby := (off + len) / NBBY
    let ebi := (off + len) % NBBY
    if sby = eby then
      let mask : UInt8 := ((1 <<< (ebi - sbi).toUInt8) - 1) <<< sbi.toUInt8
      cp.modify sby (· &&& ~~~mask)
    else
      let cp := cp.modify sby (· &&& ((1 <<< sbi.toUInt8) - 1))
      let mask : UInt8 := (1 <<< ebi.toUInt8) - 1
      let cp := if mask ≠ 0 then cp.modify eby (· &&& ~~~mask) else cp
      (List.range (eby - (sby + 1))).foldl (fun cp k => cp.set (sby + 1 + k) 0) cp

/-! ## The clist -/

/-- A `struct clist`; `c_cs` is `none` before `clalloc`, `c_cq` when quoting is off. -/
structure Clist where
  c_cc : Int
  c_cn : Int
  c_cf : Option Nat
  c_cl : Option Nat
  c_cs : Option (List UInt8)
  c_cq : Option (List UInt8)
  deriving DecidableEq, Repr

namespace Clist

/-- `c_ce - c_cs`. -/
def ce (clp : Clist) : Nat := clp.c_cn.toNat

/-- `*p & 0xff` for the byte at offset `p`. -/
def byte (clp : Clist) (p : Nat) : Nat := ((clp.c_cs.getD []).getD p 0).toNat

/-- The character at `p` as `getc` returns it: the byte, with `TTY_QUOTE` if its quote bit is set. -/
def charAt (clp : Clist) (p : Nat) : Nat :=
  match clp.c_cq with
  | some q => if isset q p then clp.byte p ||| TTY_QUOTE else clp.byte p
  | none => clp.byte p

/-- A pointer one past `p`, back to `c_cs` at `c_ce`. -/
def next (clp : Clist) (p : Nat) : Nat := if p + 1 = clp.ce then 0 else p + 1

/-- `c_cf` and `c_cl`, `NULL` when the clist is empty; a `NULL` one is read as `c_cs`. -/
def cf (clp : Clist) : Nat := clp.c_cf.getD 0

def cl (clp : Clist) : Nat := clp.c_cl.getD 0

/-- The clist emptied: `c_cf = c_cl = NULL`. -/
def reset (clp : Clist) : Clist := { clp with c_cf := none, c_cl := none }

end Clist

open Clist

/-- **`clalloc`** (`:102`): `size` zero bytes, quote bits if `quot`. -/
def clalloc (size : Nat) (quot : Bool) : Clist :=
  ⟨0, size, none, none, some (List.replicate size 0), if quot then some (List.replicate (QMEM size) 0) else none⟩

/-- **`getc`** (`:149`): the first character, or `-1`. -/
def getc (clp : Clist) : Int × Clist :=
  if clp.c_cc = 0 then (-1, clp)
  else
    let c := clp.charAt clp.cf
    let clp' := { clp with c_cf := some (clp.next clp.cf), c_cc := clp.c_cc - 1 }
    (c, if clp'.c_cc = 0 then clp'.reset else clp')

/-- The contiguous characters from `c_cf` as `q_to_b` and `ndflush` count them: up to `c_cl`, or up
to `c_ce` when `c_cf >= c_cl`; at most `count`. -/
def takeRun (clp : Clist) (count : Int) : Int :=
  let cc := if clp.cf ≥ clp.cl then (clp.ce : Int) - clp.cf else (clp.cl : Int) - clp.cf
  if cc > INT_MAX ∨ cc > count then count else cc

/-- The `while (count > 0 && clp->c_cc > 0)` of `q_to_b`: the bytes copied out. A round takes at
least one character, so `c_cc` rounds are enough. -/
def qToBLoop : Nat → Clist → Int → List UInt8 → Clist × List UInt8
  | 0, clp, _, out => (clp, out)
  | fuel + 1, clp, count, out =>
    if count > 0 ∧ clp.c_cc > 0 then
      let cc := takeRun clp count
      let out := out ++ (List.range cc.toNat).map fun k => ((clp.c_cs.getD []).getD (clp.cf + k) 0)
      let cf := clp.cf + cc.toNat
      let clp := { clp with c_cc := clp.c_cc - cc, c_cf := some (if cf = clp.ce then 0 else cf) }
      qToBLoop fuel clp (count - cc) out
    else (clp, out)

/-- **`q_to_b`** (`:181`): the number of bytes moved, the bytes, and the clist. -/
def q_to_b (clp : Clist) (count : Int) : Int × List UInt8 × Clist :=
  let (clp, out) := qToBLoop (clp.c_cc.toNat + 1) clp count []
  let clp := if clp.c_cc = 0 then clp.reset else clp
  (min (2 ^ 31 - 1) out.length, out, clp)

/-- The `while (cc-- > 0 && ...)` of `ndqb` from index `i`: characters counted until one has a bit of
`flag` (or, with `TTY_QUOTE` in `flag`, the quote bit of the index after it), stopping at the end of
the ring. -/
def ndqbLoop (clp : Clist) (flag : Nat) : Nat → Nat → Nat → Nat
  | 0, _, count => count
  | cc + 1, i, count =>
    let stop :=
      -- `flag & ~TTY_QUOTE` is `flag` with the quote bit taken out
      if flag &&& TTY_QUOTE ≠ 0 then clp.byte i &&& (flag ^^^ TTY_QUOTE) ≠ 0 || isset (clp.c_cq.getD []) (i + 1)
      else clp.byte i &&& flag ≠ 0
    if stop then count
    else if (i + 1 : Int) = clp.c_cn then count + 1
    else ndqbLoop clp flag cc (i + 1) (count + 1)

/-- **`ndqb`** (`:214`): the contiguous characters from `c_cf` before one with a bit of `flag`. -/
def ndqb (clp : Clist) (flag : Nat) : Int :=
  if clp.c_cc = 0 then 0
  else
    let count : Int :=
      if flag = 0 then
        let count := sizeT ((clp.cl : Int) - clp.cf)
        -- `count <= 0` on a `size_t`
        if count ≤ 0 then sizeT ((clp.ce : Int) - clp.cf) else count
      else ndqbLoop clp flag clp.c_cc.toNat clp.cf 0
    if count > INT_MAX then 0 else count

/-- The `while` of `ndflush`. -/
def ndflushLoop : Nat → Clist → Int → Clist
  | 0, clp, _ => clp
  | fuel + 1, clp, count =>
    if count > 0 ∧ clp.c_cc > 0 then
      let cc := takeRun clp count
      let cf := clp.cf + cc.toNat
      ndflushLoop fuel { clp with c_cc := clp.c_cc - cc, c_cf := some (if cf = clp.ce then 0 else cf) } (count - cc)
    else clp

/-- **`ndflush`** (`:263`): `count` characters dropped from the front. -/
def ndflush (clp : Clist) (count : Int) : Clist :=
  if count = clp.c_cc then { clp with c_cc := 0 }.reset
  else
    let clp := ndflushLoop (clp.c_cc.toNat + 1) clp count
    if clp.c_cc = 0 then clp.reset else clp

/-- An empty clist is given a ring first: `clalloc(clp, 1024, 1)` if it has none, then
`c_cf = c_cl = c_cs`. -/
def prepare (clp : Clist) : Clist :=
  if clp.c_cc = 0 then
    let clp := if clp.c_cs = none then clalloc 1024 true else clp
    { clp with c_cf := some 0, c_cl := some 0 }
  else clp

/-- **`putc`** (`:298`): `0`, or `-1` when the clist is full. -/
def putc (c : Nat) (clp : Clist) : Int × Clist :=
  let clp := prepare clp
  if clp.c_cc = clp.c_cn then (-1, clp)
  else
    let i := clp.cl
    let cs := (clp.c_cs.getD []).set i (c &&& 0xff).toUInt8
    let cq := clp.c_cq.map fun q => if c &&& TTY_QUOTE ≠ 0 then setbit q i else clrbit q i
    (0, { clp with c_cs := some cs, c_cq := cq, c_cc := clp.c_cc + 1, c_cl := some (clp.next i) })

/-- The `while (count > 0 && clp->c_cc < clp->c_cn)` of `b_to_q` over the bytes `p`. -/
def bToQLoop : Nat → Clist → List UInt8 → Clist × List UInt8
  | 0, clp, p => (clp, p)
  | fuel + 1, clp, p =>
    if p.length > 0 ∧ clp.c_cc < clp.c_cn then
      let cc := if clp.cf > clp.cl then (clp.cf : Int) - clp.cl else (clp.ce : Int) - clp.cl
      let cc := if cc > INT_MAX ∨ cc > p.length then (p.length : Int) else cc
      let cs := (List.range cc.toNat).foldl (fun cs k => cs.set (clp.cl + k) (p.getD k 0)) (clp.c_cs.getD [])
      let cq := clp.c_cq.map fun q => clrbits q clp.cl cc.toNat
      let cl := clp.cl + cc.toNat
      let clp' := { clp with c_cs := some cs, c_cq := cq, c_cc := clp.c_cc + cc }
      bToQLoop fuel { clp' with c_cl := some (if cl = clp.ce then 0 else cl) } (p.drop cc.toNat)
    else (clp, p)

/-- **`b_to_q`** (`:384`): the number of bytes of `cp` not transferred. -/
def b_to_q (cp : List UInt8) (clp : Clist) : Int × Clist :=
  if cp.length = 0 then (0, clp)
  else
    let clp := prepare clp
    if clp.c_cc = clp.c_cn then (cp.length, clp)
    else
      let (clp, rest) := bToQLoop (clp.c_cn.toNat + 1) clp cp
      (rest.length, clp)

/-- **`firstc`** (`:497`): the first character, and the count left in the static `cc`. -/
def firstc (clp : Clist) : Option (Nat × Nat) × Int :=
  if clp.c_cc = 0 then (none, clp.c_cc) else (some (clp.cf, clp.charAt clp.cf), clp.c_cc)

/-- **`nextc`** (`:460`) from `cp`, with the static `cc`: the next pointer and its character. -/
def nextc (clp : Clist) (cp : Option Nat) (cc : Int) : Option (Nat × Nat) × Int :=
  let cc := if cp = clp.c_cf then clp.c_cc else cc
  match cp with
  | none => (none, cc)
  | some p =>
    if cc = 0 then (none, cc)
    else if cc - 1 = 0 then (none, cc - 1)
    else (some (clp.next p, clp.charAt (clp.next p)), cc - 1)

/-- **`unputc`** (`:529`): the last character, or `-1`. -/
def unputc (clp : Clist) : Int × Clist :=
  if clp.c_cc = 0 then (-1, clp)
  else
    let cl := if clp.cl = 0 then clp.ce - 1 else clp.cl - 1
    let clp := { clp with c_cl := some cl, c_cc := clp.c_cc - 1 }
    (clp.charAt cl, if clp.c_cc = 0 then clp.reset else clp)

/-- The `while ((c = getc(from)) != -1) putc(c, to)` of `catq`. Every round but the last takes a
character, so `c_cc + 1` rounds are enough. -/
def catqLoop : Nat → Clist → Clist → Clist × Clist
  | 0, fromq, toq => (fromq, toq)
  | fuel + 1, fromq, toq =>
    let (c, fromq) := getc fromq
    if c = -1 then (fromq, toq) else catqLoop fuel fromq (putc c.toNat toq).2

/-- **`catq`** (`:570`): the characters of `from` put on the end of `to`; `from` and `to` are
different clists. -/
def catq (fromq toq : Clist) : Clist × Clist := catqLoop (fromq.c_cc.toNat + 1) fromq toq

/-! ## `ndqb(clp, 0)` on a wrapped ring -/

/-- With the characters wrapped around the end of the ring (`c_cl` below `c_cf`), `ndqb(clp, 0)`
returns `0`. -/
theorem ndqb_wrapped {clp : Clist} (hcc : clp.c_cc ≠ 0) (hwrap : clp.cl < clp.cf) (hcf : clp.cf < 2 ^ 32) :
    ndqb clp 0 = 0 := by
  have hbig : sizeT ((clp.cl : Int) - clp.cf) = 2 ^ 64 + ((clp.cl : Int) - clp.cf) := by
    unfold sizeT
    omega
  have hpos : ¬ sizeT ((clp.cl : Int) - clp.cf) ≤ 0 := by omega
  have hlarge : sizeT ((clp.cl : Int) - clp.cf) > INT_MAX := by unfold INT_MAX; omega
  simp only [ndqb, hcc, if_false, if_true, hpos, hlarge]

/-- A ring of two: `a` and `b` put, `a` taken. One character, `b`, is stored from `c_cf` on, up to
`c_ce`, and `ndqb(clp, 0)` returns `0` for it. -/
theorem ndqb_wrapped_ring_of_two :
    (getc (putc 98 (putc 97 (clalloc 2 true)).2).2).2.c_cc = 1 ∧
      (getc (putc 98 (putc 97 (clalloc 2 true)).2).2).2.ce - (getc (putc 98 (putc 97 (clalloc 2 true)).2).2).2.cf = 1 ∧
      (getc (getc (putc 98 (putc 97 (clalloc 2 true)).2).2).2).1 = 98 ∧
      ndqb (getc (putc 98 (putc 97 (clalloc 2 true)).2).2).2 0 = 0 := by
  refine ⟨by decide, by decide, by decide, ?_⟩
  -- `b` sits in the last cell and `c_cl` has wrapped to the first
  exact ndqb_wrapped (by decide) (by decide) (by decide)

end Bsd.TtySubr
