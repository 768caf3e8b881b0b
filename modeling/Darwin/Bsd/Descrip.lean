import Darwin.Lib.Slots
import Mathlib

/-!
# The per-process file table: `fdalloc`, `fdrelse`, `dup2` (kern_descrip.c)

`fd_ofiles[0..fd_nfiles)` holds the open files and `fd_ofileflags` their flags; a slot is busy
when it holds a file or carries `UF_RESERVED`. Two hints speed up the scans: `fd_freefile`, below
which every slot is busy, and `fd_lastfile`, the highest slot in use. Every operation runs under
`proc_fdlock`, but several drop it in the middle: `fdalloc` to allocate a larger table
(kern_descrip.c:3852-3855), `dup2` to sleep on a reserved slot or to close the file at `new`, and
`finishdup` to allocate the new `fileproc` (kern_descrip.c:3236-3240). The model cuts each
operation at those points; one `Step` is the work between taking the lock and dropping it.

`Reachable.inv` shows that the table shape and `fd_freefile` stay right across every
interleaving, and `fdalloc_lowest` that `fdalloc` then returns the lowest free slot at or above
`want`. `fd_lastfile` does not stay right: `dup2` reserves a free `new` below `fd_nfiles` without
raising `fd_lastfile` (kern_descrip.c:857), and `finishdup` drops the lock before it raises it
(kern_descrip.c:3236, 3260-3262). In that window a busy slot lies above `fd_lastfile`, and when
`mac_file_check_dup` refuses, `finishdup` hands `fdrelse` a slot above `fd_lastfile`, the case its
`DIAGNOSTIC` panic rejects: `dup2_reserves_above_lastfile`.
-/

namespace Bsd.Descrip

def UF_EXCLOSE : UInt8 := 0x01
def UF_FORKCLOSE : UInt8 := 0x02
def UF_RESERVED : UInt8 := 0x04
def UF_CLOSING : UInt8 := 0x08
def UF_RESVWAIT : UInt8 := 0x10

/-- The first growth of the table (filedesc.h:84). -/
def NDEXTENT : Nat := 50

def INT_MAX : Nat := 2 ^ 31 - 1

def EBADF : Nat := 9
def ENOMEM : Nat := 12
def EMFILE : Nat := 24

/-- The fields of `struct filedesc` the table code reads. A file pointer is `none` for `NULL`,
else the `fileproc` it names. -/
structure filedesc where
  fd_ofiles : List (Option Nat)
  fd_ofileflags : List UInt8
  fd_nfiles : Nat
  fd_lastfile : Nat
  fd_freefile : Nat
  deriving DecidableEq, Repr

namespace filedesc

def ofile (fdp : filedesc) (fd : Nat) : Option Nat := fdp.fd_ofiles.getD fd none

def flags (fdp : filedesc) (fd : Nat) : UInt8 := fdp.fd_ofileflags.getD fd 0

/-- `fd_ofiles[fd] != NULL || (fd_ofileflags[fd] & UF_RESERVED)`: the slot is taken. -/
def busy (fdp : filedesc) (fd : Nat) : Bool :=
  (fdp.ofile fd).isSome || fdp.flags fd &&& UF_RESERVED != 0

end filedesc

open filedesc

/-! ## The table primitives -/

/-- `procfdtbl_reservefd` (kern_descrip.c:549-554). -/
def procfdtbl_reservefd (fdp : filedesc) (fd : Nat) : filedesc :=
  { fdp with fd_ofiles := fdp.fd_ofiles.set fd none,
             fd_ofileflags := fdp.fd_ofileflags.modify fd (· ||| UF_RESERVED) }

/-- `procfdtbl_releasefd` (kern_descrip.c:556-567); its `wakeup` does not touch the table. -/
def procfdtbl_releasefd (fdp : filedesc) (fd : Nat) (fp : Option Nat) : filedesc :=
  { fdp with
    fd_ofiles := if fp.isSome then fdp.fd_ofiles.set fd fp else fdp.fd_ofiles
    fd_ofileflags := fdp.fd_ofileflags.modify fd fun f =>
      if f &&& ~~~UF_RESERVED &&& UF_RESVWAIT == UF_RESVWAIT then
        f &&& ~~~UF_RESERVED &&& ~~~UF_RESVWAIT
      else f &&& ~~~UF_RESERVED }

/-- `procfdtbl_waitfd` (kern_descrip.c:569-574) up to its `msleep`, which drops the lock. -/
def procfdtbl_waitfd (fdp : filedesc) (fd : Nat) : filedesc :=
  { fdp with fd_ofileflags := fdp.fd_ofileflags.modify fd (· ||| UF_RESVWAIT) }

/-- `procfdtbl_clearfd` (kern_descrip.c:576-587). -/
def procfdtbl_clearfd (fdp : filedesc) (fd : Nat) : filedesc :=
  { fdp with fd_ofiles := fdp.fd_ofiles.set fd none, fd_ofileflags := fdp.fd_ofileflags.set fd 0 }

/-- The loop that ends `fdrelse` (kern_descrip.c:617-622): `fd_lastfile` walks down over free
slots and stops at `0`, so `fd_lastfile` rounds are enough. -/
def lastfileLoop : Nat → filedesc → filedesc
  | 0, fdp => fdp
  | fuel + 1, fdp =>
    if 0 < fdp.fd_lastfile ∧ fdp.ofile fdp.fd_lastfile = none ∧
        fdp.flags fdp.fd_lastfile &&& UF_RESERVED = 0 then
      lastfileLoop fuel { fdp with fd_lastfile := fdp.fd_lastfile - 1 }
    else fdp

/-- `fdrelse` (kern_descrip.c:603-623). Its `DIAGNOSTIC` check is `fdrelse_inconsistent`. -/
def fdrelse (fdp : filedesc) (fd : Nat) : filedesc :=
  let fdp := procfdtbl_clearfd
    { fdp with fd_freefile := if fd < fdp.fd_freefile then fd else fdp.fd_freefile } fd
  lastfileLoop fdp.fd_lastfile fdp

/-- The condition of `panic("fdrelse: fd_lastfile inconsistent")` (kern_descrip.c:612-616). -/
def fdrelse_inconsistent (fdp : filedesc) (fd : Nat) : Bool := fd > fdp.fd_lastfile

/-! ## `fdalloc` -/

/-- The scan of `fdalloc` (kern_descrip.c:3816-3827) from slot `i` below `last`; `last - i`
rounds are enough. -/
def fdallocScan (fdp : filedesc) (last : Nat) : Nat → Nat → Option Nat
  | 0, _ => none
  | fuel + 1, i =>
    if i < last then
      if fdp.busy i then fdallocScan fdp last fuel (i + 1) else some i
    else none

/-- What one round of the `for (;;)` of `fdalloc` ends with. -/
inductive AllocPass where
  | found (fd : Nat) (fdp : filedesc)
  | emfile
  /-- The table is full below the limit: drop the lock and allocate `numfiles` slots. -/
  | grow (numfiles : Nat)
  deriving DecidableEq, Repr

/-- One round of `fdalloc` (kern_descrip.c:3813-3846) with `lim = MIN(nofile, maxfilesperproc)`:
search from the higher of `want` and `fd_freefile`, reserve the first free slot and update the
hints, or ask for a larger table. -/
def fdallocPass (fdp : filedesc) (want lim : Nat) : AllocPass :=
  let last := min fdp.fd_nfiles lim
  let start := if want < fdp.fd_freefile then fdp.fd_freefile else want
  match fdallocScan fdp last (last - start) start with
  | some i =>
    let fdp' := procfdtbl_reservefd fdp i
    .found i { fdp' with
      fd_lastfile := if i > fdp.fd_lastfile then i else fdp.fd_lastfile
      fd_freefile := if want ≤ fdp.fd_freefile then i else fdp.fd_freefile }
  | none =>
    if fdp.fd_nfiles ≥ lim then .emfile
    else
      let numfiles := if fdp.fd_nfiles < NDEXTENT then NDEXTENT else 2 * fdp.fd_nfiles
      .grow (if numfiles > lim then lim else numfiles)

/-- The growth of `fdalloc` once it has the lock back (kern_descrip.c:3856-3878): nothing if the
table has meanwhile reached `numfiles` slots, else the copy with zeroed new slots. -/
def fdexpand (fdp : filedesc) (numfiles : Nat) : filedesc :=
  if fdp.fd_nfiles ≥ numfiles then fdp
  else { fdp with
    fd_ofiles := fdp.fd_ofiles ++ List.replicate (numfiles - fdp.fd_nfiles) none
    fd_ofileflags := fdp.fd_ofileflags ++ List.replicate (numfiles - fdp.fd_nfiles) 0
    fd_nfiles := numfiles }

/-- `fdalloc` with no other thread taking the lock while it grows the table. `kheap_alloc n`
says whether the allocation of a table of `n` slots succeeds; when it fails `fdalloc` returns
`ENOMEM` with the table as it was (kern_descrip.c:3849-3855). -/
def fdalloc (fdp : filedesc) (want lim : Nat) (kheap_alloc : Nat → Bool) :
    Nat → Option (Except Nat (Nat × filedesc))
  | 0 => none
  | fuel + 1 =>
    match fdallocPass fdp want lim with
    | .found i fdp' => some (.ok (i, fdp'))
    | .emfile => some (.error EMFILE)
    | .grow numfiles =>
      if kheap_alloc numfiles then fdalloc (fdexpand fdp numfiles) want lim kheap_alloc fuel
      else some (.error ENOMEM)

/-! ## `dup2` and `finishdup` -/

/-- Where `dup2` stands when it drops `proc_fdlock`, with the table at that point. -/
inductive Dup2Step where
  /-- Returned `error` (`0` on success). -/
  | done (error : Nat) (fdp : filedesc)
  /-- Inside `fdalloc`, allocating a table of `numfiles` slots. -/
  | grow (numfiles : Nat)
  /-- Asleep in `procfdtbl_waitfd` until `new` is released; it then starts over. -/
  | waitfd (fdp : filedesc)
  /-- In `fp_close_and_unlock`, closing the file at `new`. -/
  | closing (fdp : filedesc)
  /-- In `finishdup`, allocating the new `fileproc`. -/
  | allocating (fdp : filedesc)
  deriving DecidableEq, Repr

/-- `finishdup` (kern_descrip.c:3207-3267) up to its `proc_fdunlock`; `macError` is what
`mac_file_check_dup` returns. -/
def finishdupLocked (fdp : filedesc) (old new macError : Nat) : Dup2Step :=
  if fdp.ofile old = none ∨ fdp.flags old &&& UF_RESERVED ≠ 0 then .done EBADF (fdrelse fdp new)
  else if macError ≠ 0 then .done macError (fdrelse fdp new)
  else .allocating fdp

/-- The end of `finishdup` once it has the lock back, with the `fileproc` it allocated. -/
def finishdupResume (fdp : filedesc) (new : Nat) (nfp : Option Nat) (fd_flags : UInt8) :
    Nat × filedesc :=
  match nfp with
  | none => (ENOMEM, fdrelse fdp new)
  | some fp =>
    let fdp := { fdp with
      fd_lastfile := if new > fdp.fd_lastfile then new else fdp.fd_lastfile
      fd_ofileflags := fdp.fd_ofileflags.modify new (· ||| fd_flags) }
    (0, procfdtbl_releasefd fdp new (some fp))

/-- The `closeit:` block of `dup2` (kern_descrip.c:828-859) and the `finishdup` after it. -/
def dup2Closeit (fdp : filedesc) (old new macError : Nat) : Dup2Step :=
  if fdp.flags new &&& UF_RESERVED = UF_RESERVED then .waitfd (procfdtbl_waitfd fdp new)
  else if (fdp.ofile new).isSome then
    -- `fp_close_and_unlock` marks the slot in flux before it drops the lock
    .closing { fdp with
      fd_ofileflags := fdp.fd_ofileflags.modify new (· ||| (UF_RESERVED ||| UF_CLOSING)) }
  else finishdupLocked (procfdtbl_reservefd fdp new) old new macError

/-- `fp_close_and_unlock(p, new, nfp, FD_DUP2RESV)` ends by emptying the slot and keeping it
reserved (kern_descrip.c:3402-3405). -/
def closeDup2Resv (fdp : filedesc) (new : Nat) : filedesc :=
  { fdp with
    fd_ofiles := fdp.fd_ofiles.set new none
    fd_ofileflags := fdp.fd_ofileflags.modify new (· &&& ~~~(UF_CLOSING ||| UF_EXCLOSE ||| UF_FORKCLOSE)) }

/-- `dup2` from its `fdalloc` call (kern_descrip.c:820-827), for a `new` past the table. -/
def dup2Alloc (fdp : filedesc) (old new lim macError : Nat) : Dup2Step :=
  match fdallocPass fdp new lim with
  | .emfile => .done EMFILE fdp
  | .grow numfiles => .grow numfiles
  | .found i fdp => if new ≠ i then dup2Closeit (fdrelse fdp i) old new macError
    else finishdupLocked fdp old new macError

/-- `dup2(old, new)` (kern_descrip.c:787-873) from `startover:` to the first time it drops the
lock. File guards are not modelled: `fp_isguarded` is false. -/
def dup2 (fdp : filedesc) (old new nofile maxfilesperproc macError : Nat) : Dup2Step :=
  -- `fp_lookup(p, old, &fp, 1)`
  if fdp.fd_nfiles ≤ old ∨ fdp.ofile old = none ∨ fdp.flags old &&& UF_RESERVED ≠ 0 then
    .done EBADF fdp
  else if new ≥ nofile ∨ new ≥ maxfilesperproc then .done EBADF fdp
  else if old = new then .done 0 fdp
  else if new ≥ fdp.fd_nfiles then
    dup2Alloc fdp old new (min (min nofile INT_MAX) maxfilesperproc) macError
  else dup2Closeit fdp old new macError

/-- The table when `dup2` drops the lock (unchanged while it waits for a larger table). -/
def Dup2Step.table (fdp : filedesc) : Dup2Step → filedesc
  | .done _ fdp' | .waitfd fdp' | .closing fdp' | .allocating fdp' => fdp'
  | .grow _ => fdp

/-! ## Flag bits -/

theorem or_reserved_and_reserved (f : UInt8) : (f ||| UF_RESERVED) &&& UF_RESERVED ≠ 0 := by
  intro h
  have h' := congrArg UInt8.toBitVec h
  simp only [UInt8.toBitVec_and, UInt8.toBitVec_or, UF_RESERVED] at h'
  revert h'
  generalize f.toBitVec = b
  revert b
  decide

theorem or_resvwait_and_reserved (f : UInt8) :
    (f ||| UF_RESVWAIT) &&& UF_RESERVED = f &&& UF_RESERVED := by
  apply UInt8.toBitVec_inj.1
  simp only [UInt8.toBitVec_and, UInt8.toBitVec_or, UF_RESERVED, UF_RESVWAIT]
  generalize f.toBitVec = b
  revert b
  decide

theorem or_closing_and_reserved (f : UInt8) :
    (f ||| (UF_RESERVED ||| UF_CLOSING)) &&& UF_RESERVED ≠ 0 := by
  intro h
  have h' := congrArg UInt8.toBitVec h
  simp only [UInt8.toBitVec_and, UInt8.toBitVec_or, UF_RESERVED, UF_CLOSING] at h'
  revert h'
  generalize f.toBitVec = b
  revert b
  decide

theorem clear_closing_and_reserved (f : UInt8) :
    f &&& ~~~(UF_CLOSING ||| UF_EXCLOSE ||| UF_FORKCLOSE) &&& UF_RESERVED = f &&& UF_RESERVED := by
  apply UInt8.toBitVec_inj.1
  simp only [UInt8.toBitVec_and, UInt8.toBitVec_or, UInt8.toBitVec_not, UF_RESERVED, UF_CLOSING,
    UF_EXCLOSE, UF_FORKCLOSE]
  generalize f.toBitVec = b
  revert b
  decide

theorem or_and_reserved_ne_zero (f g : UInt8) (h : f &&& UF_RESERVED ≠ 0) :
    (f ||| g) &&& UF_RESERVED ≠ 0 := by
  intro h'
  apply h
  apply UInt8.toBitVec_inj.1
  have h'' := congrArg UInt8.toBitVec h'
  simp only [UInt8.toBitVec_and, UInt8.toBitVec_or, BitVec.and_or_distrib_right,
    UInt8.toBitVec_zero, BitVec.or_eq_zero_iff] at h'' ⊢
  exact h''.1

/-! ## What each primitive does to the slots

Every primitive writes one slot. With the two arrays of one length, a write past their end
changes nothing, and a write inside either frees the slot (`procfdtbl_clearfd`), keeps it as it
was, or marks it busy. -/

section Primitives

variable {fdp : filedesc} {fd j : Nat}

/-- Past the arrays a slot is free. -/
theorem busy_of_length_le (h : fdp.fd_ofiles.length ≤ j) (h' : fdp.fd_ofileflags.length ≤ j) :
    fdp.busy j = false := by
  simp only [busy, ofile, flags, List.getD_eq_default _ _ h, List.getD_eq_default _ _ h']
  decide

/-- A reserved slot lies inside the flags array. -/
theorem lt_length_of_reserved (h : fdp.flags j &&& UF_RESERVED ≠ 0) :
    j < fdp.fd_ofileflags.length := by
  by_contra hj
  apply h
  rw [flags, List.getD_eq_default _ _ (Nat.le_of_not_lt hj)]
  decide

theorem busy_reservefd (hl : fdp.fd_ofiles.length = fdp.fd_ofileflags.length) :
    (procfdtbl_reservefd fdp fd).busy j =
      ((j == fd && decide (fd < fdp.fd_ofileflags.length)) || fdp.busy j) := by
  simp only [busy, ofile, flags, procfdtbl_reservefd, Slots.getD_set, Slots.getD_modify, hl]
  by_cases h : fd = j
  · subst h
    by_cases hf : fd < fdp.fd_ofileflags.length
    · simp [hf, or_reserved_and_reserved]
    · simp [hf]
  · simp [h, Ne.symm h]

theorem busy_releasefd (hl : fdp.fd_ofiles.length = fdp.fd_ofileflags.length) {fp : Option Nat}
    (hfp : fp.isSome = true ∨ (fdp.ofile fd).isSome = true) :
    (procfdtbl_releasefd fdp fd fp).busy j =
      ((j == fd && decide (fd < fdp.fd_ofileflags.length)) || fdp.busy j) := by
  by_cases h : fd = j
  · subst h
    by_cases hf : fd < fdp.fd_ofileflags.length
    · -- the slot ends up holding `fp`, or the file it held
      rcases hfp with hfp | hfp
      · simp [busy, ofile, procfdtbl_releasefd, hfp, hl, hf]
      · cases hs : fp.isSome
        · have ho : (procfdtbl_releasefd fdp fd fp).ofile fd = fdp.ofile fd := by
            simp [procfdtbl_releasefd, hs, ofile]
          simp [busy, ho, hfp, hf]
        · simp [busy, ofile, procfdtbl_releasefd, hs, hl, hf]
    · cases fp <;> simp [busy, ofile, flags, procfdtbl_releasefd, hl, hf]
  · cases fp <;> simp [busy, ofile, flags, procfdtbl_releasefd, h, Ne.symm h]

theorem busy_waitfd : (procfdtbl_waitfd fdp fd).busy j = fdp.busy j := by
  simp only [busy, ofile, flags, procfdtbl_waitfd, Slots.getD_modify]
  split_ifs <;> simp [or_resvwait_and_reserved]

theorem busy_clearfd_of_ne (h : j ≠ fd) : (procfdtbl_clearfd fdp fd).busy j = fdp.busy j := by
  simp [busy, ofile, flags, procfdtbl_clearfd, Ne.symm h]

theorem busy_closeDup2Resv (hr : fdp.flags fd &&& UF_RESERVED ≠ 0) :
    (closeDup2Resv fdp fd).busy j = fdp.busy j := by
  by_cases h : fd = j
  · subst h
    have hf := lt_length_of_reserved hr
    simp only [flags, List.getD_eq_getElem?_getD, List.getElem?_eq_getElem hf, Option.getD_some] at hr
    have hb : (fdp.fd_ofileflags[fd] &&& UF_RESERVED != 0) = true := by simpa using hr
    simp [busy, flags, closeDup2Resv, hf, clear_closing_and_reserved, hb]
  · simp [busy, ofile, flags, closeDup2Resv, h]

/-- A flag update that never drops `UF_RESERVED` frees no slot. -/
theorem busy_modify_flags_mono {fdp' : filedesc} {g : UInt8 → UInt8}
    (hg : ∀ f, f &&& UF_RESERVED ≠ 0 → g f &&& UF_RESERVED ≠ 0) (hb : fdp.busy j = true)
    (ho : fdp'.fd_ofiles = fdp.fd_ofiles) (hf : fdp'.fd_ofileflags = fdp.fd_ofileflags.modify fd g) :
    fdp'.busy j = true := by
  simp only [busy, ofile, flags, ho, hf, Slots.getD_modify] at hb ⊢
  split_ifs with h
  · obtain ⟨rfl, -⟩ := h
    simp only [Bool.or_eq_true, bne_iff_ne, ne_eq] at hb ⊢
    rcases hb with hb | hb
    · exact .inl hb
    · exact .inr (hg _ hb)
  · exact hb

theorem busy_fdexpand (numfiles : Nat) : (fdexpand fdp numfiles).busy j = fdp.busy j := by
  unfold fdexpand
  split_ifs
  · rfl
  · simp only [busy, ofile, flags]
    rw [Slots.getD_append_replicate, Slots.getD_append_replicate]

end Primitives

/-! ## The invariant that holds -/

/-- The arrays have `fd_nfiles` slots, every slot below `fd_freefile` is busy, and both hints lie
inside the table. -/
structure Inv (fdp : filedesc) : Prop where
  ofiles_length : fdp.fd_ofiles.length = fdp.fd_nfiles
  flags_length : fdp.fd_ofileflags.length = fdp.fd_nfiles
  busy_below : ∀ fd < fdp.fd_freefile, fdp.busy fd = true
  freefile_le : fdp.fd_freefile ≤ fdp.fd_nfiles
  lastfile_lt : fdp.fd_lastfile < fdp.fd_nfiles

section Invariant

variable {fdp fdp' : filedesc}

theorem Inv.lengths_eq (hI : Inv fdp) : fdp.fd_ofiles.length = fdp.fd_ofileflags.length := by
  rw [hI.ofiles_length, hI.flags_length]

/-- A write that keeps the table's size and `fd_freefile`, frees no slot and keeps
`fd_lastfile` inside keeps the invariant. -/
theorem Inv.of_mono (hI : Inv fdp) (ho : fdp'.fd_ofiles.length = fdp.fd_ofiles.length)
    (hf : fdp'.fd_ofileflags.length = fdp.fd_ofileflags.length)
    (hn : fdp'.fd_nfiles = fdp.fd_nfiles) (hfree : fdp'.fd_freefile = fdp.fd_freefile)
    (hlast : fdp'.fd_lastfile < fdp'.fd_nfiles) (hmono : ∀ j, fdp.busy j = true → fdp'.busy j = true) :
    Inv fdp' where
  ofiles_length := by rw [ho, hn, hI.ofiles_length]
  flags_length := by rw [hf, hn, hI.flags_length]
  busy_below fd h := hmono fd (hI.busy_below fd (hfree ▸ h))
  freefile_le := by rw [hfree, hn]; exact hI.freefile_le
  lastfile_lt := hlast

/-- `fdrelse`'s loop moves only `fd_lastfile`, and only down. -/
theorem lastfileLoop_eq : ∀ (n : Nat) (fdp : filedesc),
    ∃ last ≤ fdp.fd_lastfile, lastfileLoop n fdp = { fdp with fd_lastfile := last }
  | 0, fdp => ⟨fdp.fd_lastfile, Nat.le_refl _, rfl⟩
  | n + 1, fdp => by
    unfold lastfileLoop
    split_ifs with h
    · obtain ⟨last, hle, heq⟩ := lastfileLoop_eq n { fdp with fd_lastfile := fdp.fd_lastfile - 1 }
      exact ⟨last, Nat.le_trans hle (Nat.sub_le _ _), heq⟩
    · exact ⟨fdp.fd_lastfile, Nat.le_refl _, rfl⟩

theorem Inv.reservefd (hI : Inv fdp) (fd : Nat) : Inv (procfdtbl_reservefd fdp fd) :=
  hI.of_mono (by simp [procfdtbl_reservefd]) (by simp [procfdtbl_reservefd]) rfl rfl
    hI.lastfile_lt fun j hj => by simp [busy_reservefd hI.lengths_eq, hj]

theorem Inv.releasefd (hI : Inv fdp) {fd : Nat} {fp : Option Nat}
    (hfp : fp.isSome = true ∨ (fdp.ofile fd).isSome = true) : Inv (procfdtbl_releasefd fdp fd fp) :=
  hI.of_mono (by unfold procfdtbl_releasefd; split_ifs <;> simp) (by simp [procfdtbl_releasefd])
    rfl rfl hI.lastfile_lt fun j hj => by simp [busy_releasefd hI.lengths_eq hfp, hj]

theorem Inv.waitfd (hI : Inv fdp) (fd : Nat) : Inv (procfdtbl_waitfd fdp fd) :=
  hI.of_mono rfl (by simp [procfdtbl_waitfd]) rfl rfl hI.lastfile_lt
    fun j hj => by rw [busy_waitfd]; exact hj

theorem Inv.closeDup2Resv (hI : Inv fdp) {new : Nat} (hr : fdp.flags new &&& UF_RESERVED ≠ 0) :
    Inv (closeDup2Resv fdp new) :=
  hI.of_mono (by simp [Bsd.Descrip.closeDup2Resv]) (by simp [Bsd.Descrip.closeDup2Resv]) rfl rfl
    hI.lastfile_lt
    fun j hj => by rw [busy_closeDup2Resv hr]; exact hj

/-- `fdrelse` frees one slot and lowers `fd_freefile` to it if it was below. -/
theorem Inv.fdrelse (hI : Inv fdp) (fd : Nat) : Inv (fdrelse fdp fd) := by
  set fdp₁ := procfdtbl_clearfd
    { fdp with fd_freefile := if fd < fdp.fd_freefile then fd else fdp.fd_freefile } fd
  have h₁ : Inv fdp₁ := by
    refine ⟨by simp [fdp₁, procfdtbl_clearfd, hI.ofiles_length],
      by simp [fdp₁, procfdtbl_clearfd, hI.flags_length], fun j hj => ?_, ?_, hI.lastfile_lt⟩
    · -- every slot below the new `fd_freefile` is below `fd` and below the old one
      have hjfd : j ≠ fd := by
        simp only [fdp₁, procfdtbl_clearfd] at hj
        split_ifs at hj <;> omega
      have hjfree : j < fdp.fd_freefile := by
        simp only [fdp₁, procfdtbl_clearfd] at hj
        split_ifs at hj <;> omega
      rw [busy_clearfd_of_ne hjfd]
      exact hI.busy_below j hjfree
    · have := hI.freefile_le
      simp only [fdp₁, procfdtbl_clearfd]
      split_ifs <;> omega
  obtain ⟨last, hle, heq⟩ := lastfileLoop_eq fdp₁.fd_lastfile fdp₁
  simp only [Bsd.Descrip.fdrelse]
  rw [heq]
  exact ⟨h₁.ofiles_length, h₁.flags_length, h₁.busy_below, h₁.freefile_le,
    Nat.lt_of_le_of_lt hle h₁.lastfile_lt⟩

theorem Inv.fdexpand (hI : Inv fdp) (numfiles : Nat) : Inv (fdexpand fdp numfiles) := by
  unfold Bsd.Descrip.fdexpand
  split_ifs with h
  · exact hI
  · refine ⟨by simp [hI.ofiles_length]; omega, by simp [hI.flags_length]; omega, ?_, ?_, ?_⟩
    · intro fd hfd
      have := @busy_fdexpand fdp fd numfiles
      unfold Bsd.Descrip.fdexpand at this
      rw [if_neg h] at this
      rw [this]
      exact hI.busy_below fd hfd
    · have := hI.freefile_le
      simp only
      omega
    · have := hI.lastfile_lt
      simp only
      omega

theorem Inv.modify_flags (hI : Inv fdp) {fd : Nat} {g : UInt8 → UInt8}
    (hg : ∀ f, f &&& UF_RESERVED ≠ 0 → g f &&& UF_RESERVED ≠ 0) :
    Inv { fdp with fd_ofileflags := fdp.fd_ofileflags.modify fd g } :=
  hI.of_mono rfl (by simp) rfl rfl hI.lastfile_lt
    fun _ hj => busy_modify_flags_mono hg hj rfl rfl

end Invariant

/-! ## `fdalloc` returns the lowest free slot -/

section Alloc

variable {fdp fdp' : filedesc} {last want lim i : Nat}

/-- What the scan returns is free and inside `[i, last)`, and every slot it passed is busy. -/
theorem fdallocScan_eq_some : ∀ {fuel i r : Nat}, fdallocScan fdp last fuel i = some r →
    i ≤ r ∧ r < last ∧ fdp.busy r = false ∧ ∀ j, i ≤ j → j < r → fdp.busy j = true
  | 0, _, _, h => by simp [fdallocScan] at h
  | fuel + 1, i, r, h => by
    unfold fdallocScan at h
    split_ifs at h with hlast hbusy
    · obtain ⟨hir, hr, hfree, hbefore⟩ := fdallocScan_eq_some h
      refine ⟨by omega, hr, hfree, fun j hij hjr => ?_⟩
      rcases Nat.eq_or_lt_of_le hij with rfl | hlt
      · exact hbusy
      · exact hbefore j hlt hjr
    · cases h
      exact ⟨Nat.le_refl _, hlast, by simpa using hbusy, fun j hij hjr => absurd hjr (by omega)⟩

/-- A scan with `last - i` rounds that finds nothing has passed only busy slots. -/
theorem fdallocScan_eq_none : ∀ {fuel i : Nat}, last ≤ i + fuel →
    fdallocScan fdp last fuel i = none → ∀ j, i ≤ j → j < last → fdp.busy j = true
  | 0, i, hf, _, j, hij, hj => absurd hj (by omega)
  | fuel + 1, i, hf, h, j, hij, hj => by
    unfold fdallocScan at h
    split_ifs at h with hlast hbusy
    · rcases Nat.eq_or_lt_of_le hij with rfl | hlt
      · exact hbusy
      · exact fdallocScan_eq_none (by omega) h j hlt hj
    · omega

/-- The hints do not change which slots are busy. -/
theorem busy_with_hints (fdp : filedesc) (last free j : Nat) :
    ({ fdp with fd_lastfile := last, fd_freefile := free } : filedesc).busy j = fdp.busy j := rfl

/-- A round of `fdalloc` that finds a slot: it is the lowest free slot at or above `want`, below
`lim`, and the table after it keeps the invariant with that slot reserved. -/
theorem fdallocPass_found (hI : Inv fdp) (h : fdallocPass fdp want lim = .found i fdp') :
    want ≤ i ∧ i < lim ∧ fdp.busy i = false ∧ (∀ j, want ≤ j → j < i → fdp.busy j = true) ∧
      fdp'.busy i = true ∧ Inv fdp' := by
  unfold fdallocPass at h
  simp only at h
  split at h
  · rename_i r hs
    obtain ⟨rfl, rfl⟩ := AllocPass.found.inj h
    obtain ⟨hsr, hr, hfree, hbefore⟩ := fdallocScan_eq_some hs
    have hrn : r < fdp.fd_nfiles := Nat.lt_of_lt_of_le hr (Nat.min_le_left _ _)
    -- below the scan's start every slot is busy: the start is `want`, or `fd_freefile`
    have hbusy : ∀ j, want ≤ j → j < r → fdp.busy j = true := fun j hwj hjr => by
      by_cases hjs : j < (if want < fdp.fd_freefile then fdp.fd_freefile else want)
      · exact hI.busy_below j (by split_ifs at hjs <;> omega)
      · exact hbefore j (by omega) hjr
    have hI' := hI.reservefd r
    refine ⟨by split_ifs at hsr <;> omega, Nat.lt_of_lt_of_le hr (Nat.min_le_right _ _), hfree,
      hbusy, ?_, ?_⟩
    · rw [busy_with_hints, busy_reservefd hI.lengths_eq]
      simp [hI.flags_length, hrn]
    · refine ⟨hI'.ofiles_length, hI'.flags_length, fun j hj => ?_, ?_, ?_⟩
      · rw [busy_with_hints, busy_reservefd hI.lengths_eq]
        simp only [Bool.or_eq_true]
        right
        simp only at hj
        split_ifs at hj with hw
        · -- `fd_freefile` moves up to the new slot: everything below it is busy
          by_cases hjs : j < fdp.fd_freefile
          · exact hI.busy_below j hjs
          · exact hbefore j (by split_ifs at hsr ⊢ <;> omega) hj
        · exact hI.busy_below j hj
      · simp only [procfdtbl_reservefd]
        split_ifs <;> have := hI.freefile_le <;> omega
      · simp only [procfdtbl_reservefd]
        split_ifs <;> have := hI.lastfile_lt <;> omega
  · split at h <;> cases h

/-- `fdalloc` reports `EMFILE` only when every slot in `[want, lim)` is busy. -/
theorem fdallocPass_emfile (hI : Inv fdp) (h : fdallocPass fdp want lim = .emfile) :
    ∀ j, want ≤ j → j < lim → fdp.busy j = true := by
  unfold fdallocPass at h
  simp only at h
  split at h
  · cases h
  · rename_i hs
    split_ifs at h with hn
    intro j hwj hj
    by_cases hjs : j < (if want < fdp.fd_freefile then fdp.fd_freefile else want)
    · exact hI.busy_below j (by split_ifs at hjs <;> omega)
    · exact fdallocScan_eq_none (by omega) hs j (by omega) (by omega)

/-- A round that asks for a larger table has found every slot from `want` to the end of the
table busy, and asks for more slots than there are, and no more than `lim`. -/
theorem fdallocPass_grow (hI : Inv fdp) (h : fdallocPass fdp want lim = .grow numfiles) :
    (∀ j, want ≤ j → j < fdp.fd_nfiles → fdp.busy j = true) ∧ fdp.fd_nfiles < numfiles ∧
      numfiles ≤ lim := by
  unfold fdallocPass at h
  simp only at h
  split at h
  · cases h
  · rename_i hs
    have hsize : fdp.fd_nfiles < numfiles ∧ numfiles ≤ lim := by
      split_ifs at h with hn h₁ h₂ <;> cases h <;> simp only [NDEXTENT] at * <;> omega
    have hn : fdp.fd_nfiles < lim := by omega
    refine ⟨fun j hwj hj => ?_, hsize⟩
    by_cases hjs : j < (if want < fdp.fd_freefile then fdp.fd_freefile else want)
    · exact hI.busy_below j (by split_ifs at hjs <;> omega)
    · exact fdallocScan_eq_none (by omega) hs j (by omega) (by omega)

/-- `fdalloc` (with no other thread in the table meanwhile) returns the lowest free slot at or
above `want` and below `lim`, reserved; or `EMFILE` when every slot in `[want, lim)` is busy; or
`ENOMEM` when the table is busy from `want` on and the allocation of a larger one failed. -/
theorem fdalloc_lowest (want lim : Nat) (kheap_alloc : Nat → Bool) :
    ∀ (fuel : Nat) (fdp : filedesc), Inv fdp → lim - fdp.fd_nfiles < fuel →
      ∃ r, fdalloc fdp want lim kheap_alloc fuel = some r ∧
        match r with
        | .ok (i, fdp') => want ≤ i ∧ i < lim ∧ fdp.busy i = false ∧
            (∀ j, want ≤ j → j < i → fdp.busy j = true) ∧ fdp'.busy i = true ∧ Inv fdp'
        | .error e => (e = EMFILE ∧ ∀ j, want ≤ j → j < lim → fdp.busy j = true) ∨
            (e = ENOMEM ∧ (∀ j, want ≤ j → j < fdp.fd_nfiles → fdp.busy j = true) ∧
              ∃ numfiles, fdp.fd_nfiles < numfiles ∧ numfiles ≤ lim ∧ kheap_alloc numfiles = false)
  | 0, _, _, hf => absurd hf (by omega)
  | fuel + 1, fdp, hI, hf => by
    unfold fdalloc
    cases hp : fdallocPass fdp want lim with
    | found i fdp' => exact ⟨_, rfl, fdallocPass_found hI hp⟩
    | emfile => exact ⟨_, rfl, .inl ⟨rfl, fdallocPass_emfile hI hp⟩⟩
    | grow numfiles =>
      obtain ⟨hfull, hlt, hle⟩ := fdallocPass_grow hI hp
      simp only
      by_cases ha : kheap_alloc numfiles = true
      · -- the larger table has the same busy slots and is closer to `lim`
        rw [if_pos ha]
        have hn : (fdexpand fdp numfiles).fd_nfiles = numfiles := by
          simp [fdexpand, Nat.not_le.2 hlt]
        obtain ⟨r, hr, hspec⟩ := fdalloc_lowest want lim kheap_alloc fuel _ (hI.fdexpand numfiles)
          (by omega)
        refine ⟨r, hr, ?_⟩
        simp only [busy_fdexpand, hn] at hspec
        match r, hspec with
        | .ok _, hspec => exact hspec
        | .error _, .inl hemfile => exact .inl hemfile
        | .error _, .inr ⟨he, _, numfiles', hlt', hle', hfail⟩ =>
          exact .inr ⟨he, hfull, numfiles', by omega, hle', hfail⟩
      · rw [if_neg ha]
        exact ⟨_, rfl, .inr ⟨rfl, hfull, numfiles, hlt, hle, by simpa using ha⟩⟩

end Alloc

/-! ## Every interleaving keeps the invariant -/

section Steps

variable {fdp d : filedesc}

/-- `finishdup` up to its unlock frees `new` or leaves the table as it was. -/
theorem Inv.finishdupLocked (hI : Inv fdp) (d : filedesc) (old new macError : Nat) :
    Inv ((finishdupLocked fdp old new macError).table d) := by
  unfold Bsd.Descrip.finishdupLocked
  split_ifs
  · exact hI.fdrelse new
  · exact hI.fdrelse new
  · exact hI

theorem Inv.finishdupResume (hI : Inv fdp) {new : Nat} (hr : fdp.flags new &&& UF_RESERVED ≠ 0)
    (nfp : Option Nat) (fd_flags : UInt8) : Inv (finishdupResume fdp new nfp fd_flags).2 := by
  cases nfp with
  | none => exact hI.fdrelse new
  | some fp =>
    -- `new` is reserved, so it lies inside the table and may become `fd_lastfile`
    have hnew : new < fdp.fd_nfiles := hI.flags_length ▸ lt_length_of_reserved hr
    have hI' : Inv { fdp with
        fd_lastfile := if new > fdp.fd_lastfile then new else fdp.fd_lastfile
        fd_ofileflags := fdp.fd_ofileflags.modify new (· ||| fd_flags) } :=
      hI.of_mono rfl (by simp) rfl rfl (by simp only; split_ifs <;> have := hI.lastfile_lt <;> omega)
        fun _ hj =>
          busy_modify_flags_mono (fun f hf => or_and_reserved_ne_zero f fd_flags hf) hj rfl rfl
    exact hI'.releasefd (.inl rfl)

theorem Inv.dup2Closeit (hI : Inv fdp) (d : filedesc) (old new macError : Nat) :
    Inv ((dup2Closeit fdp old new macError).table d) := by
  unfold Bsd.Descrip.dup2Closeit
  split_ifs
  · exact hI.waitfd new
  · exact hI.modify_flags fun f _ => or_closing_and_reserved f
  · exact (hI.reservefd new).finishdupLocked d old new macError

theorem Inv.dup2Alloc (hI : Inv fdp) (hd : Inv d) (old new lim macError : Nat) :
    Inv ((dup2Alloc fdp old new lim macError).table d) := by
  unfold Bsd.Descrip.dup2Alloc
  cases hp : fdallocPass fdp new lim with
  | emfile => exact hI
  | grow numfiles => exact hd
  | found i fdp' =>
    have hI' := (fdallocPass_found hI hp).2.2.2.2.2
    simp only
    split_ifs
    · exact (hI'.fdrelse i).dup2Closeit d old new macError
    · exact hI'.finishdupLocked d old new macError

theorem Inv.dup2 (hI : Inv fdp) (old new nofile maxfilesperproc macError : Nat) :
    Inv ((dup2 fdp old new nofile maxfilesperproc macError).table fdp) := by
  unfold Bsd.Descrip.dup2
  split_ifs
  · exact hI
  · exact hI
  · exact hI
  · exact hI.dup2Alloc hI old new _ macError
  · exact hI.dup2Closeit fdp old new macError

end Steps

/-- One critical section of the table code: the work between taking `proc_fdlock` and letting
go of it. `procfdtbl_releasefd` is given a file, or releases a slot its caller has already
filled, as every caller of it does. -/
inductive Step : filedesc → filedesc → Prop
  | fdalloc {fdp fdp' : filedesc} {want lim i : Nat} :
      fdallocPass fdp want lim = .found i fdp' → Step fdp fdp'
  | fdexpand (fdp : filedesc) (numfiles : Nat) : Step fdp (fdexpand fdp numfiles)
  | fdrelse (fdp : filedesc) (fd : Nat) : Step fdp (fdrelse fdp fd)
  | releasefd (fdp : filedesc) (fd : Nat) (fp : Option Nat) :
      (fp.isSome = true ∨ (fdp.ofile fd).isSome = true) →
      Step fdp (procfdtbl_releasefd fdp fd fp)
  | dup2 (fdp : filedesc) (old new nofile maxfilesperproc macError : Nat) :
      Step fdp ((dup2 fdp old new nofile maxfilesperproc macError).table fdp)
  | dup2Alloc (fdp : filedesc) (old new lim macError : Nat) :
      Step fdp ((dup2Alloc fdp old new lim macError).table fdp)
  | closeDup2Resv (fdp : filedesc) (new : Nat) :
      fdp.flags new &&& UF_RESERVED ≠ 0 → Step fdp (closeDup2Resv fdp new)
  | finishdupLocked (fdp : filedesc) (old new macError : Nat) :
      Step fdp ((finishdupLocked fdp old new macError).table fdp)
  | finishdupResume (fdp : filedesc) (new : Nat) (nfp : Option Nat) (fd_flags : UInt8) :
      fdp.flags new &&& UF_RESERVED ≠ 0 → Step fdp (finishdupResume fdp new nfp fd_flags).2

/-- The tables that any interleaving of critical sections reaches from one that keeps the
invariant. -/
inductive Reachable : filedesc → Prop
  | init {fdp : filedesc} : Inv fdp → Reachable fdp
  | step {fdp fdp' : filedesc} : Reachable fdp → Step fdp fdp' → Reachable fdp'

theorem Step.inv {fdp fdp' : filedesc} (hI : Inv fdp) (h : Step fdp fdp') : Inv fdp' := by
  cases h with
  | fdalloc hp => exact (fdallocPass_found hI hp).2.2.2.2.2
  | fdexpand numfiles => exact hI.fdexpand numfiles
  | fdrelse fd => exact hI.fdrelse fd
  | releasefd fd fp hfp => exact hI.releasefd hfp
  | dup2 old new nofile maxfilesperproc macError =>
    exact hI.dup2 old new nofile maxfilesperproc macError
  | dup2Alloc old new lim macError => exact hI.dup2Alloc hI old new lim macError
  | closeDup2Resv new hr => exact hI.closeDup2Resv hr
  | finishdupLocked old new macError => exact hI.finishdupLocked _ old new macError
  | finishdupResume new nfp fd_flags hr => exact hI.finishdupResume hr nfp fd_flags

theorem Reachable.inv {fdp : filedesc} (h : Reachable fdp) : Inv fdp := by
  induction h with
  | init hI => exact hI
  | step _ hs ih => exact hs.inv ih

/-- On every table an interleaving reaches, `fdalloc` returns the lowest free slot at or above
`want` and below `lim`, reserved; it reports `EMFILE` only when every slot in `[want, lim)` is
busy, and `ENOMEM` only when the table is busy from `want` to its end and the allocation of a
larger one, of at most `lim` slots, failed. -/
theorem reachable_fdalloc_lowest {fdp : filedesc} (h : Reachable fdp) (want lim : Nat)
    (kheap_alloc : Nat → Bool) :
    ∃ r, fdalloc fdp want lim kheap_alloc (lim - fdp.fd_nfiles + 1) = some r ∧
      match r with
      | .ok (i, fdp') => want ≤ i ∧ i < lim ∧ fdp.busy i = false ∧
          (∀ j, want ≤ j → j < i → fdp.busy j = true) ∧ fdp'.busy i = true
      | .error e => (e = EMFILE ∧ ∀ j, want ≤ j → j < lim → fdp.busy j = true) ∨
          (e = ENOMEM ∧ (∀ j, want ≤ j → j < fdp.fd_nfiles → fdp.busy j = true) ∧
            ∃ numfiles, fdp.fd_nfiles < numfiles ∧ numfiles ≤ lim ∧ kheap_alloc numfiles = false) := by
  obtain ⟨r, hr, hspec⟩ := fdalloc_lowest want lim kheap_alloc _ fdp h.inv (Nat.lt_succ_self _)
  refine ⟨r, hr, ?_⟩
  match r, hspec with
  | .ok (i, fdp'), ⟨hw, hl, hfree, hbelow, hbusy, _⟩ => exact ⟨hw, hl, hfree, hbelow, hbusy⟩
  | .error e, hspec => exact hspec

/-- Three descriptors opened one after another, the middle one closed and opened again: the
table is full, and `fdalloc` from `want = 0` grows it to `NDEXTENT` slots and returns slot `3`. -/
theorem reopened_table_fdalloc :
    let fdp : filedesc := ⟨[some 7, some 10, some 9], [0, 0, 0], 3, 2, 1⟩
    Reachable fdp ∧
      ∃ r, fdalloc fdp 0 60 (fun n => decide (n ≤ 50)) (60 - fdp.fd_nfiles + 1) = some r ∧
        match r with
        | .ok (i, fdp') => 0 ≤ i ∧ i < 60 ∧ fdp.busy i = false ∧
            (∀ j, 0 ≤ j → j < i → fdp.busy j = true) ∧ fdp'.busy i = true
        | .error e => (e = EMFILE ∧ ∀ j, 0 ≤ j → j < 60 → fdp.busy j = true) ∨
            (e = ENOMEM ∧ (∀ j, 0 ≤ j → j < fdp.fd_nfiles → fdp.busy j = true) ∧
              ∃ numfiles, fdp.fd_nfiles < numfiles ∧ numfiles ≤ 60 ∧ decide (numfiles ≤ 50) = false) := by
  intro fdp
  -- each `fdalloc` reserves the lowest free slot, and `procfdtbl_releasefd` puts a file there
  have h₀ : Reachable ⟨[none, none, none], [0, 0, 0], 3, 0, 0⟩ :=
    .init ⟨rfl, rfl, by decide, by decide, by decide⟩
  have h₁ : Reachable ⟨[none, none, none], [4, 0, 0], 3, 0, 0⟩ :=
    .step h₀ (.fdalloc (show fdallocPass ⟨[none, none, none], [0, 0, 0], 3, 0, 0⟩ 0 60 =
      .found 0 ⟨[none, none, none], [4, 0, 0], 3, 0, 0⟩ by decide))
  have h₂ : Reachable ⟨[some 7, none, none], [0, 0, 0], 3, 0, 0⟩ := by
    have := h₁.step (.releasefd _ 0 (some 7) (.inl rfl))
    rwa [show procfdtbl_releasefd ⟨[none, none, none], [4, 0, 0], 3, 0, 0⟩ 0 (some 7) =
      ⟨[some 7, none, none], [0, 0, 0], 3, 0, 0⟩ by decide] at this
  have h₃ : Reachable ⟨[some 7, none, none], [0, 4, 0], 3, 1, 1⟩ :=
    .step h₂ (.fdalloc (show fdallocPass ⟨[some 7, none, none], [0, 0, 0], 3, 0, 0⟩ 0 60 =
      .found 1 ⟨[some 7, none, none], [0, 4, 0], 3, 1, 1⟩ by decide))
  have h₄ : Reachable ⟨[some 7, some 8, none], [0, 0, 0], 3, 1, 1⟩ := by
    have := h₃.step (.releasefd _ 1 (some 8) (.inl rfl))
    rwa [show procfdtbl_releasefd ⟨[some 7, none, none], [0, 4, 0], 3, 1, 1⟩ 1 (some 8) =
      ⟨[some 7, some 8, none], [0, 0, 0], 3, 1, 1⟩ by decide] at this
  have h₅ : Reachable ⟨[some 7, some 8, none], [0, 0, 4], 3, 2, 2⟩ :=
    .step h₄ (.fdalloc (show fdallocPass ⟨[some 7, some 8, none], [0, 0, 0], 3, 1, 1⟩ 0 60 =
      .found 2 ⟨[some 7, some 8, none], [0, 0, 4], 3, 2, 2⟩ by decide))
  have h₆ : Reachable ⟨[some 7, some 8, some 9], [0, 0, 0], 3, 2, 2⟩ := by
    have := h₅.step (.releasefd _ 2 (some 9) (.inl rfl))
    rwa [show procfdtbl_releasefd ⟨[some 7, some 8, none], [0, 0, 4], 3, 2, 2⟩ 2 (some 9) =
      ⟨[some 7, some 8, some 9], [0, 0, 0], 3, 2, 2⟩ by decide] at this
  -- `close(1)`: `fdrelse` frees the slot and moves `fd_freefile` down to it
  have h₇ : Reachable ⟨[some 7, none, some 9], [0, 0, 0], 3, 2, 1⟩ := by
    have := h₆.step (.fdrelse _ 1)
    rwa [show fdrelse ⟨[some 7, some 8, some 9], [0, 0, 0], 3, 2, 2⟩ 1 =
      ⟨[some 7, none, some 9], [0, 0, 0], 3, 2, 1⟩ by decide] at this
  have h₈ : Reachable ⟨[some 7, none, some 9], [0, 4, 0], 3, 2, 1⟩ :=
    .step h₇ (.fdalloc (show fdallocPass ⟨[some 7, none, some 9], [0, 0, 0], 3, 2, 1⟩ 0 60 =
      .found 1 ⟨[some 7, none, some 9], [0, 4, 0], 3, 2, 1⟩ by decide))
  have h₉ : Reachable fdp := by
    have := h₈.step (.releasefd _ 1 (some 10) (.inl rfl))
    rwa [show procfdtbl_releasefd ⟨[some 7, none, some 9], [0, 4, 0], 3, 2, 1⟩ 1 (some 10) = fdp
      by decide] at this
  exact ⟨h₉, reachable_fdalloc_lowest h₉ 0 60 (fun n => decide (n ≤ 50))⟩

/-! ## `fd_lastfile` is not kept -/

/-- The hints as the table code reads them: every slot below `fd_freefile` is busy, no slot
between `fd_lastfile` and `fd_nfiles` is, and both lie inside the table. -/
def hintsHold (fdp : filedesc) : Bool :=
  (List.range fdp.fd_freefile).all fdp.busy &&
    (List.range fdp.fd_nfiles).all (fun fd => fd ≤ fdp.fd_lastfile || !fdp.busy fd) &&
    decide (fdp.fd_freefile ≤ fdp.fd_nfiles) && decide (fdp.fd_lastfile < fdp.fd_nfiles)

/-- Descriptors `0`, `1`, `2` open in a table of `NDFILE = 25` slots: `dup2(0, 10)` reserves slot
`10` and reaches `finishdup`'s unlock with `fd_lastfile` still `2`; when `mac_file_check_dup`
refuses (`EPERM`), `finishdup` calls `fdrelse(p, 10)` with `fd_lastfile = 2`. -/
theorem dup2_reserves_above_lastfile :
    let fdp : filedesc :=
      ⟨[some 100, some 101, some 102] ++ List.replicate 22 none, List.replicate 25 0, 25, 2, 3⟩
    let fdp' := procfdtbl_reservefd fdp 10
    hintsHold fdp = true ∧
      dup2 fdp 0 10 256 10240 0 = .allocating fdp' ∧ hintsHold fdp' = false ∧
      dup2 fdp 0 10 256 10240 1 = .done 1 (fdrelse fdp' 10) ∧
      fdrelse_inconsistent fdp' 10 = true := by
  decide

end Bsd.Descrip
