import Darwin.Lib.Gf256
import Mathlib.Data.Fin.VecNotation
import Mathlib.Algebra.Group.Fin.Basic

/-!
# AES (FIPS-197)

The cipher of FIPS-197 over a state of 4 × 4 bytes (row, column), with the S-box computed from the
field (§5.1.1: the inverse, then the affine map) and MixColumns as a product of field elements
(§5.1.3), so that no table stands in the specification. `keyExpansion` is §5.2's key schedule as
a function of the word index, and `Cipher` / `InvCipher` are the pseudo-code of §5.1 and §5.3.

The inverse cipher undoes the cipher and the other way round, for any number of rounds and any
schedule (`InvCipher_Cipher`, `Cipher_InvCipher`). Each step has its inverse (`invSbox_sbox`,
`InvShiftRows_ShiftRows`, `invMixColumn_mixColumn`, `AddRoundKey_AddRoundKey`); the two ciphers
group their steps into rounds differently, which `foldl_shift` reconciles, and `foldl_reverse_cancel`
unwinds the rounds.
-/

namespace Aes

open Gf256

/-- A word: four bytes. -/
abbrev Word := Fin 4 → UInt8

/-- The state: the byte at row `r`, column `c`. -/
abbrev State := Fin 4 → Fin 4 → UInt8

/-! ## Steps -/

/-- `b` rotated left by `k` bits. -/
def rotl (b k : UInt8) : UInt8 := (b <<< k) ||| (b >>> (8 - k))

/-- The affine map of the S-box: bit `i` is `b_i ⊕ b_(i+4) ⊕ b_(i+5) ⊕ b_(i+6) ⊕ b_(i+7) ⊕ c_i`
with `c = 0x63`, the bit indices modulo 8, that is `b` and its rotations by 1 to 4. -/
def affine (b : UInt8) : UInt8 := b ^^^ rotl b 1 ^^^ rotl b 2 ^^^ rotl b 3 ^^^ rotl b 4 ^^^ 0x63

/-- The inverse affine map (§5.3.2): bit `i` is `b_(i+2) ⊕ b_(i+5) ⊕ b_(i+7) ⊕ d_i`, `d = 0x05`. -/
def invAffine (b : UInt8) : UInt8 := rotl b 6 ^^^ rotl b 3 ^^^ rotl b 1 ^^^ 0x05

def sbox (b : UInt8) : UInt8 := affine (inv b)

def invSbox (b : UInt8) : UInt8 := inv (invAffine b)

def SubBytes (s : State) : State := fun r c => sbox (s r c)

def InvSubBytes (s : State) : State := fun r c => invSbox (s r c)

/-- Row `r` moves `r` places to the left. -/
def ShiftRows (s : State) : State := fun r c => s r (c + r)

def InvShiftRows (s : State) : State := fun r c => s r (c - r)

/-- A column times `{03}x³ + {01}x² + {01}x + {02}` modulo `x⁴ + 1`. -/
def mixColumn (a : Word) : Word := fun r =>
  mul (a r) 0x02 ^^^ mul (a (r + 1)) 0x03 ^^^ a (r + 2) ^^^ a (r + 3)

/-- A column times `{0b}x³ + {0d}x² + {09}x + {0e}` modulo `x⁴ + 1`. -/
def invMixColumn (a : Word) : Word := fun r =>
  mul (a r) 0x0e ^^^ mul (a (r + 1)) 0x0b ^^^ mul (a (r + 2)) 0x0d ^^^ mul (a (r + 3)) 0x09

def MixColumns (s : State) : State := fun r c => mixColumn (fun i => s i c) r

def InvMixColumns (s : State) : State := fun r c => invMixColumn (fun i => s i c) r

/-- Column `c` xor word `c` of the round key. -/
def AddRoundKey (s : State) (k : Fin 4 → Word) : State := fun r c => s r c ^^^ k c r

/-! ## The key schedule (§5.2) -/

def SubWord (w : Word) : Word := fun i => sbox (w i)

def RotWord (w : Word) : Word := fun i => w (i + 1)

/-- `Rcon[j] = [x^(j-1), 0, 0, 0]`. -/
def Rcon (j : Nat) : Word := ![Nat.iterate xtime (j - 1) 1, 0, 0, 0]

def xorWord (a b : Word) : Word := fun i => a i ^^^ b i

/-- Word `i` of the schedule of a key of `Nk` words. -/
def keyExpansion (Nk : Nat) (key : List UInt8) (i : Nat) : Word :=
  if i < Nk ∨ Nk = 0 then fun j : Fin 4 => key.getD (4 * i + j) 0
  else
    let temp := keyExpansion Nk key (i - 1)
    let temp :=
      if i % Nk = 0 then xorWord (SubWord (RotWord temp)) (Rcon (i / Nk))
      else if 6 < Nk ∧ i % Nk = 4 then SubWord temp
      else temp
    xorWord (keyExpansion Nk key (i - Nk)) temp
termination_by i
decreasing_by all_goals omega

theorem keyExpansion_lt {Nk : Nat} {key : List UInt8} {i : Nat} (h : i < Nk) :
    keyExpansion Nk key i = fun j : Fin 4 => key.getD (4 * i + j) 0 := by
  rw [keyExpansion]
  simp [h]

theorem keyExpansion_ge {Nk : Nat} {key : List UInt8} {i : Nat} (h0 : 0 < Nk) (h : Nk ≤ i) :
    keyExpansion Nk key i =
      xorWord (keyExpansion Nk key (i - Nk))
        (if i % Nk = 0 then xorWord (SubWord (RotWord (keyExpansion Nk key (i - 1)))) (Rcon (i / Nk))
          else if 6 < Nk ∧ i % Nk = 4 then SubWord (keyExpansion Nk key (i - 1))
          else keyExpansion Nk key (i - 1)) := by
  rw [keyExpansion]
  simp only [show ¬(i < Nk ∨ Nk = 0) by omega, if_false]

/-! ## The ciphers (§5.1, §5.3) -/

/-- The four words of round `round`. -/
def roundKey (w : Nat → Word) (round : Nat) : Fin 4 → Word := fun c => w (4 * round + c)

def Cipher (Nr : Nat) (w : Nat → Word) (s : State) : State :=
  let s := AddRoundKey s (roundKey w 0)
  let s := (List.range' 1 (Nr - 1)).foldl
    (fun s round => AddRoundKey (MixColumns (ShiftRows (SubBytes s))) (roundKey w round)) s
  AddRoundKey (ShiftRows (SubBytes s)) (roundKey w Nr)

def InvCipher (Nr : Nat) (w : Nat → Word) (s : State) : State :=
  let s := AddRoundKey s (roundKey w Nr)
  let s := (List.range' 1 (Nr - 1)).reverse.foldl
    (fun s round => InvMixColumns (AddRoundKey (InvSubBytes (InvShiftRows s)) (roundKey w round)))
    s
  AddRoundKey (InvSubBytes (InvShiftRows s)) (roundKey w 0)

/-- The state of a block: `in[r + 4c]` at row `r`, column `c` (§3.4). -/
def toState (b : List UInt8) : State := fun r c => b.getD (r + 4 * c) 0

/-- The block of a state, column after column. -/
def ofState (s : State) : List UInt8 :=
  (List.finRange 16).map fun (k : Fin 16) => s ⟨k.val % 4, by omega⟩ ⟨k.val / 4, by omega⟩

/-- AES with a key of `Nk = |key| / 4` words and `Nr = Nk + 6` rounds, on one block. -/
def encrypt (key block : List UInt8) : List UInt8 :=
  ofState (Cipher (key.length / 4 + 6) (keyExpansion (key.length / 4) key) (toState block))

def decrypt (key block : List UInt8) : List UInt8 :=
  ofState (InvCipher (key.length / 4 + 6) (keyExpansion (key.length / 4) key) (toState block))

/-! ## Each step has its inverse -/

/-- What this file checks by evaluation: the two affine maps are inverse on every byte, and on
each one-bit byte the coefficients of InvMixColumns after MixColumns, and of MixColumns after
InvMixColumns, are the identity on the diagonal and zero elsewhere. -/
theorem field_checks :
    allBytes (fun b => invAffine (affine b) == b && affine (invAffine b) == b) = true ∧
      (∀ c ∈ unitBytes, mul (mul c 2) 14 ^^^ mul c 11 ^^^ mul c 13 ^^^ mul (mul c 3) 9 = c) ∧
      (∀ c ∈ unitBytes, mul (mul c 3) 14 ^^^ mul (mul c 2) 11 ^^^ mul c 13 ^^^ mul c 9 = 0) ∧
      (∀ c ∈ unitBytes, mul c 14 ^^^ mul (mul c 3) 11 ^^^ mul (mul c 2) 13 ^^^ mul c 9 = 0) ∧
      (∀ c ∈ unitBytes, mul c 14 ^^^ mul c 11 ^^^ mul (mul c 3) 13 ^^^ mul (mul c 2) 9 = 0) ∧
      (∀ c ∈ unitBytes, mul (mul c 14) 2 ^^^ mul (mul c 9) 3 ^^^ mul c 13 ^^^ mul c 11 = c) ∧
      (∀ c ∈ unitBytes, mul (mul c 11) 2 ^^^ mul (mul c 14) 3 ^^^ mul c 9 ^^^ mul c 13 = 0) ∧
      (∀ c ∈ unitBytes, mul (mul c 13) 2 ^^^ mul (mul c 11) 3 ^^^ mul c 14 ^^^ mul c 9 = 0) ∧
      (∀ c ∈ unitBytes, mul (mul c 9) 2 ^^^ mul (mul c 13) 3 ^^^ mul c 11 ^^^ mul c 14 = 0) := by
  decide +kernel

theorem invAffine_affine (b : UInt8) : invAffine (affine b) = b ∧ affine (invAffine b) = b := by
  have h := allBytes_spec field_checks.1 b
  simpa using h

theorem invSbox_sbox (b : UInt8) : invSbox (sbox b) = b ∧ sbox (invSbox b) = b := by
  constructor
  · rw [invSbox, sbox, (invAffine_affine _).1, inv_inv]
  · rw [invSbox, sbox, inv_inv, (invAffine_affine _).2]

theorem InvSubBytes_SubBytes (s : State) : InvSubBytes (SubBytes s) = s := by
  funext r c
  exact (invSbox_sbox (s r c)).1

theorem SubBytes_InvSubBytes (s : State) : SubBytes (InvSubBytes s) = s := by
  funext r c
  exact (invSbox_sbox (s r c)).2

theorem InvShiftRows_ShiftRows (s : State) : InvShiftRows (ShiftRows s) = s := by
  funext r c
  simp [InvShiftRows, ShiftRows]

theorem ShiftRows_InvShiftRows (s : State) : ShiftRows (InvShiftRows s) = s := by
  funext r c
  simp [InvShiftRows, ShiftRows]

theorem AddRoundKey_AddRoundKey (s : State) (k : Fin 4 → Word) :
    AddRoundKey (AddRoundKey s k) k = s := by
  funext r c
  simp only [AddRoundKey, UInt8.xor_assoc, UInt8.xor_self, UInt8.xor_zero]

/-- The coefficients of one byte of a column through MixColumns and back: the identity on the
diagonal, zero elsewhere. Each is additive in the byte, so the one-bit bytes decide it. -/
theorem invMix_mix_coeffs :
    (fun b => mul (mul b 2) 14 ^^^ mul b 11 ^^^ mul b 13 ^^^ mul (mul b 3) 9) = id ∧
      (fun b => mul (mul b 3) 14 ^^^ mul (mul b 2) 11 ^^^ mul b 13 ^^^ mul b 9) = (fun _ => 0) ∧
      (fun b => mul b 14 ^^^ mul (mul b 3) 11 ^^^ mul (mul b 2) 13 ^^^ mul b 9) = (fun _ => 0) ∧
      (fun b => mul b 14 ^^^ mul b 11 ^^^ mul (mul b 3) 13 ^^^ mul (mul b 2) 9) = (fun _ => 0) := by
  obtain ⟨-, h0, h1, h2, h3, -⟩ := field_checks
  refine ⟨funext (Gf256.Additive.ext ?_ additive_id h0), funext (Gf256.Additive.ext ?_ additive_zero h1),
    funext (Gf256.Additive.ext ?_ additive_zero h2), funext (Gf256.Additive.ext ?_ additive_zero h3)⟩
  -- each coefficient is a sum of products of the byte, so additive
  all_goals
    intro x y
    simp only [mul_xor]
    ac_rfl

/-- The same for MixColumns after InvMixColumns. -/
theorem mix_invMix_coeffs :
    (fun b => mul (mul b 14) 2 ^^^ mul (mul b 9) 3 ^^^ mul b 13 ^^^ mul b 11) = id ∧
      (fun b => mul (mul b 11) 2 ^^^ mul (mul b 14) 3 ^^^ mul b 9 ^^^ mul b 13) = (fun _ => 0) ∧
      (fun b => mul (mul b 13) 2 ^^^ mul (mul b 11) 3 ^^^ mul b 14 ^^^ mul b 9) = (fun _ => 0) ∧
      (fun b => mul (mul b 9) 2 ^^^ mul (mul b 13) 3 ^^^ mul b 11 ^^^ mul b 14) = (fun _ => 0) := by
  obtain ⟨-, -, -, -, -, h0, h1, h2, h3⟩ := field_checks
  refine ⟨funext (Gf256.Additive.ext ?_ additive_id h0), funext (Gf256.Additive.ext ?_ additive_zero h1),
    funext (Gf256.Additive.ext ?_ additive_zero h2), funext (Gf256.Additive.ext ?_ additive_zero h3)⟩
  all_goals
    intro x y
    simp only [mul_xor]
    ac_rfl

/-- Row `0` of InvMixColumns after MixColumns, the column being `x0 … x3`. -/
theorem invMix_mix_row (x0 x1 x2 x3 : UInt8) :
    mul (mul x0 2 ^^^ mul x1 3 ^^^ x2 ^^^ x3) 14 ^^^ mul (mul x1 2 ^^^ mul x2 3 ^^^ x3 ^^^ x0) 11 ^^^
      mul (mul x2 2 ^^^ mul x3 3 ^^^ x0 ^^^ x1) 13 ^^^
      mul (mul x3 2 ^^^ mul x0 3 ^^^ x1 ^^^ x2) 9 = x0 := by
  obtain ⟨h0, h1, h2, h3⟩ := invMix_mix_coeffs
  replace h0 := congrFun h0 x0
  replace h1 := congrFun h1 x1
  replace h2 := congrFun h2 x2
  replace h3 := congrFun h3 x3
  simp only [id] at h0 h1 h2 h3
  simp only [mul_xor]
  -- group the sixteen products by the input byte they multiply
  calc _ = (mul (mul x0 2) 14 ^^^ mul x0 11 ^^^ mul x0 13 ^^^ mul (mul x0 3) 9) ^^^
          (mul (mul x1 3) 14 ^^^ mul (mul x1 2) 11 ^^^ mul x1 13 ^^^ mul x1 9) ^^^
          (mul x2 14 ^^^ mul (mul x2 3) 11 ^^^ mul (mul x2 2) 13 ^^^ mul x2 9) ^^^
          (mul x3 14 ^^^ mul x3 11 ^^^ mul (mul x3 3) 13 ^^^ mul (mul x3 2) 9) := by ac_rfl
    _ = x0 := by rw [h0, h1, h2, h3]; simp

/-- Row `0` of MixColumns after InvMixColumns. -/
theorem mix_invMix_row (x0 x1 x2 x3 : UInt8) :
    mul (mul x0 14 ^^^ mul x1 11 ^^^ mul x2 13 ^^^ mul x3 9) 2 ^^^
      mul (mul x1 14 ^^^ mul x2 11 ^^^ mul x3 13 ^^^ mul x0 9) 3 ^^^
      (mul x2 14 ^^^ mul x3 11 ^^^ mul x0 13 ^^^ mul x1 9) ^^^
      (mul x3 14 ^^^ mul x0 11 ^^^ mul x1 13 ^^^ mul x2 9) = x0 := by
  obtain ⟨h0, h1, h2, h3⟩ := mix_invMix_coeffs
  replace h0 := congrFun h0 x0
  replace h1 := congrFun h1 x1
  replace h2 := congrFun h2 x2
  replace h3 := congrFun h3 x3
  simp only [id] at h0 h1 h2 h3
  simp only [mul_xor]
  calc _ = (mul (mul x0 14) 2 ^^^ mul (mul x0 9) 3 ^^^ mul x0 13 ^^^ mul x0 11) ^^^
          (mul (mul x1 11) 2 ^^^ mul (mul x1 14) 3 ^^^ mul x1 9 ^^^ mul x1 13) ^^^
          (mul (mul x2 13) 2 ^^^ mul (mul x2 11) 3 ^^^ mul x2 14 ^^^ mul x2 9) ^^^
          (mul (mul x3 9) 2 ^^^ mul (mul x3 13) 3 ^^^ mul x3 11 ^^^ mul x3 14) := by ac_rfl
    _ = x0 := by rw [h0, h1, h2, h3]; simp

/-- Sums of row offsets, modulo 4. -/
theorem fin4_add_add :
    ∀ r : Fin 4, r + 1 + 1 = r + 2 ∧ r + 1 + 2 = r + 3 ∧ r + 1 + 3 = r ∧ r + 2 + 1 = r + 3 ∧
      r + 2 + 2 = r ∧ r + 2 + 3 = r + 1 ∧ r + 3 + 1 = r ∧ r + 3 + 2 = r + 1 ∧
      r + 3 + 3 = r + 2 := by
  decide

theorem invMixColumn_mixColumn (a : Word) : invMixColumn (mixColumn a) = a := by
  funext r
  obtain ⟨e11, e12, e13, e21, e22, e23, e31, e32, e33⟩ := fin4_add_add r
  simp only [invMixColumn, mixColumn, e11, e12, e13, e21, e22, e23, e31, e32, e33]
  exact invMix_mix_row _ _ _ _

theorem mixColumn_invMixColumn (a : Word) : mixColumn (invMixColumn a) = a := by
  funext r
  obtain ⟨e11, e12, e13, e21, e22, e23, e31, e32, e33⟩ := fin4_add_add r
  simp only [invMixColumn, mixColumn, e11, e12, e13, e21, e22, e23, e31, e32, e33]
  exact mix_invMix_row _ _ _ _

theorem InvMixColumns_MixColumns (s : State) : InvMixColumns (MixColumns s) = s := by
  funext r c
  exact congrFun (invMixColumn_mixColumn fun i => s i c) r

theorem MixColumns_InvMixColumns (s : State) : MixColumns (InvMixColumns s) = s := by
  funext r c
  exact congrFun (mixColumn_invMixColumn fun i => s i c) r

/-! ## The inverse cipher undoes the cipher -/

/-- Folding `g` over the reversed list after `f` over the list gives back the start, when each
`g i` undoes `f i`. -/
theorem foldl_reverse_cancel {σ ι : Type} (f g : σ → ι → σ) (h : ∀ s i, g (f s i) i = s)
    (l : List ι) (s : σ) : l.reverse.foldl g (l.foldl f s) = s := by
  induction l generalizing s with
  | nil => rfl
  | cons i l ih =>
    rw [List.foldl_cons, List.reverse_cons, List.foldl_append, ih]
    exact h s i

/-- Moving `p` from the front of each pass to its end: the loop of `q i ∘ p` followed by `p` is
`p` followed by the loop of `p ∘ q i`. -/
theorem foldl_shift {σ ι : Type} (p : σ → σ) (q : σ → ι → σ) (l : List ι) (s : σ) :
    p (l.foldl (fun s i => q (p s) i) s) = l.foldl (fun s i => p (q s i)) (p s) := by
  induction l generalizing s with
  | nil => rfl
  | cons i l ih => exact ih (q (p s) i)

theorem InvCipher_Cipher (Nr : Nat) (w : Nat → Word) (s : State) :
    InvCipher Nr w (Cipher Nr w s) = s := by
  -- the inverse passes, regrouped so that each undoes one cipher round
  have hshift := foldl_shift (fun s => InvSubBytes (InvShiftRows s))
    (fun s round => InvMixColumns (AddRoundKey s (roundKey w round)))
  have hround : ∀ t round,
      InvSubBytes (InvShiftRows (InvMixColumns (AddRoundKey
        (AddRoundKey (MixColumns (ShiftRows (SubBytes t))) (roundKey w round))
        (roundKey w round)))) = t := by
    intro t round
    rw [AddRoundKey_AddRoundKey, InvMixColumns_MixColumns, InvShiftRows_ShiftRows,
      InvSubBytes_SubBytes]
  simp only [InvCipher, Cipher, AddRoundKey_AddRoundKey]
  rw [hshift, InvShiftRows_ShiftRows, InvSubBytes_SubBytes,
    foldl_reverse_cancel (fun s round => AddRoundKey (MixColumns (ShiftRows (SubBytes s)))
      (roundKey w round)) (fun s round => InvSubBytes (InvShiftRows (InvMixColumns
        (AddRoundKey s (roundKey w round))))) hround, AddRoundKey_AddRoundKey]

theorem Cipher_InvCipher (Nr : Nat) (w : Nat → Word) (s : State) :
    Cipher Nr w (InvCipher Nr w s) = s := by
  have hshift := foldl_shift (fun s => InvSubBytes (InvShiftRows s))
    (fun s round => InvMixColumns (AddRoundKey s (roundKey w round)))
  have hround : ∀ t round,
      AddRoundKey (MixColumns (ShiftRows (SubBytes (InvSubBytes (InvShiftRows
        (InvMixColumns (AddRoundKey t (roundKey w round)))))))) (roundKey w round) = t := by
    intro t round
    rw [SubBytes_InvSubBytes, ShiftRows_InvShiftRows, MixColumns_InvMixColumns,
      AddRoundKey_AddRoundKey]
  have hcancel := foldl_reverse_cancel (fun s round => InvSubBytes (InvShiftRows (InvMixColumns
      (AddRoundKey s (roundKey w round))))) (fun s round => AddRoundKey (MixColumns (ShiftRows
      (SubBytes s))) (roundKey w round)) hround (List.range' 1 (Nr - 1)).reverse
  rw [List.reverse_reverse] at hcancel
  simp only [InvCipher, Cipher]
  rw [hshift, AddRoundKey_AddRoundKey, hcancel, SubBytes_InvSubBytes, ShiftRows_InvShiftRows,
    AddRoundKey_AddRoundKey]

/-! ## Blocks -/

theorem toState_ofState (s : State) : toState (ofState s) = s := by
  funext r c
  have hk : (r : Nat) + 4 * c < (ofState s).length := by simp [ofState]; omega
  show (ofState s).getD (r + 4 * c) 0 = s r c
  rw [List.getD_eq_getElem?_getD, List.getElem?_eq_getElem hk, Option.getD_some]
  simp only [ofState, List.getElem_map, List.getElem_finRange]
  -- the row and the column of cell `r + 4c`
  congr 1
  · ext
    simp only [Fin.cast_mk]
    omega
  · ext
    simp only [Fin.cast_mk]
    omega

theorem ofState_toState {b : List UInt8} (hb : b.length = 16) : ofState (toState b) = b := by
  apply List.ext_getElem (by simp [ofState, hb])
  intro k hk _
  have hk' : k < 16 := by simpa [ofState] using hk
  simp only [ofState, toState, List.getElem_map, List.getElem_finRange, Fin.cast_mk,
    List.getD_eq_getElem?_getD]
  rw [show k % 4 + 4 * (k / 4) = k by omega, List.getElem?_eq_getElem (by omega),
    Option.getD_some]

theorem decrypt_encrypt (key : List UInt8) {b : List UInt8} (hb : b.length = 16) :
    decrypt key (encrypt key b) = b := by
  rw [decrypt, encrypt, toState_ofState, InvCipher_Cipher, ofState_toState hb]

theorem encrypt_decrypt (key : List UInt8) {b : List UInt8} (hb : b.length = 16) :
    encrypt key (decrypt key b) = b := by
  rw [decrypt, encrypt, toState_ofState, Cipher_InvCipher, ofState_toState hb]

/-! ## Electronic codebook -/

/-- `f` on each whole 16-byte block of `P`, in order. -/
def ecb (f : List UInt8 → List UInt8) (P : List UInt8) : List UInt8 :=
  (List.range (P.length / 16)).flatMap fun i => f ((P.drop (16 * i)).take 16)

theorem length_ofState (s : State) : (ofState s).length = 16 := by
  simp [ofState]

theorem length_block {P : List UInt8} {i : Nat} (hi : i < P.length / 16) :
    ((P.drop (16 * i)).take 16).length = 16 := by
  simp only [List.length_take, List.length_drop]
  omega

/-- The first `n` blocks of a list, each as it is, are its first `16 n` bytes. -/
theorem flatMap_blocks (P : List UInt8) (n : Nat) :
    (List.range n).flatMap (fun i => (P.drop (16 * i)).take 16) = P.take (16 * n) := by
  induction n with
  | zero => simp
  | succ n ih =>
    rw [List.range_succ, List.flatMap_append, ih, List.flatMap_singleton, Nat.mul_succ,
      List.take_add]

section Blocks

variable {h : Nat → List UInt8}

theorem length_flatMap_blocks (hh : ∀ i, (h i).length = 16) (n : Nat) :
    ((List.range n).flatMap h).length = 16 * n := by
  induction n with
  | zero => simp
  | succ n ih =>
    rw [List.range_succ, List.flatMap_append, List.flatMap_singleton, List.length_append, ih, hh]
    omega

/-- Block `i` of `n` blocks of 16 bytes laid end to end. -/
theorem block_flatMap_blocks (hh : ∀ i, (h i).length = 16) {n i : Nat} (hi : i < n) :
    ((((List.range n).flatMap h).drop (16 * i)).take 16) = h i := by
  induction n with
  | zero => omega
  | succ n ih =>
    have hlen := length_flatMap_blocks hh n
    rw [List.range_succ, List.flatMap_append, List.flatMap_singleton]
    rcases Nat.lt_succ_iff_lt_or_eq.mp hi with hi | rfl
    · -- an earlier block: it lies in the first `16 n` bytes
      rw [List.drop_append_of_le_length (by omega),
        List.take_append_of_le_length (by simp only [List.length_drop]; omega), ih hi]
    · -- the last block
      rw [List.drop_append, List.drop_of_length_le (by omega), List.nil_append, hlen, Nat.sub_self,
        List.drop_zero, List.take_of_length_le (by rw [hh])]

end Blocks

theorem length_ecb {f : List UInt8 → List UInt8} (hf : ∀ b, (f b).length = 16) (P : List UInt8) :
    (ecb f P).length = 16 * (P.length / 16) :=
  length_flatMap_blocks (fun _ => hf _) _

/-- When `g` undoes `f` on every block, `ecb g` undoes `ecb f` on whole blocks. -/
theorem ecb_ecb {f g : List UInt8 → List UInt8} (hf : ∀ b, (f b).length = 16)
    (hgf : ∀ b, b.length = 16 → g (f b) = b) {P : List UInt8} (hP : P.length % 16 = 0) :
    ecb g (ecb f P) = P := by
  have hn : (ecb f P).length / 16 = P.length / 16 := by
    rw [length_ecb hf]
    omega
  calc ecb g (ecb f P)
      = (List.range (P.length / 16)).flatMap (fun i => (P.drop (16 * i)).take 16) := by
        rw [ecb, hn]
        refine List.flatMap_congr fun i hi => ?_
        have hi : i < P.length / 16 := List.mem_range.mp hi
        rw [ecb, block_flatMap_blocks (fun _ => hf _) hi, hgf _ (length_block hi)]
    _ = P.take (16 * (P.length / 16)) := flatMap_blocks P _
    _ = P := List.take_of_length_le (by omega)

theorem ecb_decrypt_encrypt (key : List UInt8) {P : List UInt8} (hP : P.length % 16 = 0) :
    ecb (decrypt key) (ecb (encrypt key) P) = P :=
  ecb_ecb (fun _ => length_ofState _) (fun _ hb => decrypt_encrypt key hb) hP

theorem ecb_encrypt_decrypt (key : List UInt8) {P : List UInt8} (hP : P.length % 16 = 0) :
    ecb (encrypt key) (ecb (decrypt key) P) = P :=
  ecb_ecb (fun _ => length_ofState _) (fun _ hb => encrypt_decrypt key hb) hP

end Aes
