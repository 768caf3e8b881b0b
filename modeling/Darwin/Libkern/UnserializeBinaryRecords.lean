import Darwin.Libkern.UnserializeBinary

/-!
# What the decoder does with one well-formed record

The encoder writes each record as a key, then its payload padded with zeros to a multiple of four
bytes. This module states what the `switch` of `OSUnserializeBinary` returns on such a record, for
each kind, with the input given as `toMem (pre ++ payload ++ rest)` and `next` at `pre.length`:
the object it builds and how far `bufferPos` and `next` move. The reads it logs are left open.
-/

namespace Libkern.Binary

open Bytes

/-! ## Keys -/

/-- The key `addBinaryObject` writes, with the end bit set on the last element of a collection. -/
theorem record_key (e : Bool) {t len : Nat} (ht : t < 2 ^ 7) (hl : len < 2 ^ 24) :
    (if e = true then 2 ^ 24 * t ||| len ||| kOSSerializeEndCollecton else 2 ^ 24 * t ||| len) =
      2 ^ 31 * e.toNat + 2 ^ 24 * t + len := by
  have hk : 2 ^ 24 * t + len < 2 ^ 31 := by omega
  cases e
  · rw [if_neg (by simp), tag_or_len hl]
    simp
  · rw [if_pos rfl, tag_or_len hl, key_or_end hk]
    simp
    omega

theorem record_key_lt (e : Bool) {t len : Nat} (ht : t < 2 ^ 7) (hl : len < 2 ^ 24) :
    2 ^ 31 * e.toNat + 2 ^ 24 * t + len < 256 ^ 4 := by
  have : e.toNat ≤ 1 := Bool.toNat_le e
  omega

theorem record_endBit (e : Bool) {t len : Nat} (ht : t < 2 ^ 7) (hl : len < 2 ^ 24) :
    (2 ^ 31 * e.toNat + 2 ^ 24 * t + len &&& kOSSerializeEndCollecton != 0) = e := by
  have h := key_endBit ht hl (Bool.toNat_lt e)
  cases e <;> simp_all

/-! ## Memory laid out as a list -/

theorem strnlen_eq {mem : Nat → UInt8} {p n : Nat} (hnz : ∀ i < n, mem (p + i) ≠ 0) :
    ∀ {m : Nat}, n ≤ m → (n < m → mem (p + n) = 0) → strnlen mem p m = n := by
  induction n generalizing p with
  | zero =>
    intro m _ hz
    cases m with
    | zero => rfl
    | succ m =>
      have h0 : mem p = 0 := by simpa using hz (by omega)
      simp [strnlen, h0]
  | succ n ih =>
    intro m hm hz
    obtain ⟨m, rfl⟩ : ∃ m', m = m' + 1 := ⟨m - 1, by omega⟩
    have h0 : mem p ≠ 0 := by simpa using hnz 0 (by omega)
    have ih' := ih (p := p + 1) (fun i hi => by rw [Nat.add_assoc, Nat.add_comm 1 i]; exact hnz (i + 1) (by omega))
      (m := m) (by omega) (fun h => by rw [Nat.add_assoc, Nat.add_comm 1 n]; exact hz (by omega))
    simp [strnlen, h0, ih']

theorem bytesAt_toMem (pre l rest : List UInt8) {n : Nat} (hn : n ≤ l.length) :
    bytesAt (toMem (pre ++ l ++ rest)) pre.length n = l.take n := by
  apply List.ext_getElem
  · simp [bytesAt, hn]
  · intro i h1 h2
    simp only [bytesAt, List.length_map, List.length_range] at h1
    simp only [bytesAt, List.getElem_map, List.getElem_range, List.getElem_take]
    exact toMem_at pre l rest (by omega)

/-- A byte list without NUL, followed by a NUL: what `strnlen` measures. -/
theorem strnlen_toMem (pre l rest : List UInt8) (h0 : (0 : UInt8) ∉ l) {m : Nat} (hm : l.length ≤ m)
    (hz : l.length < m → toMem (pre ++ l ++ rest) (pre.length + l.length) = 0) :
    strnlen (toMem (pre ++ l ++ rest)) pre.length m = l.length :=
  strnlen_eq (fun i hi => by rw [toMem_at pre l rest hi]; exact fun h => h0 (h ▸ List.getElem_mem hi)) hm hz

/-! ## The `switch` on each kind -/

theorem fetch_dictionary (mem : Nat → UInt8) (b : Nat) (ix : Bool) (d : Unser) (e : Bool) {len : Nat}
    (hl : len < 2 ^ 24) :
    fetch mem b ix d (2 ^ 31 * e.toNat + 2 ^ 24 * 1 + len) =
      (d, ⟨some (.inl (.dictionary [])), len != 0, ix⟩) := by
  unfold fetch
  dsimp only
  rw [key_typeMask (by decide : 1 < 2 ^ 7) hl, key_dataMask hl]
  simp [kOSSerializeDictionary]

theorem fetch_array (mem : Nat → UInt8) (b : Nat) (ix : Bool) (d : Unser) (e : Bool) {len : Nat}
    (hl : len < 2 ^ 24) :
    fetch mem b ix d (2 ^ 31 * e.toNat + 2 ^ 24 * 2 + len) = (d, ⟨some (.inl (.array [])), len != 0, ix⟩) := by
  unfold fetch
  dsimp only
  rw [key_typeMask (by decide : 2 < 2 ^ 7) hl, key_dataMask hl]
  simp [kOSSerializeDictionary, kOSSerializeArray]

theorem fetch_set (mem : Nat → UInt8) (b : Nat) (ix : Bool) (d : Unser) (e : Bool) {len : Nat}
    (hl : len < 2 ^ 24) :
    fetch mem b ix d (2 ^ 31 * e.toNat + 2 ^ 24 * 3 + len) = (d, ⟨some (.inl (.set [])), len != 0, ix⟩) := by
  unfold fetch
  dsimp only
  rw [key_typeMask (by decide : 3 < 2 ^ 7) hl, key_dataMask hl]
  simp [kOSSerializeDictionary, kOSSerializeArray,
    kOSSerializeSet]

theorem fetch_number (mem : Nat → UInt8) (b : Nat) (ix : Bool) (d : Unser) (e : Bool) {len : Nat}
    (hl : len < 2 ^ 24) :
    fetch mem b ix d (2 ^ 31 * e.toNat + 2 ^ 24 * 4 + len) = fetchNumber mem b d len := by
  unfold fetch
  dsimp only
  rw [key_typeMask (by decide : 4 < 2 ^ 7) hl, key_dataMask hl]
  simp [kOSSerializeDictionary, kOSSerializeArray,
    kOSSerializeSet, kOSSerializeObject, kOSSerializeNumber]

theorem fetch_symbol (mem : Nat → UInt8) (b : Nat) (ix : Bool) (d : Unser) (e : Bool) {len : Nat}
    (hl : len < 2 ^ 24) :
    fetch mem b ix d (2 ^ 31 * e.toNat + 2 ^ 24 * 8 + len) = fetchSymbol mem b d len := by
  unfold fetch
  dsimp only
  rw [key_typeMask (by decide : 8 < 2 ^ 7) hl, key_dataMask hl]
  simp [kOSSerializeDictionary, kOSSerializeArray,
    kOSSerializeSet, kOSSerializeObject, kOSSerializeNumber, kOSSerializeSymbol]

theorem fetch_string (mem : Nat → UInt8) (b : Nat) (ix : Bool) (d : Unser) (e : Bool) {len : Nat}
    (hl : len < 2 ^ 24) :
    fetch mem b ix d (2 ^ 31 * e.toNat + 2 ^ 24 * 9 + len) = fetchString mem b d len := by
  unfold fetch
  dsimp only
  rw [key_typeMask (by decide : 9 < 2 ^ 7) hl, key_dataMask hl]
  simp [kOSSerializeDictionary, kOSSerializeArray,
    kOSSerializeSet, kOSSerializeObject, kOSSerializeNumber, kOSSerializeSymbol, kOSSerializeString]

theorem fetch_data (mem : Nat → UInt8) (b : Nat) (ix : Bool) (d : Unser) (e : Bool) {len : Nat}
    (hl : len < 2 ^ 24) :
    fetch mem b ix d (2 ^ 31 * e.toNat + 2 ^ 24 * 10 + len) = fetchData mem b d len := by
  unfold fetch
  dsimp only
  rw [key_typeMask (by decide : 10 < 2 ^ 7) hl, key_dataMask hl]
  simp [kOSSerializeDictionary, kOSSerializeArray,
    kOSSerializeSet, kOSSerializeObject, kOSSerializeNumber, kOSSerializeSymbol, kOSSerializeString,
    kOSSerializeData]

theorem fetch_boolean (mem : Nat → UInt8) (b : Nat) (ix : Bool) (d : Unser) (e : Bool) {len : Nat}
    (hl : len < 2 ^ 24) :
    fetch mem b ix d (2 ^ 31 * e.toNat + 2 ^ 24 * 11 + len) =
      (d, ⟨some (.inl (.boolean (len != 0))), false, false⟩) := by
  unfold fetch
  dsimp only
  rw [key_typeMask (by decide : 11 < 2 ^ 7) hl, key_dataMask hl]
  simp [kOSSerializeDictionary, kOSSerializeArray,
    kOSSerializeSet, kOSSerializeObject, kOSSerializeNumber, kOSSerializeSymbol, kOSSerializeString,
    kOSSerializeData, kOSSerializeBoolean]

theorem fetch_object (mem : Nat → UInt8) (b : Nat) (ix : Bool) (d : Unser) (e : Bool) {len : Nat}
    (hl : len < 2 ^ 24) :
    fetch mem b ix d (2 ^ 31 * e.toNat + 2 ^ 24 * 12 + len) = fetchObject d len := by
  unfold fetch
  dsimp only
  rw [key_typeMask (by decide : 12 < 2 ^ 7) hl, key_dataMask hl]
  simp [kOSSerializeDictionary, kOSSerializeArray,
    kOSSerializeSet, kOSSerializeObject]

/-! ## Payloads -/

theorem numberWithNumber_of_lt {value size : Nat} (hv : value < 2 ^ size) :
    numberWithNumber value size = .number size value := by
  rw [numberWithNumber, Nat.and_two_pow_sub_one_eq_mod, Nat.mod_eq_of_lt hv]

/-- `value = next[1]; value <<= 32; value |= next[0];` reads back the eight bytes `le 8` wrote. -/
theorem number_value (pre rest : List UInt8) {value : Nat} (hv : value < 2 ^ 64) :
    (rd 4 (toMem (pre ++ le 8 value ++ rest)) (pre.length + 4) <<< 32) |||
      rd 4 (toMem (pre ++ le 8 value ++ rest)) pre.length = value := by
  have h256 : (256 : Nat) ^ 4 = 2 ^ 32 := rfl
  have hsplit : pre ++ le 8 value ++ rest = pre ++ le 4 value ++ (le 4 (value / 256 ^ 4) ++ rest) := by
    rw [show 8 = 4 + 4 from rfl, le_add]
    simp
  have hsplit' : pre ++ le 8 value ++ rest = (pre ++ le 4 value) ++ le 4 (value / 256 ^ 4) ++ rest := by
    rw [hsplit]
    simp
  have hlo : rd 4 (toMem (pre ++ le 8 value ++ rest)) pre.length = value % 2 ^ 32 := by
    rw [hsplit, rd_le_at, h256]
  have hhi : rd 4 (toMem (pre ++ le 8 value ++ rest)) (pre.length + 4) = value / 2 ^ 32 := by
    have := rd_le_at 4 (value / 256 ^ 4) (pre ++ le 4 value) rest
    rw [List.length_append, length_le] at this
    rw [hsplit', this, h256, Nat.mod_eq_of_lt (by omega)]
  rw [hlo, hhi, Nat.shiftLeft_eq, Nat.mul_comm, or_eq_add_of_lt 32 (Nat.mod_lt _ (by omega))]
  exact Nat.div_add_mod value (2 ^ 32)

theorem fetchNumber_record (pre rest : List UInt8) {b : Nat} {d : Unser} {size value : Nat}
    (hn : d.next = pre.length) (hp : d.bufferPos = pre.length) (hb : pre.length + 8 ≤ b)
    (hsize : size = 8 ∨ size = 16 ∨ size = 32 ∨ size = 64) (hv : value < 2 ^ size) :
    ∃ rs, fetchNumber (toMem (pre ++ le 8 value ++ rest)) b d size =
      ({ d with bufferPos := d.bufferPos + 8, next := d.next + 8, reads := rs },
        ⟨some (.inl (.number size value)), false, false⟩) := by
  have hv64 : value < 2 ^ 64 :=
    lt_of_lt_of_le hv (Nat.pow_le_pow_right (by omega) (by omega))
  unfold fetchNumber
  dsimp only
  rw [if_neg (by omega), if_neg (by omega), hn, number_value pre rest hv64, numberWithNumber_of_lt hv]
  exact ⟨_, rfl⟩

/-- `OSSymbol::withCString` on the characters of a symbol followed by its NUL. -/
theorem symbolWithCString_record (pre str rest : List UInt8) (h0 : (0 : UInt8) ∉ str)
    (hk : str.length < kMaxStringLength) :
    ∃ rs, symbolWithCString (toMem (pre ++ str ++ (0 :: rest))) pre.length = (some (.symbol str), rs) := by
  have hz : toMem (pre ++ str ++ (0 :: rest)) (pre.length + str.length) = 0 := by
    simp [toMem]
  have hn := strnlen_toMem pre str (0 :: rest) h0 hk.le fun _ => hz
  unfold symbolWithCString
  dsimp only
  rw [hn, if_neg (by omega), bytesAt_toMem pre str _ le_rfl, List.take_length]
  exact ⟨_, rfl⟩

theorem fetchSymbol_record (pre pad rest : List UInt8) {b : Nat} {d : Unser} {str : List UInt8}
    (hn : d.next = pre.length) (hp : d.bufferPos = pre.length)
    (hb : pre.length + wordLen (str.length + 1) * 4 ≤ b) (hne : str ≠ []) (h0 : (0 : UInt8) ∉ str)
    (hk : str.length < kMaxStringLength) :
    ∃ rs, fetchSymbol (toMem (pre ++ (str ++ 0 :: pad) ++ rest)) b d (str.length + 1) =
      ({ d with bufferPos := d.bufferPos + wordLen (str.length + 1) * 4,
                next := d.next + wordLen (str.length + 1) * 4, reads := rs },
        ⟨some (.inl (.symbol str)), false, false⟩) := by
  have hmem : pre ++ (str ++ 0 :: pad) ++ rest = pre ++ str ++ (0 :: (pad ++ rest)) := by simp
  have hlen : 0 < str.length := List.length_pos_of_ne_nil hne
  have hz : toMem (pre ++ str ++ (0 :: (pad ++ rest))) (pre.length + str.length) = 0 := by
    simp [toMem]
  obtain ⟨rs, hsym⟩ := symbolWithCString_record pre str (pad ++ rest) h0 hk
  rw [hmem]
  unfold fetchSymbol
  dsimp only
  rw [if_neg (by omega), if_neg (by omega), hn, show pre.length + (str.length + 1) - 1 = pre.length + str.length
    by omega, if_neg (by simpa using hz), hsym]
  exact ⟨_, rfl⟩

/-- `OSString::withStringOfLength` on the characters of a string. -/
theorem stringWithStringOfLength_record (pre str rest : List UInt8) (h0 : (0 : UInt8) ∉ str)
    (hk : str.length < kMaxStringLength) :
    ∃ rs, stringWithStringOfLength (toMem (pre ++ str ++ rest)) pre.length str.length = (some (.string str), rs) := by
  have hn := strnlen_toMem pre str rest h0 (le_refl _) fun h => absurd h (Nat.lt_irrefl _)
  unfold stringWithStringOfLength
  dsimp only
  rw [if_neg (by omega), hn, if_neg (Nat.lt_irrefl _), bytesAt_toMem pre str _ le_rfl, List.take_length]
  exact ⟨_, rfl⟩

theorem fetchString_record (pre pad rest : List UInt8) {b : Nat} {d : Unser} {str : List UInt8}
    (hn : d.next = pre.length) (hp : d.bufferPos = pre.length)
    (hb : pre.length + wordLen str.length * 4 ≤ b) (h0 : (0 : UInt8) ∉ str)
    (hk : str.length < kMaxStringLength) :
    ∃ rs, fetchString (toMem (pre ++ (str ++ pad) ++ rest)) b d str.length =
      ({ d with bufferPos := d.bufferPos + wordLen str.length * 4,
                next := d.next + wordLen str.length * 4, reads := rs },
        ⟨some (.inl (.string str)), false, false⟩) := by
  have hmem : pre ++ (str ++ pad) ++ rest = pre ++ str ++ (pad ++ rest) := by simp
  obtain ⟨rs, hstr⟩ := stringWithStringOfLength_record pre str (pad ++ rest) h0 hk
  rw [hmem]
  unfold fetchString
  dsimp only
  rw [if_neg (by omega), hn, hstr]
  exact ⟨_, rfl⟩

theorem fetchData_record (pre pad rest : List UInt8) {b : Nat} {d : Unser} {bytes : List UInt8}
    (hn : d.next = pre.length) (hp : d.bufferPos = pre.length)
    (hb : pre.length + wordLen bytes.length * 4 ≤ b) :
    ∃ rs, fetchData (toMem (pre ++ (bytes ++ pad) ++ rest)) b d bytes.length =
      ({ d with bufferPos := d.bufferPos + wordLen bytes.length * 4,
                next := d.next + wordLen bytes.length * 4, reads := rs },
        ⟨some (.inl (.data bytes)), false, false⟩) := by
  have hmem : pre ++ (bytes ++ pad) ++ rest = pre ++ bytes ++ (pad ++ rest) := by simp
  rw [hmem]
  unfold fetchData
  dsimp only
  rw [if_neg (by omega), hn, bytesAt_toMem pre bytes _ le_rfl, List.take_length]
  exact ⟨_, rfl⟩

theorem fetchObject_ref {d : Unser} {i : Nat} (hi : i < d.objs.length) :
    ∃ refs, fetchObject d i = ({ d with refs := refs }, ⟨some (.inr i), false, false⟩) := by
  unfold fetchObject
  rw [if_neg (by omega)]
  exact ⟨_, rfl⟩

end Libkern.Binary
