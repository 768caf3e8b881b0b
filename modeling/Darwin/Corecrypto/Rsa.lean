import Darwin.Corecrypto.Cczp
import Darwin.Corecrypto.CcnSpec
import Darwin.Corecrypto.Der

/-!
# corecrypto RSA PKCS #1 v1.5 verification (`corecrypto/src/ccrsa.c`, `ccrsa_priv.c`)

| here | there |
| --- | --- |
| `RsaM`, `units`, `bytes` | the unit arrays and the byte arrays the functions below read and write |
| `ccn_read_uint`, `ccn_write_uint` | `ccn.c:420`, `ccn.c:475` |
| `ccrsa_pub_ctx`, `ccrsa_ctx_n`, `ccrsa_ctx_m`, `ccrsa_ctx_e` | `ccrsa.h:63-66` |
| `ccrsa_init_pub` | `ccrsa.c:184` |
| `ccrsa_emsa_pkcs1v15_encode` | `ccrsa_priv.c:65` |
| `ccrsa_verify_pkcs1v15` | `ccrsa.c:95` |
| `os2ip`, `i2osp`, `emsa_pkcs1_v1_5`, `rsassa_pkcs1_v1_5_verify` | RFC 8017 §4, §9.2, §8.2.2, as the contract |

The verifier asks for `8 · sig_len` to equal the bit length of the modulus (`ccrsa.c:117`), so
it rejects every signature under a modulus whose bit length is not a multiple of 8, where
RFC 8017 has `k = ⌈bitlen (N) / 8⌉` bytes (`ccrsa_verify_rejects_unaligned_modulus`).
-/

namespace Corecrypto.Rsa

open Blocks Corecrypto.Ccn Corecrypto.Der

/-- Programs over the unit memory and the byte memory. -/
abbrev RsaM := StateT (Mem UInt64 × Mem UInt8) Option

/-- A program over the units, as a step of `RsaM`. -/
def units {β : Type} (x : CcnM β) : RsaM β := fun s =>
  (x.run s.1).map fun r => (r.1, (r.2, s.2))

/-- A program over the bytes, as a step of `RsaM`. -/
def bytes {β : Type} (x : DerM β) : RsaM β := fun s =>
  (x.run s.2).map fun r => (r.1, (s.1, r.2))

@[simp] theorem units_run {β : Type} (x : CcnM β) (s : Mem UInt64 × Mem UInt8) :
    (units x).run s = (x.run s.1).map fun r => (r.1, (r.2, s.2)) := rfl

@[simp] theorem bytes_run {β : Type} (x : DerM β) (s : Mem UInt64 × Mem UInt8) :
    (bytes x).run s = (x.run s.2).map fun r => (r.1, (s.1, r.2)) := rfl

/-- The leading-zero loop of `ccn_read_uint` (`ccn.c:432`): the first non-zero byte and the
count left from it. -/
def ccn_read_uint_skip (data : Ptr) : Nat → DerM (Ptr × Nat)
  | 0 => pure (data, 0)
  | k + 1 => do
    let b ← load data 0
    if b = 0 then ccn_read_uint_skip (data.add 1) k else pure (data, k + 1)

/-- `ccn_read_uint` (`ccn.c:420`): the big-endian bytes `data[0, data_size)` into `n` units,
`-1` when they need more. Byte `ind` from the end goes to unit `ind / 8`, at bit `8 (ind % 8)`,
with `|=`. -/
def ccn_read_uint (n : Nat) (r : Ptr) (data_size : Nat) (data : Ptr) : RsaM Int := do
  units (ccn_zero n r)
  let (data, data_size) ← bytes (ccn_read_uint_skip data data_size)
  if data_size > 8 * n then pure (-1)
  else
    for k in List.range data_size do
      let c ← bytes (load data ((data_size - 1 - k : Nat) : Int))
      let old ← units (load r (k / 8 : Nat))
      units (store r (k / 8 : Nat) (old ||| (c.toUInt64 <<< (8 * (k % 8)).toUInt64)))
    pure 0

/-- `ccn_write_uint` (`ccn.c:475`): the `n` units at `s` as `out_size` big-endian bytes, the low
bytes of the value last; units past `out_size` bytes are not read. -/
def ccn_write_uint (n : Nat) (s : Ptr) (out_size : Nat) (out : Ptr) : RsaM Unit := do
  bytes (memset out 0 out_size)
  for ccn_idx in List.range n do
    for octet in List.range 8 do
      -- `data_idx` is `out_size - (8 ccn_idx + octet)`
      if 8 * ccn_idx + octet < out_size then
        let v ← units (load s ccn_idx)
        bytes (store out ((out_size - 1 - (8 * ccn_idx + octet) : Nat) : Int)
          ((v >>> (octet * 8).toUInt64) &&& 0xff).toUInt8)

/-- A public key: its `cczp`, whose units are the modulus, its reciprocal and then the exponent
(`ccrsa.h:63-66`). -/
structure ccrsa_pub_ctx where
  zm : cczp

/-- `ccrsa_ctx_n`. -/
def ccrsa_ctx_n (key : ccrsa_pub_ctx) : Nat := key.zm.n

/-- `ccrsa_ctx_m`: the modulus. -/
def ccrsa_ctx_m (key : ccrsa_pub_ctx) : Ptr := key.zm.ccn

/-- `ccrsa_ctx_e`: the exponent, after the modulus and its `n + 1`-unit reciprocal. -/
def ccrsa_ctx_e (key : ccrsa_pub_ctx) : Ptr := (ccrsa_ctx_m key).add (2 * ccrsa_ctx_n key + 1)

/-- `ccrsa_init_pub` (`ccrsa.c:184`): copy the modulus and the exponent, then `cczp_init`. -/
def ccrsa_init_pub (key : ccrsa_pub_ctx) (modulus e : Ptr) : CcnM Int := do
  let mod_n := ccrsa_ctx_n key
  memcpy (ccrsa_ctx_m key) modulus mod_n
  memcpy (ccrsa_ctx_e key) e mod_n
  let _ ← cczp_init key.zm
  pure 0

/-- `ccrsa_emsa_pkcs1v15_encode` (`ccrsa_priv.c:65`): `0x00 0x01 PS 0x00 T` in `em[0, emlen)`,
with `T` the DER `DigestInfo` of the digest, written backwards from its end, or the digest
alone when `oid` is `NULL`. -/
def ccrsa_emsa_pkcs1v15_encode (emlen : Nat) (em : Ptr) (dgstlen : Nat) (dgst : Ptr)
    (oid : Option Ptr) : DerM Int := do
  let alg_info_seq_size ← match oid with
    | none => pure 0
    | some oid => do
      let s ← ccder_sizeof_oid oid
      pure (s + ccder_sizeof CCDER_NULL 0)
  let digest_info_seq_size := if oid.isNone then 0 else
    ccder_sizeof CCDER_CONSTRUCTED_SEQUENCE alg_info_seq_size +
      ccder_sizeof_raw_octet_string dgstlen
  let digest_info_size := if oid.isNone then dgstlen else
    ccder_sizeof CCDER_CONSTRUCTED_SEQUENCE digest_info_seq_size
  if emlen < digest_info_size + 11 then pure (-1)
  else
    let ps := em.add 2
    let ps_len := emlen - digest_info_size - 3
    for i in List.range ps_len do
      store ps i 0xff
    store em 0 0x00
    store em 1 0x01
    store ps ps_len 0x00
    let digest_info := ps.add (ps_len + 1)
    let digest_info_end := digest_info.add digest_info_size
    let h := digest_info_end.add (-(dgstlen : Int))
    for i in List.range dgstlen do
      let b ← load dgst i
      store h i b
    if let some oid := oid then
      let p ← ccder_encode_tl CCDER_OCTET_STRING dgstlen h
      let p ← ccder_encode_tl CCDER_NULL 0 p
      let p ← ccder_encode_oid oid p
      let p ← ccder_encode_tl CCDER_CONSTRUCTED_SEQUENCE alg_info_seq_size p
      let _ ← ccder_encode_tl CCDER_CONSTRUCTED_SEQUENCE digest_info_seq_size p
    pure 0

/-- `ccrsa_verify_pkcs1v15` (`ccrsa.c:95`): the return value and `*valid`. Every `goto fail`
returns `1` with `*valid` still `false`. -/
def ccrsa_verify_pkcs1v15 (key : ccrsa_pub_ctx) (oid : Option Ptr) (digest_len : Nat)
    (digest : Ptr) (sig_len : Nat) (sig : Ptr) : RsaM (Int × Bool) := do
  let mod_size := ccrsa_ctx_n key
  let zp := key.zm
  let modulus := cczp_prime zp
  let exponent := ccrsa_ctx_e key
  let mod_used_bits ← units (ccn_bitlen mod_size modulus)
  let sig_bits := sig_len * 8
  if sig_bits ≠ mod_used_bits then pure (1, false)
  else
    let sig_units := (sig_len + 7) / 8
    let sig_bytes := 8 * sig_units
    let s ← units (alloca (List.replicate mod_size 0))
    let read ← ccn_read_uint sig_units s sig_len sig
    if read ≠ 0 then pure (1, false)
    else
      -- `ccn_cmp (...) >= 0 || ccn_bitlen (...) == 0`
      let c ← units (ccn_cmp sig_units s modulus)
      let out_of_range ← if c ≥ 0 then pure true else do
        let b ← units (ccn_bitlen sig_units s)
        pure (b == 0)
      if out_of_range then pure (1, false)
      else
        let m ← units (alloca (List.replicate mod_size 0))
        units (cczp_power zp m s exponent)
        let em ← bytes (alloca (List.replicate sig_bytes 0))
        ccn_write_uint sig_units m sig_bytes em
        let em_prime ← bytes (alloca (List.replicate sig_bytes 0))
        let encoded ← bytes (ccrsa_emsa_pkcs1v15_encode sig_bytes em_prime digest_len digest oid)
        if encoded ≠ 0 then pure (1, false)
        else
          let d ← bytes (memcmp em em_prime sig_bytes 0)
          pure (0, d == 0)

/-! ## RFC 8017, the contract -/

/-- OS2IP (§4.2): big-endian bytes as a number. -/
def os2ip (X : List UInt8) : Nat := X.foldl (fun a b => 256 * a + b.toNat) 0

/-- I2OSP (§4.1): `x` in `xLen` big-endian bytes, when it fits. -/
def i2osp (x xLen : Nat) : Option (List UInt8) :=
  if x < 256 ^ xLen then
    some ((List.range xLen).reverse.map fun i => (x / 256 ^ i % 256).toUInt8)
  else none

/-- EMSA-PKCS1-v1_5 (§9.2, steps 3 to 5) of the DER encoding `T`:
`0x00 0x01 PS 0x00 T` with `PS` all `0xff`, or nothing when `emLen < tLen + 11`. -/
def emsa_pkcs1_v1_5 (T : List UInt8) (emLen : Nat) : Option (List UInt8) :=
  if emLen < T.length + 11 then none
  else some ([0x00, 0x01] ++ List.replicate (emLen - T.length - 3) 0xff ++ [0x00] ++ T)

/-- RSASSA-PKCS1-V1_5-VERIFY (§8.2.2) under the modulus `N` and exponent `e`, with `T` the
encoded digest: `S` has `k = ⌈bitlen (N) / 8⌉` bytes, `0 < s < N`, and `s^e mod N` in `k`
bytes is the encoding. -/
def rsassa_pkcs1_v1_5_verify (N e : Nat) (T S : List UInt8) : Bool :=
  let k := (Nat.size N + 7) / 8
  let s := os2ip S
  S.length == k && 0 < s && s < N && i2osp (s ^ e % N) k == emsa_pkcs1_v1_5 T k

/-! ## Unaligned moduli -/

/-- The first test of `ccrsa_verify_pkcs1v15`: when `8 · sig_len` is not the bit length of the
modulus it fails at once, with nothing read or written past `ccn_bitlen`. -/
theorem ccrsa_verify_pkcs1v15_run_of_bits_ne {key : ccrsa_pub_ctx} {N : List UInt64}
    {mu : Mem UInt64} {mb : Mem UInt8} (hN : mu.Reads (ccrsa_ctx_m key) N)
    (hn : N.length = ccrsa_ctx_n key) (hpos : 0 < N.length) {sig_len : Nat}
    (hbits : sig_len * 8 ≠ if value N = 0 then 1 else Nat.size (value N))
    (oid : Option Ptr) (digest_len : Nat) (digest sig : Ptr) :
    (ccrsa_verify_pkcs1v15 key oid digest_len digest sig_len sig).run (mu, mb) =
      some ((1, false), (mu, mb)) := by
  have hb := ccn_bitlen_run hN hpos
  rw [hn] at hb
  have hu : (units (ccn_bitlen (ccrsa_ctx_n key) (cczp_prime key.zm))).run (mu, mb) =
      some (if value N = 0 then 1 else Nat.size (value N), (mu, mb)) := by
    simp only [units_run, cczp_prime]
    simp only [ccrsa_ctx_m] at hb
    simp [hb]
  simp only [ccrsa_verify_pkcs1v15, StateT.run_bind, hu, Option.bind_eq_bind, Option.bind_some,
    ne_eq, hbits, not_false_eq_true, if_true]
  rfl

/-- Under a modulus whose bit length is not a multiple of 8, `ccrsa_verify_pkcs1v15` rejects
every signature, of any length, and leaves the memory as it was: `8 · sig_len` is never that bit
length. -/
theorem ccrsa_verify_rejects_unaligned_modulus (key : ccrsa_pub_ctx) (N : List UInt64)
    (mu : Mem UInt64) (mb : Mem UInt8) (hN : mu.Reads (ccrsa_ctx_m key) N)
    (hn : N.length = ccrsa_ctx_n key) (hpos : 0 < N.length) (hbits : Nat.size (value N) % 8 ≠ 0)
    (oid : Option Ptr) (digest_len : Nat) (digest : Ptr) (sig_len : Nat) (sig : Ptr) :
    (ccrsa_verify_pkcs1v15 key oid digest_len digest sig_len sig).run (mu, mb) =
      some ((1, false), (mu, mb)) := by
  have hv : value N ≠ 0 := by
    intro h0
    rw [h0, Nat.size_zero] at hbits
    exact hbits rfl
  refine ccrsa_verify_pkcs1v15_run_of_bits_ne hN hn hpos ?_ oid digest_len digest sig
  rw [if_neg hv]
  omega

/-- The 85-bit modulus `2^84 + 1` with `e = 1`: the 11-byte encoding of the empty `T` is an
RFC 8017 signature of itself, and `ccrsa_verify_pkcs1v15` rejects it. -/
theorem unaligned_modulus_rejects_valid_signature :
    rsassa_pkcs1_v1_5_verify (value [1, 0x100000]) 1 []
        [0x00, 0x01, 0xff, 0xff, 0xff, 0xff, 0xff, 0xff, 0xff, 0xff, 0x00] = true ∧
      (ccrsa_verify_pkcs1v15 ⟨⟨2, ⟨0, 0⟩⟩⟩ none 0 ⟨1, 0⟩ 11 ⟨0, 0⟩).run
          ([[1, 0x100000, 0, 0, 0, 1, 0]],
            [[0x00, 0x01, 0xff, 0xff, 0xff, 0xff, 0xff, 0xff, 0xff, 0xff, 0x00], []]) =
        some ((1, false), ([[1, 0x100000, 0, 0, 0, 1, 0]],
          [[0x00, 0x01, 0xff, 0xff, 0xff, 0xff, 0xff, 0xff, 0xff, 0xff, 0x00], []])) :=
  ⟨by decide,
    ccrsa_verify_rejects_unaligned_modulus _ [1, 0x100000] _ _
      (Mem.Reads.cons_iff.mpr ⟨by decide,
        Mem.Reads.cons_iff.mpr ⟨by decide, fun _ h => absurd h (Nat.not_lt_zero _)⟩⟩)
      rfl (by decide) (by decide) _ _ _ _ _⟩

end Corecrypto.Rsa
