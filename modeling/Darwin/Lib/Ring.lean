import Darwin.Lib.Bytes

/-!
# Length-prefixed records in a byte ring

A producer and a consumer share `cap` bytes of memory and two offsets into it: the consumer
reads at `h`, the producer writes at `t`. A record is a `w`-byte little-endian length word, then
the record's bytes, and it takes `w + pad len` bytes in all, so that `pad` may round the length
up. The producer appends at `t` while the record fits before `cap`; when it does not, it writes
the record at `0` instead, and the consumer must then find out, at the old `t`, that it has to go
back to `0` as well. Whatever the consumer's test at an offset is (`wraps`), the ring holds its
records oldest first as `Holds` says: from `h` to `t`, or, after a wrap, from `h` to a point where
the consumer wraps and from `0` to `t`.

`Live h t` is the part of the memory that the consumer may still read. The lemmas here say how
`Holds` survives a write outside it and the three ways a producer appends, and what the
consumer finds at `h`.
-/

namespace Ring

open Bytes

section Records

variable (w : Nat) (pad : Nat → Nat) (cap : Nat)

/-- The records `rs` lie end to end from `p` to `q` in `mem`: each is its length as a `w`-byte
word, then its bytes, and takes `w + pad len` bytes, ending by `cap`. -/
def Records (mem : Nat → UInt8) : Nat → List (List UInt8) → Nat → Prop
  | p, [], q => q = p
  | p, r :: rs, q => rd w mem p = r.length ∧ bytes mem (p + w) r.length = r ∧
      p + w + pad r.length ≤ cap ∧ Records mem (p + w + pad r.length) rs q

/-- The offsets the consumer may still read: from `h` to `t`, or, once the producer has
wrapped (`t < h`), everything from `h` on and everything below `t`. -/
def Live (h t i : Nat) : Prop := if h ≤ t then h ≤ i ∧ i < t else h ≤ i ∨ i < t

instance (h t i : Nat) : Decidable (Live h t i) := by unfold Live; infer_instance

/-- The ring whose consumer is at `h` and producer at `t` holds `rs`, the records still to be
consumed, oldest first. -/
inductive Holds (wraps : (Nat → UInt8) → Nat → Prop) (mem : Nat → UInt8) (h t : Nat) :
    List (List UInt8) → Prop
  /-- The records lie from `h` to `t`. -/
  | linear {rs : List (List UInt8)} : h ≤ t → t ≤ cap → Records w pad cap mem h rs t →
      Holds wraps mem h t rs
  /-- The producer has wrapped: records from `h` to `e`, where the consumer wraps, then at
  least one from `0` to `t`. -/
  | wrapped {rs₁ rs₂ : List (List UInt8)} {e : Nat} : t < h → h ≤ cap →
      Records w pad cap mem h rs₁ e → wraps mem e → Records w pad cap mem 0 rs₂ t → rs₂ ≠ [] →
      Holds wraps mem h t (rs₁ ++ rs₂)

end Records

variable {w : Nat} {pad : Nat → Nat} {cap : Nat}

namespace Records

variable {mem : Nat → UInt8}

@[simp] theorem nil_iff {p q : Nat} : Records w pad cap mem p [] q ↔ q = p := Iff.rfl

theorem cons_iff {p q : Nat} {r : List UInt8} {rs : List (List UInt8)} :
    Records w pad cap mem p (r :: rs) q ↔ rd w mem p = r.length ∧ bytes mem (p + w) r.length = r ∧
      p + w + pad r.length ≤ cap ∧ Records w pad cap mem (p + w + pad r.length) rs q := Iff.rfl

/-- One record at `p`, ending at `p + w + pad len`. -/
theorem single {p : Nat} {r : List UInt8} (hw : rd w mem p = r.length)
    (hb : bytes mem (p + w) r.length = r) (hc : p + w + pad r.length ≤ cap) :
    Records w pad cap mem p [r] (p + w + pad r.length) :=
  ⟨hw, hb, hc, rfl⟩

theorem le : ∀ {p q : Nat} {rs : List (List UInt8)}, Records w pad cap mem p rs q → p ≤ q
  | _, _, [], h => Nat.le_of_eq h.symm
  | _, _, _ :: _, ⟨_, _, _, h⟩ => by have := le h; omega

theorem le_cap : ∀ {p q : Nat} {rs : List (List UInt8)}, Records w pad cap mem p rs q → rs ≠ [] →
    q ≤ cap
  | _, _, [], _, hne => absurd rfl hne
  | _, _, _ :: [], ⟨_, _, hc, h⟩, _ => by simp only [nil_iff] at h; omega
  | _, _, _ :: _ :: _, ⟨_, _, _, h⟩, _ => le_cap h (List.cons_ne_nil _ _)

/-- With `w > 0` every record takes room, so records that end where they start are none. -/
theorem eq_nil (hw : 0 < w) : ∀ {p : Nat} {rs : List (List UInt8)}, Records w pad cap mem p rs p →
    rs = []
  | _, [], _ => rfl
  | _, _ :: _, ⟨_, _, _, h⟩ => by have := le h; omega

theorem append_iff : ∀ {p q : Nat} {rs₁ rs₂ : List (List UInt8)},
    Records w pad cap mem p (rs₁ ++ rs₂) q ↔
      ∃ e, Records w pad cap mem p rs₁ e ∧ Records w pad cap mem e rs₂ q
  | p, q, [], rs₂ => by simp
  | p, q, r :: rs₁, rs₂ => by
    rw [List.cons_append, cons_iff, append_iff]
    constructor
    · rintro ⟨h₁, h₂, h₃, e, he₁, he₂⟩
      exact ⟨e, ⟨h₁, h₂, h₃, he₁⟩, he₂⟩
    · rintro ⟨e, ⟨h₁, h₂, h₃, he₁⟩, he₂⟩
      exact ⟨h₁, h₂, h₃, e, he₁, he₂⟩

theorem append {p e q : Nat} {rs₁ rs₂ : List (List UInt8)} (h₁ : Records w pad cap mem p rs₁ e)
    (h₂ : Records w pad cap mem e rs₂ q) : Records w pad cap mem p (rs₁ ++ rs₂) q :=
  append_iff.mpr ⟨e, h₁, h₂⟩

/-- Records read only their own bytes, when the padding is at least the length. -/
theorem congr (hw : ∀ n, n ≤ pad n) {mem' : Nat → UInt8} :
    ∀ {p q : Nat} {rs : List (List UInt8)}, Records w pad cap mem p rs q →
      (∀ i, p ≤ i → i < q → mem i = mem' i) → Records w pad cap mem' p rs q
  | _, _, [], h, _ => h
  | p, q, r :: rs, ⟨h₁, h₂, h₃, h₄⟩, hm => by
    have hq := le h₄
    have hr := hw r.length
    refine ⟨?_, ?_, h₃, congr hw h₄ fun i hi hi' => hm i (by omega) hi'⟩
    · rw [← h₁]
      refine (rd_congr fun i hi hi' => ?_).symm
      exact hm i hi (by omega)
    · refine Eq.trans ?_ h₂
      refine (bytes_congr fun i hi hi' => ?_).symm
      exact hm i (by omega) (by omega)

/-- A record that ends by `cap` ends by any larger bound. -/
theorem mono {cap' : Nat} (hcap : cap ≤ cap') :
    ∀ {p q : Nat} {rs : List (List UInt8)}, Records w pad cap mem p rs q →
      Records w pad cap' mem p rs q
  | _, _, [], h => h
  | _, _, _ :: _, ⟨h₁, h₂, h₃, h₄⟩ => ⟨h₁, h₂, Nat.le_trans h₃ hcap, mono hcap h₄⟩

end Records

namespace Holds

variable {wraps : (Nat → UInt8) → Nat → Prop} {mem : Nat → UInt8} {h t : Nat}
  {rs : List (List UInt8)}

theorem le_cap (hh : Holds w pad cap wraps mem h t rs) : h ≤ cap ∧ t ≤ cap := by
  cases hh with
  | linear hle hcap _ => exact ⟨by omega, hcap⟩
  | wrapped hlt hcap _ _ _ _ => exact ⟨hcap, by omega⟩

/-- The consumer has caught up with the producer exactly when nothing is left. -/
theorem eq_iff_nil (hw : 0 < w) (hh : Holds w pad cap wraps mem h t rs) : h = t ↔ rs = [] := by
  cases hh with
  | linear hle _ hr =>
    constructor
    · rintro rfl
      exact Records.eq_nil hw hr
    · rintro rfl
      exact (Records.nil_iff.mp hr).symm
  | wrapped hlt _ _ _ _ hne =>
    constructor
    · intro heq
      omega
    · intro hnil
      exact absurd (List.append_eq_nil_iff.mp hnil).2 hne

theorem nil (hh : h ≤ cap) : Holds w pad cap wraps mem h h [] := .linear (Nat.le_refl h) hh rfl

/-- A write outside the live part keeps the ring, when the consumer's test at an offset reads
nothing below it. -/
theorem congr (hw : ∀ n, n ≤ pad n)
    (hwr : ∀ mem mem' e, (∀ i, e ≤ i → mem i = mem' i) → wraps mem e → wraps mem' e)
    {mem' : Nat → UInt8} (hm : ∀ i, Live h t i → mem i = mem' i)
    (hh : Holds w pad cap wraps mem h t rs) : Holds w pad cap wraps mem' h t rs := by
  cases hh with
  | linear hle hcap hr =>
    refine .linear hle hcap (hr.congr hw fun i hi hi' => hm i ?_)
    simp only [Live, if_pos hle]
    exact ⟨hi, hi'⟩
  | wrapped hlt hcap hr₁ he hr₂ hne =>
    have hlive : ∀ i, h ≤ i → Live h t i := fun i hi => by
      simp only [Live, if_neg (Nat.not_le.mpr hlt)]
      exact .inl hi
    have he' : h ≤ _ := hr₁.le
    refine .wrapped hlt hcap (hr₁.congr hw fun i hi _ => hm i (hlive i hi))
      (hwr mem mem' _ (fun i hi => hm i (hlive i (by omega))) he)
      (hr₂.congr hw fun i _ hi' => hm i ?_) hne
    simp only [Live, if_neg (Nat.not_le.mpr hlt)]
    exact .inr hi'

/-- A write at or past `cap` keeps the ring: the records lie below `cap`, and so does what the
consumer's test at an offset reads. -/
theorem congr_below (hw : ∀ n, n ≤ pad n)
    (hwr : ∀ mem mem' e, (∀ i, e ≤ i → i < cap → mem i = mem' i) → wraps mem e → wraps mem' e)
    {mem' : Nat → UInt8} (hm : ∀ i, Live h t i → i < cap → mem i = mem' i)
    (hh : Holds w pad cap wraps mem h t rs) : Holds w pad cap wraps mem' h t rs := by
  cases hh with
  | linear hle hcap hr =>
    refine .linear hle hcap (hr.congr hw fun i hi hi' => hm i ?_ (by omega))
    simp only [Live, if_pos hle]
    exact ⟨hi, hi'⟩
  | @wrapped rs₁ rs₂ e hlt hcap hr₁ he hr₂ hne =>
    have hlive : ∀ i, h ≤ i → Live h t i := fun i hi => by
      simp only [Live, if_neg (Nat.not_le.mpr hlt)]
      exact .inl hi
    have he' : h ≤ e := hr₁.le
    -- the wrap point is at most `cap`, as the records before it are
    have hecap : e ≤ cap := by
      cases rs₁ with
      | nil =>
        rw [Records.nil_iff.mp hr₁]
        exact hcap
      | cons r rs₁ => exact hr₁.le_cap (List.cons_ne_nil _ _)
    refine .wrapped hlt hcap (hr₁.congr hw fun i hi hi' => hm i (hlive i hi) (by omega))
      (hwr mem mem' _ (fun i hi hi' => hm i (hlive i (by omega)) hi') he)
      (hr₂.congr hw fun i _ hi' => hm i ?_ (by omega)) hne
    simp only [Live, if_neg (Nat.not_le.mpr hlt)]
    exact .inr hi'

/-- A ring within `cap` is a ring within any larger bound, for a weaker test. -/
theorem mono {cap' : Nat} {wraps' : (Nat → UInt8) → Nat → Prop} (hcap : cap ≤ cap')
    (hwr : ∀ mem e, wraps mem e → wraps' mem e) (hh : Holds w pad cap wraps mem h t rs) :
    Holds w pad cap' wraps' mem h t rs := by
  cases hh with
  | linear hle hc hr => exact .linear hle (Nat.le_trans hc hcap) (hr.mono hcap)
  | wrapped hlt hc hr₁ he hr₂ hne =>
    exact .wrapped hlt (Nat.le_trans hc hcap) (hr₁.mono hcap) (hwr _ _ he) (hr₂.mono hcap) hne

/-- The producer appends at `t`, after the records from `h`. -/
theorem push_end {r : List UInt8} {t' : Nat} (hh : Holds w pad cap wraps mem h t rs) (hle : h ≤ t)
    (hr : Records w pad cap mem t [r] t') : Holds w pad cap wraps mem h t' (rs ++ [r]) := by
  cases hh with
  | linear _ _ hrs =>
    exact .linear (Nat.le_trans hle hr.le) (hr.le_cap (List.cons_ne_nil _ _)) (hrs.append hr)
  | wrapped hlt => omega

/-- The producer wraps: the consumer will wrap at `t`, and the record goes to `0`. -/
theorem push_wrap {r : List UInt8} {t' : Nat} (hh : Holds w pad cap wraps mem h t rs) (hle : h ≤ t)
    (he : wraps mem t) (hr : Records w pad cap mem 0 [r] t') (hlt : t' < h) :
    Holds w pad cap wraps mem h t' (rs ++ [r]) := by
  cases hh with
  | linear _ hcap hrs => exact .wrapped hlt (by omega) hrs he hr (List.cons_ne_nil _ _)
  | wrapped hlt' => omega

/-- The producer has wrapped already and appends at `t`, short of `h`. -/
theorem push_behind {r : List UInt8} {t' : Nat} (hh : Holds w pad cap wraps mem h t rs)
    (hlt : t < h) (hr : Records w pad cap mem t [r] t') (hlt' : t' < h) :
    Holds w pad cap wraps mem h t' (rs ++ [r]) := by
  cases hh with
  | linear hle => omega
  | wrapped _ hcap hr₁ he hr₂ hne =>
    rw [List.append_assoc]
    exact .wrapped hlt' hcap hr₁ he (hr₂.append hr) (by simp)

/-- What the consumer finds at `h` when records are left: the oldest one at `h`, or, at the
point where the producer wrapped, the oldest one at `0`. -/
theorem pop {r : List UInt8} (hh : Holds w pad cap wraps mem h t (r :: rs)) :
    (Records w pad cap mem h [r] (h + w + pad r.length) ∧
        Holds w pad cap wraps mem (h + w + pad r.length) t rs) ∨
      (wraps mem h ∧ Records w pad cap mem 0 [r] (w + pad r.length) ∧
        Holds w pad cap wraps mem (w + pad r.length) t rs) := by
  generalize hl : r :: rs = l at hh
  cases hh with
  | linear hle hcap hrs =>
    subst hl
    obtain ⟨h₁, h₂, h₃, h₄⟩ := Records.cons_iff.mp hrs
    exact .inl ⟨⟨h₁, h₂, h₃, rfl⟩, .linear h₄.le hcap h₄⟩
  | @wrapped rs₁ rs₂ e hlt hcap hr₁ he hr₂ hne =>
    cases rs₁ with
    | nil =>
      -- the consumer is at the wrap point: the oldest record is the first at `0`
      obtain rfl : e = h := hr₁
      cases rs₂ with
      | nil => exact absurd rfl hne
      | cons r' rs₂ =>
        obtain ⟨rfl, rfl⟩ := List.cons_eq_cons.mp hl
        obtain ⟨h₁, h₂, h₃, h₄⟩ := Records.cons_iff.mp hr₂
        rw [Nat.zero_add] at h₄
        exact .inr ⟨he, ⟨h₁, h₂, h₃, by simp⟩, .linear h₄.le (by omega) h₄⟩
    | cons r' rs₁ =>
      obtain ⟨rfl, rfl⟩ := List.cons_eq_cons.mp hl
      obtain ⟨h₁, h₂, h₃, h₄⟩ := Records.cons_iff.mp hr₁
      have := h₄.le
      exact .inl ⟨⟨h₁, h₂, h₃, rfl⟩, .wrapped (by omega) (by omega) h₄ he hr₂ hne⟩

end Holds

end Ring
