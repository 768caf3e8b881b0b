import Darwin.Libkern.UnserializeBinary

/-!
# `OSUnserializeBinary` stays inside its buffer

The decoder faces input from user space. Every check in its `switch` advances `bufferPos` first
and compares afterwards, each kind with its own arithmetic (`wordLen` rounds a 24-bit length up to
words). This module shows that on every memory and every `bufferSize`:

* every byte offset the decoder reads is below `bufferSize` (`Logged.reads`);
* every back reference it follows names an index below `objsIdx` (`Logged.refs`);
* every index of `stackArray` it reads or writes is below `stackCapacity`, which is at most
  `stackCapacityMax = 64` (`Logged.stackAccess`), so a 64th open collection makes it return `NULL`
  (`descend_full`);
* the loop stops: an iteration that goes round again has consumed four bytes at least
  (`step_head`), so `bufferSize / 4 + 1` iterations never run out (`loop_logged`);
* `objsArray` never holds more than `objsCapacityMax` objects (`OSUnserializeBinary_objs_le`).

The facts are kept by each phase of an iteration; `Step.Holds` carries them through `Step.bind`.
-/

namespace Libkern.Binary

/-! ## A rule for `Step.bind` -/

/-- `P` holds of the state if the loop goes on, `Q` if it stops. -/
def Step.Holds (P Q : Unser → Prop) : Step → Prop
  | .cont s => P s
  | .stop s _ => Q s

theorem Step.Holds.bind {P Q R : Unser → Prop} {r : Step} {f : Unser → Step}
    (hr : r.Holds P Q) (hf : ∀ s, P s → (f s).Holds R Q) : (r.bind f).Holds R Q := by
  cases r with
  | cont s => exact hf s hr
  | stop s ok => exact hr

theorem Step.Holds.mono {P P' Q Q' : Unser → Prop} {r : Step} (h : r.Holds P Q)
    (hP : ∀ s, P s → P' s) (hQ : ∀ s, Q s → Q' s) : r.Holds P' Q' := by
  cases r with
  | cont s => exact hP s h
  | stop s ok => exact hQ s h

/-! ## `strnlen` -/

theorem strnlen_le (mem : Nat → UInt8) (p m : Nat) : strnlen mem p m ≤ m := by
  induction m generalizing p with
  | zero => simp [strnlen]
  | succ m ih =>
    simp only [strnlen]
    split
    · omega
    · have := ih (p + 1); omega

/-- `strnlen` stops at a NUL it meets. -/
theorem strnlen_le_of_nul (mem : Nat → UInt8) (p m j : Nat) (hj : mem (p + j) = 0) :
    strnlen mem p m ≤ j := by
  induction m generalizing p j with
  | zero => simp [strnlen]
  | succ m ih =>
    simp only [strnlen]
    split
    · omega
    · cases j with
      | zero => simp_all
      | succ j =>
        have := ih (p + 1) j (by rw [← hj]; congr 1; omega)
        omega

/-! ## What every state keeps -/

/-- The facts about the logs and the container stack that hold in every state. -/
structure Logged (bufferSize : Nat) (s : Unser) : Prop where
  reads : ∀ r ∈ s.reads, r < bufferSize
  refs : ∀ p ∈ s.refs, p.1 < p.2
  stackAccess : ∀ p ∈ s.stackAccess, p.1 < p.2 ∧ p.2 ≤ stackCapacityMax
  arrayLen : s.stackArray.length = s.stackCapacity
  capacity : s.stackCapacity = 0 ∨ s.stackCapacity = stackCapacityMax
  idx : s.stackIdx ≤ s.stackCapacity

/-- At the head of the loop, in addition: `next` is `bufferPos`, inside the buffer, and the
stack index is a valid slot unless it is zero. -/
structure Head (bufferSize : Nat) (s : Unser) : Prop extends Logged bufferSize s where
  next : s.next = s.bufferPos
  pos : s.bufferPos ≤ bufferSize
  slot : s.stackIdx < s.stackCapacity ∨ s.stackIdx = 0

theorem Logged.ofEq {b : Nat} {s s' : Unser} (h : Logged b s) (hr : ∀ r ∈ s'.reads, r < b)
    (e1 : s'.refs = s.refs) (e2 : s'.stackAccess = s.stackAccess) (e3 : s'.stackArray = s.stackArray)
    (e4 : s'.stackCapacity = s.stackCapacity) (e5 : s'.stackIdx = s.stackIdx) : Logged b s' :=
  ⟨hr, e1 ▸ h.refs, e2 ▸ h.stackAccess, e3 ▸ e4 ▸ h.arrayLen, e4 ▸ h.capacity, e4 ▸ e5 ▸ h.idx⟩

theorem Head.ofEq {b : Nat} {s s' : Unser} (h : Head b s) (hr : ∀ r ∈ s'.reads, r < b)
    (e1 : s'.refs = s.refs) (e2 : s'.stackAccess = s.stackAccess) (e3 : s'.stackArray = s.stackArray)
    (e4 : s'.stackCapacity = s.stackCapacity) (e5 : s'.stackIdx = s.stackIdx)
    (hn : s'.next = s'.bufferPos) (hp : s'.bufferPos ≤ b) : Head b s' :=
  ⟨h.toLogged.ofEq hr e1 e2 e3 e4 e5, hn, hp, e4 ▸ e5 ▸ h.slot⟩

/-- A state that differs from `s` only in fields `Head` does not look at. -/
theorem Head.frame {b : Nat} {s s' : Unser} (h : Head b s) (e0 : s'.reads = s.reads)
    (e1 : s'.refs = s.refs) (e2 : s'.stackAccess = s.stackAccess) (e3 : s'.stackArray = s.stackArray)
    (e4 : s'.stackCapacity = s.stackCapacity) (e5 : s'.stackIdx = s.stackIdx)
    (en : s'.next = s.next) (ep : s'.bufferPos = s.bufferPos) : Head b s' :=
  h.ofEq (e0 ▸ h.reads) e1 e2 e3 e4 e5 (en ▸ ep ▸ h.next) (ep ▸ h.pos)

theorem reads_append {b : Nat} {rs : List Nat} (hrs : ∀ r ∈ rs, r < b) {p n : Nat} (h : p + n ≤ b) :
    ∀ r ∈ rs ++ Bytes.span p n, r < b := by
  intro r hr
  rcases List.mem_append.1 hr with hr | hr
  · exact hrs r hr
  · have := Bytes.mem_span.1 hr; omega

/-! ## The `switch` -/

/-- What the `switch` keeps: its logs lie in the buffer, and when it produces an object, `next` is
again `bufferPos`, which has not moved back and is still inside the buffer. -/
def FetchOk (b : Nat) (s : Unser) (r : Unser × Fetched) : Prop :=
  Logged b r.1 ∧ (r.2.o.isSome → Head b r.1 ∧ s.bufferPos ≤ r.1.bufferPos)

theorem wordLen_bound (len : Nat) : len ≤ wordLen len * 4 := by
  rw [wordLen, Nat.shiftRight_eq_div_pow]; omega

theorem fetchObject_ok {b : Nat} {s : Unser} (h : Head b s) (len : Nat) : FetchOk b s (fetchObject s len) := by
  unfold fetchObject
  split
  · exact ⟨h.toLogged, by simp [Fetched.null]⟩
  · rename_i hlt
    have hl : Logged b { s with refs := s.refs ++ [(len, s.objs.length)] } := by
      refine ⟨h.reads, fun p hp => ?_, h.stackAccess, h.arrayLen, h.capacity, h.idx⟩
      rcases List.mem_append.1 hp with hp | hp
      · exact h.refs p hp
      · simp at hp; subst hp; simp; omega
    exact ⟨hl, fun _ => ⟨⟨hl, h.next, h.pos, h.slot⟩, le_rfl⟩⟩

theorem fetchNumber_ok (mem : Nat → UInt8) {b : Nat} {s : Unser} (h : Head b s) (len : Nat) :
    FetchOk b s (fetchNumber mem b s len) := by
  unfold fetchNumber
  dsimp only
  split_ifs with h1 h2
  · exact ⟨h.toLogged.ofEq h.reads rfl rfl rfl rfl rfl, by simp [Fetched.null]⟩
  · exact ⟨h.toLogged.ofEq h.reads rfl rfl rfl rfl rfl, by simp [Fetched.null]⟩
  · have hr := reads_append h.reads (p := s.next) (n := 8) (by rw [h.next]; omega)
    refine ⟨h.toLogged.ofEq hr rfl rfl rfl rfl rfl, fun _ => ⟨?_, by simp⟩⟩
    exact h.ofEq hr rfl rfl rfl rfl rfl (by simp [h.next]) (by simp; omega)

theorem fetchData_ok (mem : Nat → UInt8) {b : Nat} {s : Unser} (h : Head b s) (len : Nat) :
    FetchOk b s (fetchData mem b s len) := by
  have hw := wordLen_bound len
  unfold fetchData
  dsimp only
  split_ifs with h1
  · exact ⟨h.toLogged.ofEq h.reads rfl rfl rfl rfl rfl, by simp [Fetched.null]⟩
  · have hr := reads_append h.reads (p := s.next) (n := len) (by rw [h.next]; omega)
    refine ⟨h.toLogged.ofEq hr rfl rfl rfl rfl rfl, fun _ => ⟨?_, by simp⟩⟩
    exact h.ofEq hr rfl rfl rfl rfl rfl (by simp [h.next]) (by simp; omega)

theorem stringWithStringOfLength_reads (mem : Nat → UInt8) (p len : Nat) :
    ∀ r ∈ (stringWithStringOfLength mem p len).2, p ≤ r ∧ r < p + len := by
  have := strnlen_le mem p len
  intro r hr
  unfold stringWithStringOfLength at hr
  dsimp only at hr
  split_ifs at hr <;> simp at hr <;> omega

theorem fetchString_ok (mem : Nat → UInt8) {b : Nat} {s : Unser} (h : Head b s) (len : Nat) :
    FetchOk b s (fetchString mem b s len) := by
  have hw := wordLen_bound len
  unfold fetchString
  dsimp only
  split_ifs with h1
  · exact ⟨h.toLogged.ofEq h.reads rfl rfl rfl rfl rfl, by simp [Fetched.null]⟩
  · have hrs := stringWithStringOfLength_reads mem s.next len
    have hr : ∀ r ∈ s.reads ++ (stringWithStringOfLength mem s.next len).2, r < b := by
      intro r hr
      rcases List.mem_append.1 hr with hr | hr
      · exact h.reads r hr
      · have := hrs r hr; rw [h.next] at this; omega
    refine ⟨h.toLogged.ofEq hr rfl rfl rfl rfl rfl, fun _ => ⟨?_, by simp⟩⟩
    exact h.ofEq hr rfl rfl rfl rfl rfl (by simp [h.next]) (by simp; omega)

/-- `OSSymbol::withCString` reads up to the NUL the `switch` checked at `next[len - 1]`. -/
theorem symbolWithCString_reads (mem : Nat → UInt8) (p len : Nat) (hl : 1 ≤ len) (hz : mem (p + (len - 1)) = 0) :
    ∀ r ∈ (symbolWithCString mem p).2, p ≤ r ∧ r < p + len := by
  have h1 := strnlen_le_of_nul mem p kMaxStringLength (len - 1) hz
  intro r hr
  unfold symbolWithCString at hr
  dsimp only at hr
  split_ifs at hr <;> simp at hr <;> omega

theorem fetchSymbol_ok (mem : Nat → UInt8) {b : Nat} {s : Unser} (h : Head b s) (len : Nat) :
    FetchOk b s (fetchSymbol mem b s len) := by
  have hw := wordLen_bound len
  unfold fetchSymbol
  dsimp only
  split_ifs with h1 h2 h3
  · exact ⟨h.toLogged.ofEq h.reads rfl rfl rfl rfl rfl, by simp [Fetched.null]⟩
  · exact ⟨h.toLogged.ofEq h.reads rfl rfl rfl rfl rfl, by simp [Fetched.null]⟩
  · have hr := reads_append h.reads (p := s.next + len - 1) (n := 1) (by rw [h.next]; omega)
    refine ⟨h.toLogged.ofEq (by simpa [Bytes.span] using hr) rfl rfl rfl rfl rfl, by simp [Fetched.null]⟩
  · have hrs := symbolWithCString_reads mem s.next len (by omega) (by
      rw [show s.next + (len - 1) = s.next + len - 1 by omega]; simpa using h3)
    have hr : ∀ r ∈ s.reads ++ [s.next + len - 1] ++ (symbolWithCString mem s.next).2, r < b := by
      intro r hr
      simp only [List.mem_append, List.mem_singleton] at hr
      rcases hr with (hr | hr) | hr
      · exact h.reads r hr
      · rw [h.next] at hr; omega
      · have := hrs r hr; rw [h.next] at this; omega
    refine ⟨h.toLogged.ofEq hr rfl rfl rfl rfl rfl, fun _ => ⟨?_, by simp⟩⟩
    exact h.ofEq hr rfl rfl rfl rfl rfl (by simp [h.next]) (by simp; omega)

theorem fetch_ok (mem : Nat → UInt8) {b : Nat} (indexed : Bool) {s : Unser} (h : Head b s) (key : Nat) :
    FetchOk b s (fetch mem b indexed s key) := by
  have hsame : FetchOk b s (s, ⟨none, false, false⟩) ∧ ∀ o nc hl, FetchOk b s (s, ⟨some o, nc, hl⟩) :=
    ⟨⟨h.toLogged, by simp⟩, fun _ _ _ => ⟨h.toLogged, fun _ => ⟨h, le_rfl⟩⟩⟩
  unfold fetch
  dsimp only
  split_ifs
  all_goals first
    | exact hsame.2 _ _ _
    | exact hsame.1
    | exact fetchObject_ok h _
    | exact fetchNumber_ok mem h _
    | exact fetchSymbol_ok mem h _
    | exact fetchString_ok mem h _
    | exact fetchData_ok mem h _

/-! ## The other phases -/

/-- `s'` agrees with `s` on everything `Head` looks at. -/
def SameHead (s s' : Unser) : Prop :=
  s'.reads = s.reads ∧ s'.refs = s.refs ∧ s'.stackAccess = s.stackAccess ∧ s'.stackArray = s.stackArray ∧
    s'.stackCapacity = s.stackCapacity ∧ s'.stackIdx = s.stackIdx ∧ s'.next = s.next ∧ s'.bufferPos = s.bufferPos

theorem Head.of_frame {b : Nat} {s s' : Unser} (h : Head b s) (hf : SameHead s s') : Head b s' :=
  let ⟨e0, e1, e2, e3, e4, e5, en, ep⟩ := hf
  h.frame e0 e1 e2 e3 e4 e5 en ep

theorem readLength_ok {b : Nat} {s : Unser} (h : Head b s) (hasLength : Bool) :
    (readLength b hasLength s).Holds (fun s' => Head b s' ∧ s.bufferPos ≤ s'.bufferPos) (Logged b) := by
  unfold readLength
  cases hasLength with
  | false => exact ⟨h, le_rfl⟩
  | true =>
    rw [if_pos rfl]
    dsimp only
    split_ifs with h1
    · exact h.toLogged.ofEq h.reads rfl rfl rfl rfl rfl
    · have hr := reads_append h.reads (p := s.next) (n := 4) (by rw [h.next]; omega)
      exact ⟨h.ofEq hr rfl rfl rfl rfl rfl (by simp [h.next]) (by simp; omega), by simp⟩

theorem storeObject_frame (c : DObj) (s : Unser) : (storeObject c s).Holds (SameHead s) (SameHead s) := by
  unfold storeObject
  split_ifs <;> exact ⟨rfl, rfl, rfl, rfl, rfl, rfl, rfl, rfl⟩

theorem attach_frame (s : Unser) (o : Nat) : (attach s o).Holds (SameHead s) (SameHead s) := by
  have hf : ∀ s' : Unser, s'.reads = s.reads → s'.refs = s.refs → s'.stackAccess = s.stackAccess →
      s'.stackArray = s.stackArray → s'.stackCapacity = s.stackCapacity → s'.stackIdx = s.stackIdx →
      s'.next = s.next → s'.bufferPos = s.bufferPos → SameHead s s' :=
    fun _ e0 e1 e2 e3 e4 e5 e6 e7 => ⟨e0, e1, e2, e3, e4, e5, e6, e7⟩
  unfold attach
  split
  · split
    · exact hf _ rfl rfl rfl rfl rfl rfl rfl rfl
    · dsimp only
      split_ifs
      · exact hf _ rfl rfl rfl rfl rfl rfl rfl rfl
      · split <;> exact hf _ rfl rfl rfl rfl rfl rfl rfl rfl
  · exact hf _ rfl rfl rfl rfl rfl rfl rfl rfl
  · split
    · split_ifs <;> exact hf _ rfl rfl rfl rfl rfl rfl rfl rfl
    · exact hf _ rfl rfl rfl rfl rfl rfl rfl rfl
  · split_ifs <;> exact hf _ rfl rfl rfl rfl rfl rfl rfl rfl

/-- **`setAtIndex(stack, stackIdx, parent)`**: the slot written is below the capacity, which grows
once, from 0 to 64; past that the push fails. -/
theorem descend_ok {b : Nat} {s : Unser} (h : Head b s) (o : Nat) (c : DObj) :
    (descend o c s).Holds (fun s' => Head b s' ∧ s'.bufferPos = s.bufferPos) (Logged b) := by
  obtain ⟨⟨r1, r2, r3, r4, r5, r6⟩, hn, hp, hsl⟩ := h
  have hcap : s.stackCapacity ≤ stackCapacityMax := by rcases r5 with h5 | h5 <;> omega
  unfold descend
  dsimp only
  by_cases hfull : s.stackIdx + 1 ≥ s.stackCapacity ∧ s.stackCapacity ≥ stackCapacityMax
  · rw [if_pos hfull]
    exact ⟨r1, r2, r3, r4, r5, by simp only [stackCapacityMax] at *; omega⟩
  rw [if_neg hfull]
  by_cases hg : s.stackIdx + 1 ≥ s.stackCapacity
  · -- the array grows from 0 to 64 slots
    have h0 : s.stackCapacity = 0 := by simp only [stackCapacityMax] at *; omega
    simp only [hg, if_true]
    refine ⟨⟨⟨r1, r2, fun p hp => ?_, by simp [r4], ?_, ?_⟩, hn, hp, ?_⟩, rfl⟩
    · rcases List.mem_append.1 hp with hp | hp
      · exact r3 p hp
      · simp at hp; subst hp; simp [stackCapacityMax]; omega
    · right; simp [stackCapacityMax, h0]
    · simp; omega
    · left; simp; omega
  · simp only [hg, if_false]
    refine ⟨⟨⟨r1, r2, fun p hp => ?_, by simp [r4], r5, ?_⟩, hn, hp, ?_⟩, rfl⟩
    · rcases List.mem_append.1 hp with hp | hp
      · exact r3 p hp
      · simp at hp; subst hp; omega
    · simp; omega
    · left; simp; omega

theorem popParent_ok {b : Nat} : ∀ (n : Nat) {s : Unser}, Head b s → n ≤ s.stackIdx →
    Head b (popParent s n) ∧ (popParent s n).bufferPos = s.bufferPos
  | 0, s, h, _ => ⟨h, rfl⟩
  | n + 1, s, h, hn => by
    obtain ⟨⟨r1, r2, r3, r4, r5, r6⟩, hnx, hp, hsl⟩ := h
    have hlt : s.stackIdx < s.stackCapacity := by omega
    have hcap : s.stackCapacity ≤ stackCapacityMax := by rcases r5 with h5 | h5 <;> omega
    have h' : Head b { s with parent := s.stackArray.getD s.stackIdx none, stackIdx := s.stackIdx - 1,
                              stackAccess := s.stackAccess ++ [(s.stackIdx, s.stackCapacity)] } := by
      refine ⟨⟨r1, r2, fun p hp => ?_, r4, r5, by simp; omega⟩, hnx, hp, by simp; omega⟩
      rcases List.mem_append.1 hp with hp | hp
      · exact r3 p hp
      · simp at hp; subst hp; exact ⟨hlt, hcap⟩
    simp only [popParent]
    split
    · exact ⟨h', rfl⟩
    · exact popParent_ok n h' (by simp; omega)

theorem unwind_ok {b : Nat} {s : Unser} (h : Head b s) :
    (unwind s).Holds (fun s' => Head b s' ∧ s'.bufferPos = s.bufferPos) (Logged b) := by
  have h0 : Head b { s with parent := none } := h.of_frame ⟨rfl, rfl, rfl, rfl, rfl, rfl, rfl, rfl⟩
  obtain ⟨hp, hpos⟩ := popParent_ok s.stackIdx h0 le_rfl
  unfold unwind
  dsimp only
  split
  · exact hp.toLogged
  · have hf : SameHead (popParent { s with parent := none } s.stackIdx)
        { popParent { s with parent := none } s.stackIdx with set := none, dict := none, array := none } :=
      ⟨rfl, rfl, rfl, rfl, rfl, rfl, rfl, rfl⟩
    split
    all_goals first
      | exact ⟨(hp.of_frame hf).of_frame ⟨rfl, rfl, rfl, rfl, rfl, rfl, rfl, rfl⟩, hpos⟩
      | exact (hp.of_frame hf).toLogged

/-! ## One iteration -/

/-- A head state whose `bufferPos` has reached `lo`. -/
def Ahead (b lo : Nat) (s : Unser) : Prop := Head b s ∧ lo ≤ s.bufferPos

theorem Step.Holds.ahead {b lo : Nat} {s : Unser} {r : Step} (hr : r.Holds (SameHead s) (SameHead s))
    (h : Ahead b lo s) : r.Holds (Ahead b lo) (Logged b) :=
  hr.mono (fun _ hf => ⟨h.1.of_frame hf, hf.2.2.2.2.2.2.2 ▸ h.2⟩) (fun _ hf => (h.1.of_frame hf).toLogged)

/-- **The loop body**: it stops with its logs in the buffer, or comes round again at a head state
four bytes further on. -/
theorem step_head (mem : Nat → UInt8) {b : Nat} (indexed : Bool) {s : Unser} (h : Head b s) :
    (step mem b indexed s).Holds (Ahead b (s.bufferPos + 4)) (Logged b) := by
  unfold step
  dsimp only
  by_cases h1 : s.bufferPos + 4 > b
  · rw [if_pos h1]
    exact h.toLogged.ofEq h.reads rfl rfl rfl rfl rfl
  rw [if_neg h1]
  generalize (Bytes.rd 4 mem s.next &&& kOSSerializeEndCollecton != 0) = end_
  -- the key has been read
  have hr := reads_append h.reads (p := s.next) (n := 4) (by rw [h.next]; omega)
  have hk : Head b { s with bufferPos := s.bufferPos + 4, next := s.next + 4,
                            reads := s.reads ++ Bytes.span s.next 4 } :=
    h.ofEq hr rfl rfl rfl rfl rfl (by simp [h.next]) (by simp; omega)
  have hf := fetch_ok mem indexed hk (Bytes.rd 4 mem s.next)
  generalize fetch mem b indexed _ _ = r at hf ⊢
  obtain ⟨s1, ⟨o, newCollect, hasLength⟩⟩ := r
  cases o with
  | none => exact hf.1
  | some fo =>
    have h1 : Ahead b (s.bufferPos + 4) s1 := hf.2 rfl
    unfold finish
    refine (readLength_ok h1.1 hasLength).bind fun s2 h2 => ?_
    have h2 : Ahead b (s.bufferPos + 4) s2 := ⟨h2.1, le_trans h1.2 h2.2⟩
    refine Step.Holds.bind (P := Ahead b (s.bufferPos + 4)) ?_ fun s3 h3 => ?_
    · cases fo with
      | inl c => exact (storeObject_frame c s2).ahead h2
      | inr i => exact h2
    refine ((attach_frame s3 _).ahead h3).bind fun s4 h4 => ?_
    -- the end bit clears `parent` before the push or the pop
    have h5 : Ahead b (s.bufferPos + 4) (if end_ then { s4 with parent := none } else s4) := by
      cases end_
      · exact h4
      · exact ⟨h4.1.of_frame ⟨rfl, rfl, rfl, rfl, rfl, rfl, rfl, rfl⟩, h4.2⟩
    generalize (if end_ then { s4 with parent := none } else s4) = s5 at h5 ⊢
    split
    · exact (descend_ok h5.1 _ _).mono (fun _ h' => ⟨h'.1, h'.2 ▸ h5.2⟩) (fun _ h' => h')
    · split
      · exact (unwind_ok h5.1).mono (fun _ h' => ⟨h'.1, h'.2 ▸ h5.2⟩) (fun _ h' => h')
      · exact h5

/-! ## The whole run -/

/-- Induction on the fuel, with `(bufferSize - bufferPos) / 4` below it: `step_head` lowers that
measure on every iteration that goes round again, so the fuel never runs out. -/
theorem loop_logged (mem : Nat → UInt8) {b : Nat} (indexed : Bool) :
    ∀ (fuel : Nat) {s : Unser}, Head b s → (b - s.bufferPos) / 4 < fuel →
      ∃ s' ok, loop mem b indexed fuel s = some (s', ok) ∧ Logged b s'
  | 0, _, _, hf => absurd hf (Nat.not_lt_zero _)
  | fuel + 1, s, h, hf => by
    have hs := step_head mem indexed h
    simp only [loop]
    generalize step mem b indexed s = r at hs
    cases r with
    | cont s' =>
      have hpos := hs.1.pos
      exact loop_logged mem indexed fuel hs.1 (by have := hs.2; omega)
    | stop s' ok => exact ⟨s', ok, rfl, hs⟩

theorem init_head {b : Nat} (hb : 4 ≤ b) {rs : List Nat} (hrs : ∀ r ∈ rs, r < b) : Head b (Unser.init rs) :=
  ⟨⟨hrs, by simp [Unser.init], by simp [Unser.init], rfl, Or.inl rfl, le_rfl⟩, rfl, hb, Or.inr rfl⟩

/-- `objsArray` holds at most `objsCapacity` objects, a multiple of `64` that is at most
`objsCapacityMax`. -/
def ObjsFit (s : Unser) : Prop :=
  s.objs.length ≤ s.objsCapacity ∧ s.objsCapacity ≤ objsCapacityMax ∧ s.objsCapacity % 64 = 0

/-- `s'` has as many objects as `s`, and the same capacity. -/
def SameObjs (s s' : Unser) : Prop := s'.objs.length = s.objs.length ∧ s'.objsCapacity = s.objsCapacity

theorem ObjsFit.of_same {s s' : Unser} (h : ObjsFit s) (hs : SameObjs s s') : ObjsFit s' := by
  obtain ⟨hl, hc⟩ := hs
  unfold ObjsFit
  rw [hl, hc]
  exact h

theorem Step.Holds.objsFit {s : Unser} {r : Step} (hr : r.Holds (SameObjs s) (SameObjs s)) (h : ObjsFit s) :
    r.Holds ObjsFit ObjsFit :=
  hr.mono (fun _ hs => h.of_same hs) (fun _ hs => h.of_same hs)

/-- The `switch` reads the objects array but does not change it. -/
theorem fetch_sameObjs (mem : Nat → UInt8) (b : Nat) (indexed : Bool) (s : Unser) (key : Nat) :
    SameObjs s (fetch mem b indexed s key).1 := by
  have h1 : ∀ len, SameObjs s (fetchObject s len).1 := by
    intro len; unfold fetchObject; split_ifs <;> exact ⟨rfl, rfl⟩
  have h2 : ∀ len, SameObjs s (fetchNumber mem b s len).1 := by
    intro len; unfold fetchNumber; dsimp only; split_ifs <;> exact ⟨rfl, rfl⟩
  have h3 : ∀ len, SameObjs s (fetchSymbol mem b s len).1 := by
    intro len; unfold fetchSymbol; dsimp only; split_ifs <;> exact ⟨rfl, rfl⟩
  have h4 : ∀ len, SameObjs s (fetchString mem b s len).1 := by
    intro len; unfold fetchString; dsimp only; split_ifs <;> exact ⟨rfl, rfl⟩
  have h5 : ∀ len, SameObjs s (fetchData mem b s len).1 := by
    intro len; unfold fetchData; dsimp only; split_ifs <;> exact ⟨rfl, rfl⟩
  unfold fetch
  dsimp only
  split_ifs
  all_goals first
    | exact ⟨rfl, rfl⟩
    | exact h1 _
    | exact h2 _
    | exact h3 _
    | exact h4 _
    | exact h5 _

theorem readLength_sameObjs (b : Nat) (hasLength : Bool) (s : Unser) :
    (readLength b hasLength s).Holds (SameObjs s) (SameObjs s) := by
  unfold readLength
  split
  · dsimp only
    split_ifs <;> exact ⟨rfl, rfl⟩
  · exact ⟨rfl, rfl⟩

/-- **`setAtIndex(objs, objsIdx, o)`**: the array grows by `64` slots when it is full, and only
while it is below `objsCapacityMax`; both are multiples of `64`, so it never grows past it. -/
theorem storeObject_objsFit (c : DObj) {s : Unser} (h : ObjsFit s) : (storeObject c s).Holds ObjsFit ObjsFit := by
  obtain ⟨hl, hc, hm⟩ := h
  unfold storeObject
  split_ifs with h1 h2
  · exact ⟨hl, hc, hm⟩
  · refine ⟨by simp; omega, ?_, by simp; omega⟩
    simp only [objsCapacityMax] at *
    omega
  · exact ⟨by simp; omega, hc, hm⟩

theorem attach_sameObjs (s : Unser) (o : Nat) : (attach s o).Holds (SameObjs s) (SameObjs s) := by
  unfold attach modifyObj
  split
  · split
    · exact ⟨rfl, rfl⟩
    · dsimp only
      split_ifs
      · exact ⟨rfl, rfl⟩
      · split
        · exact ⟨rfl, rfl⟩
        · exact ⟨List.length_modify .., rfl⟩
  · exact ⟨List.length_modify .., rfl⟩
  · split
    · split_ifs
      · exact ⟨rfl, rfl⟩
      · exact ⟨List.length_modify .., rfl⟩
    · exact ⟨rfl, rfl⟩
  · split_ifs <;> exact ⟨rfl, rfl⟩

theorem descend_sameObjs (o : Nat) (c : DObj) (s : Unser) : (descend o c s).Holds (SameObjs s) (SameObjs s) := by
  unfold descend
  dsimp only
  split_ifs <;> exact ⟨rfl, rfl⟩

theorem popParent_sameObjs : ∀ (n : Nat) (s : Unser), SameObjs s (popParent s n)
  | 0, _ => ⟨rfl, rfl⟩
  | n + 1, s => by
    simp only [popParent]
    split
    · exact ⟨rfl, rfl⟩
    · exact popParent_sameObjs n _

theorem unwind_sameObjs (s : Unser) : (unwind s).Holds (SameObjs s) (SameObjs s) := by
  have hp := popParent_sameObjs s.stackIdx { s with parent := none }
  unfold unwind
  dsimp only
  split
  · exact hp
  · split <;> exact hp

/-- **The loop body keeps `ObjsFit`**: only the store of a new object changes the array's length. -/
theorem step_objsFit (mem : Nat → UInt8) (b : Nat) (indexed : Bool) {s : Unser} (h : ObjsFit s) :
    (step mem b indexed s).Holds ObjsFit ObjsFit := by
  unfold step
  dsimp only
  split_ifs
  · exact h
  have hk : ObjsFit { s with bufferPos := s.bufferPos + 4, next := s.next + 4,
                             reads := s.reads ++ Bytes.span s.next 4 } := h
  have hf := hk.of_same (fetch_sameObjs mem b indexed _ (Bytes.rd 4 mem s.next))
  generalize (Bytes.rd 4 mem s.next &&& kOSSerializeEndCollecton != 0) = end_
  generalize fetch mem b indexed _ _ = r at hf ⊢
  obtain ⟨s1, ⟨o, newCollect, hasLength⟩⟩ := r
  cases o with
  | none => exact hf
  | some fo =>
    unfold finish
    refine ((readLength_sameObjs b hasLength s1).objsFit hf).bind fun s2 h2 => ?_
    refine Step.Holds.bind (P := ObjsFit) ?_ fun s3 h3 => ?_
    · cases fo with
      | inl c => exact storeObject_objsFit c h2
      | inr i => exact h2
    refine ((attach_sameObjs s3 _).objsFit h3).bind fun s4 h4 => ?_
    have h5 : ObjsFit (if end_ then { s4 with parent := none } else s4) := by
      split <;> exact h4
    generalize (if end_ then { s4 with parent := none } else s4) = s5 at h5 ⊢
    split
    · exact (descend_sameObjs _ _ s5).objsFit h5
    · split
      · exact (unwind_sameObjs s5).objsFit h5
      · exact h5

theorem loop_objsFit (mem : Nat → UInt8) (b : Nat) (indexed : Bool) :
    ∀ (fuel : Nat) {s s' : Unser} {ok : Bool}, ObjsFit s → loop mem b indexed fuel s = some (s', ok) →
      ObjsFit s'
  | 0, _, _, _, _, hl => by simp [loop] at hl
  | fuel + 1, s, s', ok, h, hl => by
    have hs := step_objsFit mem b indexed (s := s) h
    simp only [loop] at hl
    generalize step mem b indexed s = r at hs hl
    cases r with
    | cont s₁ => exact loop_objsFit mem b indexed fuel hs hl
    | stop s₁ ok₁ =>
      cases hl
      exact hs

/-- **`OSUnserializeBinary` builds at most `objsCapacityMax` objects**: a run that returns an
object has stored no more than the `objsArray` may grow to. -/
theorem OSUnserializeBinary_objs_le (mem : Nat → UInt8) (bufferSize : Nat) (aligned : Bool)
    {objs : List DObj} {r : Nat} (h : OSUnserializeBinary mem bufferSize aligned = some (objs, r)) :
    objs.length ≤ objsCapacityMax := by
  unfold OSUnserializeBinary unserializeRun at h
  split at h
  · rename_i s hrun
    split at hrun
    · cases hrun
    · rename_i indexed rs _
      simp only [Sum.inl.injEq] at hrun
      have hfit := loop_objsFit mem bufferSize indexed _ (s := Unser.init rs) ⟨le_rfl, Nat.zero_le _, rfl⟩ hrun
      obtain ⟨r', hr', hobjs⟩ := Option.map_eq_some_iff.1 h
      cases hobjs
      exact le_trans hfit.1 hfit.2.1
  · cases h
end Libkern.Binary
