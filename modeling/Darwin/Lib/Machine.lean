import Mathlib.Logic.Basic

/-!
# Runs of a deterministic machine

A machine is a step function `σ → σ ⊕ τ`: from a state it goes on to a state, or stops with an
outcome. `run` runs it on fuel. `Reaches step P s` says that the machine started at `s` takes one
step or more, each but the last to a state, and that the last step's result satisfies `P`.

A simulation proof states what each piece of input makes the machine do as a `Reaches` fact and
chains the pieces with `Reaches.trans`; `Reaches.run_stop` then reads the outcome off any run that
finishes.
-/

namespace Machine

variable {σ τ : Type}

/-- At most `fuel` steps; `none` when the fuel runs out. -/
def run (step : σ → σ ⊕ τ) : Nat → σ → Option τ
  | 0, _ => none
  | fuel + 1, s =>
    match step s with
    | .inl s' => run step fuel s'
    | .inr r => some r

/-- From `s`, steps through states until a step whose result satisfies `P`. -/
inductive Reaches (step : σ → σ ⊕ τ) (P : σ ⊕ τ → Prop) : σ → Prop
  | last {s : σ} : P (step s) → Reaches step P s
  | next {s s' : σ} : step s = .inl s' → Reaches step P s' → Reaches step P s

variable {step : σ → σ ⊕ τ}

theorem Reaches.mono {P Q : σ ⊕ τ → Prop} {s : σ} (h : Reaches step P s) (hPQ : ∀ r, P r → Q r) :
    Reaches step Q s := by
  induction h with
  | last hP => exact .last (hPQ _ hP)
  | next hs _ ih => exact .next hs ih

/-- Going on from the states `P` ends in. -/
theorem Reaches.trans {P Q : σ ⊕ τ → Prop} {s : σ} (h : Reaches step P s)
    (hcont : ∀ s', P (.inl s') → Reaches step Q s') (hstop : ∀ r, P (.inr r) → Q (.inr r)) :
    Reaches step Q s := by
  induction h with
  | @last s hP =>
    cases hs : step s with
    | inl s' => exact .next hs (hcont s' (hs ▸ hP))
    | inr r => exact .last (hs ▸ hstop r (hs ▸ hP))
  | next hs _ ih => exact .next hs ih

/-- A run that finishes ends in an outcome the machine reaches, when `P` holds of outcomes only. -/
theorem Reaches.run_stop {P : σ ⊕ τ → Prop} {s : σ} (h : Reaches step P s) (hP : ∀ s', ¬P (.inl s')) :
    ∀ {fuel : Nat} {r : τ}, run step fuel s = some r → P (.inr r) := by
  induction h with
  | @last s hs =>
    intro fuel r hrun
    cases fuel with
    | zero => simp [run] at hrun
    | succ fuel =>
      cases hst : step s with
      | inl s' => exact absurd (hst ▸ hs) (hP s')
      | inr r' =>
        simp only [run, hst, Option.some.injEq] at hrun
        exact hrun ▸ hst ▸ hs
  | @next s s' hs _ ih =>
    intro fuel r hrun
    cases fuel with
    | zero => simp [run] at hrun
    | succ fuel =>
      simp only [run, hs] at hrun
      exact ih hrun

end Machine
