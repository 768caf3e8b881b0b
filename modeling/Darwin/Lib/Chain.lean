import Mathlib.Data.List.Basic

/-!
# Lists threaded through the objects they link

A free list kept inside the free objects themselves has a head value, and each object on it
stores the value that names the next one, up to a stop value. `LinkChain valid slot next stop n l`
says that following the links from `n` meets the objects `l` in order and then reaches `stop`:
each link on the way is `valid` and names the object `slot n`, whose stored link is
`next (slot n)`.

The predicate carries no fuel: a chain that loops has no such list. Updates of the stored links
outside the list leave it as it is (`LinkChain.frame`).
-/

variable {α β : Type}

/-- The links from `n` meet the objects `l`, then the stop value. -/
inductive LinkChain (valid : α → Prop) (slot : α → β) (next : β → α) (stop : α) :
    α → List β → Prop
  | stop : LinkChain valid slot next stop stop []
  | cons {n : α} {l : List β} : valid n → LinkChain valid slot next stop (next (slot n)) l →
      LinkChain valid slot next stop n (slot n :: l)

namespace LinkChain

variable {valid : α → Prop} {slot : α → β} {next next' : β → α} {stop n : α} {l : List β}

/-- What a chain from `n` can be: the empty one at the stop value, or a valid link and the
chain from the link its object stores. -/
theorem head_cases (h : LinkChain valid slot next stop n l) :
    (n = stop ∧ l = []) ∨
      (valid n ∧ ∃ l', l = slot n :: l' ∧ LinkChain valid slot next stop (next (slot n)) l') := by
  cases h with
  | stop => exact .inl ⟨rfl, rfl⟩
  | cons hv hl => exact .inr ⟨hv, _, rfl, hl⟩

/-- A chain from the stop value is empty when the stop value is not a valid link. -/
theorem eq_nil_of_stop (hs : ¬ valid stop) (h : LinkChain valid slot next stop stop l) :
    l = [] := by
  rcases h.head_cases with ⟨-, rfl⟩ | ⟨hv, -⟩
  · rfl
  · exact absurd hv hs

/-- Every object met is named by a valid link. -/
theorem mem (h : LinkChain valid slot next stop n l) : ∀ s ∈ l, ∃ m, valid m ∧ slot m = s := by
  induction h with
  | stop => simp
  | @cons m _ hv _ ih =>
    intro s hs
    rcases List.mem_cons.mp hs with rfl | hs
    · exact ⟨m, hv, rfl⟩
    · exact ih s hs

/-- A chain that reaches a valid link `stop` goes on through its object to whatever that object
stores. -/
theorem snoc {stop' : α} (h : LinkChain valid slot next stop n l) (hv : valid stop)
    (hs : next (slot stop) = stop') : LinkChain valid slot next stop' n (l ++ [slot stop]) := by
  induction h with
  | stop => exact .cons hv (hs ▸ .stop)
  | cons hv' _ ih => exact .cons hv' ih

/-- The links stored in objects off the chain do not matter. -/
theorem frame (h : LinkChain valid slot next stop n l) (hn : ∀ s ∈ l, next' s = next s) :
    LinkChain valid slot next' stop n l := by
  induction h with
  | stop => exact .stop
  | @cons m _ hv _ ih =>
    refine .cons hv ?_
    rw [hn (slot m) List.mem_cons_self]
    exact ih fun s hs => hn s (List.mem_cons_of_mem _ hs)

end LinkChain
