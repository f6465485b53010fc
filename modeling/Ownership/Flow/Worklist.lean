/-!
# Bounded worklists

The three dataflow passes share one loop. Blocks wait in a list kept in the order in which the pass
likes to visit them; the first one is visited, and the visit says which blocks have to be visited
again. The loop ends when no block waits, or when the number of visits it was given is used up.

`order` is the list of all blocks in visiting order, and what waits is always a sublist of it, so
waiting twice is the same as waiting once.
-/

namespace Ownership.Worklist

variable {σ : Type}

/-- What a run leaves behind: the state, the number of visits, and whether nothing was waiting. -/
structure Outcome (σ : Type) where
  state : σ
  visits : Nat
  converged : Bool

/-- Blocks waiting after `woken` were added to `waiting`, in visiting order. -/
def enqueue (order waiting woken : List Nat) : List Nat :=
  order.filter fun b => waiting.contains b || woken.contains b

/-- Visit waiting blocks, at most `cap` of them. -/
def run (order : List Nat) (visit : Nat → σ → σ × List Nat) :
    (cap : Nat) → (waiting : List Nat) → σ → (visits : Nat) → Outcome σ
  | _, [], s, n => ⟨s, n, true⟩
  | 0, _ :: _, s, n => ⟨s, n, false⟩
  | cap + 1, b :: rest, s, n =>
    let (s', woken) := visit b s
    run order visit cap (enqueue order rest woken) s' (n + 1)

theorem mem_enqueue {order waiting woken : List Nat} {b : Nat} :
    b ∈ enqueue order waiting woken ↔ b ∈ order ∧ (b ∈ waiting ∨ b ∈ woken) := by
  simp [enqueue]

theorem run_nil (order : List Nat) (visit : Nat → σ → σ × List Nat) (cap : Nat) (s : σ) (n : Nat) :
    run order visit cap [] s n = ⟨s, n, true⟩ := by
  cases cap <;> rfl

end Ownership.Worklist
