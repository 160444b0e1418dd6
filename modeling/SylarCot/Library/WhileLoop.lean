/-
  SylarCot.Library.WhileLoop
  ──────────────────────────
  **WHILE LOOPS OVER AN EXPLICIT STATE**, with the rules that reason about them.

  A loop is given by its body: from a state it either goes round once more
  (`next`) or leaves the loop with a result (`exit`).  `loop body n` runs at
  most `n` rounds and is computable, so a concrete loop evaluates.

    • `loop_of_steps` — TOTAL correctness: under a measure that every round
      lowers, a chain of rounds that ends in an exit IS what the loop computes,
      for every bound above the measure.

  Nothing here knows which program the loop belongs to.
-/
import Mathlib.Logic.Relation

namespace SylarCot.Library

/-! ## §1. Loops. -/

/-- What one execution of a loop body does: go round again from `s`, or leave
the loop with `r`. -/
inductive LoopStep (σ ρ : Type*) where
  | next (s : σ)
  | exit (r : ρ)

variable {σ ρ : Type*}

/-- Run the loop for at most `n` rounds; `none` if it is still running then. -/
def loop (body : σ → LoopStep σ ρ) : Nat → σ → Option ρ
  | 0, _ => none
  | n + 1, s =>
      match body s with
      | .next s' => loop body n s'
      | .exit r => some r

theorem loop_next {body : σ → LoopStep σ ρ} {s s' : σ} (n : Nat)
    (h : body s = .next s') : loop body (n + 1) s = loop body n s' := by
  simp only [loop, h]

theorem loop_exit {body : σ → LoopStep σ ρ} {s : σ} {r : ρ} (n : Nat)
    (h : body s = .exit r) : loop body (n + 1) s = some r := by
  simp only [loop, h]

/-! ## §2. Chains of rounds. -/

/-- `s'` is where the loop stands after some number of rounds from `s`. -/
def Steps (body : σ → LoopStep σ ρ) : σ → σ → Prop :=
  Relation.ReflTransGen (fun s s' => body s = .next s')

theorem Steps.refl (body : σ → LoopStep σ ρ) (s : σ) : Steps body s s :=
  Relation.ReflTransGen.refl

theorem Steps.single {body : σ → LoopStep σ ρ} {s s' : σ} (h : body s = .next s') :
    Steps body s s' :=
  Relation.ReflTransGen.single h

theorem Steps.trans {body : σ → LoopStep σ ρ} {s₁ s₂ s₃ : σ}
    (h₁ : Steps body s₁ s₂) (h₂ : Steps body s₂ s₃) : Steps body s₁ s₃ :=
  Relation.ReflTransGen.trans h₁ h₂

/-- **Total correctness.**  If every round from a state of `I` keeps `I` and
lowers `μ`, then a chain of rounds from `s` to a state the body leaves with `r`
makes the loop return `r`, under any bound above `μ s`. -/
theorem loop_of_steps {body : σ → LoopStep σ ρ} (I : σ → Prop) (μ : σ → Nat)
    (hdec : ∀ s s', I s → body s = .next s' → I s' ∧ μ s' < μ s)
    {s s' : σ} {r : ρ} (hs : I s) (hsteps : Steps body s s')
    (hexit : body s' = .exit r) :
    ∀ n, μ s < n → loop body n s = some r := by
  -- on the chain from its first round: each round uses up one of the bound
  induction hsteps using Relation.ReflTransGen.head_induction_on with
  | refl =>
      intro n hn
      obtain ⟨n, rfl⟩ : ∃ m, n = m + 1 := ⟨n - 1, by omega⟩
      exact loop_exit n hexit
  | head hround _ ih =>
      intro n hn
      obtain ⟨n, rfl⟩ : ∃ m, n = m + 1 := ⟨n - 1, by omega⟩
      obtain ⟨hI, hlt⟩ := hdec _ _ hs hround
      rw [loop_next n hround]
      exact ih hI n (by omega)

end SylarCot.Library
