/-
  SylarCot.Library.Words
  ──────────────────────
  **WORDS WITH VARIABLES, AND WHAT TELLS THEM APART.**

  A word is a list of letters and variables; a substitution puts a text for each
  variable.  A family of substitutions is `Separating` if it can begin the text of any
  variable unlike any given letter, and the texts of two variables unlike each other.

    • `words_eq_iff` — words are equal if and only if they become the same text under
      all substitutions of a separating family.
-/
import Mathlib.Data.List.Basic

namespace SylarCot.Library

variable {α V : Type*}

/-! ## §1. Words. -/

/-- A letter or a variable. -/
inductive Atom (α V : Type*) where
  | letter (a : α)
  | var (v : V)
  deriving Repr, DecidableEq

/-- The text of an atom. -/
def Atom.subst (σ : V → List α) : Atom α V → List α
  | .letter a => [a]
  | .var v => σ v

/-- The text of a word. -/
def substWord (σ : V → List α) (w : List (Atom α V)) : List α := w.flatMap (Atom.subst σ)

@[simp] theorem substWord_cons (σ : V → List α) (a : Atom α V) (w : List (Atom α V)) :
    substWord σ (a :: w) = a.subst σ ++ substWord σ w := rfl

theorem substWord_append (σ : V → List α) (w w' : List (Atom α V)) :
    substWord σ (w ++ w') = substWord σ w ++ substWord σ w' :=
  List.flatMap_append

theorem substWord_letters (σ : V → List α) (s : List α) :
    substWord σ (s.map .letter) = s := by
  induction s with
  | nil => rfl
  | cons a s ih =>
      show a :: substWord σ (s.map .letter) = a :: s
      rw [ih]

/-! ## §2. Separating families. -/

/-- The family begins texts unlike letters and unlike each other. -/
structure Separating (Allowed : (V → List α) → Prop) : Prop where
  some_allowed : ∃ σ, Allowed σ
  from_letter : ∀ v a, ∃ σ, Allowed σ ∧ ∃ b, (σ v).head? = some b ∧ b ≠ a
  from_var : ∀ v w, v ≠ w →
    ∃ σ, Allowed σ ∧ ∃ b c, (σ v).head? = some b ∧ (σ w).head? = some c ∧ b ≠ c

variable {Allowed : (V → List α) → Prop}

/-- No word but the empty one vanishes everywhere. -/
theorem Separating.ne_nil [Nonempty α] (h : Separating Allowed) (a : Atom α V)
    (w : List (Atom α V)) : ∃ σ, Allowed σ ∧ substWord σ (a :: w) ≠ [] := by
  cases a with
  | letter a =>
      obtain ⟨σ, hσ⟩ := h.some_allowed
      exact ⟨σ, hσ, List.cons_ne_nil a _⟩
  | var v =>
      obtain ⟨a⟩ := ‹Nonempty α›
      obtain ⟨σ, hσ, b, hb, -⟩ := h.from_letter v a
      refine ⟨σ, hσ, fun hnil => ?_⟩
      have hhead : (σ v ++ substWord σ w).head? = some b := List.mem_head?_append_of_mem_head? hb
      rw [show σ v ++ substWord σ w = [] from hnil] at hhead
      cases hhead

/-- Atoms that begin the same texts are the same. -/
theorem Separating.head_eq (h : Separating Allowed) {a b : Atom α V} {x y : List (Atom α V)}
    (hxy : ∀ σ, Allowed σ → substWord σ (a :: x) = substWord σ (b :: y)) : a = b := by
  have hheads : ∀ {σ c d}, Allowed σ → (a.subst σ).head? = some c → (b.subst σ).head? = some d →
      c = d := by
    intro σ c d hσ hc hd
    have heq := congrArg List.head? (hxy σ hσ)
    rw [substWord_cons, substWord_cons, List.mem_head?_append_of_mem_head? hc,
        List.mem_head?_append_of_mem_head? hd] at heq
    exact Option.some.inj heq
  cases a with
  | letter a =>
      cases b with
      | letter b =>
          obtain ⟨σ, hσ⟩ := h.some_allowed
          rw [hheads hσ rfl rfl]
      | var v =>
          obtain ⟨σ, hσ, c, hc, hne⟩ := h.from_letter v a
          exact absurd (hheads hσ rfl hc).symm hne
  | var v =>
      cases b with
      | letter b =>
          obtain ⟨σ, hσ, c, hc, hne⟩ := h.from_letter v b
          exact absurd (hheads hσ hc rfl) hne
      | var w =>
          by_contra hne
          obtain ⟨σ, hσ, c, d, hc, hd, hcd⟩ := h.from_var v w (fun heq => hne (by rw [heq]))
          exact hcd (hheads hσ hc hd)

/-- **Words are known by their texts.** -/
theorem words_eq_iff [Nonempty α] (h : Separating Allowed) {x y : List (Atom α V)} :
    (∀ σ, Allowed σ → substWord σ x = substWord σ y) ↔ x = y := by
  constructor
  · induction x generalizing y with
    | nil =>
        intro hxy
        cases y with
        | nil => rfl
        | cons b y =>
            obtain ⟨σ, hσ, hne⟩ := h.ne_nil b y
            exact absurd (hxy σ hσ).symm hne
    | cons a x ih =>
        intro hxy
        cases y with
        | nil =>
            obtain ⟨σ, hσ, hne⟩ := h.ne_nil a x
            exact absurd (hxy σ hσ) hne
        | cons b y =>
            obtain rfl := h.head_eq hxy
            -- the same atom begins both words under every substitution
            rw [ih fun σ hσ => List.append_cancel_left (hxy σ hσ)]
  · intro hxy σ _
    rw [hxy]

end SylarCot.Library
