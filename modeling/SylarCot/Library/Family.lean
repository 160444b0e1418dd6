/-
  SylarCot.Library.Family
  ───────────────────────
  **FAMILIES OF INDEPENDENT COMPONENTS.**

  A family has one component state per index; a label names the component that
  moves and its own label.  Whatever every component's step keeps of that
  component, every step of the family keeps of all of them.

    • `family_invariant` — the step rule, with a guard on the moving component;
    • `exec_family` — the runs in which only one component moves;
    • `family_countP_le` — what is paid for in every component is paid for in each.
-/
import SylarCot.Library.Execution

namespace SylarCot.Library

variable {ι σ α : Type*} [DecidableEq ι]

/-- One component of the family moves. -/
def familyStep (step : σ → α → Option σ) (s : ι → σ) : ι × α → Option (ι → σ)
  | (i, a) => (step (s i) a).map (Function.update s i)

theorem familyStep_eq_some {step : σ → α → Option σ} {s s' : ι → σ} {i : ι} {a : α} :
    familyStep step s (i, a) = some s' ↔
      ∃ c, step (s i) a = some c ∧ s' = Function.update s i c := by
  show (step (s i) a).map (Function.update s i) = some s' ↔ _
  rw [Option.map_eq_some_iff]
  constructor
  · intro hall
    obtain ⟨c, hc, rfl⟩ := hall
    exact ⟨c, hc, rfl⟩
  · intro hall
    obtain ⟨c, hc, rfl⟩ := hall
    exact ⟨c, hc, rfl⟩

/-- **The family rule.** -/
theorem family_invariant {step : σ → α → Option σ} {C : σ → α → Prop} {I : σ → Prop}
    (hstep : ∀ c a c', I c → C c a → step c a = some c' → I c') {s s' : ι → σ} {i : ι} {a : α}
    (hs : ∀ j, I (s j)) (hC : C (s i) a) (h : familyStep step s (i, a) = some s') :
    ∀ j, I (s' j) := by
  obtain ⟨c, hc, rfl⟩ := familyStep_eq_some.mp h
  intro j
  by_cases hj : j = i
  · subst hj
    rw [Function.update_self]
    exact hstep (s j) a c (hs j) hC hc
  · rw [Function.update_of_ne hj]
    exact hs j

/-- **A run of one component** is a run of the family. -/
theorem exec_family {step : σ → α → Option σ} {i : ι} :
    ∀ (as : List α) (s : ι → σ) (c : σ), exec step (s i) as = some c →
      exec (familyStep step) s (as.map (Prod.mk i)) = some (Function.update s i c)
  | [], s, c, h => by
      obtain rfl : s i = c := Option.some.inj h
      rw [Function.update_eq_self]
      rfl
  | a :: as, s, c, h => by
      obtain ⟨d, ha, has⟩ := (exec_cons_eq_some step).mp h
      have hmove : familyStep step s (i, a) = some (Function.update s i d) :=
        familyStep_eq_some.mpr ⟨d, ha, rfl⟩
      refine (exec_cons_eq_some (familyStep step)).mpr ⟨_, hmove, ?_⟩
      rw [exec_family as (Function.update s i d) c (by rw [Function.update_self]; exact has),
        Function.update_idem]

/-- **The payment rule of one component.** -/
theorem family_countP_le (step : σ → α → Option σ) (I : σ → Prop)
    (hI : ∀ c a c', I c → step c a = some c' → I c') {p q : α → Bool} {k : Nat} (rest : σ → Nat)
    (hpay : ∀ c a c', I c → step c a = some c' →
      (if p a then 1 else 0) + rest c' ≤ rest c + if q a then k else 0) (i : ι)
    (as : List (ι × α)) {s s' : ι → σ} (hs : ∀ j, I (s j))
    (hrun : exec (familyStep step) s as = some s') :
    as.countP (fun l => decide (l.1 = i) && p l.2) + rest (s' i)
      ≤ rest (s i) + k * as.countP (fun l => decide (l.1 = i) && q l.2) := by
  refine exec_countP_le (familyStep step) (fun s => ∀ j, I (s j)) ?_ (fun s => rest (s i)) ?_
    as s s' hs hrun
  · intro s l s' hs hl
    exact family_invariant (C := fun _ _ => True) (fun c a c' hc _ h => hI c a c' hc h) hs trivial hl
  · intro s l s' hs hl
    obtain ⟨j, a⟩ := l
    obtain ⟨c, hc, rfl⟩ := familyStep_eq_some.mp hl
    by_cases hj : j = i
    · subst hj
      have hpaid := hpay (s j) a c (hs j) hc
      rw [Function.update_self]
      simpa using hpaid
    · rw [Function.update_of_ne (Ne.symm hj)]
      simp [hj]

end SylarCot.Library
