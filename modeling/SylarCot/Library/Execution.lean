/-
  SylarCot.Library.Execution
  ──────────────────────────
  **RUNS OF A PARTIAL STEP FUNCTION**, and the rules that carry a property
  along them.

  A system is a function `step : σ → α → Option σ`: the label `α` names who
  moves (and every choice the step leaves open), `none` says that the label is
  not enabled.  A run is a list of labels, so an interleaving of any number of
  parties is one list.

    • `exec_invariant` — a property that every step keeps holds at the end of
      every run;
    • `always_of_guarded` — the same for runs whose steps all meet a guard, in
      EVERY state the run visits;
    • `guarded_of_always` — the converse, for a guard whose violation breaks the
      property at once;
    • `marked_of_unguarded` — a run that violates its guard ends in a state marked by
      the violation, if no step removes the mark;
    • `exec_eq_iff_guarded` — two systems that agree on the steps that meet a guard,
      and part for good on the others, perform a run alike exactly if it is guarded;
    • `exec_countP_le` — steps that are paid for are no more than their payments.
-/
import Mathlib.Logic.Function.Basic

namespace SylarCot.Library

variable {σ α : Type*} (step : σ → α → Option σ)

/-! ## §1. Runs. -/

/-- Perform the labels of a run in order; `none` once a label is not enabled. -/
def exec : σ → List α → Option σ
  | s, [] => some s
  | s, a :: as => (step s a).bind fun s' => exec s' as

theorem exec_cons_eq_some {s s' : σ} {a : α} {as : List α} :
    exec step s (a :: as) = some s' ↔ ∃ t, step s a = some t ∧ exec step t as = some s' :=
  Option.bind_eq_some_iff

/-- A run in two parts. -/
theorem exec_append {s t : σ} {as : List α} (bs : List α) (h : exec step s as = some t) :
    exec step s (as ++ bs) = exec step t bs := by
  induction as generalizing s with
  | nil =>
      obtain rfl : s = t := Option.some.inj h
      rfl
  | cons a as ih =>
      obtain ⟨u, ha, has⟩ := (exec_cons_eq_some step).mp h
      show (step s a).bind _ = _
      rw [ha]
      exact ih has

/-- A step that is always enabled makes a run a fold. -/
theorem exec_total (f : σ → α → σ) : ∀ (as : List α) (s : σ),
    exec (fun s a => some (f s a)) s as = some (as.foldl f s)
  | [], _ => rfl
  | a :: as, s => exec_total f as (f s a)

/-- **The run rule**: what every step keeps, every run keeps. -/
theorem exec_invariant (I : σ → Prop)
    (hstep : ∀ s a s', I s → step s a = some s' → I s') :
    ∀ (as : List α) (s s' : σ), I s → exec step s as = some s' → I s'
  | [], s, s', hs, h => by
      obtain rfl : s = s' := Option.some.inj h
      exact hs
  | a :: as, s, s', hs, h => by
      obtain ⟨t, ha, has⟩ := (exec_cons_eq_some step).mp h
      exact exec_invariant I hstep as t s' (hstep s a t hs ha) has

/-! ## §2. Properties of every state and every step of a run. -/

/-- Every step of the run meets `C` (of the state before it and its label). -/
def Guarded (C : σ → α → Prop) : σ → List α → Prop
  | _, [] => True
  | s, a :: as => C s a ∧ ∀ s', step s a = some s' → Guarded C s' as

/-- `P` holds at the start of the run and in every state it reaches. -/
def Always (P : σ → Prop) : σ → List α → Prop
  | s, [] => P s
  | s, a :: as => P s ∧ ∀ s', step s a = some s' → Always P s' as

theorem guarded_cons_some {C : σ → α → Prop} {s t : σ} {a : α} (as : List α)
    (h : step s a = some t) : Guarded step C s (a :: as) ↔ C s a ∧ Guarded step C t as := by
  constructor
  · intro hall
    obtain ⟨hC, hrest⟩ := hall
    exact ⟨hC, hrest t h⟩
  · intro hall
    obtain ⟨hC, hrest⟩ := hall
    refine ⟨hC, fun t' h' => ?_⟩
    obtain rfl : t = t' := Option.some.inj (h.symm.trans h')
    exact hrest

theorem guarded_cons_none {C : σ → α → Prop} {s : σ} {a : α} (as : List α)
    (h : step s a = none) : Guarded step C s (a :: as) ↔ C s a := by
  constructor
  · intro hall
    obtain ⟨hC, -⟩ := hall
    exact hC
  · intro hC
    refine ⟨hC, fun t ht => ?_⟩
    rw [h] at ht
    cases ht

instance instDecidableGuarded {C : σ → α → Prop} [∀ s a, Decidable (C s a)] :
    ∀ (s : σ) (as : List α), Decidable (Guarded step C s as)
  | _, [] => .isTrue trivial
  | s, a :: as =>
      match h : step s a with
      | none => decidable_of_iff _ (guarded_cons_none step as h).symm
      | some t =>
          have : Decidable (Guarded step C t as) := instDecidableGuarded t as
          decidable_of_iff _ (guarded_cons_some step as h).symm

/-- **The guarded run rule**: an invariant kept by the steps that meet `C`, and
strong enough for `P`, gives `P` in every state of a run guarded by `C`. -/
theorem always_of_guarded {C : σ → α → Prop} {P : σ → Prop} (I : σ → Prop)
    (hstep : ∀ s a s', I s → C s a → step s a = some s' → I s')
    (hP : ∀ s, I s → P s) :
    ∀ (as : List α) (s : σ), I s → Guarded step C s as → Always step P s as
  | [], s, hs, _ => hP s hs
  | a :: as, s, hs, hg =>
      ⟨hP s hs, fun s' ha =>
        always_of_guarded I hstep hP as s' (hstep s a s' hs hg.1 ha) (hg.2 s' ha)⟩

/-- **The converse**: if a step that fails `C` always leads out of `P`, a run
that can be performed and stays in `P` meets `C` at every step. -/
theorem guarded_of_always {C : σ → α → Prop} {P : σ → Prop} (I : σ → Prop)
    (hstep : ∀ s a s', I s → C s a → step s a = some s' → I s')
    (hbreak : ∀ s a s', I s → ¬ C s a → step s a = some s' → ¬ P s') :
    ∀ (as : List α) (s s' : σ), I s → exec step s as = some s' →
      Always step P s as → Guarded step C s as
  | [], _, _, _, _, _ => trivial
  | a :: as, s, s', hs, hrun, halw => by
      obtain ⟨t, ha, has⟩ := (exec_cons_eq_some step).mp hrun
      have hPt : P t := by
        have htail := halw.2 t ha
        cases as with
        | nil => exact htail
        | cons b bs => exact htail.1
      have hC : C s a := by
        by_contra hC
        exact hbreak s a t hs hC ha hPt
      refine ⟨hC, fun t' ha' => ?_⟩
      obtain rfl : t = t' := Option.some.inj (ha.symm.trans ha')
      exact guarded_of_always I hstep hbreak as t s' (hstep s a t hs hC ha) has
        (halw.2 t ha)

/-- A guard that an invariant implies is met by every run. -/
theorem guarded_of_invariant {C : σ → α → Prop} (I : σ → Prop)
    (hstep : ∀ s a s', I s → step s a = some s' → I s') (hC : ∀ s a, I s → C s a) :
    ∀ (as : List α) (s : σ), I s → Guarded step C s as
  | [], _, _ => trivial
  | a :: as, s, hs =>
      ⟨hC s a hs, fun s' ha => guarded_of_invariant I hstep hC as s' (hstep s a s' hs ha)⟩

/-- Guards that an invariant makes equivalent guard the same runs. -/
theorem guarded_congr {C D : σ → α → Prop} (I : σ → Prop)
    (hstep : ∀ s a s', I s → step s a = some s' → I s') (h : ∀ s a, I s → (C s a ↔ D s a)) :
    ∀ (as : List α) (s : σ), I s → (Guarded step C s as ↔ Guarded step D s as)
  | [], _, _ => Iff.rfl
  | a :: as, s, hs => by
      refine and_congr (h s a hs) (forall_congr' fun s' => imp_congr_right fun ha => ?_)
      exact guarded_congr I hstep h as s' (hstep s a s' hs ha)

/-! ## §3. Runs in two parts. -/

/-- Labels that always meet the guard make a guarded run. -/
theorem guarded_of_forall {C : σ → α → Prop} :
    ∀ bs : List α, (∀ b ∈ bs, ∀ s, C s b) → ∀ s, Guarded step C s bs
  | [], _, _ => trivial
  | b :: bs, hbs, s =>
      ⟨hbs b List.mem_cons_self s, fun s' _ =>
        guarded_of_forall bs (fun c hc => hbs c (List.mem_cons_of_mem b hc)) s'⟩

theorem guarded_append {C : σ → α → Prop} {bs : List α} (hbs : ∀ b ∈ bs, ∀ s, C s b) :
    ∀ (as : List α) (s : σ), Guarded step C s as → Guarded step C s (as ++ bs)
  | [], s, _ => guarded_of_forall step bs hbs s
  | _ :: as, _, hg => ⟨hg.1, fun s' ha => guarded_append hbs as s' (hg.2 s' ha)⟩

theorem always_of_append {P : σ → Prop} {bs : List α} :
    ∀ (as : List α) (s t : σ), exec step s as = some t → Always step P s (as ++ bs) →
      Always step P t bs
  | [], s, t, h, halw => by
      obtain rfl : s = t := Option.some.inj h
      exact halw
  | a :: as, s, t, h, halw => by
      obtain ⟨s', ha, has⟩ := (exec_cons_eq_some step).mp h
      exact always_of_append as s' t has (halw.2 s' ha)

/-- **The marking rule**: a run that breaks its guard ends in a state that a
broken guard marks for good. -/
theorem marked_of_unguarded {C : σ → α → Prop} (I J : σ → Prop)
    (hI : ∀ s a s', I s → C s a → step s a = some s' → I s')
    (hbreak : ∀ s a s', I s → ¬ C s a → step s a = some s' → J s')
    (hJ : ∀ s a s', J s → step s a = some s' → J s') :
    ∀ (as : List α) (s t : σ), I s → exec step s as = some t → ¬ Guarded step C s as → J t
  | [], _, _, _, _, h => absurd trivial h
  | a :: as, s, t, hs, hrun, h => by
      obtain ⟨s', ha, has⟩ := (exec_cons_eq_some step).mp hrun
      rw [guarded_cons_some step as ha] at h
      by_cases hC : C s a
      · exact marked_of_unguarded I J hI hbreak hJ as s' t (hI s a s' hs hC ha) has
          (fun hg => h ⟨hC, hg⟩)
      · exact exec_invariant step J hJ as s' t (hbreak s a s' hs hC ha) has

/-! ## §4. Two systems with the same labels. -/

section Compare

variable {step} {step' : σ → α → Option σ}

/-- A relation that common labels keep holds behind a common run. -/
theorem exec_rel {R : σ → σ → Prop}
    (hR : ∀ s u a s' u', R s u → step s a = some s' → step' u a = some u' → R s' u') :
    ∀ (as : List α) (s u s' u' : σ), R s u → exec step s as = some s' →
      exec step' u as = some u' → R s' u'
  | [], s, u, s', u', h, hs, hu => by
      obtain rfl : s = s' := Option.some.inj hs
      obtain rfl : u = u' := Option.some.inj hu
      exact h
  | a :: as, s, u, s', u', h, hs, hu => by
      obtain ⟨t, ha, hs⟩ := (exec_cons_eq_some step).mp hs
      obtain ⟨v, hb, hu⟩ := (exec_cons_eq_some step').mp hu
      exact exec_rel hR as t v s' u' (hR s u a t v h ha hb) hs hu

/-- States that no common run brings together have no run in common, if either has it
at all. -/
theorem exec_ne_of_rel {R : σ → σ → Prop}
    (hR : ∀ s u a s' u', R s u → step s a = some s' → step' u a = some u' → R s' u')
    (hne : ∀ s u, R s u → s ≠ u) {as : List α} {s u : σ} (h : R s u)
    (hrun : (exec step s as).isSome ∨ (exec step' u as).isSome) :
    exec step s as ≠ exec step' u as := by
  intro heq
  obtain ⟨t, ht⟩ : ∃ t, exec step s as = some t := by
    rcases hrun with hrun | hrun
    · exact Option.isSome_iff_exists.mp hrun
    · rw [← heq] at hrun
      exact Option.isSome_iff_exists.mp hrun
  have ht' : exec step' u as = some t := heq.symm.trans ht
  exact hne t t (exec_rel hR as s u t t h ht ht') rfl

/-- **The comparison rule.** -/
theorem exec_eq_iff_guarded {C : σ → α → Prop} {R : σ → σ → Prop}
    (hagree : ∀ s a, C s a → step s a = step' s a)
    (hpart : ∀ s a, ¬ C s a → ∃ t u, step s a = some t ∧ step' s a = some u ∧ R t u)
    (hR : ∀ s u a s' u', R s u → step s a = some s' → step' u a = some u' → R s' u')
    (hne : ∀ s u, R s u → s ≠ u) :
    ∀ (as : List α) (s : σ), ((exec step s as).isSome ∨ (exec step' s as).isSome) →
      (exec step s as = exec step' s as ↔ Guarded step C s as)
  | [], _, _ => iff_of_true rfl trivial
  | a :: as, s, hrun => by
      by_cases hC : C s a
      · have hsame := hagree s a hC
        change ((step s a).bind _).isSome ∨ ((step' s a).bind _).isSome at hrun
        show (step s a).bind _ = (step' s a).bind _ ↔ _
        rw [← hsame] at hrun ⊢
        cases ha : step s a with
        | none =>
            rw [guarded_cons_none step as ha]
            exact iff_of_true rfl hC
        | some t =>
            rw [ha] at hrun
            rw [guarded_cons_some step as ha, and_iff_right hC]
            exact exec_eq_iff_guarded hagree hpart hR hne as t hrun
      · obtain ⟨t, u, ht, hu, htu⟩ := hpart s a hC
        change ((step s a).bind _).isSome ∨ ((step' s a).bind _).isSome at hrun
        show (step s a).bind _ = (step' s a).bind _ ↔ _
        rw [ht, hu] at hrun ⊢
        exact iff_of_false (exec_ne_of_rel hR hne htu hrun) (fun hg => hC hg.1)

end Compare

/-! ## §5. Guards, and what they give. -/

section Guards

variable {step}

/-- A guard that an invariant of guarded runs implies is met by them. -/
theorem Guarded.imp {C D : σ → α → Prop} (I : σ → Prop)
    (hstep : ∀ s a s', I s → C s a → step s a = some s' → I s') (hD : ∀ s a, I s → C s a → D s a) :
    ∀ (as : List α) (s : σ), I s → Guarded step C s as → Guarded step D s as
  | [], _, _, _ => trivial
  | a :: as, s, hs, hg =>
      ⟨hD s a hs hg.1, fun s' ha => Guarded.imp I hstep hD as s' (hstep s a s' hs hg.1 ha) (hg.2 s' ha)⟩

/-- A run in two parts. -/
theorem Always.append {P : σ → Prop} {bs : List α} :
    ∀ {as : List α} {s : σ}, Always step P s as →
      (∀ t, exec step s as = some t → Always step P t bs) → Always step P s (as ++ bs)
  | [], s, _, hbs => hbs s rfl
  | _ :: _, _, has, hbs =>
      ⟨has.1, fun s' ha => (has.2 s' ha).append fun t ht =>
        hbs t ((exec_cons_eq_some step).mpr ⟨s', ha, ht⟩)⟩

/-- An invariant of guarded runs holds at the end of a guarded run. -/
theorem Guarded.exec_invariant {C : σ → α → Prop} (I : σ → Prop)
    (hstep : ∀ s a s', I s → C s a → step s a = some s' → I s') :
    ∀ (as : List α) (s s' : σ), I s → Guarded step C s as → exec step s as = some s' → I s'
  | [], s, s', hs, _, h => by
      obtain rfl : s = s' := Option.some.inj h
      exact hs
  | a :: as, s, s', hs, hg, h => by
      obtain ⟨t, ha, has⟩ := (exec_cons_eq_some step).mp h
      exact Guarded.exec_invariant I hstep as t s' (hstep s a t hs hg.1 ha) (hg.2 t ha) has

/-- **The exact rule**: where the invariant gives `P` and a step that fails the guard leads
out of `P`, the runs guarded are those that stay in `P`. -/
theorem guarded_iff_always {C : σ → α → Prop} {P : σ → Prop} (I : σ → Prop)
    (hstep : ∀ s a s', I s → C s a → step s a = some s' → I s') (hP : ∀ s, I s → P s)
    (hbreak : ∀ s a s', I s → ¬ C s a → step s a = some s' → ¬ P s') {as : List α} {s s' : σ}
    (hs : I s) (hrun : exec step s as = some s') :
    Guarded step C s as ↔ Always step P s as :=
  ⟨always_of_guarded step I hstep hP as s hs,
    guarded_of_always step I hstep hbreak as s s' hs hrun⟩

end Guards

/-! ## §6. One label again and again. -/

/-- The label `a`, repeated, leads from `s` to `s'`. -/
def Solo (a : α) (s s' : σ) : Prop := ∃ n, exec step s (List.replicate n a) = some s'

theorem Solo.refl (a : α) (s : σ) : Solo step a s s := ⟨0, rfl⟩

theorem Solo.trans {a : α} {s t u : σ} (h : Solo step a s t) (hrest : Solo step a t u) :
    Solo step a s u := by
  obtain ⟨n, hn⟩ := h
  obtain ⟨m, hm⟩ := hrest
  refine ⟨n + m, ?_⟩
  rw [← List.replicate_append_replicate, exec_append step _ hn]
  exact hm

theorem Solo.move {a : α} {s t u : σ} (h : step s a = some t) (hrest : Solo step a t u) :
    Solo step a s u := by
  obtain ⟨n, hn⟩ := hrest
  exact ⟨n + 1, (exec_cons_eq_some step).mpr ⟨t, h, hn⟩⟩

/-! ## §7. Steps that are paid for. -/

/-- **The payment rule**: where every step that `p` counts takes one of what is left, and
only the labels that `q` counts add to it, at most `k` each. -/
theorem exec_countP_le (I : σ → Prop) (hI : ∀ s a s', I s → step s a = some s' → I s')
    {p q : α → Bool} {k : Nat} (rest : σ → Nat)
    (hpay : ∀ s a s', I s → step s a = some s' →
      (if p a then 1 else 0) + rest s' ≤ rest s + if q a then k else 0) :
    ∀ (as : List α) (s s' : σ), I s → exec step s as = some s' →
      as.countP p + rest s' ≤ rest s + k * as.countP q
  | [], s, s', _, hrun => by
      obtain rfl : s = s' := Option.some.inj hrun
      exact Nat.le_of_eq (Nat.add_comm _ _)
  | a :: as, s, s', hs, hrun => by
      obtain ⟨u, ha, has⟩ := (exec_cons_eq_some step).mp hrun
      have hfirst := hpay s a u hs ha
      have hrest := exec_countP_le I hI rest hpay as u s' (hI s a u hs ha) has
      rw [List.countP_cons, List.countP_cons, Nat.mul_add]
      cases hp : p a <;> cases hq : q a <;> simp [hp, hq] at hfirst ⊢ <;> omega

end SylarCot.Library
