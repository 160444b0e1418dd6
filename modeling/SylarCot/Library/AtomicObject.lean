/-
  SylarCot.Library.AtomicObject
  ─────────────────────────────
  **OBJECTS WHOSE CALLS TAKE EFFECT IN ONE STEP.**

  A sequential object is a function `spec : S → C → E → Option (S × R)`: a call, and
  what its environment decides, give a new state and a result, if that outcome is
  possible.  In its atomic version any number of threads have calls in progress; a
  call takes effect in one step between its invocation and its return.

    • `exec_simulation` — a system each of whose steps is a few steps of another,
      seen through `abs`, performs its runs there;
    • `shown_filterMap` — what the labels shown carry, step by step;
    • `explained` — every run of an atomic object is explained by a sequence of
      complete sequential calls, in the order in which they took effect.
-/
import SylarCot.Library.Execution

namespace SylarCot.Library

/-! ## §1. Simulation. -/

section Simulation

variable {σ α τ β : Type*} {step : σ → α → Option σ} {step' : τ → β → Option τ}

/-- The labels a run shows, by what every step shows. -/
def shown (step : σ → α → Option σ) (view : σ → α → List β) : σ → List α → List β
  | _, [] => []
  | s, a :: as => view s a ++ ((step s a).map fun s' => shown step view s' as).getD []

theorem shown_cons {view : σ → α → List β} {s t : σ} {a : α} (as : List α)
    (h : step s a = some t) : shown step view s (a :: as) = view s a ++ shown step view t as := by
  show view s a ++ ((step s a).map _).getD [] = _
  rw [h]
  rfl

theorem shown_append {view : σ → α → List β} {bs : List α} :
    ∀ (as : List α) (s t : σ), exec step s as = some t →
      shown step view s (as ++ bs) = shown step view s as ++ shown step view t bs
  | [], s, t, h => by
      obtain rfl : s = t := Option.some.inj h
      rfl
  | a :: as, s, t, h => by
      obtain ⟨u, ha, has⟩ := (exec_cons_eq_some step).mp h
      rw [List.cons_append, shown_cons _ ha, shown_cons _ ha, shown_append as u t has,
          List.append_assoc]

/-- What the labels a run shows carry is what the labels of the run carry, if that is so
for every step. -/
theorem shown_filterMap {γ : Type*} {view : σ → α → List β} {f : β → Option γ} {g : α → Option γ}
    (h : ∀ s a t, step s a = some t → (view s a).filterMap f = (g a).toList) :
    ∀ (as : List α) (s t : σ), exec step s as = some t →
      (shown step view s as).filterMap f = as.filterMap g
  | [], _, _, _ => rfl
  | a :: as, s, t, hrun => by
      obtain ⟨u, ha, has⟩ := (exec_cons_eq_some step).mp hrun
      rw [shown_cons as ha, List.filterMap_append, h s a u ha, shown_filterMap h as u t has]
      cases hg : g a <;> simp [hg]

/-- **The simulation rule.** -/
theorem exec_simulation (I : σ → Prop) (abs : σ → τ) (view : σ → α → List β)
    (hI : ∀ s a s', I s → step s a = some s' → I s')
    (hstep : ∀ s a s', I s → step s a = some s' → exec step' (abs s) (view s a) = some (abs s')) :
    ∀ (as : List α) (s s' : σ), I s → exec step s as = some s' →
      exec step' (abs s) (shown step view s as) = some (abs s')
  | [], s, s', _, h => by
      obtain rfl : s = s' := Option.some.inj h
      rfl
  | a :: as, s, s', hs, h => by
      obtain ⟨t, ha, has⟩ := (exec_cons_eq_some step).mp h
      rw [shown_cons as ha, exec_append step' _ (hstep s a t hs ha)]
      exact exec_simulation I abs view hI hstep as t s' (hI s a t hs ha) has

end Simulation

/-! ## §2. Atomic objects. -/

/-- How far the call of a thread has got. -/
inductive Phase (C R : Type*) where
  | idle
  | pending (c : C)
  /-- taken effect, not yet returned -/
  | done (r : R)
  deriving Repr, DecidableEq

/-- The state of the object, and the calls in progress. -/
structure AtomicObject (S Tid C R : Type*) where
  state : S
  phase : Tid → Phase C R := fun _ => .idle

/-- A call begins, takes effect, returns. -/
inductive ObjectLabel (Tid C E R : Type*) where
  | invoke (t : Tid) (c : C)
  | effect (t : Tid) (e : E)
  | ret (t : Tid) (r : R)
  deriving Repr, DecidableEq

/-- What the environment decides in a step, and for whom. -/
def ObjectLabel.outcome {Tid C E R : Type*} : ObjectLabel Tid C E R → Option (Tid × E)
  | .effect t e => some (t, e)
  | _ => none

namespace AtomicObject

variable {S Tid C E R : Type*} [DecidableEq Tid]

/-- Thread `t` moves on. -/
def goto (s : AtomicObject S Tid C R) (t : Tid) (p : Phase C R) : AtomicObject S Tid C R :=
  { s with phase := Function.update s.phase t p }

/-- One step. -/
def step [DecidableEq R] (spec : S → C → E → Option (S × R)) (s : AtomicObject S Tid C R) :
    ObjectLabel Tid C E R → Option (AtomicObject S Tid C R)
  | .invoke t c =>
      match s.phase t with
      | .idle => some (s.goto t (.pending c))
      | _ => none
  | .effect t e =>
      match s.phase t with
      | .pending c => (spec s.state c e).map fun (state, r) =>
          { s.goto t (.done r) with state := state }
      | _ => none
  | .ret t r =>
      match s.phase t with
      | .done r' => if r' = r then some (s.goto t .idle) else none
      | _ => none

variable [DecidableEq R] {spec : S → C → E → Option (S × R)} {s : AtomicObject S Tid C R} {t : Tid}

theorem step_invoke {c : C} (h : s.phase t = .idle) :
    step spec s (.invoke t c) = some (s.goto t (.pending c)) := by
  unfold step
  simp only [h]

theorem step_effect {c : C} {e : E} {state : S} {r : R} (h : s.phase t = .pending c)
    (hspec : spec s.state c e = some (state, r)) :
    step spec s (.effect t e) = some { s.goto t (.done r) with state := state } := by
  unfold step
  simp only [h]
  rw [hspec]
  rfl

theorem step_ret {r : R} (h : s.phase t = .done r) :
    step spec s (.ret t r) = some (s.goto t .idle) := by
  unfold step
  simp only [h]
  exact if_pos trivial

/-! Runs of one step at most, for systems that simulate an atomic object. -/

variable {o : AtomicObject S Tid C R}

theorem exec_stay (hstate : o.state = s.state) (hphase : o.phase = s.phase) :
    exec (step spec) s ([] : List (ObjectLabel Tid C E R)) = some o := by
  obtain ⟨state, phase⟩ := o
  obtain rfl : state = s.state := hstate
  obtain rfl : phase = s.phase := hphase
  rfl

theorem exec_step {b : ObjectLabel Tid C E R} {u : AtomicObject S Tid C R}
    (h : step spec s b = some u) (hstate : o.state = u.state) (hphase : o.phase = u.phase) :
    exec (step spec) s [b] = some o := by
  refine (exec_cons_eq_some (step spec)).mpr ⟨u, h, ?_⟩
  exact exec_stay hstate hphase

/-! ## §3. Sequential explanations. -/

/-- A complete call: who calls, what, with which outcome and result. -/
abbrev Complete (Tid C E R : Type*) := Tid × C × E × R

/-- Complete calls, one after another. -/
def replay (spec : S → C → E → Option (S × R)) : S → List (Complete Tid C E R) → Option S
  | state, [] => some state
  | state, (_, c, e, r) :: calls =>
      (spec state c e).bind fun (state', r') => if r' = r then replay spec state' calls else none

/-- The call that takes effect in a step. -/
def effectOf (spec : S → C → E → Option (S × R)) (s : AtomicObject S Tid C R) :
    ObjectLabel Tid C E R → List (Complete Tid C E R)
  | .effect t e =>
      match s.phase t with
      | .pending c => ((spec s.state c e).map fun (_, r) => (t, c, e, r)).toList
      | _ => []
  | _ => []

/-- The calls of a run, in the order in which they take effect. -/
def effects (spec : S → C → E → Option (S × R)) :
    AtomicObject S Tid C R → List (ObjectLabel Tid C E R) → List (Complete Tid C E R) :=
  shown (step spec) (effectOf spec)

/-- The complete calls of one thread. -/
def callsOf (t : Tid) (calls : List (Complete Tid C E R)) : List (Complete Tid C E R) :=
  calls.filter (fun call => call.1 = t)

/-- What a label invokes on behalf of a thread. -/
def invokes (t : Tid) : ObjectLabel Tid C E R → List C
  | .invoke u c => if u = t then [c] else []
  | _ => []

/-- What a label returns to a thread. -/
def returns (t : Tid) : ObjectLabel Tid C E R → List R
  | .ret u r => if u = t then [r] else []
  | _ => []

end AtomicObject

/-- The call still to take effect. -/
def Phase.waiting {C R : Type*} : Phase C R → List C
  | .pending c => [c]
  | _ => []

/-- The result still to be returned. -/
def Phase.result {C R : Type*} : Phase C R → List R
  | .done r => [r]
  | _ => []

namespace AtomicObject

variable {S Tid C E R : Type*} [DecidableEq Tid] [DecidableEq R]
  {spec : S → C → E → Option (S × R)} {s s' : AtomicObject S Tid C R}

omit [DecidableEq R] in
/-- **A step is an effect on the state, or leaves it as it is.** -/
theorem step_cases [DecidableEq R] {b : ObjectLabel Tid C E R} (h : step spec s b = some s') :
    (∃ t c, b = .invoke t c ∧ s.phase t = .idle ∧ s' = s.goto t (.pending c)) ∨
    (∃ t c e state r, b = .effect t e ∧ s.phase t = .pending c ∧
      spec s.state c e = some (state, r) ∧ s' = { s.goto t (.done r) with state := state }) ∨
    (∃ t r, b = .ret t r ∧ s.phase t = .done r ∧ s' = s.goto t .idle) := by
  cases b with
  | invoke t c =>
      left
      cases hp : s.phase t with
      | idle =>
          rw [step_invoke hp] at h
          exact ⟨t, c, rfl, hp, (Option.some.inj h).symm⟩
      | _ =>
          simp only [step, hp] at h
          cases h
  | effect t e =>
      right; left
      cases hp : s.phase t with
      | pending c =>
          cases hspec : spec s.state c e with
          | none =>
              simp only [step, hp, hspec] at h
              cases h
          | some out =>
              obtain ⟨state, r⟩ := out
              rw [step_effect hp hspec] at h
              exact ⟨t, c, e, state, r, rfl, hp, hspec, (Option.some.inj h).symm⟩
      | _ =>
          simp only [step, hp] at h
          cases h
  | ret t r =>
      right; right
      cases hp : s.phase t with
      | done r' =>
          simp only [step, hp] at h
          obtain ⟨rfl, hs⟩ := Option.ite_none_right_eq_some.mp h
          exact ⟨t, r', rfl, hp, (Option.some.inj hs).symm⟩
      | _ =>
          simp only [step, hp] at h
          cases h

/-! ## §4. The explanation. -/

/-- What a run adds up to for the thread `t`, between two phases of it: the calls
invoked are those that took effect, and the one still to do so; the results of the
calls that took effect have been returned, but for the one still to be. -/
def AddsUp (t : Tid) (p : Phase C R) (bs : List (ObjectLabel Tid C E R))
    (calls : List (Complete Tid C E R)) (p' : Phase C R) : Prop :=
  p.waiting ++ bs.flatMap (invokes t) = (callsOf t calls).map (fun call => call.2.1) ++ p'.waiting ∧
    p.result ++ (callsOf t calls).map (fun call => call.2.2.2) = bs.flatMap (returns t) ++ p'.result

omit [DecidableEq R] in
theorem AddsUp.append {t : Tid} {p q r : Phase C R} {bs cs : List (ObjectLabel Tid C E R)}
    {calls more : List (Complete Tid C E R)} (h : AddsUp t p bs calls q)
    (h' : AddsUp t q cs more r) : AddsUp t p (bs ++ cs) (calls ++ more) r := by
  unfold AddsUp callsOf at *
  constructor
  · rw [List.flatMap_append, ← List.append_assoc, h.1, List.append_assoc, h'.1, List.filter_append,
        List.map_append, List.append_assoc]
  · rw [List.filter_append, List.map_append, ← List.append_assoc, h.2, List.append_assoc, h'.2,
        List.flatMap_append, List.append_assoc]

/-- **One step adds up**, for every thread. -/
theorem addsUp_step {b : ObjectLabel Tid C E R} (h : step spec s b = some s') (t : Tid) :
    AddsUp t (s.phase t) [b] (effectOf spec s b) (s'.phase t) := by
  obtain ⟨u, c, rfl, hp, rfl⟩ | ⟨u, c, e, state, r, rfl, hp, hspec, rfl⟩ | ⟨u, r, rfl, hp, rfl⟩ :=
    step_cases h
  · by_cases htu : t = u
    · subst htu
      simp [AddsUp, goto, hp, effectOf, invokes, returns, callsOf, Phase.waiting, Phase.result]
    · simp [AddsUp, goto, effectOf, invokes, returns, callsOf, htu, Ne.symm htu]
  · by_cases htu : t = u
    · subst htu
      simp [AddsUp, goto, hp, hspec, effectOf, invokes, returns, callsOf, Phase.waiting,
        Phase.result]
    · simp [AddsUp, goto, hp, hspec, effectOf, invokes, returns, callsOf, htu, Ne.symm htu]
  · by_cases htu : t = u
    · subst htu
      simp [AddsUp, goto, hp, effectOf, invokes, returns, callsOf, Phase.waiting, Phase.result]
    · simp [AddsUp, goto, effectOf, invokes, returns, callsOf, htu, Ne.symm htu]

theorem replay_step {b : ObjectLabel Tid C E R} (h : step spec s b = some s') :
    replay spec s.state (effectOf spec s b) = some s'.state := by
  obtain ⟨u, c, rfl, hp, rfl⟩ | ⟨u, c, e, state, r, rfl, hp, hspec, rfl⟩ | ⟨u, r, rfl, hp, rfl⟩ :=
    step_cases h
  · rfl
  · simp [effectOf, hp, hspec, replay]
  · rfl

omit [DecidableEq Tid] in
theorem replay_append {state state' : S} {calls : List (Complete Tid C E R)}
    (more : List (Complete Tid C E R)) (h : replay spec state calls = some state') :
    replay spec state (calls ++ more) = replay spec state' more := by
  induction calls generalizing state with
  | nil =>
      obtain rfl : state = state' := Option.some.inj h
      rfl
  | cons call calls ih =>
      obtain ⟨u, c, e, r⟩ := call
      change (spec state c e).bind _ = some state' at h
      show (spec state c e).bind _ = _
      cases hspec : spec state c e with
      | none =>
          rw [hspec] at h
          cases h
      | some out =>
          rw [hspec] at h
          change (if out.2 = r then _ else none) = some state' at h
          obtain ⟨hr, hcalls⟩ := Option.ite_none_right_eq_some.mp h
          show (if out.2 = r then _ else none) = _
          rw [if_pos hr]
          exact ih hcalls

/-- An outcome that takes effect in a step is that of its label. -/
theorem effectOf_outcomes {b : ObjectLabel Tid C E R} (h : step spec s b = some s') {γ : Type*}
    (f : Tid → E → Option γ) :
    (effectOf spec s b).filterMap (fun call => f call.1 call.2.2.1)
      = (b.outcome.bind fun (t, e) => f t e).toList := by
  obtain ⟨u, c, rfl, hp, rfl⟩ | ⟨u, c, e, state, r, rfl, hp, hspec, rfl⟩ | ⟨u, r, rfl, hp, rfl⟩ :=
    step_cases h
  · rfl
  · have heffect : effectOf spec s (.effect u e) = [(u, c, e, r)] := by
      simp [effectOf, hp, hspec]
    rw [heffect]
    show _ = (f u e).toList
    cases hf : f u e <;> simp [hf]
  · rfl

/-- **The outcomes of the calls** are those of the run, in order. -/
theorem effects_outcomes {γ : Type*} (f : Tid → E → Option γ) (bs : List (ObjectLabel Tid C E R))
    (s s' : AtomicObject S Tid C R) (h : exec (step spec) s bs = some s') :
    (effects spec s bs).filterMap (fun call => f call.1 call.2.2.1)
      = bs.filterMap fun b => b.outcome.bind fun (t, e) => f t e :=
  shown_filterMap (fun _ _ _ hb => effectOf_outcomes hb f) bs s s' h

/-- **EVERY RUN IS EXPLAINED** by the complete calls that took effect in it, in that
order: one after another they lead from the first state to the last, and they add up,
for every thread, to what it invoked and what was returned to it. -/
theorem explained (bs : List (ObjectLabel Tid C E R)) : ∀ s s' : AtomicObject S Tid C R,
    exec (step spec) s bs = some s' →
      replay spec s.state (effects spec s bs) = some s'.state ∧
        ∀ t, AddsUp t (s.phase t) bs (effects spec s bs) (s'.phase t) := by
  induction bs with
  | nil =>
      intro s s' h
      obtain rfl : s = s' := Option.some.inj h
      refine ⟨rfl, fun t => ⟨?_, ?_⟩⟩
      · exact List.append_nil _
      · exact List.append_nil _
  | cons b bs ih =>
      intro s s' h
      obtain ⟨u, hb, hbs⟩ := (exec_cons_eq_some (step spec)).mp h
      obtain ⟨hreplay, hadds⟩ := ih u s' hbs
      have heffects : effects spec s (b :: bs) = effectOf spec s b ++ effects spec u bs :=
        shown_cons bs hb
      rw [heffects]
      constructor
      · rw [replay_append _ (replay_step hb)]
        exact hreplay
      · exact fun t => (addsUp_step hb t).append (hadds t)

end AtomicObject

end SylarCot.Library
