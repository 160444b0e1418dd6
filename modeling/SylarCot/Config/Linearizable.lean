/-
  SylarCot.Config.Linearizable
  ────────────────────────────
  **A SHARED `ConfigVar` IS ATOMIC**, but for the copies it cannot protect.

  Every call of every thread takes effect in one step between its invocation and its
  return, and does there what the sequential template does: `setValue` where it finds
  nothing to change or where it assigns, `toString` and `fromString` under the reader
  lock, `getValue` where its caller copies the value.  A `setValue` that a callback
  leaves by an exception has changed nothing.  A copy that overlaps an assignment takes
  effect too, but returns any value.

    • `simulates` — every step is such a step, a stutter, or a call or return;
    • `linearizable` — so every run is explained by sequential calls, in which exactly the
      torn copies of the run are torn.
-/
import SylarCot.Library.AtomicObject
import SylarCot.Config.Members

namespace SylarCot.Config

open Library

variable {Tid T : Type*}

/-! ## §1. The sequential object. -/

/-- How a call ends: it returns, a callback throws, or its copy is torn. -/
inductive Ending (T : Type*) where
  | returns
  | throws
  | torn (val : T)
  deriving Repr, DecidableEq

/-- The sequential template.  A callback can throw only if there is a change to tell; only
`getValue` copies through a reference. -/
def sequential [DecidableEq T] (cv : Conversions T) (x : ConfigVar T) :
    Call T → Ending T → Option (ConfigVar T × Result T)
  | c, .returns => some (x.call cv c)
  | .setValue val, .throws => if val = x.m_val then none else some (x, .threw .other)
  | .getValue, .torn val => some (x, .value val)
  | _, _ => none

/-! ## §2. The abstraction. -/

/-- A `setValue` that has not taken effect. -/
def SetPc.call : SetPc T → Option (Call T)
  | .readLock val => some (.setValue val)
  | .compare val => some (.setValue val)
  | .callbacks val _ => some (.setValue val)
  | .writeLock val => some (.setValue val)
  | .assign val => some (.setValue val)
  | _ => none

/-- A reading member that has not taken effect. -/
def ReadPc.call : ReadPc → Option (Call T)
  | .lock c => some c.call
  | .body c => some c.call
  | .unlockRef => some .getValue
  | .copy => some .getValue
  | _ => none

namespace SharedConfig

/-- How far a thread has got with its call. -/
def phaseAt (p : Place T) : Option (Result T) → Phase (Call T) (Result T)
  | some r => .done r
  | none =>
      match p.1.call, p.2.call with
      | some c, _ => .pending c
      | none, some c => .pending c
      | none, none => .idle

def phase (s : SharedConfig Tid T) (t : Tid) : Phase (Call T) (Result T) :=
  phaseAt (s.place t) (s.result t)

/-- The object the threads share, and their calls. -/
def abs (s : SharedConfig Tid T) : AtomicObject (ConfigVar T) Tid (Call T) (Result T) where
  state := ⟨s.var.m_val⟩
  phase := s.phase

variable [DecidableEq Tid] [DecidableEq T]

/-- What a step shows: the call, its effect, its return, or nothing. -/
def view (s : SharedConfig Tid T) :
    ConfigLabel Tid T → List (ObjectLabel Tid (Call T) (Ending T) (Result T))
  | .set (.call t val) => [.invoke t (.setValue val)]
  | .read t c => [.invoke t c.call]
  | .set (.throws t) => [.effect t .throws]
  | .set (.run t) =>
      match s.result t with
      | some r => [.ret t r]
      | none => if (s.outcome (.run t)).isSome then [.effect t .returns] else []
  | .run t =>
      match s.result t, s.reader t with
      | some r, _ => [.ret t r]
      | none, .body .getValue => []
      | none, .body _ => [.effect t .returns]
      | none, .copy => [.effect t .returns]
      | none, _ => []
  | .torn t val => [.effect t (.torn val)]

/-! ## §3. One step. -/

variable {cv : Conversions T} {s : SharedConfig Tid T}

theorem phase_set {v : SharedVar Tid T} {a : SetLabel Tid T} {q : SetPc T}
    {r : Option (Result T)} (hread : s.reader a.thread = .idle)
    (hpc : v.pc = Function.update s.var.pc a.thread q) (hr : s.outcome a = r) :
    phase { (s.settle a.thread (s.outcome a)) with var := v }
      = Function.update s.phase a.thread (phaseAt (q, .idle) r) := by
  funext u
  show phaseAt (place { s with var := v, result := _ } u) (Function.update s.result _ _ u) = _
  rw [place_var s v _ hpc, hread, hr]
  by_cases hu : u = a.thread
  · rw [hu, Function.update_self, Function.update_self, Function.update_self]
  · rw [Function.update_of_ne hu, Function.update_of_ne hu, Function.update_of_ne hu]
    rfl

omit [DecidableEq T] in
theorem phase_reader {v : SharedVar Tid T} {t : Tid} {q : ReadPc} {r : Option (Result T)}
    (hset : s.var.pc t = .idle) (hv : v.pc = s.var.pc) :
    phase { var := v, reader := Function.update s.reader t q,
            result := Function.update s.result t r }
      = Function.update s.phase t (phaseAt (.idle, q) r) := by
  funext u
  show phaseAt (place _ u) (Function.update s.result _ _ u) = _
  rw [place_reader s v _ hv, hset]
  by_cases hu : u = t
  · rw [hu, Function.update_self, Function.update_self, Function.update_self]
  · rw [Function.update_of_ne hu, Function.update_of_ne hu, Function.update_of_ne hu]
    rfl

omit [DecidableEq Tid] [DecidableEq T] in
/-- What is known of a call before and after it takes effect. -/
theorem phase_open (h : s.Inv) {t : Tid} {p : SetPc T} {q : ReadPc} (hset : s.var.pc t = p)
    (hread : s.reader t = q) (hopen : ¬ Settled (p, q)) :
    s.result t = none ∧ s.phase t = phaseAt (p, q) none := by
  have hplace : s.place t = (p, q) := by
    unfold place
    rw [hset, hread]
  have hnone := h.unsettled (by rw [hplace]; exact hopen)
  refine ⟨hnone, ?_⟩
  unfold phase
  rw [hplace, hnone]

omit [DecidableEq Tid] [DecidableEq T] in
theorem phase_settled (h : s.Inv) {t : Tid} {p : SetPc T} {q : ReadPc} (hset : s.var.pc t = p)
    (hread : s.reader t = q) (hsettled : Settled (p, q)) :
    ∃ r, s.result t = some r ∧ s.phase t = .done r := by
  have hsome := (h.settled t).mpr (by unfold place; rw [hset, hread]; exact hsettled)
  obtain ⟨r, hr⟩ := Option.isSome_iff_exists.mp hsome
  refine ⟨r, hr, ?_⟩
  unfold phase
  rw [hr]
  rfl

/-- A step that no caller can tell from none. -/
theorem stay_set (h : s.Inv) {v : SharedVar Tid T} {t : Tid} {p q : SetPc T}
    (hread : s.reader t = .idle) (hpc : s.var.pc t = p)
    (hpc' : v.pc = Function.update s.var.pc t q) (hval : v.m_val = s.var.m_val)
    (hr : s.outcome (.run t) = none) (hopen : ¬ Settled (p, ReadPc.idle))
    (hsame : phaseAt (q, .idle) none = phaseAt (p, .idle) none) :
    exec (AtomicObject.step (sequential cv)) s.abs (s.view (.set (.run t)))
      = some (abs { (s.settle t (s.outcome (.run t))) with var := v }) := by
  obtain ⟨hnone, hphase⟩ := phase_open h hpc hread hopen
  have hview : s.view (.set (.run t)) = [] := by
    unfold view
    simp only [hnone, hr]
    rfl
  rw [hview]
  refine AtomicObject.exec_stay (congrArg ConfigVar.mk hval) ?_
  refine (phase_set (a := .run t) hread hpc' hr).trans ?_
  show Function.update s.phase t _ = s.phase
  rw [hsame, ← hphase, Function.update_eq_self]

/-- The step in which a call of `setValue` takes effect. -/
theorem effect_set (h : s.Inv) {v : SharedVar Tid T} {a : SetLabel Tid T} {e : Ending T}
    {p q : SetPc T} {val : T} {r : Result T} (hread : s.reader a.thread = .idle)
    (hpc : s.var.pc a.thread = p) (hpc' : v.pc = Function.update s.var.pc a.thread q)
    (hr : s.outcome a = some r) (hopen : ¬ Settled (p, ReadPc.idle))
    (hcall : phaseAt (p, .idle) none = .pending (.setValue val))
    (hspec : sequential cv ⟨s.var.m_val⟩ (.setValue val) e = some (⟨v.m_val⟩, r))
    (hview : s.result a.thread = none → s.view (.set a) = [.effect a.thread e]) :
    exec (AtomicObject.step (sequential cv)) s.abs (s.view (.set a))
      = some (abs { (s.settle a.thread (s.outcome a)) with var := v }) := by
  obtain ⟨hnone, hphase⟩ := phase_open h hpc hread hopen
  rw [hview hnone]
  exact AtomicObject.exec_step (AtomicObject.step_effect (hphase.trans hcall) hspec) rfl
    (phase_set hread hpc' hr)

/-- The step in which `setValue` returns. -/
theorem return_set (h : s.Inv) {v : SharedVar Tid T} {t : Tid} {p : SetPc T}
    (hread : s.reader t = .idle) (hpc : s.var.pc t = p)
    (hpc' : v.pc = Function.update s.var.pc t .idle) (hval : v.m_val = s.var.m_val)
    (hr : s.outcome (.run t) = none) (hsettled : Settled (p, ReadPc.idle)) :
    exec (AtomicObject.step (sequential cv)) s.abs (s.view (.set (.run t)))
      = some (abs { (s.settle t (s.outcome (.run t))) with var := v }) := by
  obtain ⟨r, hsome, hphase⟩ := phase_settled h hpc hread hsettled
  have hview : s.view (.set (.run t)) = [.ret t r] := by
    unfold view
    simp only [hsome]
  rw [hview]
  exact AtomicObject.exec_step (AtomicObject.step_ret hphase) (congrArg ConfigVar.mk hval)
    (phase_set (a := .run t) hread hpc' hr)

/-- **The steps of `setValue`.** -/
theorem simulates_set (h : s.Inv) {v : SharedVar Tid T} {a : SetLabel Tid T}
    (hread : s.reader a.thread = .idle) (hv : SharedVar.Moves s.var a v) :
    exec (AtomicObject.step (sequential cv)) s.abs (s.view (.set a))
      = some (abs { (s.settle a.thread (s.outcome a)) with var := v }) := by
  cases hv with
  | enter t val hpc =>
      obtain ⟨-, hphase⟩ := phase_open h hpc hread id
      exact AtomicObject.exec_step (AtomicObject.step_invoke hphase) rfl
        (phase_set (a := .call t val) (v := s.var.goto t (.readLock val)) hread rfl rfl)
  | readLock t val hpc hfree =>
      exact stay_set h hread hpc rfl rfl (by simp [outcome, hpc]) id rfl
  | same t val hpc hval =>
      refine effect_set (a := .run t) (r := .done) (e := .returns) h hread hpc rfl ?_ id rfl ?_ ?_
      · simp [outcome, hpc, hval]
      · -- nothing to change
        show some ((ConfigVar.mk s.var.m_val).setValue val, Result.done) = _
        unfold ConfigVar.setValue
        rw [if_pos hval]
        rfl
      · intro hnone
        have hnone : s.result t = none := hnone
        simp [view, hnone, outcome, hpc, hval, SetLabel.thread]
  | differs t val hpc hval =>
      exact stay_set h hread hpc rfl rfl (by simp [outcome, hpc, hval]) id rfl
  | callback t val key rest hpc =>
      exact stay_set h hread hpc rfl rfl (by simp [outcome, hpc]) id rfl
  | callbackThrows t val key rest hpc =>
      refine effect_set (a := .throws t) (r := .threw .other) (e := .throws) h hread hpc rfl rfl id
        rfl ?_ (fun _ => rfl)
      exact if_neg (h.differs t val _ hpc)
  | readUnlock t val hpc => exact stay_set h hread hpc rfl rfl (by simp [outcome, hpc]) id rfl
  | leave t hpc => exact return_set h hread hpc rfl rfl (by simp [outcome, hpc]) trivial
  | writeLock t val hpc hfree hreaders =>
      exact stay_set h hread hpc rfl rfl (by simp [outcome, hpc]) id rfl
  | assign t val hpc =>
      refine effect_set (a := .run t) (r := .done) (e := .returns) h hread hpc rfl ?_ id rfl ?_ ?_
      · simp [outcome, hpc]
      · have hassign : (ConfigVar.mk s.var.m_val).setValue val = ⟨val⟩ :=
          congrArg ConfigVar.mk (ConfigVar.setValue_m_val ⟨s.var.m_val⟩ val)
        show some ((ConfigVar.mk s.var.m_val).setValue val, Result.done) = some (⟨val⟩, .done)
        rw [hassign]
      · intro hnone
        have hnone : s.result t = none := hnone
        simp [view, hnone, outcome, hpc, SetLabel.thread]
  | writeUnlock t hpc => exact return_set h hread hpc rfl rfl (by simp [outcome, hpc]) trivial

/-- A step of a reading member that no caller can tell from none. -/
theorem stay_reader (h : s.Inv) {v : SharedVar Tid T} {t : Tid} {p q : ReadPc}
    (hpc : s.reader t = p) (hp : p ≠ .idle) (hv : v.pc = s.var.pc) (hval : v.m_val = s.var.m_val)
    (hopen : ¬ Settled ((SetPc.idle : SetPc T), p))
    (hsame : phaseAt ((SetPc.idle : SetPc T), q) none = phaseAt (SetPc.idle, p) none)
    (hview : s.result t = none → s.view (.run t) = []) :
    exec (AtomicObject.step (sequential cv)) s.abs (s.view (.run t))
      = some (abs { var := v, reader := Function.update s.reader t q, result := s.result }) := by
  have hset := h.set_idle hpc hp
  obtain ⟨hnone, hphase⟩ := phase_open h hset hpc hopen
  rw [hview hnone]
  refine AtomicObject.exec_stay (congrArg ConfigVar.mk hval) ?_
  have hres : Function.update s.result t none = s.result := by rw [← hnone, Function.update_eq_self]
  have hnext := phase_reader (q := q) (r := none) hset hv
  rw [hres, hsame, ← hphase, Function.update_eq_self] at hnext
  exact hnext

/-- The step in which a reading member takes effect. -/
theorem effect_reader (h : s.Inv) {a : ConfigLabel Tid T} {t : Tid} {p q : ReadPc} {c : Call T}
    {e : Ending T} {r : Result T} (hpc : s.reader t = p) (hp : p ≠ .idle)
    (hopen : ¬ Settled ((SetPc.idle : SetPc T), p))
    (hcall : phaseAt (SetPc.idle, p) none = .pending c)
    (hspec : sequential cv ⟨s.var.m_val⟩ c e = some (⟨s.var.m_val⟩, r))
    (hview : s.result t = none → s.view a = [.effect t e]) :
    exec (AtomicObject.step (sequential cv)) s.abs (s.view a)
      = some (abs ((s.goto t q).settle t (some r))) := by
  have hset := h.set_idle hpc hp
  obtain ⟨hnone, hphase⟩ := phase_open h hset hpc hopen
  rw [hview hnone]
  exact AtomicObject.exec_step (AtomicObject.step_effect (hphase.trans hcall) hspec) rfl
    (phase_reader (q := q) hset rfl)

/-- The step in which a reading member returns. -/
theorem return_reader (h : s.Inv) {v : SharedVar Tid T} {t : Tid} {p : ReadPc}
    (hpc : s.reader t = p) (hp : p ≠ .idle) (hv : v.pc = s.var.pc) (hval : v.m_val = s.var.m_val)
    (hsettled : Settled ((SetPc.idle : SetPc T), p)) :
    exec (AtomicObject.step (sequential cv)) s.abs (s.view (.run t))
      = some (abs { var := v, reader := Function.update s.reader t .idle,
                    result := Function.update s.result t none }) := by
  have hset := h.set_idle hpc hp
  obtain ⟨r, hsome, hphase⟩ := phase_settled h hset hpc hsettled
  have hview : s.view (.run t) = [.ret t r] := by
    unfold view
    simp only [hsome]
  rw [hview]
  exact AtomicObject.exec_step (AtomicObject.step_ret hphase) (congrArg ConfigVar.mk hval)
    (phase_reader (q := .idle) (r := none) hset hv)

/-- **EVERY STEP IS AT MOST ONE STEP OF THE ATOMIC OBJECT.** -/
theorem simulates (h : s.Inv) {s' : SharedConfig Tid T} {a : ConfigLabel Tid T}
    (hs : step cv s a = some s') :
    exec (AtomicObject.step (sequential cv)) s.abs (s.view a) = some s'.abs := by
  cases moves_of_step hs with
  | set a v hfree hv => exact simulates_set h hfree hv
  | enter t c hset hread =>
      obtain ⟨hnone, hphase⟩ := phase_open h hset hread id
      have hres : Function.update s.result t none = s.result := by
        rw [← hnone, Function.update_eq_self]
      have hnext := phase_reader (v := s.var) (q := .lock c) (r := none) hset rfl
      rw [hres] at hnext
      exact AtomicObject.exec_step (AtomicObject.step_invoke hphase) rfl hnext
  | lock t c hpc hfree =>
      exact stay_reader h hpc (by intro h; cases h) rfl rfl id rfl
        (fun hnone => by simp [view, hnone, hpc])
  | reference t hpc =>
      exact stay_reader h hpc (by intro h; cases h) rfl rfl id rfl
        (fun hnone => by simp [view, hnone, hpc])
  | work t c hpc hc =>
      refine effect_reader (e := .returns) h hpc (by intro h; cases h) id rfl ?_ ?_
      · cases c with
        | getValue => exact absurd rfl hc
        | _ => rfl
      · intro hnone
        cases c with
        | getValue => exact absurd rfl hc
        | _ => simp [view, hnone, hpc]
  | unlock t hpc => exact return_reader h hpc (by intro h; cases h) rfl rfl trivial
  | unlockRef t hpc =>
      exact stay_reader h hpc (by intro h; cases h) rfl rfl id rfl
        (fun hnone => by simp [view, hnone, hpc])
  | copy t hpc =>
      exact effect_reader (e := .returns) h hpc (by intro h; cases h) id rfl rfl
        (fun hnone => by simp [view, hnone, hpc])
  | leave t hpc => exact return_reader h hpc (by intro h; cases h) rfl rfl trivial
  | torn t val hpc hassign =>
      exact effect_reader (e := .torn val) h hpc (by intro h; cases h) id rfl rfl (fun _ => rfl)

/-! ## §4. Runs. -/

/-- The calls, effects and returns of a run. -/
def seen (cv : Conversions T) (s : SharedConfig Tid T) (as : List (ConfigLabel Tid T)) :
    List (ObjectLabel Tid (Call T) (Ending T) (Result T)) :=
  shown (step cv) view s as

/-- The copy a step tears, and what it returns. -/
def tornCopy : ConfigLabel Tid T → Option (Tid × T)
  | .torn t val => some (t, val)
  | _ => none

def tornEnding (t : Tid) : Ending T → Option (Tid × T)
  | .torn val => some (t, val)
  | _ => none

/-- The torn copy a sequential call stands for. -/
def tornCall (call : AtomicObject.Complete Tid (Call T) (Ending T) (Result T)) : Option (Tid × T) :=
  tornEnding call.1 call.2.2.1

/-- The complete sequential calls explain the run `as` of a new variable to the state `s`:
they lead from the initial value to the value of `s`, every thread has called what it
calls in the run and got back what is returned to it there, but for the call it has in
progress, and the torn copies among them are those of the run. -/
structure Explains (cv : Conversions T) (init : T) (cbs : CallbackMap)
    (as : List (ConfigLabel Tid T)) (s : SharedConfig Tid T)
    (calls : List (AtomicObject.Complete Tid (Call T) (Ending T) (Result T))) : Prop where
  values : AtomicObject.replay (sequential cv) ⟨init⟩ calls = some ⟨s.var.m_val⟩
  threads : ∀ t, AtomicObject.AddsUp t .idle (seen cv (new init cbs) as) calls (s.phase t)
  copies : calls.filterMap tornCall = as.filterMap tornCopy

theorem inv_run {as : List (ConfigLabel Tid T)} {s' : SharedConfig Tid T} (h : s.Inv)
    (hrun : exec (step cv) s as = some s') : s'.Inv :=
  exec_invariant (step cv) Inv (fun _ _ _ hs hstep => inv_step hs hstep) as s s' h hrun

theorem simulates_run {as : List (ConfigLabel Tid T)} {s' : SharedConfig Tid T} (h : s.Inv)
    (hrun : exec (step cv) s as = some s') :
    exec (AtomicObject.step (sequential cv)) s.abs (seen cv s as) = some s'.abs :=
  exec_simulation Inv abs view (fun _ _ _ hs hstep => inv_step hs hstep)
    (fun _ _ _ hs hstep => simulates hs hstep) as s s' h hrun

omit [DecidableEq Tid] in
/-- A step shows a torn copy if it is one. -/
theorem view_torn (s : SharedConfig Tid T) (a : ConfigLabel Tid T) :
    (s.view a).filterMap (fun b => b.outcome.bind fun (t, e) => tornEnding t e)
      = (tornCopy a).toList := by
  cases a with
  | set a =>
      cases a with
      | run t =>
          simp only [view]
          split
          · rfl
          · split <;> rfl
      | _ => rfl
  | run t =>
      simp only [view]
      split <;> rfl
  | _ => rfl

/-- The calls that take effect in a run are torn where its copies are. -/
theorem torn_effects {as : List (ConfigLabel Tid T)} {s' : SharedConfig Tid T} (h : s.Inv)
    (hrun : exec (step cv) s as = some s') :
    (AtomicObject.effects (sequential cv) s.abs (seen cv s as)).filterMap tornCall
      = as.filterMap tornCopy :=
  (AtomicObject.effects_outcomes tornEnding _ _ _ (simulates_run h hrun)).trans
    (shown_filterMap (fun u a _ _ => view_torn u a) as s s' hrun)

/-- **A SHARED `ConfigVar` IS LINEARIZABLE.**  Every run, however the calls of its
threads overlap, is explained by sequential calls, in which a `getValue` returns something
else than the value only if its copy was torn; and if the run goes on, the calls that
explain the longer one begin with these, so that a call that has returned comes before
every call that is made later. -/
theorem linearizable (cv : Conversions T) (init : T) (cbs : CallbackMap)
    (as bs : List (ConfigLabel Tid T)) (s s' : SharedConfig Tid T)
    (has : exec (step cv) (new init cbs) as = some s) (hbs : exec (step cv) s bs = some s') :
    ∃ calls more, Explains cv init cbs as s calls ∧
      Explains cv init cbs (as ++ bs) s' (calls ++ more) := by
  have hmid := inv_run (inv_new init cbs) has
  obtain ⟨hcalls, hadds⟩ :=
    AtomicObject.explained _ _ _ (simulates_run (inv_new init cbs) has)
  obtain ⟨hmore, hadds'⟩ := AtomicObject.explained _ _ _ (simulates_run hmid hbs)
  have htorn := torn_effects (inv_new init cbs) has
  refine ⟨AtomicObject.effects (sequential cv) (new init cbs).abs (seen cv (new init cbs) as),
    AtomicObject.effects (sequential cv) s.abs (seen cv s bs), ⟨hcalls, hadds, htorn⟩, ?_, ?_, ?_⟩
  · exact (AtomicObject.replay_append _ hcalls).trans hmore
  · intro t
    have happend : seen cv (new init cbs) (as ++ bs)
        = seen cv (new init cbs) as ++ seen cv s bs := shown_append as _ s has
    rw [happend]
    exact (hadds t).append (hadds' t)
  · rw [List.filterMap_append, List.filterMap_append, htorn, torn_effects hmid hbs]

/-- `false` has its reference when `true` begins to set 5, and copies the value when
`true` is past its comparison. -/
def getAndSet : List (ConfigLabel Bool Int) :=
  [.read false .getValue, .run false, .set (.call true 5), .run false, .run false, .set (.run true),
    .set (.run true), .set (.run true), .run false]

/-- Both return. -/
def bothReturn : List (ConfigLabel Bool Int) :=
  [.set (.run true), .set (.run true), .set (.run true), .run false]

/-- A variable without callbacks. -/
def plain : SharedConfig Bool Int := new 0 ⟨[], List.nodup_nil⟩

def copied : SharedConfig Bool Int :=
  (exec (step digitConversions) plain getAndSet).get (by decide)

def returned : SharedConfig Bool Int :=
  (exec (step digitConversions) copied bothReturn).get (by decide)

theorem linearizable_getAndSet :
    ∃ calls more, Explains digitConversions 0 ⟨[], List.nodup_nil⟩ getAndSet copied calls ∧
      Explains digitConversions 0 ⟨[], List.nodup_nil⟩ (getAndSet ++ bothReturn) returned
        (calls ++ more) :=
  linearizable digitConversions 0 ⟨[], List.nodup_nil⟩ getAndSet bothReturn copied returned
    (Option.some_get _).symm (Option.some_get _).symm

/-- While `true` assigns, the copy of `false` may return a value that was never set. -/
example : (exec (step digitConversions) plain
      [.read false .getValue, .run false, .run false, .run false, .set (.call true 5),
        .set (.run true), .set (.run true), .set (.run true), .set (.run true),
        .torn false 7]).bind (fun s => s.result false) = some (.value 7) := by decide

end SharedConfig

end SylarCot.Config
