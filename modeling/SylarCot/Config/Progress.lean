/-
  SylarCot.Config.Progress
  ────────────────────────
  **WHAT THE LOCK OF A `ConfigVar` GIVES AND COSTS.**

  Over all runs of all members:

    • `protects` — assignments exclude each other and every read of `m_val`, but for
      the copies made through the reference that `getValue` returns;
    • `progress` — as long as a call is in progress some thread can go on with one, and
      a call takes a bounded number of steps of its thread: so all calls return once no
      more are made.
-/
import SylarCot.Config.Linearizable

namespace SylarCot.Config

open Library

variable {Tid T : Type*}

namespace SharedConfig

/-! ## §1. Conflicting accesses. -/

/-- The next step of the thread reads `m_val`. -/
def ReadsValue : Place T → Prop
  | (.compare _, _) => True
  | (.callbacks _ (_ :: _), _) => True
  | (.idle, .body .toString) => True
  | (.idle, .copy) => True
  | _ => False

/-- The next step of the thread assigns `m_val`. -/
def Assigns : Place T → Prop
  | (.assign _, _) => True
  | _ => False

theorem reads_of_readsValue {p : Place T} (h : ReadsValue p) : Reads p ∨ p = (.idle, .copy) := by
  obtain ⟨p, q⟩ := p
  cases p with
  | idle =>
      cases q with
      | copy => exact .inr rfl
      | body c => exact .inl trivial
      | _ => cases h
  | compare val => exact .inl trivial
  | callbacks val rest => exact .inl trivial
  | _ => cases h

theorem writes_of_assigns {p : Place T} (h : Assigns p) : Writes p := by
  obtain ⟨p, q⟩ := p
  cases p with
  | assign val => trivial
  | _ => cases h

/-- No two threads are about to assign, and a thread that is about to read while
another is about to assign copies through a reference. -/
def Protected (s : SharedConfig Tid T) : Prop :=
  (∀ t u, Assigns (s.place t) → Assigns (s.place u) → t = u) ∧
    ∀ t u, ReadsValue (s.place t) → Assigns (s.place u) → s.place t = (.idle, .copy)

theorem Inv.protected {s : SharedConfig Tid T} (h : s.Inv) : s.Protected := by
  constructor
  · intro t u ht hu
    exact h.holds.unique (writes_of_assigns ht) (writes_of_assigns hu)
  · intro t u ht hu
    exact (reads_of_readsValue ht).resolve_left (h.holds.not_reads (writes_of_assigns hu))

variable [DecidableEq Tid] [DecidableEq T]

/-- **THE LOCK PROTECTS `m_val`** in every state of every run, from everything but the
copies made through the references of `getValue`. -/
theorem protects (cv : Conversions T) (init : T) (cbs : CallbackMap)
    (as : List (ConfigLabel Tid T)) : Always (step cv) Protected (new init cbs) as :=
  always_of_guarded (step cv) (C := fun _ _ => True) Inv (fun _ _ _ hs _ hstep => inv_step hs hstep)
    (fun _ => Inv.protected) as (new init cbs) (inv_new init cbs)
    (guarded_of_forall (step cv) as (fun _ _ _ => trivial) _)

/-- The thread `false` copies while `true` assigns. -/
example : ∃ s, exec (step digitConversions) plain
      [.read false .getValue, .run false, .run false, .run false, .set (.call true 5),
        .set (.run true), .set (.run true), .set (.run true), .set (.run true)] = some s ∧
    s.place false = (.idle, .copy) ∧ s.place true = (.assign 5, .idle) :=
  ⟨_, (Option.some_get (by decide)).symm, by decide, by decide⟩

/-! ## §2. Somebody can go on. -/

variable {cv : Conversions T} {s s' : SharedConfig Tid T}

/-- The thread can take its next step. -/
def CanRun (cv : Conversions T) (s : SharedConfig Tid T) (t : Tid) : Prop :=
  ∃ s', step cv s (.set (.run t)) = some s' ∨ step cv s (.run t) = some s'

theorem canRun_set (h : s.Inv) {v : SharedVar Tid T} {t : Tid} (hpc : s.var.pc t ≠ .idle)
    (hv : SharedVar.Moves s.var (.run t) v) : CanRun cv s t := by
  have hmay : s.mayStep (.run t) = true := decide_eq_true ((h.apart t).resolve_left hpc)
  refine ⟨{ (s.settle t (s.outcome (.run t))) with var := v }, .inl ?_⟩
  show (if s.mayStep (.run t) = true then _ else none) = _
  rw [if_pos hmay, SharedVar.step_of_moves hv]
  rfl

/-- A setter can go on if it holds the lock, or the lock is free. -/
theorem canRun_setter (h : s.Inv) {t : Tid} (hpc : s.var.pc t ≠ .idle)
    (hfree : (∀ val, s.var.pc t = .readLock val → s.var.writer = none) ∧
      ∀ val, s.var.pc t = .writeLock val → s.var.writer = none ∧ s.var.readers = []) :
    CanRun cv s t := by
  cases hp : s.var.pc t with
  | idle => exact absurd hp hpc
  | readLock val => exact canRun_set h hpc (.readLock t val hp (hfree.1 val hp))
  | compare val =>
      by_cases hval : val = s.var.m_val
      · exact canRun_set h hpc (.same t val hp hval)
      · exact canRun_set h hpc (.differs t val hp hval)
  | callbacks val rest =>
      cases rest with
      | nil => exact canRun_set h hpc (.readUnlock t val hp)
      | cons key rest => exact canRun_set h hpc (.callback t val key rest hp)
  | readUnlockLeave => exact canRun_set h hpc (.leave t hp)
  | writeLock val =>
      exact canRun_set h hpc (.writeLock t val hp (hfree.2 val hp).1 (hfree.2 val hp).2)
  | assign val => exact canRun_set h hpc (.assign t val hp)
  | writeUnlock => exact canRun_set h hpc (.writeUnlock t hp)

/-- A reading member can go on if it is past its lock, or there is no writer. -/
theorem canRun_reader {t : Tid} (hpc : s.reader t ≠ .idle)
    (hfree : ∀ c, s.reader t = .lock c → s.var.writer = none) : CanRun cv s t := by
  have hsome : (runReader cv s t).isSome := by
    unfold runReader
    cases hp : s.reader t with
    | idle => exact absurd hp hpc
    | lock c =>
        simp only [hfree c hp]
        rfl
    | body c =>
        cases c with
        | _ => rfl
    | _ => rfl
  obtain ⟨s', hs'⟩ := Option.isSome_iff_exists.mp hsome
  exact ⟨s', .inr hs'⟩

/-- A thread that holds the lock can go on. -/
theorem canRun_holder (h : s.Inv) {t : Tid} (ht : Reads (s.place t) ∨ Writes (s.place t)) :
    CanRun cv s t := by
  by_cases hset : s.var.pc t = .idle
  · refine canRun_reader ?_ ?_
    · intro hread
      unfold place at ht
      rw [hset, hread] at ht
      exact ht.elim id id
    · intro c hread
      unfold place at ht
      rw [hset, hread] at ht
      exact (ht.elim id id).elim
  · refine canRun_setter h hset ⟨?_, ?_⟩
    · intro val hp
      unfold place at ht
      rw [hp] at ht
      exact (ht.elim id id).elim
    · intro val hp
      unfold place at ht
      rw [hp] at ht
      exact (ht.elim id id).elim

/-- A call of the thread is in progress. -/
def Busy (s : SharedConfig Tid T) (t : Tid) : Prop := s.place t ≠ (.idle, .idle)

/-- **Somebody can go on.** -/
theorem some_canRun (h : s.Inv) {t : Tid} (hbusy : s.Busy t) : ∃ u, CanRun cv s u := by
  refine h.holds.some_can (fun u hu => canRun_holder h hu) ?_ hbusy
  intro hwriter hreaders u hu
  by_cases hset : s.var.pc u = .idle
  · refine canRun_reader ?_ (fun _ _ => hwriter)
    intro hread
    exact hu (by unfold place; rw [hset, hread])
  · exact canRun_setter h hset ⟨fun _ _ => hwriter, fun _ _ => ⟨hwriter, hreaders⟩⟩

/-! ## §3. A call is a bounded number of steps. -/

/-- The steps that are left of `setValue`, with `n` callbacks registered. -/
def SetPc.remaining (n : Nat) : SetPc T → Nat
  | .idle => 0
  | .readLock _ => n + 6
  | .compare _ => n + 5
  | .callbacks _ rest => rest.length + 4
  | .readUnlockLeave => 1
  | .writeLock _ => 3
  | .assign _ => 2
  | .writeUnlock => 1

/-- The steps that are left of a reading member. -/
def ReadPc.remaining : ReadPc → Nat
  | .idle => 0
  | .lock _ => 5
  | .body _ => 4
  | .unlock => 1
  | .unlockRef => 3
  | .copy => 2
  | .leave => 1

/-- The steps that are left of the call of a thread. -/
def remaining (s : SharedConfig Tid T) (t : Tid) : Nat :=
  SetPc.remaining s.var.m_cbs.keys.length (s.var.pc t) + ReadPc.remaining (s.reader t)

/-- The label begins a call. -/
def isCall : ConfigLabel Tid T → Bool
  | .set (.call _ _) => true
  | .read _ _ => true
  | _ => false

/-- The calls of a thread in a run. -/
def callsOf (t : Tid) (as : List (ConfigLabel Tid T)) : Nat :=
  as.countP fun a => thread a = t ∧ isCall a = true

/-- The other steps of a thread in a run. -/
def stepsOf (t : Tid) (as : List (ConfigLabel Tid T)) : Nat :=
  as.countP fun a => thread a = t ∧ isCall a = false

/-- What a step costs its thread, and what a call gives it. -/
def Pays (n : Nat) (a : ConfigLabel Tid T) (before after : Nat) : Prop :=
  if isCall a then after ≤ before + (n + 6) else after + 1 ≤ before

omit [DecidableEq T] in
/-- `setValue` pays for its steps. -/
theorem pays_set {v v' : SharedVar Tid T} {a : SetLabel Tid T} (h : SharedVar.Moves v a v') :
    Pays v.m_cbs.keys.length (.set a) (SetPc.remaining v.m_cbs.keys.length (v.pc a.thread))
      (SetPc.remaining v.m_cbs.keys.length (v'.pc a.thread)) := by
  cases h with
  | enter t val hpc => simp [Pays, isCall, SetLabel.thread, SharedVar.goto, SetPc.remaining]
  | callback t val key rest hpc =>
      simp [Pays, isCall, SetLabel.thread, SharedVar.goto, SharedVar.record, SetPc.remaining, hpc]
  | callbackThrows t val key rest hpc =>
      simp [Pays, isCall, SetLabel.thread, SharedVar.goto, SharedVar.record, SetPc.remaining, hpc]
  | _ =>
      simp [Pays, isCall, SetLabel.thread, SharedVar.goto, SharedVar.unlockRead,
        SharedVar.unlockWrite, SharedVar.record, SetPc.remaining, *]

omit [DecidableEq T] in
theorem cbs_of_setMoves {v v' : SharedVar Tid T} {a : SetLabel Tid T}
    (h : SharedVar.Moves v a v') : v'.m_cbs = v.m_cbs := by
  cases h with
  | _ => rfl

/-- No step touches the callbacks. -/
theorem cbs_of_moves {a : ConfigLabel Tid T} (hs : Moves cv s a s') :
    s'.var.m_cbs = s.var.m_cbs := by
  cases hs with
  | set a v hfree hv => exact cbs_of_setMoves hv
  | _ => rfl

/-- **Every step is paid for**, by its thread. -/
theorem pays_moves {a : ConfigLabel Tid T} (hs : Moves cv s a s') :
    Pays s.var.m_cbs.keys.length a (s.remaining (thread a)) (s'.remaining (thread a)) := by
  have hcbs := cbs_of_moves hs
  unfold remaining
  rw [hcbs]
  cases hs with
  | set a v hfree hv =>
      have hpays := pays_set hv
      unfold Pays at hpays ⊢
      show if isCall (.set a) then
          SetPc.remaining _ (v.pc a.thread) + ReadPc.remaining (s.reader a.thread)
            ≤ SetPc.remaining _ (s.var.pc a.thread) + ReadPc.remaining (s.reader a.thread) + _
        else SetPc.remaining _ (v.pc a.thread) + ReadPc.remaining (s.reader a.thread) + 1
            ≤ SetPc.remaining _ (s.var.pc a.thread) + ReadPc.remaining (s.reader a.thread)
      rw [hfree]
      exact hpays
  | enter t c hset hread =>
      simp [Pays, isCall, thread, goto, hset, hread, SetPc.remaining, ReadPc.remaining]
  | lock t c hpc hfree => simp [Pays, isCall, thread, goto, setReaders, hpc, ReadPc.remaining]
  | reference t hpc => simp [Pays, isCall, thread, goto, hpc, ReadPc.remaining]
  | work t c hpc hc =>
      simp [Pays, isCall, thread, goto, settle, hpc, ReadPc.remaining]
  | unlock t hpc => simp [Pays, isCall, thread, goto, setReaders, settle, hpc, ReadPc.remaining]
  | unlockRef t hpc => simp [Pays, isCall, thread, goto, setReaders, hpc, ReadPc.remaining]
  | copy t hpc => simp [Pays, isCall, thread, goto, settle, hpc, ReadPc.remaining]
  | leave t hpc => simp [Pays, isCall, thread, goto, settle, hpc, ReadPc.remaining]
  | torn t val hpc hassign => simp [Pays, isCall, thread, goto, settle, hpc, ReadPc.remaining]

/-- Other threads pay nothing. -/
theorem remaining_other {a : ConfigLabel Tid T} (h : s.Inv) (hs : Moves cv s a s') {t : Tid}
    (ht : t ≠ thread a) : s'.remaining t = s.remaining t := by
  obtain ⟨q, hplace, -⟩ := turn_of_moves h hs
  have hsame : s'.place t = s.place t := by rw [hplace, Function.update_of_ne ht]
  obtain ⟨hset, hread⟩ := Prod.mk.inj hsame
  unfold remaining
  rw [cbs_of_moves hs, hset, hread]

/-- **Every run is paid for.** -/
theorem steps_bounded (t : Tid) (as : List (ConfigLabel Tid T)) (s s' : SharedConfig Tid T)
    (h : s.Inv) (hrun : exec (step cv) s as = some s') :
    stepsOf t as + s'.remaining t
      ≤ s.remaining t + (s.var.m_cbs.keys.length + 6) * callsOf t as := by
  refine exec_countP_le (step cv) (fun u => u.Inv ∧ u.var.m_cbs = s.var.m_cbs) ?_
    (fun u => u.remaining t) ?_ as s s' ⟨h, rfl⟩ hrun
  · intro u a u' hu ha
    exact ⟨inv_step hu.1 ha, (cbs_of_moves (moves_of_step ha)).trans hu.2⟩
  · intro u a u' hu ha
    have hmoves := moves_of_step ha
    by_cases ht : t = thread a
    · subst ht
      have hpays := pays_moves hmoves
      unfold Pays at hpays
      rw [hu.2] at hpays
      cases hcall : isCall a with
      | true =>
          rw [hcall, if_pos rfl] at hpays
          simpa [hcall] using hpays
      | false =>
          rw [hcall, if_neg Bool.false_ne_true] at hpays
          simp
          omega
    · have hother := remaining_other hu.1 hmoves ht
      simp [Ne.symm ht, hother]

/-- **ALL CALLS RETURN.**  In every state that a run reaches, somebody can go on with a
call if one is in progress, and every thread has taken at most `|m_cbs| + 6` steps for
each of its calls.  So a run to which no calls are added comes to an end, and then no
call is in progress. -/
theorem progress (cv : Conversions T) (init : T) (cbs : CallbackMap)
    (as : List (ConfigLabel Tid T)) (s : SharedConfig Tid T)
    (hrun : exec (step cv) (new init cbs) as = some s) :
    (∀ t, s.Busy t → ∃ u, CanRun cv s u) ∧
      ∀ t, stepsOf t as ≤ (cbs.keys.length + 6) * callsOf t as := by
  refine ⟨fun t ht => some_canRun (inv_run (inv_new init cbs) hrun) ht, fun t => ?_⟩
  have hbound := steps_bounded t as _ s (inv_new init cbs) hrun
  have hzero : (new init cbs : SharedConfig Tid T).remaining t = 0 := rfl
  have hcbs : (new init cbs : SharedConfig Tid T).var.m_cbs = cbs := rfl
  rw [hzero, hcbs] at hbound
  omega

/-- The setter is between its locks when the reader has copied. -/
theorem progress_getAndSet :
    (∀ t, copied.Busy t → ∃ u, CanRun digitConversions copied u) ∧
      ∀ t, stepsOf t getAndSet ≤ (0 + 6) * callsOf t getAndSet :=
  progress digitConversions 0 ⟨[], List.nodup_nil⟩ getAndSet copied (Option.some_get _).symm

end SharedConfig

end SylarCot.Config
