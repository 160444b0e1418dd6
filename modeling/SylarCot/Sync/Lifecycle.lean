/-
  SylarCot.Sync.Lifecycle
  ───────────────────────
  **WHO RELEASES A STARTED THREAD**: `Thread::join` and the destructor, over the
  object of `Thread` and its start-up.

  `pthread_create` leaves a thread that has to be joined or detached, and only once.
  The object keeps the handle until then: `join` waits for the thread and sets the
  handle to 0, `~Thread` detaches a handle that is not 0.  Neither takes a lock.  (A
  callback that joins its own thread, which only gets `EDEADLK`, is left out.)

  A `pthread_join` on a thread that has been released is undefined; here it is a misuse
  from which nobody returns (`JoinPc.lost`).

    • `Stage` — where the responsibility is; `inv_step`: every step of a run that does
      not overlap two calls keeps the stages;
    • `mayMisuse_of_overlap` — two calls that overlap can release the thread twice;
    • `lifecycle_iff` — so the runs without overlap are those from which scheduling
      alone never leads to a misuse, and in them every thread is released once.
-/
import Mathlib.Data.Fintype.Basic
import SylarCot.Sync.StartUp

namespace SylarCot.Sync

open Library

/-! ## §1. States and labels. -/

/-- Where a thread is in `Thread::join` on the object. -/
inductive JoinPc where
  | outside
  /-- `if (m_thread_handle != 0)` -/
  | test
  /-- `pthread_join(m_thread_handle, nullptr)` -/
  | joining
  /-- `m_thread_handle = 0` -/
  | reset
  /-- inside a `pthread_join` on a thread that had been released -/
  | lost
  deriving Repr, DecidableEq

/-- A `Thread` with its handle, and the calls that other threads make of `join` on it. -/
structure JoinableThread (Cb Tid : Type*) where
  thread : Thread Cb := {}
  /-- `m_thread_handle != 0` -/
  m_thread_handle : Bool := false
  joinPc : Tid → JoinPc := fun _ => .outside
  /-- How often the started thread has been joined or detached. -/
  released : Nat := 0
  /-- A thread has been joined or detached again, or `join` has accessed a dead object. -/
  misused : Bool := false
  /-- A `join` has returned to this thread. -/
  returned : Tid → Bool := fun _ => false

/-- The steps on one object: those of its constructor, destructor and started thread,
and those of `join`, whose `pthread_join` may fail (`EDEADLK`). -/
inductive LifeStep (Cb Tid : Type*) where
  | thread (a : ThreadStep Cb)
  | join (t : Tid)
  | joinFails (t : Tid)
  | run (t : Tid)
  deriving Repr, DecidableEq

namespace JoinableThread

variable {Cb Tid : Type*}

/-! ## §2. Steps. -/

/-- `join` reads or writes `m_thread_handle`. -/
def access (x : JoinableThread Cb Tid) : JoinableThread Cb Tid :=
  { x with misused := x.misused || !x.thread.alive }

/-- `pthread_join` has got the thread, or `pthread_detach` has given it up. -/
def release (x : JoinableThread Cb Tid) : JoinableThread Cb Tid :=
  { x with released := x.released + 1, misused := x.misused || decide (0 < x.released) }

/-- What a step of `Thread` does to the handle. -/
def afterThread (x : JoinableThread Cb Tid) (a : ThreadStep Cb) (thread : Thread Cb) :
    JoinableThread Cb Tid :=
  match a with
  | .create _ => { x with thread := thread, m_thread_handle := true }
  -- ~Thread: if (m_thread_handle != 0) pthread_detach(m_thread_handle)
  | .destroy => if x.m_thread_handle then { x.release with thread := thread }
      else { x with thread := thread }
  | _ => { x with thread := thread }

theorem afterThread_destroy_held {x : JoinableThread Cb Tid} (h : x.m_thread_handle = true)
    (thread : Thread Cb) : x.afterThread .destroy thread = { x.release with thread := thread } := by
  show (if x.m_thread_handle then _ else _) = _
  rw [h]
  rfl

theorem afterThread_destroy_forgotten {x : JoinableThread Cb Tid} (h : x.m_thread_handle = false)
    (thread : Thread Cb) : x.afterThread .destroy thread = { x with thread := thread } := by
  show (if x.m_thread_handle then _ else _) = _
  rw [h]
  rfl

section Steps

variable [DecidableEq Tid]

/-- Move a thread within `join`. -/
def setPc (x : JoinableThread Cb Tid) (t : Tid) (p : JoinPc) : JoinableThread Cb Tid :=
  { x with joinPc := Function.update x.joinPc t p }

/-- `join` returns. -/
def leave (x : JoinableThread Cb Tid) (t : Tid) : JoinableThread Cb Tid :=
  { x.setPc t .outside with returned := Function.update x.returned t true }

/-- One step of `join`. -/
def runJoin (x : JoinableThread Cb Tid) (t : Tid) : Option (JoinableThread Cb Tid) :=
  match x.joinPc t with
  | .outside => none
  | .test =>
      if x.m_thread_handle then some (x.access.setPc t .joining) else some (x.access.leave t)
  -- blocks until the thread has finished
  | .joining =>
      if x.released = 0 then
        if x.thread.runner = .finished then some (x.release.setPc t .reset) else none
      else some ({ x with misused := true }.setPc t .lost)
  | .reset => some ({ x.access with m_thread_handle := false }.leave t)
  | .lost => none

/-- One step on one object. -/
def step (x : JoinableThread Cb Tid) : LifeStep Cb Tid → Option (JoinableThread Cb Tid)
  | .thread a => (x.thread.step a).map (x.afterThread a)
  -- only an object that has been constructed can be called, and only while it lives
  | .join t =>
      if x.joinPc t = .outside ∧ x.thread.creator = .returned then some (x.setPc t .test) else none
  -- throw std::logic_error("pthread_join error")
  | .joinFails t => if x.joinPc t = .joining then some (x.setPc t .outside) else none
  | .run t => x.runJoin t

/-- **The moves on one object.** -/
inductive Moves (x : JoinableThread Cb Tid) : LifeStep Cb Tid → JoinableThread Cb Tid → Prop where
  | thread (a : ThreadStep Cb) (th : Thread Cb) (h : x.thread.step a = some th) :
      Moves x (.thread a) (x.afterThread a th)
  | call (t : Tid) (hout : x.joinPc t = .outside) (hpc : x.thread.creator = .returned) :
      Moves x (.join t) (x.setPc t .test)
  | fails (t : Tid) (hpc : x.joinPc t = .joining) : Moves x (.joinFails t) (x.setPc t .outside)
  | enter (t : Tid) (hpc : x.joinPc t = .test) (hhandle : x.m_thread_handle = true) :
      Moves x (.run t) (x.access.setPc t .joining)
  | skip (t : Tid) (hpc : x.joinPc t = .test) (hhandle : x.m_thread_handle = false) :
      Moves x (.run t) (x.access.leave t)
  | wait (t : Tid) (hpc : x.joinPc t = .joining) (hreleased : x.released = 0)
      (hfinished : x.thread.runner = .finished) : Moves x (.run t) (x.release.setPc t .reset)
  | again (t : Tid) (hpc : x.joinPc t = .joining) (hreleased : x.released ≠ 0) :
      Moves x (.run t) ({ x with misused := true }.setPc t .lost)
  | forget (t : Tid) (hpc : x.joinPc t = .reset) :
      Moves x (.run t) ({ x.access with m_thread_handle := false }.leave t)

/-- **Every step is one of the moves.** -/
theorem moves_of_step {x x' : JoinableThread Cb Tid} {a : LifeStep Cb Tid}
    (h : step x a = some x') : Moves x a x' := by
  cases a with
  | thread a =>
      obtain ⟨th, hth, rfl⟩ := Option.map_eq_some_iff.mp h
      exact .thread a th hth
  | join t =>
      obtain ⟨hc, hx⟩ := Option.ite_none_right_eq_some.mp h
      cases hx
      exact .call t hc.1 hc.2
  | joinFails t =>
      obtain ⟨hc, hx⟩ := Option.ite_none_right_eq_some.mp h
      cases hx
      exact .fails t hc
  | run t =>
      change x.runJoin t = some x' at h
      cases hpc : x.joinPc t with
      | outside =>
          simp only [runJoin, hpc] at h
          cases h
      | test =>
          cases hhandle : x.m_thread_handle with
          | true =>
              simp only [runJoin, hpc, hhandle, if_true] at h
              cases h
              exact .enter t hpc hhandle
          | false =>
              simp only [runJoin, hpc, hhandle, Bool.false_eq_true, if_false] at h
              cases h
              exact .skip t hpc hhandle
      | joining =>
          simp only [runJoin, hpc] at h
          by_cases hreleased : x.released = 0
          · rw [if_pos hreleased] at h
            obtain ⟨hfinished, hx⟩ := Option.ite_none_right_eq_some.mp h
            cases hx
            exact .wait t hpc hreleased hfinished
          · rw [if_neg hreleased] at h
            cases h
            exact .again t hpc hreleased
      | reset =>
          simp only [runJoin, hpc] at h
          cases h
          exact .forget t hpc
      | lost =>
          simp only [runJoin, hpc] at h
          cases h

@[simp] theorem setPc_self (x : JoinableThread Cb Tid) (t : Tid) (p : JoinPc) :
    (x.setPc t p).joinPc t = p := by
  show Function.update x.joinPc t p t = p
  rw [Function.update_self]

theorem setPc_other (x : JoinableThread Cb Tid) {t u : Tid} (h : u ≠ t) (p : JoinPc) :
    (x.setPc t p).joinPc u = x.joinPc u := by
  show Function.update x.joinPc t p u = x.joinPc u
  rw [Function.update_of_ne h]

end Steps

/-! ## §3. The stages. -/

/-- No thread is in `join`. -/
def Idle (x : JoinableThread Cb Tid) : Prop := ∀ t, x.joinPc t = .outside

instance [Fintype Tid] (x : JoinableThread Cb Tid) : Decidable x.Idle :=
  inferInstanceAs (Decidable (∀ t, x.joinPc t = .outside))

/-- Places of the creator at which the object owns a started thread it has not given up. -/
def holding : CreatorPc → Bool
  | .waiting => true
  | .returned => true
  | .threw what => what = "sem_wait error"
  | _ => false

/-- Places at which no thread has been started. -/
def startless : CreatorPc → Bool
  | .unconstructed => true
  | .creating => true
  | .threw what => what = "pthread_create error"
  | _ => false

/-- **The stages of the handle.** -/
inductive Stage (x : JoinableThread Cb Tid) : Prop where
  | unstarted (hpc : startless x.thread.creator = true) (hhandle : x.m_thread_handle = false)
      (hreleased : x.released = 0) (hidle : x.Idle)
  /-- The object holds the handle; at most one thread is on its way to join. -/
  | held (hpc : holding x.thread.creator = true) (hhandle : x.m_thread_handle = true)
      (hreleased : x.released = 0)
      (hjoin : ∀ t, x.joinPc t ≠ .outside →
        x.thread.creator = .returned ∧ (x.joinPc t = .test ∨ x.joinPc t = .joining))
      (halone : ∀ t u, x.joinPc t ≠ .outside → x.joinPc u ≠ .outside → t = u)
  /-- Joined; the handle has still to be forgotten. -/
  | joined (t : Tid) (hpc : x.thread.creator = .returned) (hhandle : x.m_thread_handle = true)
      (hreleased : x.released = 1) (hreset : x.joinPc t = .reset)
      (hothers : ∀ u, u ≠ t → x.joinPc u = .outside) (hfinished : x.thread.runner = .finished)
  | forgotten (hpc : x.thread.creator = .returned) (hhandle : x.m_thread_handle = false)
      (hreleased : x.released = 1) (hjoin : ∀ t, x.joinPc t = .outside ∨ x.joinPc t = .test)
      (hfinished : x.thread.runner = .finished)
  | destroyed (hpc : x.thread.creator = .destroyed) (hreleased : x.released = 1) (hidle : x.Idle)

/-- Places at which the object is alive. -/
def living : CreatorPc → Bool
  | .creating => true
  | .waiting => true
  | .returned => true
  | _ => false

/-- The invariant. -/
structure LifeInv (x : JoinableThread Cb Tid) : Prop where
  stage : x.Stage
  unmisused : x.misused = false
  alive : living x.thread.creator = true → x.thread.alive = true
  finished : ∀ t, x.returned t = true → x.thread.runner = .finished
  /-- The start-up was safe, unless it failed. -/
  startUp : x.thread.creator = .threw "sem_wait error" ∨ x.thread.Inv

theorem lifeInv_unconstructed : LifeInv ({} : JoinableThread Cb Tid) where
  stage := .unstarted rfl rfl rfl fun _ => rfl
  unmisused := rfl
  alive h := nomatch h
  finished _ h := nomatch h
  startUp := .inr Thread.inv_unconstructed

/-- Only a constructed object is called. -/
theorem Stage.returned {x : JoinableThread Cb Tid} (h : x.Stage) {t : Tid}
    (ht : x.joinPc t ≠ .outside) : x.thread.creator = .returned := by
  cases h with
  | unstarted hpc hhandle hreleased hidle => exact absurd (hidle t) ht
  | held hpc hhandle hreleased hjoin halone => exact (hjoin t ht).1
  | joined u hpc hhandle hreleased hreset hothers hfinished => exact hpc
  | forgotten hpc hhandle hreleased hjoin hfinished => exact hpc
  | destroyed hpc hreleased hidle => exact absurd (hidle t) ht

/-- Before `pthread_create` there is nothing to release. -/
theorem Stage.of_startless {x : JoinableThread Cb Tid} (h : x.Stage)
    (hpc : Thread.mayHaveStarted x.thread.creator = false) :
    x.m_thread_handle = false ∧ x.released = 0 ∧ x.Idle := by
  cases h with
  | unstarted _ hhandle hreleased hidle => exact ⟨hhandle, hreleased, hidle⟩
  | held hheld =>
      cases hcreator : x.thread.creator with
      | unconstructed =>
          rw [hcreator] at hheld
          cases hheld
      | creating =>
          rw [hcreator] at hheld
          cases hheld
      | _ =>
          rw [hcreator] at hpc
          cases hpc
  | joined u hreturned =>
      rw [hreturned] at hpc
      cases hpc
  | forgotten hreturned =>
      rw [hreturned] at hpc
      cases hpc
  | destroyed hdestroyed =>
      rw [hdestroyed] at hpc
      cases hpc

/-- While the constructor waits, the object holds the handle and nobody can join. -/
theorem Stage.of_waiting {x : JoinableThread Cb Tid} (h : x.Stage)
    (hpc : x.thread.creator = .waiting) :
    x.m_thread_handle = true ∧ x.released = 0 ∧ x.Idle := by
  cases h with
  | unstarted hstartless =>
      rw [hpc] at hstartless
      cases hstartless
  | held hheld hhandle hreleased hjoin halone =>
      refine ⟨hhandle, hreleased, fun t => ?_⟩
      by_contra ht
      have hreturned := (hjoin t ht).1
      rw [hpc] at hreturned
      cases hreturned
  | joined u hreturned =>
      rw [hpc] at hreturned
      cases hreturned
  | forgotten hreturned =>
      rw [hpc] at hreturned
      cases hreturned
  | destroyed hdestroyed =>
      rw [hpc] at hdestroyed
      cases hdestroyed

/-- An object that holds the handle of a thread nobody joins. -/
theorem stage_held_idle {x : JoinableThread Cb Tid} (hpc : holding x.thread.creator = true)
    (hhandle : x.m_thread_handle = true) (hreleased : x.released = 0) (hidle : x.Idle) : x.Stage :=
  .held hpc hhandle hreleased (fun t ht => absurd (hidle t) ht)
    (fun t _ ht _ => absurd (hidle t) ht)

/-- An access to a living object is no misuse. -/
theorem access_eq {x : JoinableThread Cb Tid} (h : x.thread.alive = true) : x.access = x := by
  unfold access
  rw [h]
  simp

/-! ## §4. Steps. -/

/-- The started thread leaves its creator and the lifetime alone. -/
theorem runStep_frame {x x' : Thread Cb} (h : x.runStep = some x') :
    x'.creator = x.creator ∧ x'.alive = x.alive ∧ x.runner ≠ .finished := by
  cases hr : x.runner with
  | notStarted =>
      simp only [Thread.runStep, hr] at h
      cases h
  | finished =>
      simp only [Thread.runStep, hr] at h
      cases h
  | _ =>
      simp only [Thread.runStep, hr] at h
      cases h
      exact ⟨rfl, rfl, by intro heq; cases heq⟩

/-- A step of the started thread keeps the stage. -/
theorem stage_run {x : JoinableThread Cb Tid} {th : Thread Cb} (h : x.Stage)
    (hrun : x.thread.runStep = some th) : Stage { x with thread := th } := by
  obtain ⟨hcreator, -, hrunning⟩ := runStep_frame hrun
  cases h with
  | unstarted hpc hhandle hreleased hidle =>
      rw [← hcreator] at hpc
      exact .unstarted hpc hhandle hreleased hidle
  | held hpc hhandle hreleased hjoin halone =>
      rw [← hcreator] at hpc
      refine .held hpc hhandle hreleased (fun t ht => ?_) halone
      have ht' := hjoin t ht
      rw [← hcreator] at ht'
      exact ht'
  | joined t hpc hhandle hreleased hreset hothers hfinished => exact absurd hfinished hrunning
  | forgotten hpc hhandle hreleased hjoin hfinished => exact absurd hfinished hrunning
  | destroyed hpc hreleased hidle =>
      rw [← hcreator] at hpc
      exact .destroyed hpc hreleased hidle

/-- The step overlaps no other call: no thread is in `join` when the object is destroyed,
and while it holds its handle only one thread at a time calls `join`. -/
def Exclusive (x : JoinableThread Cb Tid) : LifeStep Cb Tid → Prop
  | .thread .destroy => x.Idle
  | .join _ => x.m_thread_handle = true → x.Idle
  | _ => True

instance [Fintype Tid] (x : JoinableThread Cb Tid) : ∀ a, Decidable (x.Exclusive a)
  | .thread .destroy => inferInstanceAs (Decidable x.Idle)
  | .join _ => inferInstanceAs (Decidable (x.m_thread_handle = true → x.Idle))
  | .thread (.construct _ _) => inferInstanceAs (Decidable True)
  | .thread .createFails => inferInstanceAs (Decidable True)
  | .thread (.create _) => inferInstanceAs (Decidable True)
  | .thread .semWait => inferInstanceAs (Decidable True)
  | .thread .semWaitFails => inferInstanceAs (Decidable True)
  | .thread .run => inferInstanceAs (Decidable True)
  | .joinFails _ => inferInstanceAs (Decidable True)
  | .run _ => inferInstanceAs (Decidable True)

/-- **Steps of the constructor, the destructor and the started thread.** -/
theorem inv_thread {x : JoinableThread Cb Tid} {a : ThreadStep Cb} {th : Thread Cb}
    (h : x.LifeInv) (hexclusive : x.Exclusive (.thread a)) (hs : x.thread.step a = some th) :
    (x.afterThread a th).LifeInv := by
  -- only a `sem_wait` that fails leaves the invariant of the start-up
  have hstart : a ≠ .semWaitFails → x.thread.creator ≠ .threw "sem_wait error" → th.Inv := by
    intro ha hcreator
    refine Thread.inv_step (h.startUp.resolve_left hcreator) ?_ hs
    cases a with
    | semWaitFails => exact absurd rfl ha
    | _ => exact trivial
  have hfinished := h.finished
  cases Thread.moves_of_step hs with
  | construct cb name hpc =>
      obtain ⟨hhandle, hreleased, hidle⟩ := h.stage.of_startless (by rw [hpc]; rfl)
      exact ⟨.unstarted rfl hhandle hreleased hidle, h.unmisused, fun _ => rfl, hfinished,
        .inr (hstart (by intro heq; cases heq) (by rw [hpc]; intro heq; cases heq))⟩
  | createFails hpc =>
      obtain ⟨hhandle, hreleased, hidle⟩ := h.stage.of_startless (by rw [hpc]; rfl)
      exact ⟨.unstarted rfl hhandle hreleased hidle, h.unmisused, (fun hno => by cases hno), hfinished,
        .inr (hstart (by intro heq; cases heq) (by rw [hpc]; intro heq; cases heq))⟩
  | create threadId hpc =>
      obtain ⟨-, hreleased, hidle⟩ := h.stage.of_startless (by rw [hpc]; rfl)
      refine ⟨stage_held_idle rfl rfl hreleased hidle, h.unmisused,
        fun _ => h.alive (by rw [hpc]; rfl), ?_,
        .inr (hstart (by intro heq; cases heq) (by rw [hpc]; intro heq; cases heq))⟩
      intro t ht
      have hrunner := h.startUp.resolve_left (by rw [hpc]; intro heq; cases heq)
      have hnone := (hrunner.notStarted (by rw [hpc]; rfl)).1
      rw [hfinished t ht] at hnone
      cases hnone
  | semWait hpc hsem =>
      obtain ⟨hhandle, hreleased, hidle⟩ := h.stage.of_waiting hpc
      exact ⟨stage_held_idle rfl hhandle hreleased hidle, h.unmisused,
        fun _ => h.alive (by rw [hpc]; rfl), hfinished,
        .inr (hstart (by intro heq; cases heq) (by rw [hpc]; intro heq; cases heq))⟩
  | semWaitFails hpc =>
      obtain ⟨hhandle, hreleased, hidle⟩ := h.stage.of_waiting hpc
      exact ⟨stage_held_idle rfl hhandle hreleased hidle, h.unmisused, (fun hno => by cases hno),
        hfinished, .inl rfl⟩
  | destroy hpc =>
      have hinv := hstart (by intro heq; cases heq) (by rw [hpc]; intro heq; cases heq)
      have hidle : x.Idle := hexclusive
      cases h.stage with
      | unstarted hstartless =>
          rw [hpc] at hstartless
          cases hstartless
      | held _ hhandle hreleased =>
          -- ~Thread detaches the thread
          rw [afterThread_destroy_held hhandle]
          refine ⟨.destroyed rfl ?_ hidle, ?_, (fun hno => by cases hno), hfinished, .inr hinv⟩
          · show x.released + 1 = 1
            rw [hreleased]
          · show (x.misused || decide (0 < x.released)) = false
            rw [h.unmisused, hreleased]
            rfl
      | joined t _ _ _ hreset =>
          rw [hidle t] at hreset
          cases hreset
      | forgotten _ hhandle hreleased =>
          rw [afterThread_destroy_forgotten hhandle]
          exact ⟨.destroyed rfl hreleased hidle, h.unmisused, (fun hno => by cases hno), hfinished,
            .inr hinv⟩
      | destroyed hdestroyed =>
          rw [hpc] at hdestroyed
          cases hdestroyed
  | run _ hrun =>
      obtain ⟨hcreator, halive, hrunning⟩ := runStep_frame hrun
      refine ⟨stage_run h.stage hrun, h.unmisused, ?_, ?_, ?_⟩
      · show living th.creator = true → th.alive = true
        rw [hcreator, halive]
        exact h.alive
      · intro t ht
        exact absurd (hfinished t ht) hrunning
      · rcases h.startUp with hthrew | hinv
        · exact .inl (hcreator.trans hthrew)
        · exact .inr (Thread.inv_runStep hinv hrun)

variable [DecidableEq Tid]

/-- Where one thread moves within `join` and the others are outside, they stay there. -/
theorem eq_of_update {x : JoinableThread Cb Tid} {t : Tid} {p : JoinPc}
    (hothers : ∀ u, u ≠ t → x.joinPc u = .outside) {u : Tid}
    (hu : (x.setPc t p).joinPc u ≠ .outside) : u = t := by
  by_contra hne
  rw [setPc_other x hne] at hu
  exact hu (hothers u hne)

/-- The object holds the handle, and only this thread is in `join`. -/
theorem stage_alone {x : JoinableThread Cb Tid} {t : Tid} {p : JoinPc}
    (hp : p ≠ .outside → p = .test ∨ p = .joining)
    (hpc : x.thread.creator = .returned) (hhandle : x.m_thread_handle = true)
    (hreleased : x.released = 0) (hothers : ∀ u, u ≠ t → x.joinPc u = .outside) :
    (x.setPc t p).Stage := by
  refine .held ?_ hhandle hreleased (fun u hu => ⟨hpc, ?_⟩) fun u v hu hv => ?_
  · show holding x.thread.creator = true
    rw [hpc]
    rfl
  · obtain rfl := eq_of_update hothers hu
    rw [setPc_self] at hu ⊢
    exact hp hu
  · exact (eq_of_update hothers hu).trans (eq_of_update hothers hv).symm

/-- The handle has been forgotten; this thread looks at it or leaves. -/
theorem stage_forgotten {x : JoinableThread Cb Tid} {t : Tid} {p : JoinPc}
    (hp : p = .outside ∨ p = .test) (hpc : x.thread.creator = .returned)
    (hhandle : x.m_thread_handle = false) (hreleased : x.released = 1)
    (hjoin : ∀ u, u ≠ t → x.joinPc u = .outside ∨ x.joinPc u = .test)
    (hfinished : x.thread.runner = .finished) : (x.setPc t p).Stage := by
  refine .forgotten hpc hhandle hreleased (fun u => ?_) hfinished
  by_cases hu : u = t
  · rw [hu, setPc_self]
    exact hp
  · rw [setPc_other x hu]
    exact hjoin u hu

/-- To whom `join` has returned is no part of the stage. -/
theorem Stage.leave {x : JoinableThread Cb Tid} {t : Tid} (h : (x.setPc t .outside).Stage) :
    (x.leave t).Stage := by
  cases h with
  | unstarted hpc hhandle hreleased hidle => exact .unstarted hpc hhandle hreleased hidle
  | held hpc hhandle hreleased hjoin halone => exact .held hpc hhandle hreleased hjoin halone
  | joined u hpc hhandle hreleased hreset hothers hfinished =>
      exact .joined u hpc hhandle hreleased hreset hothers hfinished
  | forgotten hpc hhandle hreleased hjoin hfinished =>
      exact .forgotten hpc hhandle hreleased hjoin hfinished
  | destroyed hpc hreleased hidle => exact .destroyed hpc hreleased hidle

/-- **The stages in which a thread is in `join`**, by its place. -/
inductive Busy (x : JoinableThread Cb Tid) (t : Tid) : Prop where
  | held (hhandle : x.m_thread_handle = true) (hreleased : x.released = 0)
      (hpc : x.joinPc t = .test ∨ x.joinPc t = .joining)
      (hothers : ∀ u, u ≠ t → x.joinPc u = .outside)
  | joined (hhandle : x.m_thread_handle = true) (hreleased : x.released = 1)
      (hpc : x.joinPc t = .reset) (hothers : ∀ u, u ≠ t → x.joinPc u = .outside)
      (hfinished : x.thread.runner = .finished)
  | forgotten (hhandle : x.m_thread_handle = false) (hreleased : x.released = 1)
      (hpc : x.joinPc t = .test) (hjoin : ∀ u, x.joinPc u = .outside ∨ x.joinPc u = .test)
      (hfinished : x.thread.runner = .finished)

omit [DecidableEq Tid] in
theorem Stage.busy {x : JoinableThread Cb Tid} (h : x.Stage) {t : Tid}
    (ht : x.joinPc t ≠ .outside) : x.Busy t := by
  cases h with
  | unstarted _ _ _ hidle => exact absurd (hidle t) ht
  | held _ hhandle hreleased hjoin halone =>
      refine .held hhandle hreleased (hjoin t ht).2 fun u hu => ?_
      by_contra hbusy
      exact hu (halone u t hbusy ht)
  | joined u _ hhandle hreleased hreset hothers hfinished =>
      have heq : t = u := by
        by_contra hne
        exact ht (hothers t hne)
      subst heq
      exact .joined hhandle hreleased hreset hothers hfinished
  | forgotten _ hhandle hreleased hjoin hfinished =>
      exact .forgotten hhandle hreleased ((hjoin t).resolve_left ht) hjoin hfinished
  | destroyed _ _ hidle => exact absurd (hidle t) ht

/-- **Every step that overlaps no other call keeps the invariant.** -/
theorem inv_step {x x' : JoinableThread Cb Tid} {a : LifeStep Cb Tid} (h : x.LifeInv)
    (hexclusive : x.Exclusive a) (hs : step x a = some x') : x'.LifeInv := by
  -- a thread in `join` finds the object alive
  have haccess : ∀ t, x.joinPc t ≠ .outside → x.thread.creator = .returned ∧ x.access = x := by
    intro t ht
    have hreturned := h.stage.returned ht
    exact ⟨hreturned, access_eq (h.alive (by rw [hreturned]; rfl))⟩
  cases moves_of_step hs with
  | thread a th hth => exact inv_thread h hexclusive hth
  | call t hout hpc =>
      refine ⟨?_, h.unmisused, h.alive, h.finished, h.startUp⟩
      cases h.stage with
      | unstarted hstartless =>
          rw [hpc] at hstartless
          cases hstartless
      | held _ hhandle hreleased =>
          have hidle : x.Idle := hexclusive hhandle
          exact stage_alone (by decide) hpc hhandle hreleased fun u _ => hidle u
      | joined u _ hhandle _ hreset =>
          have hidle : x.Idle := hexclusive hhandle
          rw [hidle u] at hreset
          cases hreset
      | forgotten _ hhandle hreleased hjoin hfinished =>
          exact stage_forgotten (.inr rfl) hpc hhandle hreleased (fun u _ => hjoin u) hfinished
      | destroyed hdestroyed =>
          rw [hpc] at hdestroyed
          cases hdestroyed
  | fails t hpc =>
      have ht : x.joinPc t ≠ .outside := by rw [hpc]; decide
      refine ⟨?_, h.unmisused, h.alive, h.finished, h.startUp⟩
      cases h.stage.busy ht with
      | held hhandle hreleased _ hothers =>
          exact stage_alone (by decide) (haccess t ht).1 hhandle hreleased hothers
      | joined _ _ hreset =>
          rw [hpc] at hreset
          cases hreset
      | forgotten _ _ htest =>
          rw [hpc] at htest
          cases htest
  | enter t hpc hhandle =>
      have ht : x.joinPc t ≠ .outside := by rw [hpc]; decide
      rw [(haccess t ht).2]
      refine ⟨?_, h.unmisused, h.alive, h.finished, h.startUp⟩
      cases h.stage.busy ht with
      | held _ hreleased _ hothers =>
          exact stage_alone (by decide) (haccess t ht).1 hhandle hreleased hothers
      | joined _ _ hreset =>
          rw [hpc] at hreset
          cases hreset
      | forgotten hforgotten =>
          rw [hhandle] at hforgotten
          cases hforgotten
  | skip t hpc hhandle =>
      have ht : x.joinPc t ≠ .outside := by rw [hpc]; decide
      rw [(haccess t ht).2]
      cases h.stage.busy ht with
      | held hheld =>
          rw [hhandle] at hheld
          cases hheld
      | joined hheld =>
          rw [hhandle] at hheld
          cases hheld
      | forgotten _ hreleased _ hjoin hfinished =>
          refine ⟨?_, h.unmisused, h.alive, fun _ _ => hfinished, h.startUp⟩
          exact (stage_forgotten (.inl rfl) (haccess t ht).1 hhandle hreleased (fun u _ => hjoin u)
            hfinished).leave
  | again t hpc hagain =>
      have ht : x.joinPc t ≠ .outside := by rw [hpc]; decide
      cases h.stage.busy ht with
      | held _ hreleased => exact absurd hreleased hagain
      | joined _ _ hreset =>
          rw [hpc] at hreset
          cases hreset
      | forgotten _ _ htest =>
          rw [hpc] at htest
          cases htest
  | wait t hpc _ hfinished =>
      have ht : x.joinPc t ≠ .outside := by rw [hpc]; decide
      cases h.stage.busy ht with
      | held hhandle hreleased _ hothers =>
          refine ⟨?_, ?_, h.alive, h.finished, h.startUp⟩
          · refine .joined t (haccess t ht).1 hhandle ?_ (setPc_self x.release t .reset) ?_
              hfinished
            · show x.released + 1 = 1
              rw [hreleased]
            · intro u hu
              exact (setPc_other x.release hu .reset).trans (hothers u hu)
          · show (x.misused || decide (0 < x.released)) = false
            rw [h.unmisused, hreleased]
            rfl
      | joined _ _ hreset =>
          rw [hpc] at hreset
          cases hreset
      | forgotten _ _ htest =>
          rw [hpc] at htest
          cases htest
  | forget t hpc =>
      have ht : x.joinPc t ≠ .outside := by rw [hpc]; decide
      rw [(haccess t ht).2]
      cases h.stage.busy ht with
      | held _ _ hplace =>
          rw [hpc] at hplace
          rcases hplace with hplace | hplace <;> cases hplace
      | joined _ hreleased _ hothers hfinished =>
          refine ⟨?_, h.unmisused, h.alive, fun _ _ => hfinished, h.startUp⟩
          have hstage : ({ x with m_thread_handle := false }.setPc t .outside).Stage :=
            stage_forgotten (.inl rfl) (haccess t ht).1 rfl hreleased
              (fun u hu => .inl (hothers u hu)) hfinished
          exact hstage.leave
      | forgotten _ _ htest =>
          rw [hpc] at htest
          cases htest

/-! ## §5. Calls that overlap. -/

/-- The steps that need no further call: those of threads in `join` and of the started
thread. -/
def Runs : LifeStep Cb Tid → Prop
  | .run _ => True
  | .thread .run => True
  | _ => False

omit [DecidableEq Tid] in
/-- They overlap nothing. -/
theorem exclusive_of_runs {b : LifeStep Cb Tid} (h : Runs b) (x : JoinableThread Cb Tid) :
    x.Exclusive b := by
  cases b with
  | run t => exact trivial
  | thread a =>
      cases a with
      | run => exact trivial
      | _ => exact h.elim
  | _ => exact h.elim

/-- Such steps can lead to a misuse. -/
def MayMisuse (x : JoinableThread Cb Tid) : Prop :=
  ∃ bs : List (LifeStep Cb Tid), (∀ b ∈ bs, Runs b) ∧
    ∃ y, exec step x bs = some y ∧ y.misused = true

theorem mayMisuse_of_misused {x : JoinableThread Cb Tid} (h : x.misused = true) : x.MayMisuse :=
  ⟨[], fun _ hb => (List.not_mem_nil hb).elim, x, rfl, h⟩

theorem MayMisuse.before {x x' : JoinableThread Cb Tid} {b : LifeStep Cb Tid} (hb : Runs b)
    (hs : step x b = some x') (h : x'.MayMisuse) : x.MayMisuse := by
  obtain ⟨bs, hbs, y, hrun, hy⟩ := h
  refine ⟨b :: bs, ?_, y, (exec_cons_eq_some step).mpr ⟨x', hs, hrun⟩, hy⟩
  intro c hc
  rcases List.mem_cons.mp hc with rfl | hc
  · exact hb
  · exact hbs c hc

/-- A thread that is about to join a released thread. -/
theorem mayMisuse_joining {x : JoinableThread Cb Tid} {t : Tid} (hpc : x.joinPc t = .joining)
    (hreleased : 0 < x.released) : x.MayMisuse := by
  have hs : step x (.run t) = some ({ x with misused := true }.setPc t .lost) := by
    show x.runJoin t = _
    simp only [runJoin, hpc, if_neg (Nat.ne_of_gt hreleased)]
  exact .before (b := .run t) trivial hs (mayMisuse_of_misused rfl)

/-- One that has still to look at the handle, which is there. -/
theorem mayMisuse_test {x : JoinableThread Cb Tid} {t : Tid} (hpc : x.joinPc t = .test)
    (hhandle : x.m_thread_handle = true) (hreleased : 0 < x.released) : x.MayMisuse := by
  have hs : step x (.run t) = some (x.access.setPc t .joining) := by
    show x.runJoin t = _
    simp only [runJoin, hpc, hhandle, if_true]
  exact .before (b := .run t) trivial hs (mayMisuse_joining (setPc_self x.access t .joining) hreleased)

/-- One that looks at the handle of a dead object. -/
theorem mayMisuse_dead {x : JoinableThread Cb Tid} {t : Tid} (hpc : x.joinPc t = .test)
    (hdead : x.thread.alive = false) : x.MayMisuse := by
  have hmisused : x.access.misused = true := by
    show (x.misused || !x.thread.alive) = true
    rw [hdead]
    exact Bool.or_true _
  cases hhandle : x.m_thread_handle with
  | true =>
      have hs : step x (.run t) = some (x.access.setPc t .joining) := by
        show x.runJoin t = _
        simp only [runJoin, hpc, hhandle, if_true]
      exact .before (b := .run t) trivial hs (mayMisuse_of_misused hmisused)
  | false =>
      have hs : step x (.run t) = some (x.access.leave t) := by
        show x.runJoin t = _
        simp only [runJoin, hpc, hhandle, Bool.false_eq_true, if_false]
      exact .before (b := .run t) trivial hs (mayMisuse_of_misused hmisused)

/-- **Two threads in `join`**, one of them at the handle: the other joins first. -/
theorem mayMisuse_two {x : JoinableThread Cb Tid} {t u : Tid} (htu : u ≠ t)
    (ht : x.joinPc t = .test ∨ x.joinPc t = .joining) (hu : x.joinPc u = .test)
    (hhandle : x.m_thread_handle = true) (hfinished : x.thread.runner = .finished) :
    x.MayMisuse := by
  -- once `t` is at `pthread_join`, it gets the thread and `u` still finds the handle
  have hjoining : ∀ z : JoinableThread Cb Tid, z.joinPc t = .joining → z.joinPc u = .test →
      z.m_thread_handle = true → z.thread.runner = .finished → z.MayMisuse := by
    intro z hzt hzu hzhandle hzfinished
    by_cases hzreleased : z.released = 0
    case neg => exact mayMisuse_joining hzt (Nat.pos_of_ne_zero hzreleased)
    have hs : step z (.run t) = some (z.release.setPc t .reset) := by
      show z.runJoin t = _
      simp only [runJoin, hzt, if_pos hzreleased, if_pos hzfinished]
    refine .before (b := .run t) trivial hs (mayMisuse_test (t := u) ?_ hzhandle ?_)
    · exact (setPc_other z.release htu .reset).trans hzu
    · exact Nat.succ_pos z.released
  rcases ht with ht | ht
  · have hs : step x (.run t) = some (x.access.setPc t .joining) := by
      show x.runJoin t = _
      simp only [runJoin, ht, hhandle, if_true]
    refine .before (b := .run t) trivial hs (hjoining _ (setPc_self x.access t .joining) ?_ hhandle
      hfinished)
    exact (setPc_other x.access htu .joining).trans hu
  · exact hjoining x ht hu hhandle hfinished

omit [DecidableEq Tid] in
/-- Where somebody is in `join`, somebody can be named. -/
theorem exists_busy {x : JoinableThread Cb Tid} (h : ¬ x.Idle) : ∃ t, x.joinPc t ≠ .outside := by
  by_contra hnone
  refine h fun t => ?_
  by_contra ht
  exact hnone ⟨t, ht⟩

/-- The object is destroyed while a thread is in `join`. -/
theorem mayMisuse_destroy {x : JoinableThread Cb Tid} (h : x.LifeInv) (hbusy : ¬ x.Idle)
    {th : Thread Cb} (hdead : th.alive = false) : (x.afterThread .destroy th).MayMisuse := by
  obtain ⟨t, ht⟩ := exists_busy hbusy
  cases h.stage.busy ht with
  | held hhandle hreleased hpc =>
      rw [afterThread_destroy_held hhandle]
      rcases hpc with hpc | hpc
      · exact mayMisuse_dead (t := t) hpc hdead
      · exact mayMisuse_joining (t := t) hpc (Nat.succ_pos x.released)
  | joined hhandle hreleased =>
      rw [afterThread_destroy_held hhandle]
      refine mayMisuse_of_misused ?_
      show (x.misused || decide (0 < x.released)) = true
      rw [hreleased]
      exact Bool.or_true _
  | forgotten hhandle _ hpc =>
      rw [afterThread_destroy_forgotten hhandle]
      exact mayMisuse_dead (t := t) hpc hdead

/-- A second thread calls `join` while the object holds the handle. -/
theorem mayMisuse_join {x : JoinableThread Cb Tid} (h : x.LifeInv) {u : Tid}
    (hout : x.joinPc u = .outside) (hpc : x.thread.creator = .returned)
    (hhandle : x.m_thread_handle = true) (hbusy : ¬ x.Idle) : (x.setPc u .test).MayMisuse := by
  obtain ⟨t, ht⟩ := exists_busy hbusy
  have htu : t ≠ u := by
    intro heq
    rw [heq] at ht
    exact ht hout
  have hu : (x.setPc u .test).joinPc u = .test := setPc_self x u .test
  cases h.stage.busy ht with
  | held _ hreleased hplace =>
      have htwo : ∀ z : JoinableThread Cb Tid, z.joinPc = (x.setPc u .test).joinPc →
          z.m_thread_handle = true → z.thread.runner = .finished → z.MayMisuse := by
        intro z hz hzhandle hzfinished
        refine mayMisuse_two (t := t) (u := u) (Ne.symm htu) ?_ ?_ hzhandle hzfinished
        · rw [hz, setPc_other x htu]
          exact hplace
        · rw [hz]
          exact hu
      -- the started thread has posted, so only its callback is left
      have hinv := h.startUp.resolve_left (by rw [hpc]; intro heq; cases heq)
      rcases hinv.posted (.inr hpc) with hcallback | hfinished
      · have hrun : x.thread.runStep = some { x.thread with runner := .finished } := by
          simp only [Thread.runStep, hcallback]
        have hs : step (x.setPc u .test) (.thread .run)
            = some { x.setPc u .test with thread := { x.thread with runner := .finished } } := by
          show x.thread.runStep.map _ = _
          rw [hrun]
          rfl
        exact .before (b := .thread .run) trivial hs (htwo _ rfl hhandle rfl)
      · exact htwo _ rfl hhandle hfinished
  | joined _ hreleased =>
      refine mayMisuse_test hu hhandle ?_
      show 0 < x.released
      rw [hreleased]
      decide
  | forgotten hforgotten =>
      rw [hhandle] at hforgotten
      cases hforgotten

/-- **Calls that overlap can misuse the thread.** -/
theorem mayMisuse_of_overlap {x x' : JoinableThread Cb Tid} {a : LifeStep Cb Tid} (h : x.LifeInv)
    (hoverlap : ¬ x.Exclusive a) (hs : step x a = some x') : x'.MayMisuse := by
  cases moves_of_step hs with
  | thread a th hth =>
      cases Thread.moves_of_step hth with
      | destroy hpc => exact mayMisuse_destroy h hoverlap rfl
      | _ => exact absurd trivial hoverlap
  | call u hout hpc =>
      have hover : x.m_thread_handle = true ∧ ¬ x.Idle := Classical.not_imp.mp hoverlap
      exact mayMisuse_join h hout hpc hover.1 hover.2
  | _ => exact absurd trivial hoverlap

/-! ## §6. Runs. -/

/-- Nothing has been misused.  The started thread has been released at most once, once when
the object has been destroyed, and never when its constructor threw; and a `join` that
has returned found it finished. -/
structure Sound (x : JoinableThread Cb Tid) : Prop where
  unmisused : x.misused = false
  once : x.released ≤ 1
  destroyed : x.thread.creator = .destroyed → x.released = 1
  threw : ∀ what, x.thread.creator = .threw what → x.released = 0
  finished : ∀ t, x.returned t = true → x.thread.runner = .finished

omit [DecidableEq Tid] in
theorem LifeInv.sound {x : JoinableThread Cb Tid} (h : x.LifeInv) : x.Sound := by
  refine ⟨h.unmisused, ?_, ?_, ?_, h.finished⟩
  · cases h.stage with
    | unstarted _ _ hreleased => omega
    | held _ _ hreleased => omega
    | joined _ _ _ hreleased => omega
    | forgotten _ _ hreleased => omega
    | destroyed _ hreleased => omega
  · intro hdestroyed
    cases h.stage with
    | unstarted hpc =>
        rw [hdestroyed] at hpc
        cases hpc
    | held hpc =>
        rw [hdestroyed] at hpc
        cases hpc
    | joined _ hpc =>
        rw [hdestroyed] at hpc
        cases hpc
    | forgotten hpc =>
        rw [hdestroyed] at hpc
        cases hpc
    | destroyed _ hreleased => exact hreleased
  · intro what hthrew
    cases h.stage with
    | unstarted _ _ hreleased => exact hreleased
    | held _ _ hreleased => exact hreleased
    | joined _ hpc =>
        rw [hthrew] at hpc
        cases hpc
    | forgotten hpc =>
        rw [hthrew] at hpc
        cases hpc
    | destroyed hpc =>
        rw [hthrew] at hpc
        cases hpc

variable {Obj : Type*} [DecidableEq Obj]

/-- Any number of objects, none constructed yet. -/
def unconstructedAll : Obj → JoinableThread Cb Tid := fun _ => {}

/-- The guard of a run: no calls on one object overlap. -/
def AllExclusive (s : Obj → JoinableThread Cb Tid) : Obj × LifeStep Cb Tid → Prop
  | (o, a) => (s o).Exclusive a

instance [Fintype Tid] (s : Obj → JoinableThread Cb Tid) :
    ∀ l : Obj × LifeStep Cb Tid, Decidable (AllExclusive s l)
  | (o, a) => inferInstanceAs (Decidable ((s o).Exclusive a))

/-- However the threads that are in `join` and the started threads go on, every object
stays sound. -/
def StaysSound (s : Obj → JoinableThread Cb Tid) : Prop :=
  ∀ bs : List (Obj × LifeStep Cb Tid), (∀ b ∈ bs, Runs b.2) →
    Always (familyStep step) (fun s => ∀ o, (s o).Sound) s bs

theorem allInv_step {s s' : Obj → JoinableThread Cb Tid} {l : Obj × LifeStep Cb Tid}
    (hs : ∀ o, (s o).LifeInv) (hexclusive : AllExclusive s l) (h : familyStep step s l = some s') :
    ∀ o, (s' o).LifeInv := by
  obtain ⟨o, a⟩ := l
  exact family_invariant (C := Exclusive) (fun _ _ _ => inv_step) hs hexclusive h

theorem staysSound_of_inv {s : Obj → JoinableThread Cb Tid} (hs : ∀ o, (s o).LifeInv) :
    StaysSound s := by
  intro bs hbs
  refine always_of_guarded (familyStep step) (fun s => ∀ o, (s o).LifeInv)
    (fun _ _ _ => allInv_step) (fun _ h o => (h o).sound) bs s hs ?_
  refine guarded_of_forall (familyStep step) bs ?_ s
  intro b hb s
  obtain ⟨o, a⟩ := b
  exact exclusive_of_runs (hbs (o, a) hb) (s o)

/-- One object that may be misused is enough. -/
theorem not_staysSound {s : Obj → JoinableThread Cb Tid} {o : Obj} (h : (s o).MayMisuse) :
    ¬ StaysSound s := by
  intro hsound
  obtain ⟨bs, hbs, y, hrun, hmisused⟩ := h
  have hfamily := exec_family bs s y hrun
  have halways := hsound (bs.map (Prod.mk o)) (by
    intro b hb
    obtain ⟨c, hc, rfl⟩ := List.mem_map.mp hb
    exact hbs c hc)
  have hlast : Always (familyStep step) (fun s => ∀ o, (s o).Sound) (Function.update s o y) [] :=
    always_of_append (familyStep step) (bs.map (Prod.mk o)) s _ hfamily (by
      rw [List.append_nil]
      exact halways)
  have hsoundy := (hlast o).unmisused
  rw [Function.update_self, hmisused] at hsoundy
  cases hsoundy

/-- **EVERY STARTED THREAD IS RELEASED ONCE, EXACTLY WHEN CALLS DO NOT OVERLAP.**  For any
number of objects and threads: a run in which no thread is in `join` when an object is
destroyed, or calls `join` while another is in it and the handle has not been
forgotten, stays sound however it is scheduled; any other run has a state from which
scheduling alone leads to a misuse. -/
theorem lifecycle_iff (as : List (Obj × LifeStep Cb Tid)) (s : Obj → JoinableThread Cb Tid)
    (hrun : exec (familyStep step) unconstructedAll as = some s) :
    Guarded (familyStep step) AllExclusive unconstructedAll as ↔
      Always (familyStep step) StaysSound unconstructedAll as := by
  refine guarded_iff_always (fun s => ∀ o, (s o).LifeInv) (fun _ _ _ => allInv_step)
    (fun _ => staysSound_of_inv) ?_ (fun _ => lifeInv_unconstructed) hrun
  intro s l s' hs hoverlap hmove
  obtain ⟨o, a⟩ := l
  obtain ⟨x, hx, rfl⟩ := familyStep_eq_some.mp hmove
  refine not_staysSound (o := o) ?_
  rw [Function.update_self]
  exact mayMisuse_of_overlap (hs o) hoverlap hx

end JoinableThread

/-- A thread is started, joined by `true`, joined again by `false`, and destroyed. -/
def joinedTwice : List (Bool × LifeStep Unit Bool) :=
  [.thread (.construct (some ()) "worker".toList), .thread (.create 42), .thread .run,
    .thread .run, .thread .run, .thread .run, .thread .run, .thread .run, .thread .semWait,
    .join true, .run true, .thread .run, .run true, .run true, .join false, .run false,
    .thread .destroy].map (Prod.mk true)

theorem lifecycle_iff_joinedTwice :
    Always (familyStep JoinableThread.step) JoinableThread.StaysSound
      JoinableThread.unconstructedAll joinedTwice :=
  (JoinableThread.lifecycle_iff joinedTwice _ (Option.some_get (by decide)).symm).mp (by decide)

end SylarCot.Sync
