/-
  SylarCot.Sync.Thread
  ────────────────────
  `Thread`: the constructor and destructor against `Thread::run` on the started
  thread.

  An object carries its members, the place of the thread that creates it and the
  place of the thread it starts.  `pthread_create` and `sem_wait` may succeed or
  fail, as the label says; a failure leaves the constructor by an exception, which
  ends the lifetime.  Every access of the started thread to a member goes
  through `access`, which records whether the object was still alive.
  (`m_thread_handle`, which only `join` and `pthread_detach` use, is left out.)
-/
import SylarCot.Library.Family

namespace SylarCot.Sync

/-! ## §1. States and labels. -/

/-- Where the creating thread is with the object. -/
inductive CreatorPc where
  | unconstructed
  /-- in the constructor, before `pthread_create` -/
  | creating
  /-- in the constructor, at `m_sem.wait()` -/
  | waiting
  | returned
  | threw (what : String)
  | destroyed
  deriving Repr, DecidableEq

/-- Where the started thread is in `Thread::run`. -/
inductive RunPc where
  | notStarted
  /-- `t_thread = thr` -/
  | setThread
  /-- `t_thread_name = thr->getName()` -/
  | readName
  /-- `thr->m_id = Sylar::getThreadId()` -/
  | writeId
  /-- `pthread_setname_np(pthread_self(), thr->m_name.substr(0, 15).c_str())` -/
  | setName
  /-- `cb.swap(thr->m_cb)` -/
  | swapCb
  /-- `thr->m_sem.notify()` -/
  | notify
  /-- `cb()` -/
  | callback
  | finished
  deriving Repr, DecidableEq

/-- `Thread`, with the locals of its `run`.  A `ThreadFunc` may be empty. -/
structure Thread (Cb : Type*) where
  m_id : Int := -1
  m_cb : Option Cb := none
  m_name : List Char := []
  m_sem : Nat := 0
  creator : CreatorPc := .unconstructed
  runner : RunPc := .notStarted
  /-- The object's lifetime has begun and not ended. -/
  alive : Bool := false
  -- the started thread's own data
  threadId : Int := 0
  t_thread_name : List Char := "UNKNOW".toList
  kernelName : List Char := []
  cb : Option Cb := none
  /-- The callback the constructor was given. -/
  given : Option Cb := none
  /-- The started thread has accessed a member of a dead object. -/
  touchedDead : Bool := false
  deriving Repr, DecidableEq

/-- The steps of both threads, with the outcomes the system decides. -/
inductive ThreadStep (Cb : Type*) where
  | construct (cb : Option Cb) (name : List Char)
  | createFails
  | create (threadId : Int)
  | semWait
  | semWaitFails
  | destroy
  | run
  deriving Repr, DecidableEq

namespace Thread

variable {Cb : Type*}

/-! ## §2. Steps. -/

/-- The started thread reads or writes members. -/
def access (x : Thread Cb) : Thread Cb :=
  { x with touchedDead := x.touchedDead || !x.alive }

/-- One step of `Thread::run`. -/
def runStep (x : Thread Cb) : Option (Thread Cb) :=
  match x.runner with
  | .notStarted => none
  | .setThread => some { x with runner := .readName }
  | .readName => some { x.access with t_thread_name := x.m_name, runner := .writeId }
  | .writeId => some { x.access with m_id := x.threadId, runner := .setName }
  | .setName => some { x.access with kernelName := x.m_name.take 15, runner := .swapCb }
  | .swapCb => some { x.access with cb := x.m_cb, m_cb := none, runner := .notify }
  | .notify => some { x.access with m_sem := x.m_sem + 1, runner := .callback }
  | .callback => some { x with runner := .finished }
  | .finished => none

/-- One step on one object. -/
def step (x : Thread Cb) : ThreadStep Cb → Option (Thread Cb)
  | .construct cb name =>
      if x.creator = .unconstructed then
        some { x with
          m_cb := cb
          m_name := if name = [] then "UNKNOW".toList else name
          given := cb
          alive := true
          creator := .creating }
      else none
  -- pthread_create returns an error: the constructor throws, no thread runs
  | .createFails =>
      if x.creator = .creating then
        some { x with alive := false, creator := .threw "pthread_create error" }
      else none
  | .create threadId =>
      if x.creator = .creating then
        some { x with threadId := threadId, runner := .setThread, creator := .waiting }
      else none
  -- sem_wait returns 0, and with it the constructor
  | .semWait =>
      if x.creator = .waiting ∧ 0 < x.m_sem then
        some { x with m_sem := x.m_sem - 1, creator := .returned }
      else none
  -- sem_wait returns -1 (EINTR): `Semaphore::wait` throws
  | .semWaitFails =>
      if x.creator = .waiting then
        some { x with alive := false, creator := .threw "sem_wait error" }
      else none
  | .destroy =>
      if x.creator = .returned then some { x with alive := false, creator := .destroyed }
      else none
  | .run => x.runStep

/-! ## §3. Everything a step can do. -/

/-- **The moves on one object.** -/
inductive Moves (x : Thread Cb) : ThreadStep Cb → Thread Cb → Prop where
  | construct (cb : Option Cb) (name : List Char) (hpc : x.creator = .unconstructed) :
      Moves x (.construct cb name) { x with
        m_cb := cb
        m_name := if name = [] then "UNKNOW".toList else name
        given := cb
        alive := true
        creator := .creating }
  | createFails (hpc : x.creator = .creating) :
      Moves x .createFails { x with alive := false, creator := .threw "pthread_create error" }
  | create (threadId : Int) (hpc : x.creator = .creating) :
      Moves x (.create threadId)
        { x with threadId := threadId, runner := .setThread, creator := .waiting }
  | semWait (hpc : x.creator = .waiting) (hsem : 0 < x.m_sem) :
      Moves x .semWait { x with m_sem := x.m_sem - 1, creator := .returned }
  | semWaitFails (hpc : x.creator = .waiting) :
      Moves x .semWaitFails { x with alive := false, creator := .threw "sem_wait error" }
  | destroy (hpc : x.creator = .returned) :
      Moves x .destroy { x with alive := false, creator := .destroyed }
  | run (x' : Thread Cb) (hrun : x.runStep = some x') : Moves x .run x'

theorem moves_of_ite {x x' y : Thread Cb} {a : ThreadStep Cb} {c : Prop} [Decidable c]
    (h : (if c then some y else none) = some x') (hmove : c → Moves x a y) : Moves x a x' := by
  by_cases hc : c
  · rw [if_pos hc] at h
    cases h
    exact hmove hc
  · rw [if_neg hc] at h
    cases h

/-- **Every step is one of the moves.** -/
theorem moves_of_step {x x' : Thread Cb} {a : ThreadStep Cb} (h : step x a = some x') :
    Moves x a x' := by
  cases a with
  | construct cb name => exact moves_of_ite h (.construct cb name)
  | createFails => exact moves_of_ite h .createFails
  | create threadId => exact moves_of_ite h (.create threadId)
  | semWait => exact moves_of_ite h (fun hc => .semWait hc.1 hc.2)
  | semWaitFails => exact moves_of_ite h .semWaitFails
  | destroy => exact moves_of_ite h .destroy
  | run => exact .run x' h

end Thread

end SylarCot.Sync
