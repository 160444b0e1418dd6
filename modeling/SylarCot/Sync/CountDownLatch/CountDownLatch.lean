/-
  SylarCot.Sync.CountDownLatch.CountDownLatch
  ───────────────────────────────────────────
  `CountDownLatch` under any number of threads.

  A state has the members of the latch and one program counter per thread; a
  label says which thread moves.  `pthread_mutex_lock` waits for a free mutex,
  `pthread_cond_wait` gives the mutex back and falls asleep in one step and has
  to take it again after a wake-up, which may come at any time (spurious), and
  `pthread_cond_broadcast` notifies every sleeper of the moment.  `decrements`
  and `passed` count what has happened and influence nothing.

    • `moves_of_step` — everything a step can do, one constructor each.
-/
import SylarCot.Library.Execution

namespace SylarCot.Sync

/-! ## §1. States and labels. -/

/-- The public operations of the latch. -/
inductive Operation where
  | wait
  | countDown
  | getCount
  deriving Repr, DecidableEq

/-- Where a thread is; `idle` is outside every call. -/
inductive Pc where
  | idle
  -- `wait`: lock, loop test, asleep in `pthread_cond_wait`, re-lock
  | waitLock
  | waitTest
  | waitAsleep (notified : Bool)
  | waitRelock
  -- `countDown`: guard, `m_count--`, `m_count == 0`, `notifyAll`, end of scope
  | countDownLock
  | countDownDec
  | countDownTest
  | countDownNotify
  | countDownUnlock
  -- `getCount`: guard, read, end of scope
  | getCountLock
  | getCountRead
  | getCountUnlock (value : Int)
  deriving Repr, DecidableEq

/-- `CountDownLatch` and its callers. -/
structure CountDownLatch (Tid : Type*) where
  m_count : Int
  /-- The owner of `m_mutex`. -/
  m_mutex : Option Tid := none
  pc : Tid → Pc := fun _ => .idle
  /-- How many `m_count--` have been executed. -/
  decrements : Nat := 0
  /-- How often a thread has left the loop of `wait`. -/
  passed : Nat := 0

/-- A thread begins a call, or takes one step of the call it is in. -/
inductive Label (Tid : Type*) where
  | call (t : Tid) (op : Operation)
  | run (t : Tid)
  deriving Repr, DecidableEq

/-- The first step of an operation. -/
def Operation.entry : Operation → Pc
  | .wait => .waitLock
  | .countDown => .countDownLock
  | .getCount => .getCountLock

/-- What `pthread_cond_broadcast` does to a thread. -/
def Pc.notify : Pc → Pc
  | .waitAsleep _ => .waitAsleep true
  | p => p

/-- The least value of an `int`; decrementing it is undefined. -/
def intMin : Int := -2147483648

namespace CountDownLatch

variable {Tid : Type*}

/-- `CountDownLatch::CountDownLatch`. -/
def new (count : Int) : CountDownLatch Tid := { m_count := count }

variable [DecidableEq Tid]

/-! ## §2. Steps. -/

/-- Thread `t` moves on to `p`. -/
def goto (s : CountDownLatch Tid) (t : Tid) (p : Pc) : CountDownLatch Tid :=
  { s with pc := Function.update s.pc t p }

/-- `pthread_mutex_lock`: blocks while anybody owns the mutex. -/
def lock (s : CountDownLatch Tid) (t : Tid) (p : Pc) : Option (CountDownLatch Tid) :=
  match s.m_mutex with
  | none => some { s.goto t p with m_mutex := some t }
  | some _ => none

/-- `pthread_mutex_unlock`. -/
def unlock (s : CountDownLatch Tid) (t : Tid) (p : Pc) : CountDownLatch Tid :=
  { s.goto t p with m_mutex := none }

/-- `Condition::notifyAll`. -/
def notifyAll (s : CountDownLatch Tid) : CountDownLatch Tid :=
  { s with pc := fun t => (s.pc t).notify }

/-- One step of the thread `t`. -/
def runThread (s : CountDownLatch Tid) (t : Tid) : Option (CountDownLatch Tid) :=
  match s.pc t with
  | .idle => none
  -- void CountDownLatch::wait()
  | .waitLock => s.lock t .waitTest
  | .waitTest =>
      if s.m_count > 0 then some (s.unlock t (.waitAsleep false))
      -- the loop is over, and with it the function: `m_mutex` stays locked
      else some { s.goto t .idle with passed := s.passed + 1 }
  | .waitAsleep _ => some (s.goto t .waitRelock)
  | .waitRelock => s.lock t .waitTest
  -- void CountDownLatch::countDown()
  | .countDownLock => s.lock t .countDownDec
  | .countDownDec =>
      if s.m_count ≤ intMin then none
      else some { s.goto t .countDownTest with
                  m_count := s.m_count - 1, decrements := s.decrements + 1 }
  | .countDownTest =>
      some (s.goto t (if s.m_count = 0 then .countDownNotify else .countDownUnlock))
  | .countDownNotify => some (s.notifyAll.goto t .countDownUnlock)
  | .countDownUnlock => some (s.unlock t .idle)
  -- int CountDownLatch::getCount() const
  | .getCountLock => s.lock t .getCountRead
  | .getCountRead => some (s.goto t (.getCountUnlock s.m_count))
  | .getCountUnlock _ => some (s.unlock t .idle)

/-- One step of the system. -/
def step (s : CountDownLatch Tid) : Label Tid → Option (CountDownLatch Tid)
  | .call t op => if s.pc t = .idle then some (s.goto t op.entry) else none
  | .run t => s.runThread t

/-! ## §3. Everything a step can do. -/

/-- Where a thread waiting for the mutex goes once it has it. -/
def afterLock : Pc → Option Pc
  | .waitLock => some .waitTest
  | .waitRelock => some .waitTest
  | .countDownLock => some .countDownDec
  | .getCountLock => some .getCountRead
  | _ => none

/-- The counters at the end of a guard's scope. -/
def AtUnlock (p : Pc) : Prop := p = .countDownUnlock ∨ ∃ v, p = .getCountUnlock v

/-- **The moves of the system.** -/
inductive Moves (s : CountDownLatch Tid) : Label Tid → CountDownLatch Tid → Prop where
  | enter (t : Tid) (op : Operation) (hpc : s.pc t = .idle) :
      Moves s (.call t op) (s.goto t op.entry)
  | acquire (t : Tid) (p : Pc) (hpc : afterLock (s.pc t) = some p) (hfree : s.m_mutex = none) :
      Moves s (.run t) { s.goto t p with m_mutex := some t }
  | sleep (t : Tid) (hpc : s.pc t = .waitTest) (hcount : 0 < s.m_count) :
      Moves s (.run t) (s.unlock t (.waitAsleep false))
  | pass (t : Tid) (hpc : s.pc t = .waitTest) (hcount : s.m_count ≤ 0) :
      Moves s (.run t) { s.goto t .idle with passed := s.passed + 1 }
  | wake (t : Tid) (b : Bool) (hpc : s.pc t = .waitAsleep b) :
      Moves s (.run t) (s.goto t .waitRelock)
  | decrement (t : Tid) (hpc : s.pc t = .countDownDec) :
      Moves s (.run t) { s.goto t .countDownTest with
                         m_count := s.m_count - 1, decrements := s.decrements + 1 }
  | zero (t : Tid) (hpc : s.pc t = .countDownTest) (hcount : s.m_count = 0) :
      Moves s (.run t) (s.goto t .countDownNotify)
  | nonzero (t : Tid) (hpc : s.pc t = .countDownTest) (hcount : s.m_count ≠ 0) :
      Moves s (.run t) (s.goto t .countDownUnlock)
  | broadcast (t : Tid) (hpc : s.pc t = .countDownNotify) :
      Moves s (.run t) (s.notifyAll.goto t .countDownUnlock)
  | read (t : Tid) (hpc : s.pc t = .getCountRead) :
      Moves s (.run t) (s.goto t (.getCountUnlock s.m_count))
  | release (t : Tid) (hpc : AtUnlock (s.pc t)) :
      Moves s (.run t) (s.unlock t .idle)

theorem moves_of_lock {s s' : CountDownLatch Tid} {t : Tid} {p : Pc}
    (hpc : afterLock (s.pc t) = some p) (h : s.lock t p = some s') : Moves s (.run t) s' := by
  unfold lock at h
  cases hm : s.m_mutex with
  | none =>
      rw [hm] at h
      cases h
      exact .acquire t p hpc hm
  | some u =>
      rw [hm] at h
      cases h

/-- **Every step is one of the moves.** -/
theorem moves_of_step {s s' : CountDownLatch Tid} {a : Label Tid} (h : step s a = some s') :
    Moves s a s' := by
  cases a with
  | call t op =>
      change (if s.pc t = .idle then some (s.goto t op.entry) else none) = some s' at h
      by_cases hpc : s.pc t = .idle
      · rw [if_pos hpc] at h
        cases h
        exact .enter t op hpc
      · rw [if_neg hpc] at h
        cases h
  | run t =>
      change s.runThread t = some s' at h
      cases hpc : s.pc t with
      | idle =>
          simp only [runThread, hpc] at h
          cases h
      | waitLock =>
          simp only [runThread, hpc] at h
          exact moves_of_lock (by rw [hpc]; rfl) h
      | waitTest =>
          simp only [runThread, hpc] at h
          by_cases hcount : s.m_count > 0
          · rw [if_pos hcount] at h
            cases h
            exact .sleep t hpc hcount
          · rw [if_neg hcount] at h
            cases h
            exact .pass t hpc (by omega)
      | waitAsleep b =>
          simp only [runThread, hpc] at h
          cases h
          exact .wake t b hpc
      | waitRelock =>
          simp only [runThread, hpc] at h
          exact moves_of_lock (by rw [hpc]; rfl) h
      | countDownLock =>
          simp only [runThread, hpc] at h
          exact moves_of_lock (by rw [hpc]; rfl) h
      | countDownDec =>
          simp only [runThread, hpc] at h
          by_cases hmin : s.m_count ≤ intMin
          · rw [if_pos hmin] at h
            cases h
          · rw [if_neg hmin] at h
            cases h
            exact .decrement t hpc
      | countDownTest =>
          simp only [runThread, hpc] at h
          by_cases hcount : s.m_count = 0
          · rw [if_pos hcount] at h
            cases h
            exact .zero t hpc hcount
          · rw [if_neg hcount] at h
            cases h
            exact .nonzero t hpc hcount
      | countDownNotify =>
          simp only [runThread, hpc] at h
          cases h
          exact .broadcast t hpc
      | countDownUnlock =>
          simp only [runThread, hpc] at h
          cases h
          exact .release t (.inl hpc)
      | getCountLock =>
          simp only [runThread, hpc] at h
          exact moves_of_lock (by rw [hpc]; rfl) h
      | getCountRead =>
          simp only [runThread, hpc] at h
          cases h
          exact .read t hpc
      | getCountUnlock v =>
          simp only [runThread, hpc] at h
          cases h
          exact .release t (.inr ⟨v, hpc⟩)

end CountDownLatch

end SylarCot.Sync
