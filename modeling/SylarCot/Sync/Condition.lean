/-
  SylarCot.Sync.Condition
  ───────────────────────
  **`Condition::wait(mutex, pred)` AGAINST THE LOOP IT ABBREVIATES.**

  Any number of threads share a state guarded by one mutex.  A thread that holds the
  mutex may change the state, give the mutex back, or begin to wait in a loop
  `while (cond) wait(mutex);`, whose test is the parameter `cond` of the system: the
  overload tests the callable it was given, the hand-written loop its result.
  A sleeper may wake up at any time, notified or not.

    • `exclusive_step` — mutual exclusion, whatever the loop tests;
    • `handWritten_follows` — the hand-written loop sleeps exactly where the predicate
      is true, and returns with the mutex exactly where it is false;
    • `overload_stays` — a thread in the overload never leaves it;
    • `wait_eq_loop_iff` — so the overload behaves as the loop exactly in the runs that
      never test a false predicate.
-/
import SylarCot.Library.Execution
import SylarCot.Library.Ownership

namespace SylarCot.Sync

open SylarCot.Library

/-! ## §1. The loop tests. -/

/-- A callable that converts to `bool`: a function pointer or a `std::function`.
`empty` is the null pointer, or a function object without a target. -/
inductive Predicate (σ : Type*) where
  | empty
  | callable (P : σ → Bool)

variable {σ Tid : Type*}

/-- The callable where a `bool` is expected: whether there is one. -/
def Predicate.toBool : Predicate σ → Bool
  | .empty => false
  | .callable _ => true

/-- `while (pred)` of `Condition::wait(mutex, pred)`; `pred` is not called. -/
def overload (pred : Predicate σ) (_ : σ) : Bool := pred.toBool

/-- `while (P())`, as in `CountDownLatch::wait`. -/
def handWritten (P : σ → Bool) (shared : σ) : Bool := P shared

/-! ## §2. Threads around one mutex. -/

namespace Monitor

/-- Where a thread is. -/
inductive Pc where
  /-- without the mutex -/
  | outside
  /-- with the mutex, in no call -/
  | inside
  -- the loop: its test, asleep in `pthread_cond_wait`, re-lock
  | test
  | asleep (notified : Bool)
  | relock
  deriving Repr, DecidableEq

/-- What a thread does: lock, change the state, enter the loop, unlock, notify one
sleeper or all, or take one step of the loop. -/
inductive Label (σ Tid : Type*) where
  | lock (t : Tid)
  | change (t : Tid) (new : σ)
  | wait (t : Tid)
  | unlock (t : Tid)
  | notify (t u : Tid)
  | notifyAll (t : Tid)
  | run (t : Tid)

/-- What a signal does to the thread it reaches. -/
def Pc.notify : Pc → Pc
  | .asleep _ => .asleep true
  | p => p

/-- The thread may make a call. -/
def Pc.free : Pc → Bool
  | .outside => true
  | .inside => true
  | _ => false

end Monitor

/-- The shared state, its mutex and the threads. -/
structure Monitor (σ Tid : Type*) where
  shared : σ
  m_mutex : Option Tid := none
  pc : Tid → Monitor.Pc := fun _ => .outside

namespace Monitor

variable [DecidableEq Tid]

/-- Thread `t` moves on to `p`. -/
def goto (s : Monitor σ Tid) (t : Tid) (p : Pc) : Monitor σ Tid :=
  { s with pc := Function.update s.pc t p }

/-- `pthread_mutex_lock`: blocks while anybody owns the mutex. -/
def lock (s : Monitor σ Tid) (t : Tid) (p : Pc) : Option (Monitor σ Tid) :=
  match s.m_mutex with
  | none => some { s.goto t p with m_mutex := some t }
  | some _ => none

/-- `pthread_mutex_unlock`. -/
def unlock (s : Monitor σ Tid) (t : Tid) (p : Pc) : Monitor σ Tid :=
  { s.goto t p with m_mutex := none }

/-- `Condition::notifyAll`. -/
def wakeAll (s : Monitor σ Tid) : Monitor σ Tid :=
  { s with pc := fun t => (s.pc t).notify }

/-- One step of the loop `while (cond) wait(mutex);`. -/
def runLoop (cond : σ → Bool) (s : Monitor σ Tid) (t : Tid) : Option (Monitor σ Tid) :=
  match s.pc t with
  | .test =>
      -- `pthread_cond_wait` gives the mutex back and sleeps in one step
      if cond s.shared then some (s.unlock t (.asleep false))
      else some (s.goto t .inside)
  | .asleep _ => some (s.goto t .relock)
  | .relock => s.lock t .test
  | _ => none

/-- One step of the system. -/
def step (cond : σ → Bool) (s : Monitor σ Tid) : Label σ Tid → Option (Monitor σ Tid)
  | .lock t => if s.pc t = .outside then s.lock t .inside else none
  | .change t new => if s.pc t = .inside then some { s with shared := new } else none
  | .wait t => if s.pc t = .inside then some (s.goto t .test) else none
  | .unlock t => if s.pc t = .inside then some (s.unlock t .outside) else none
  | .notify t u => if (s.pc t).free then some (s.goto u (s.pc u).notify) else none
  | .notifyAll t => if (s.pc t).free then some s.wakeAll else none
  | .run t => runLoop cond s t

/-- No thread has the mutex. -/
def start (shared : σ) : Monitor σ Tid := { shared := shared }

/-! ## §3. Everything a step can do. -/

/-- **The moves of the system.** -/
inductive Moves (cond : σ → Bool) (s : Monitor σ Tid) : Label σ Tid → Monitor σ Tid → Prop where
  | lock (t : Tid) (hpc : s.pc t = .outside) (hfree : s.m_mutex = none) :
      Moves cond s (.lock t) { s.goto t .inside with m_mutex := some t }
  | change (t : Tid) (new : σ) (hpc : s.pc t = .inside) :
      Moves cond s (.change t new) { s with shared := new }
  | wait (t : Tid) (hpc : s.pc t = .inside) : Moves cond s (.wait t) (s.goto t .test)
  | unlock (t : Tid) (hpc : s.pc t = .inside) : Moves cond s (.unlock t) (s.unlock t .outside)
  | notify (t u : Tid) (hpc : (s.pc t).free) :
      Moves cond s (.notify t u) (s.goto u (s.pc u).notify)
  | notifyAll (t : Tid) (hpc : (s.pc t).free) : Moves cond s (.notifyAll t) s.wakeAll
  | sleep (t : Tid) (hpc : s.pc t = .test) (hcond : cond s.shared = true) :
      Moves cond s (.run t) (s.unlock t (.asleep false))
  | leave (t : Tid) (hpc : s.pc t = .test) (hcond : cond s.shared = false) :
      Moves cond s (.run t) (s.goto t .inside)
  | wake (t : Tid) (b : Bool) (hpc : s.pc t = .asleep b) :
      Moves cond s (.run t) (s.goto t .relock)
  | relock (t : Tid) (hpc : s.pc t = .relock) (hfree : s.m_mutex = none) :
      Moves cond s (.run t) { s.goto t .test with m_mutex := some t }

theorem lock_eq_some {s s' : Monitor σ Tid} {t : Tid} {p : Pc} (h : s.lock t p = some s') :
    s.m_mutex = none ∧ s' = { s.goto t p with m_mutex := some t } := by
  unfold lock at h
  cases hm : s.m_mutex with
  | none =>
      rw [hm] at h
      exact ⟨rfl, (Option.some.inj h).symm⟩
  | some u =>
      rw [hm] at h
      cases h

theorem moves_of_runLoop {cond : σ → Bool} {s s' : Monitor σ Tid} {t : Tid}
    (h : runLoop cond s t = some s') : Moves cond s (.run t) s' := by
  unfold runLoop at h
  cases hpc : s.pc t with
  | outside => simp only [hpc] at h; cases h
  | inside => simp only [hpc] at h; cases h
  | test =>
      simp only [hpc] at h
      cases hcond : cond s.shared with
      | true =>
          rw [hcond] at h
          cases h
          exact .sleep t hpc hcond
      | false =>
          rw [hcond] at h
          cases h
          exact .leave t hpc hcond
  | asleep b =>
      simp only [hpc] at h
      cases h
      exact .wake t b hpc
  | relock =>
      simp only [hpc] at h
      obtain ⟨hfree, rfl⟩ := lock_eq_some h
      exact .relock t hpc hfree

/-- **Every step is one of the moves.** -/
theorem moves_of_step {cond : σ → Bool} {s s' : Monitor σ Tid} {a : Label σ Tid}
    (h : step cond s a = some s') : Moves cond s a s' := by
  cases a with
  | lock t =>
      obtain ⟨hpc, h⟩ := Option.ite_none_right_eq_some.mp h
      obtain ⟨hfree, rfl⟩ := lock_eq_some h
      exact .lock t hpc hfree
  | change t new =>
      obtain ⟨hpc, h⟩ := Option.ite_none_right_eq_some.mp h
      cases h
      exact .change t new hpc
  | wait t =>
      obtain ⟨hpc, h⟩ := Option.ite_none_right_eq_some.mp h
      cases h
      exact .wait t hpc
  | unlock t =>
      obtain ⟨hpc, h⟩ := Option.ite_none_right_eq_some.mp h
      cases h
      exact .unlock t hpc
  | notify t u =>
      obtain ⟨hpc, h⟩ := Option.ite_none_right_eq_some.mp h
      cases h
      exact .notify t u hpc
  | notifyAll t =>
      obtain ⟨hpc, h⟩ := Option.ite_none_right_eq_some.mp h
      cases h
      exact .notifyAll t hpc
  | run t => exact moves_of_runLoop h

/-! ## §4. Mutual exclusion. -/

/-- The counters at which a thread owns the mutex. -/
def Inside : Pc → Prop
  | .inside => True
  | .test => True
  | _ => False

theorem inside_notify {p : Pc} (h : Inside p.notify) : Inside p := by
  cases p with
  | asleep _ => cases h
  | _ => exact h

omit [DecidableEq Tid] in
theorem exclusive_start (shared : σ) :
    Exclusive Inside (start shared : Monitor σ Tid).pc (start shared : Monitor σ Tid).m_mutex := by
  intro t h
  cases h

/-- **Every move keeps mutual exclusion.** -/
theorem exclusive_step {cond : σ → Bool} {s s' : Monitor σ Tid} {a : Label σ Tid}
    (h : Exclusive Inside s.pc s.m_mutex) (hs : Moves cond s a s') :
    Exclusive Inside s'.pc s'.m_mutex := by
  cases hs with
  | lock t hpc hfree =>
      rw [hfree] at h
      exact h.acquire
  | change t new hpc => exact h
  | wait t hpc => exact h.move (by intro _; rw [hpc]; trivial)
  | unlock t hpc => exact h.release (by rw [hpc]; trivial) (by intro hin; cases hin)
  | notify t u hpc => exact h.move inside_notify
  | notifyAll t hpc => exact h.map (fun _ => inside_notify)
  | sleep t hpc hcond => exact h.release (by rw [hpc]; trivial) (by intro hin; cases hin)
  | leave t hpc hcond => exact h.move (by intro _; rw [hpc]; trivial)
  | wake t b hpc => exact h.move (by intro hin; cases hin)
  | relock t hpc hfree =>
      rw [hfree] at h
      exact h.acquire

theorem exclusive_kept (cond : σ → Bool) (s : Monitor σ Tid) (a : Label σ Tid) (s' : Monitor σ Tid)
    (h : Exclusive Inside s.pc s.m_mutex) (hs : step cond s a = some s') :
    Exclusive Inside s'.pc s'.m_mutex :=
  exclusive_step h (moves_of_step hs)

/-! ## §5. What a step does to one thread. -/

/-- The counters of the thread `t` before and after a step. -/
inductive Turn (cond : σ → Bool) (s : Monitor σ Tid) (a : Label σ Tid) (t : Tid) : Pc → Pc → Prop
    where
  | stay (p : Pc) : Turn cond s a t p p
  | notified (p : Pc) : Turn cond s a t p p.notify
  | lock (ha : a = .lock t) : Turn cond s a t .outside .inside
  | wait (ha : a = .wait t) : Turn cond s a t .inside .test
  | unlock (ha : a = .unlock t) : Turn cond s a t .inside .outside
  | sleep (ha : a = .run t) (hcond : cond s.shared = true) : Turn cond s a t .test (.asleep false)
  | leave (ha : a = .run t) (hcond : cond s.shared = false) : Turn cond s a t .test .inside
  | wake (b : Bool) (ha : a = .run t) : Turn cond s a t (.asleep b) .relock
  | relock (ha : a = .run t) : Turn cond s a t .relock .test

theorem turn_goto {cond : σ → Bool} {s : Monitor σ Tid} {a : Label σ Tid} {u : Tid} {p : Pc}
    (h : Turn cond s a u (s.pc u) p) (t : Tid) :
    Turn cond s a t (s.pc t) ((s.goto u p).pc t) := by
  show Turn cond s a t (s.pc t) (Function.update s.pc u p t)
  by_cases htu : t = u
  · subst htu
    rw [Function.update_self]
    exact h
  · rw [Function.update_of_ne htu]
    exact .stay _

/-- **Every step is a turn of every thread.** -/
theorem turn_of_moves {cond : σ → Bool} {s s' : Monitor σ Tid} {a : Label σ Tid}
    (hs : Moves cond s a s') (t : Tid) : Turn cond s a t (s.pc t) (s'.pc t) := by
  cases hs with
  | lock u hpc hfree => exact turn_goto (by rw [hpc]; exact .lock rfl) t
  | change u new hpc => exact .stay _
  | wait u hpc => exact turn_goto (by rw [hpc]; exact .wait rfl) t
  | unlock u hpc => exact turn_goto (by rw [hpc]; exact .unlock rfl) t
  | notify v u hpc => exact turn_goto (.notified _) t
  | notifyAll u hpc => exact .notified _
  | sleep u hpc hcond => exact turn_goto (by rw [hpc]; exact .sleep rfl hcond) t
  | leave u hpc hcond => exact turn_goto (by rw [hpc]; exact .leave rfl hcond) t
  | wake u b hpc => exact turn_goto (by rw [hpc]; exact .wake b rfl) t
  | relock u hpc hfree => exact turn_goto (by rw [hpc]; exact .relock rfl) t

/-- The counters inside the loop. -/
def InLoop : Pc → Prop
  | .test => True
  | .asleep _ => True
  | .relock => True
  | _ => False

/-- Asleep in `pthread_cond_wait`. -/
def Asleep (p : Pc) : Prop := ∃ b, p = .asleep b

theorem asleep_notify {p : Pc} (h : Asleep p.notify) : Asleep p := by
  cases p with
  | asleep b => exact ⟨b, rfl⟩
  | _ => exact h

theorem inLoop_notify {p : Pc} (h : InLoop p) : InLoop p.notify := by
  cases p with
  | asleep _ => trivial
  | _ => exact h

section Turn

omit [DecidableEq Tid]

variable {cond : σ → Bool} {s : Monitor σ Tid} {a : Label σ Tid} {t : Tid} {p q : Pc}

/-- Only a test that comes out true puts a thread to sleep. -/
theorem Turn.asleep (h : Turn cond s a t p q) (hq : Asleep q) :
    Asleep p ∨ (a = .run t ∧ p = .test ∧ cond s.shared = true) := by
  cases h with
  | stay => exact .inl hq
  | notified => exact .inl (asleep_notify hq)
  | sleep ha hcond => exact .inr ⟨ha, rfl, hcond⟩
  | _ =>
      obtain ⟨b, hb⟩ := hq
      cases hb

/-- Only a test that comes out false lets a thread out of the loop. -/
theorem Turn.inLoop (h : Turn cond s a t p q) (hp : InLoop p) :
    InLoop q ∨ (a = .run t ∧ p = .test ∧ cond s.shared = false) := by
  cases h with
  | stay => exact .inl hp
  | notified => exact .inl (inLoop_notify hp)
  | leave ha hcond => exact .inr ⟨ha, rfl, hcond⟩
  | lock ha => cases hp
  | wait ha => cases hp
  | unlock ha => cases hp
  | sleep ha hcond => exact .inl trivial
  | wake b ha => exact .inl trivial
  | relock ha => exact .inl trivial

/-- With the mutex, a thread is moved by its own calls only. -/
theorem Turn.inside (h : Turn cond s a t .inside q) :
    q = .inside ∨ a = .wait t ∨ a = .unlock t := by
  cases h with
  | stay => exact .inl rfl
  | notified => exact .inl rfl
  | wait ha => exact .inr (.inl ha)
  | unlock ha => exact .inr (.inr ha)

end Turn

/-! ## §6. The loop. -/

/-- The step evaluates the loop test of `t`. -/
def Tests (t : Tid) (s : Monitor σ Tid) (a : Label σ Tid) : Prop :=
  a = .run t ∧ s.pc t = .test

/-- Thread `t` goes to sleep in the step. -/
def FallsAsleep (t : Tid) (s s' : Monitor σ Tid) : Prop := ¬ Asleep (s.pc t) ∧ Asleep (s'.pc t)

/-- Thread `t` returns from the loop in the step, holding the mutex. -/
def Returns (t : Tid) (s s' : Monitor σ Tid) : Prop :=
  InLoop (s.pc t) ∧ s'.pc t = .inside ∧ s'.m_mutex = some t

/-- **What `while (P()) wait(mutex);` says of a step**: a thread goes to sleep exactly
where its test finds `P` true, and returns with the mutex exactly where it finds `P`
false. -/
def FollowsLoop (cond P : σ → Bool) (s : Monitor σ Tid) (a : Label σ Tid) : Prop :=
  ∀ t s', step cond s a = some s' →
    (FallsAsleep t s s' ↔ Tests t s a ∧ P s.shared = true) ∧
      (Returns t s s' ↔ Tests t s a ∧ P s.shared = false)

section Loop

variable {cond : σ → Bool} {s s' : Monitor σ Tid} {a : Label σ Tid} {t : Tid}

theorem step_test (hpc : s.pc t = .test) : step cond s (.run t)
    = if cond s.shared then some (s.unlock t (.asleep false)) else some (s.goto t .inside) := by
  show runLoop cond s t = _
  unfold runLoop
  rw [hpc]

theorem fallsAsleep_iff (hs : step cond s a = some s') :
    FallsAsleep t s s' ↔ Tests t s a ∧ cond s.shared = true := by
  constructor
  · intro h
    obtain ⟨ha, hpc, hcond⟩ := ((turn_of_moves (moves_of_step hs) t).asleep h.2).resolve_left h.1
    exact ⟨⟨ha, hpc⟩, hcond⟩
  · intro h
    obtain ⟨⟨rfl, hpc⟩, hcond⟩ := h
    -- a test has one outcome, decided by the state it finds
    rw [step_test hpc, if_pos hcond] at hs
    cases hs
    constructor
    · intro hasleep
      obtain ⟨b, hb⟩ := hasleep
      rw [hpc] at hb
      cases hb
    · exact ⟨false, Function.update_self t _ s.pc⟩

theorem returns_iff (hexclusive : Exclusive Inside s.pc s.m_mutex)
    (hs : step cond s a = some s') :
    Returns t s s' ↔ Tests t s a ∧ cond s.shared = false := by
  constructor
  · intro h
    obtain ⟨hloop, hpc', -⟩ := h
    have hout : ¬ InLoop (s'.pc t) := by
      rw [hpc']
      exact fun h => h
    obtain ⟨ha, hpc, hcond⟩ :=
      ((turn_of_moves (moves_of_step hs) t).inLoop hloop).resolve_left hout
    exact ⟨⟨ha, hpc⟩, hcond⟩
  · intro h
    obtain ⟨⟨rfl, hpc⟩, hcond⟩ := h
    rw [step_test hpc, if_neg (by simp [hcond])] at hs
    cases hs
    refine ⟨by rw [hpc]; trivial, Function.update_self t _ s.pc, ?_⟩
    -- leaving the loop does not touch the mutex, which the tester owns
    exact hexclusive t (by rw [hpc]; trivial)

/-- **A loop follows its own test.** -/
theorem followsLoop_self (hexclusive : Exclusive Inside s.pc s.m_mutex) :
    FollowsLoop cond cond s a :=
  fun _ _ hs => ⟨fallsAsleep_iff hs, returns_iff hexclusive hs⟩

end Loop

/-- **The hand-written loop** goes to sleep only where `P` is true and returns exactly
where it is false, in every run. -/
theorem handWritten_follows (P : σ → Bool) (shared : σ) (as : List (Label σ Tid)) :
    Guarded (step (handWritten P)) (FollowsLoop (handWritten P) P) (start shared) as :=
  guarded_of_invariant _ (fun s => Exclusive Inside s.pc s.m_mutex) (exclusive_kept _)
    (fun _ _ h => followsLoop_self h) as _ (exclusive_start shared)

/-! ## §7. The overload. -/

/-- A loop test in the step finds `P` true. -/
def TestsTrue (P : σ → Bool) (s : Monitor σ Tid) : Label σ Tid → Prop
  | .run t => s.pc t = .test → P s.shared = true
  | _ => True

instance (P : σ → Bool) (s : Monitor σ Tid) (a : Label σ Tid) : Decidable (TestsTrue P s a) :=
  match a with
  | .run t => inferInstanceAs (Decidable (s.pc t = .test → P s.shared = true))
  | .lock _ => .isTrue trivial
  | .change _ _ => .isTrue trivial
  | .wait _ => .isTrue trivial
  | .unlock _ => .isTrue trivial
  | .notify _ _ => .isTrue trivial
  | .notifyAll _ => .isTrue trivial

section Overload

variable {P : σ → Bool} {s s' : Monitor σ Tid} {a : Label σ Tid}

omit [DecidableEq Tid] in
theorem testsTrue_iff : TestsTrue P s a ↔ ∀ t, Tests t s a → P s.shared = true := by
  constructor
  · intro h t ht
    obtain ⟨rfl, hpc⟩ := ht
    exact h hpc
  · intro h
    cases a with
    | run t => exact fun hpc => h t ⟨rfl, hpc⟩
    | _ => trivial

/-- **The overload never returns**: no step takes a thread out of it. -/
theorem overload_stays {t : Tid} (hs : step (overload (.callable P)) s a = some s')
    (hloop : InLoop (s.pc t)) : InLoop (s'.pc t) := by
  rcases (turn_of_moves (moves_of_step hs) t).inLoop hloop with h | ⟨-, -, hcond⟩
  · exact h
  · cases hcond

theorem overload_test {t : Tid} (hpc : s.pc t = .test) :
    step (overload (.callable P)) s (.run t) = some (s.unlock t (.asleep false)) :=
  (step_test hpc).trans (if_pos rfl)

/-- The overload does what the loop says of a step exactly where it would test `P` true. -/
theorem overload_follows_iff (hexclusive : Exclusive Inside s.pc s.m_mutex) :
    FollowsLoop (overload (.callable P)) P s a ↔ TestsTrue P s a := by
  rw [testsTrue_iff]
  constructor
  · intro h t ht
    obtain ⟨rfl, hpc⟩ := ht
    -- the overload sleeps at every test, and the loop says that `P` is true then
    have hs := overload_test (P := P) hpc
    exact ((h t _ hs).1.mp ((fallsAsleep_iff hs).mpr ⟨⟨rfl, hpc⟩, rfl⟩)).2
  · intro h t s' hs
    rw [fallsAsleep_iff hs, returns_iff hexclusive hs]
    constructor
    · refine and_congr_right fun ht => ?_
      exact iff_of_true rfl (h t ht)
    · refine and_congr_right fun ht => iff_of_false (fun hfalse => ?_) (fun hfalse => ?_)
      · cases hfalse
      · rw [h t ht] at hfalse
        cases hfalse

/-- Where no test finds `P` false the two loops take the same step. -/
theorem step_agree (h : TestsTrue P s a) :
    step (overload (.callable P)) s a = step (handWritten P) s a := by
  cases a with
  | run t =>
      by_cases hpc : s.pc t = .test
      · rw [overload_test hpc, step_test hpc]
        exact (if_pos (h hpc)).symm
      · -- away from the test the loop's condition is not read
        show runLoop _ s t = runLoop _ s t
        unfold runLoop
        cases hp : s.pc t with
        | test => exact absurd hp hpc
        | _ => rfl
  | _ => rfl

/-- Some thread is in the overload that has returned from the hand-written loop. -/
def Parted (s u : Monitor σ Tid) : Prop := ∃ t, InLoop (s.pc t) ∧ u.pc t = .inside

/-- Where a test finds `P` false the two loops part. -/
theorem step_part (h : ¬ TestsTrue P s a) :
    ∃ t u, step (overload (.callable P)) s a = some t ∧ step (handWritten P) s a = some u ∧
      Parted t u := by
  cases a with
  | run t =>
      obtain ⟨hpc, hfalse⟩ := Classical.not_imp.mp h
      refine ⟨_, _, overload_test hpc, (step_test hpc).trans (if_neg hfalse), t, ?_, ?_⟩
      · show InLoop (Function.update s.pc t (.asleep false) t)
        rw [Function.update_self]
        trivial
      · exact Function.update_self t _ s.pc
  | _ => exact absurd trivial h

/-- Parted states stay parted under the labels both sides can perform. -/
theorem parted_step {u u' : Monitor σ Tid} (h : Parted s u)
    (hs : step (overload (.callable P)) s a = some s')
    (hu : step (handWritten P) u a = some u') : Parted s' u' := by
  obtain ⟨t, hloop, hinside⟩ := h
  refine ⟨t, overload_stays hs hloop, ?_⟩
  have hturn := turn_of_moves (moves_of_step hu) t
  rw [hinside] at hturn
  -- the two calls that would move the thread need it outside the loop
  rcases hturn.inside with h | rfl | rfl
  · exact h
  · have hpc := (Option.ite_none_right_eq_some.mp hs).1
    rw [hpc] at hloop
    cases hloop
  · have hpc := (Option.ite_none_right_eq_some.mp hs).1
    rw [hpc] at hloop
    cases hloop

omit [DecidableEq Tid] in
theorem parted_ne {u : Monitor σ Tid} (h : Parted s u) : s ≠ u := by
  intro heq
  subst heq
  obtain ⟨t, hloop, hinside⟩ := h
  rw [hinside] at hloop
  cases hloop

end Overload

/-- A run of the overload follows the loop exactly if it never tests `P` false. -/
theorem overload_follows_run (P : σ → Bool) (shared : σ) (as : List (Label σ Tid)) :
    Guarded (step (overload (.callable P))) (FollowsLoop (overload (.callable P)) P)
        (start shared) as
      ↔ Guarded (step (overload (.callable P))) (TestsTrue P) (start shared) as :=
  guarded_congr _ (fun s => Exclusive Inside s.pc s.m_mutex) (exclusive_kept _)
    (fun _ _ => overload_follows_iff) as _ (exclusive_start shared)

/-- **THE OVERLOAD IS THE LOOP** in exactly the runs that never test a false predicate:
there the two systems reach the same states, and a thread sleeps exactly where `P` is
true and returns exactly where it is false. -/
theorem wait_eq_loop_iff (P : σ → Bool) (shared : σ) (as : List (Label σ Tid))
    (hrun : (exec (step (overload (.callable P))) (start shared) as).isSome ∨
      (exec (step (handWritten P)) (start shared) as).isSome) :
    (exec (step (overload (.callable P))) (start shared) as
        = exec (step (handWritten P)) (start shared) as
      ↔ Guarded (step (overload (.callable P))) (TestsTrue P) (start shared) as) ∧
    (Guarded (step (overload (.callable P))) (FollowsLoop (overload (.callable P)) P)
        (start shared) as
      ↔ Guarded (step (overload (.callable P))) (TestsTrue P) (start shared) as) := by
  refine ⟨?_, overload_follows_run P shared as⟩
  exact exec_eq_iff_guarded (C := TestsTrue P) (R := Parted) (fun _ _ => step_agree)
    (fun _ _ => step_part) (fun _ _ _ _ _ => parted_step) (fun _ _ => parted_ne) as
    (start shared) hrun

/-- Two threads and a count: `n > 0`, as in `CountDownLatch::wait`. -/
def positive (n : Int) : Bool := 0 < n

/-- The count goes from 2 to 1; the waiter wakes up, tests again and sleeps again. -/
theorem wait_eq_loop_two :
    exec (step (overload (.callable positive))) (start (2 : Int))
        [.lock false, .wait false, .run false, .lock true, .change true 1, .notifyAll true,
          .unlock true, .run false, .run false, .run false]
      = exec (step (handWritten positive)) (start 2)
        [.lock false, .wait false, .run false, .lock true, .change true 1, .notifyAll true,
          .unlock true, .run false, .run false, .run false] :=
  (wait_eq_loop_iff positive 2 _ (.inl (by decide))).1.mpr (by decide)

/-- With the count at 0 the overload goes to sleep, the loop returns with the mutex. -/
theorem wait_sleeps_at_zero :
    (exec (step (overload (.callable positive))) (start (0 : Int))
        [.lock false, .wait false, .run false]).map (fun s => (s.pc false, s.m_mutex))
      = some (.asleep false, none) ∧
    (exec (step (handWritten positive)) (start (0 : Int))
        [.lock false, .wait false, .run false]).map (fun s => (s.pc false, s.m_mutex))
      = some (.inside, some false) ∧
    ¬ Guarded (step (overload (.callable positive)))
        (FollowsLoop (overload (.callable positive)) positive) (start 0)
        [.lock false, .wait false, .run false] := by
  refine ⟨by decide, by decide, ?_⟩
  rw [overload_follows_run]
  decide

end Monitor

end SylarCot.Sync
