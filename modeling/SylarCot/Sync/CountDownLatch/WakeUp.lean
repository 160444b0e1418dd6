/-
  SylarCot.Sync.CountDownLatch.WakeUp
  ───────────────────────────────────
  **THE LATCH RELEASES NO WAITER EARLY AND LOSES NO WAKE-UP.**

  One invariant, kept by every move of every thread:

    • mutual exclusion (`Exclusive Inside`);
    • `m_count` is the initial count less the decrements;
    • a thread has left the loop of `wait` only after `count` decrements;
    • while a thread sleeps without a notification, the count is positive or
      some `countDown` has yet to broadcast.

  The broadcast is sent only when the count is exactly 0.  That suffices because
  a `countDown` holds the mutex from its decrement to its broadcast: no thread
  can fall asleep, and no second decrement can happen, in between.
-/
import SylarCot.Library.Ownership
import SylarCot.Sync.CountDownLatch.CountDownLatch

namespace SylarCot.Sync

namespace CountDownLatch

open Library

variable {Tid : Type*}

/-! ## §1. The invariant. -/

/-- The counters at which a thread owns the mutex while in a call. -/
def Inside : Pc → Prop
  | .waitTest => True
  | .countDownDec => True
  | .countDownTest => True
  | .countDownNotify => True
  | .countDownUnlock => True
  | .getCountRead => True
  | .getCountUnlock _ => True
  | _ => False

/-- The thread is a `countDown` that has decremented to 0 and not yet broadcast. -/
def Announcing (s : CountDownLatch Tid) (t : Tid) : Prop :=
  (s.pc t = .countDownTest ∧ s.m_count = 0) ∨ s.pc t = .countDownNotify

/-- The invariant. -/
structure Inv (count : Int) (s : CountDownLatch Tid) : Prop where
  exclusive : Exclusive Inside s.pc s.m_mutex
  counted : s.m_count = count - s.decrements
  passed : 0 < s.passed → count ≤ s.decrements
  asleep : ∀ t, s.pc t = .waitAsleep false → 0 < s.m_count ∨ ∃ u, s.Announcing u

theorem inv_new (count : Int) : Inv count (new count : CountDownLatch Tid) where
  exclusive := by
    intro t h
    cases h
  counted := by
    show count = count - ((0 : Nat) : Int)
    omega
  passed := by
    intro h
    cases h
  asleep := by
    intro t h
    cases h

theorem inside_atUnlock {p : Pc} (h : AtUnlock p) : Inside p := by
  rcases h with rfl | ⟨v, rfl⟩ <;> trivial

theorem Announcing.inside {s : CountDownLatch Tid} {t : Tid} (h : s.Announcing t) :
    Inside (s.pc t) := by
  rcases h with ⟨h, -⟩ | h <;> rw [h] <;> trivial

/-- A thread that announces nothing itself and is inside keeps all others from
announcing. -/
theorem Inv.not_announcing {count : Int} {s : CountDownLatch Tid} (h : Inv count s) {t : Tid}
    (ht : Inside (s.pc t)) (hnot : ¬ s.Announcing t) (u : Tid) : ¬ s.Announcing u := by
  intro hu
  obtain rfl := h.exclusive.unique ht hu.inside
  exact hnot hu

variable [DecidableEq Tid]

/-! ## §2. Mutual exclusion. -/

theorem notify_inside {p : Pc} (h : Inside p.notify) : Inside p := by
  cases p with
  | waitAsleep _ => cases h
  | _ => exact h

/-- **Every move keeps mutual exclusion.** -/
theorem exclusive_step {s s' : CountDownLatch Tid} {a : Label Tid}
    (h : Exclusive Inside s.pc s.m_mutex) (hs : Moves s a s') :
    Exclusive Inside s'.pc s'.m_mutex := by
  cases hs with
  | enter t op hpc =>
      refine h.move ?_
      intro hin
      cases op with
      | _ => cases hin
  | acquire t p hpc hfree =>
      rw [hfree] at h
      exact h.acquire
  | sleep t hpc hcount => exact h.release (by rw [hpc]; trivial) (by intro hin; cases hin)
  | pass t hpc hcount => exact h.move (by intro hin; cases hin)
  | wake t b hpc => exact h.move (by intro hin; cases hin)
  | decrement t hpc => exact h.move (by intro _; rw [hpc]; trivial)
  | zero t hpc hcount => exact h.move (by intro _; rw [hpc]; trivial)
  | nonzero t hpc hcount => exact h.move (by intro _; rw [hpc]; trivial)
  | broadcast t hpc =>
      have hmap : Exclusive Inside (fun t => (s.pc t).notify) s.m_mutex :=
        h.map (fun _ => notify_inside)
      exact hmap.move (by intro _; show Inside (s.pc t).notify; rw [hpc]; trivial)
  | read t hpc => exact h.move (by intro _; rw [hpc]; trivial)
  | release t hpc => exact h.release (inside_atUnlock hpc) (by intro hin; cases hin)

/-! ## §3. Sleepers. -/

/-- A thread that moves, neither falling asleep nor announcing, leaves the
sleepers as they are. -/
theorem asleep_move {s s' : CountDownLatch Tid} {t : Tid} {p : Pc}
    (h : ∀ u, s.pc u = .waitAsleep false → 0 < s.m_count ∨ ∃ v, s.Announcing v)
    (hpc : s'.pc = Function.update s.pc t p) (hcount : s'.m_count = s.m_count)
    (hp : p ≠ .waitAsleep false) (ht : ¬ s.Announcing t) :
    ∀ u, s'.pc u = .waitAsleep false → 0 < s'.m_count ∨ ∃ v, s'.Announcing v := by
  intro u hu
  rw [hpc] at hu
  have hut : u ≠ t := by
    rintro rfl
    rw [Function.update_self] at hu
    exact hp hu
  rw [Function.update_of_ne hut] at hu
  rcases h u hu with hpos | ⟨v, hv⟩
  · left
    rw [hcount]
    exact hpos
  · right
    refine ⟨v, ?_⟩
    have hvt : v ≠ t := by
      rintro rfl
      exact ht hv
    unfold Announcing at hv ⊢
    rw [hpc, hcount, Function.update_of_ne hvt]
    exact hv

omit [DecidableEq Tid] in
/-- A thread at any other place is announcing nothing. -/
theorem not_announcing_of_pc {s : CountDownLatch Tid} {t : Tid} (h : s.pc t ≠ .countDownTest)
    (h' : s.pc t ≠ .countDownNotify) : ¬ s.Announcing t := by
  intro hall
  rcases hall with ⟨hpc, -⟩ | hpc
  · exact h hpc
  · exact h' hpc

theorem afterLock_ne_asleep {p q : Pc} (h : afterLock p = some q) :
    p ≠ .countDownTest ∧ p ≠ .countDownNotify ∧ q ≠ .waitAsleep false := by
  cases p with
  | waitLock => cases h; exact ⟨by decide, by decide, by decide⟩
  | waitRelock => cases h; exact ⟨by decide, by decide, by decide⟩
  | countDownLock => cases h; exact ⟨by decide, by decide, by decide⟩
  | getCountLock => cases h; exact ⟨by decide, by decide, by decide⟩
  | _ => cases h

/-- **Every move keeps an un-notified sleeper accounted for.** -/
theorem asleep_step {count : Int} {s s' : CountDownLatch Tid} {a : Label Tid}
    (h : Inv count s) (hs : Moves s a s') :
    ∀ t, s'.pc t = .waitAsleep false → 0 < s'.m_count ∨ ∃ u, s'.Announcing u := by
  cases hs with
  | enter t op hpc =>
      refine asleep_move h.asleep rfl rfl ?_ (not_announcing_of_pc ?_ ?_)
      · cases op with
        | _ => decide
      · rw [hpc]; decide
      · rw [hpc]; decide
  | acquire t p hpc hfree =>
      obtain ⟨htest, hnotify, hp⟩ := afterLock_ne_asleep hpc
      exact asleep_move h.asleep rfl rfl hp (not_announcing_of_pc htest hnotify)
  | sleep t hpc hcount =>
      -- the loop test has just seen a positive count, under the mutex
      intro u _
      left
      exact hcount
  | pass t hpc hcount =>
      exact asleep_move h.asleep rfl rfl (by decide)
        (not_announcing_of_pc (by rw [hpc]; decide) (by rw [hpc]; decide))
  | wake t b hpc =>
      refine asleep_move h.asleep rfl rfl (by decide) (not_announcing_of_pc ?_ ?_)
      · rw [hpc]; intro heq; cases heq
      · rw [hpc]; intro heq; cases heq
  | decrement t hpc =>
      intro u hu
      have hut : u ≠ t := by
        rintro rfl
        change Function.update s.pc u _ u = _ at hu
        rw [Function.update_self] at hu
        cases hu
      change Function.update s.pc t _ u = _ at hu
      rw [Function.update_of_ne hut] at hu
      have hnot := h.not_announcing (t := t) (by rw [hpc]; trivial)
        (not_announcing_of_pc (by rw [hpc]; decide) (by rw [hpc]; decide))
      -- nobody else is announcing, so the count was positive
      rcases h.asleep u hu with hpos | ⟨v, hv⟩
      · show 0 < s.m_count - 1 ∨ _
        by_cases hone : s.m_count = 1
        · right
          refine ⟨t, .inl ⟨?_, ?_⟩⟩
          · exact Function.update_self t _ s.pc
          · show s.m_count - 1 = 0
            omega
        · left
          omega
      · exact absurd hv (hnot v)
  | zero t hpc hcount =>
      -- this thread is still announcing, now on its way to the broadcast
      intro u _
      right
      exact ⟨t, .inr (Function.update_self t _ s.pc)⟩
  | nonzero t hpc hcount =>
      -- no broadcast, but this thread was not announcing 0 either
      refine asleep_move h.asleep rfl rfl (by decide) ?_
      intro hall
      rcases hall with ⟨-, hzero⟩ | hnotify
      · exact hcount hzero
      · rw [hpc] at hnotify
        cases hnotify
  | broadcast t hpc =>
      -- every sleeper of the moment is notified
      intro u hu
      exfalso
      change Function.update (fun v => (s.pc v).notify) t _ u = _ at hu
      by_cases hut : u = t
      · rw [hut, Function.update_self] at hu
        cases hu
      · rw [Function.update_of_ne hut] at hu
        cases hsu : s.pc u with
        | waitAsleep b => rw [hsu] at hu; cases hu
        | _ => rw [hsu] at hu; cases hu
  | read t hpc =>
      refine asleep_move h.asleep rfl rfl (by intro heq; cases heq) (not_announcing_of_pc ?_ ?_)
      · rw [hpc]; decide
      · rw [hpc]; decide
  | release t hpc =>
      refine asleep_move h.asleep rfl rfl (by decide) (not_announcing_of_pc ?_ ?_)
      · rcases hpc with hpc | ⟨v, hpc⟩ <;> rw [hpc] <;> intro heq <;> cases heq
      · rcases hpc with hpc | ⟨v, hpc⟩ <;> rw [hpc] <;> intro heq <;> cases heq

/-! ## §4. The count. -/

/-- Every move but the decrement keeps count and decrements; every move but
`pass` keeps `passed`. -/
theorem counters_step {count : Int} {s s' : CountDownLatch Tid} {a : Label Tid}
    (h : Inv count s) (hs : Moves s a s') :
    s'.m_count = count - s'.decrements ∧ (0 < s'.passed → count ≤ s'.decrements) := by
  have hcounted := h.counted
  have hpassed := h.passed
  cases hs with
  | decrement t hpc =>
      show s.m_count - 1 = count - ((s.decrements + 1 : Nat) : Int) ∧
        (0 < s.passed → count ≤ ((s.decrements + 1 : Nat) : Int))
      refine ⟨by omega, ?_⟩
      intro hpos
      have := hpassed hpos
      omega
  | pass t hpc hcount =>
      refine ⟨hcounted, fun _ => ?_⟩
      show count ≤ (s.decrements : Int)
      omega
  | _ => exact ⟨hcounted, hpassed⟩

theorem inv_step {count : Int} {s s' : CountDownLatch Tid} {a : Label Tid} (h : Inv count s)
    (hs : step s a = some s') : Inv count s' := by
  have hmove := moves_of_step hs
  obtain ⟨hcounted, hpassed⟩ := counters_step h hmove
  exact ⟨exclusive_step h.exclusive hmove, hcounted, hpassed, asleep_step h hmove⟩

theorem inv_run {count : Int} {as : List (Label Tid)} {s : CountDownLatch Tid}
    (hrun : exec step (new count) as = some s) : Inv count s :=
  exec_invariant step (Inv count) (fun _ _ _ h hs => inv_step h hs) as _ s (inv_new count) hrun

/-! ## §5. The result. -/

/-- **NEVER EARLY, NEVER LOST.**  In every state any run of any number of threads
reaches: no thread has got past the loop of `wait` before `count` decrements;
and if the count is 0 or less and no `countDown` is between its decrement to 0
and its broadcast, no thread sleeps without having been notified. -/
theorem never_early_never_lost (count : Int) (as : List (Label Tid)) (s : CountDownLatch Tid)
    (hrun : exec step (new count) as = some s) :
    (0 < count → 0 < s.passed → count ≤ s.decrements) ∧
      (s.m_count ≤ 0 → (∀ t, ¬ s.Announcing t) → ∀ t, s.pc t ≠ .waitAsleep false) := by
  have h := inv_run hrun
  refine ⟨fun _ => h.passed, ?_⟩
  intro hcount hnot t hasleep
  rcases h.asleep t hasleep with hpos | ⟨u, hu⟩
  · omega
  · exact hnot u hu

end CountDownLatch

/-- `true` waits; `false` counts down to 0 and wakes it. -/
def oneWaiter : List (Label Bool) :=
  [.call true .wait, .run true, .run true, .call false .countDown, .run false, .run false,
    .run false, .run false, .run false, .run true, .run true, .run true]

/-- The latch after that run. -/
def afterOneWaiter : CountDownLatch Bool :=
  (Library.exec CountDownLatch.step (CountDownLatch.new 1) oneWaiter).get (by decide)

theorem never_early_never_lost_oneWaiter :
    (1 : Int) ≤ afterOneWaiter.decrements ∧ afterOneWaiter.pc true ≠ .waitAsleep false := by
  have h := CountDownLatch.never_early_never_lost 1 oneWaiter afterOneWaiter
    (Option.some_get _).symm
  exact ⟨h.1 (by decide) (by decide), h.2 (by decide) (by unfold CountDownLatch.Announcing; decide)
    true⟩

end SylarCot.Sync
