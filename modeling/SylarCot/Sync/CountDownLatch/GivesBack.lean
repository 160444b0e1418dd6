/-
  SylarCot.Sync.CountDownLatch.GivesBack
  ──────────────────────────────────────
  **WHEN THE LATCH GIVES ITS MUTEX BACK.**

  `countDown` and `getCount` hold the mutex by a scoped guard.  `wait` locks it by
  hand and has no unlock: the thread that finds the count at 0 or less returns
  and stays the owner.  That is the only leak:

    • `givesBack_iff` — a run stays free of leaks exactly when no thread gets past
      the loop of `wait`;
    • `mutex_leaks` — a `wait` on a latch that is already open leaks the mutex.
-/
import SylarCot.Sync.CountDownLatch.WakeUp

namespace SylarCot.Sync

namespace CountDownLatch

open Library

variable {Tid : Type*}

/-! ## §1. The property and the condition. -/

/-- The mutex is free or held by a thread inside a call. -/
def GivesBack (s : CountDownLatch Tid) : Prop :=
  ∀ t, s.m_mutex = some t → s.pc t ≠ .idle

/-- The step does not take a thread past the loop of `wait`. -/
def StaysInLoop (s : CountDownLatch Tid) : Label Tid → Prop
  | .call _ _ => True
  | .run t => s.pc t = .waitTest → 0 < s.m_count

instance (s : CountDownLatch Tid) : ∀ a : Label Tid, Decidable (s.StaysInLoop a)
  | .call _ _ => inferInstanceAs (Decidable True)
  | .run t => inferInstanceAs (Decidable (s.pc t = .waitTest → 0 < s.m_count))

/-- With no call in progress the mutex is free. -/
theorem GivesBack.free {s : CountDownLatch Tid} (h : s.GivesBack) (hidle : ∀ t, s.pc t = .idle) :
    s.m_mutex = none := by
  cases hm : s.m_mutex with
  | none => rfl
  | some t => exact absurd (hidle t) (h t hm)

variable [DecidableEq Tid]

/-! ## §2. One step. -/

/-- A thread that moves to a place inside a call keeps the property. -/
theorem givesBack_move {s s' : CountDownLatch Tid} {t : Tid} {p : Pc} (h : s.GivesBack)
    (hpc : s'.pc = Function.update s.pc t p) (hm : s'.m_mutex = s.m_mutex) (hp : p ≠ .idle) :
    s'.GivesBack := by
  intro u hu
  rw [hm] at hu
  rw [hpc]
  by_cases hut : u = t
  · rw [hut, Function.update_self]
    exact hp
  · rw [Function.update_of_ne hut]
    exact h u hu

omit [DecidableEq Tid] in
theorem givesBack_free {s : CountDownLatch Tid} (hm : s.m_mutex = none) : s.GivesBack := by
  intro u hu
  rw [hm] at hu
  cases hu

theorem afterLock_ne_idle {p q : Pc} (h : afterLock p = some q) : q ≠ .idle := by
  cases p with
  | waitLock => cases h; decide
  | waitRelock => cases h; decide
  | countDownLock => cases h; decide
  | getCountLock => cases h; decide
  | _ => cases h

/-- **Every step that leaves no loop of `wait` keeps the property.** -/
theorem givesBack_step {s s' : CountDownLatch Tid} {a : Label Tid} (h : s.GivesBack)
    (hstay : s.StaysInLoop a) (hs : step s a = some s') : s'.GivesBack := by
  cases moves_of_step hs with
  | enter t op hpc =>
      refine givesBack_move h rfl rfl ?_
      cases op with
      | _ => decide
  | acquire t p hpc hfree =>
      intro u hu
      cases hu
      show Function.update s.pc t p t ≠ .idle
      rw [Function.update_self]
      exact afterLock_ne_idle hpc
  | sleep t hpc hcount => exact givesBack_free rfl
  | pass t hpc hcount =>
      -- excluded by the condition
      have : 0 < s.m_count := hstay hpc
      omega
  | wake t b hpc => exact givesBack_move h rfl rfl (by decide)
  | decrement t hpc => exact givesBack_move h rfl rfl (by decide)
  | zero t hpc hcount => exact givesBack_move h rfl rfl (by decide)
  | nonzero t hpc hcount => exact givesBack_move h rfl rfl (by decide)
  | broadcast t hpc =>
      have hnotify : s.notifyAll.GivesBack := by
        intro u hu
        have hidle := h u hu
        show (s.pc u).notify ≠ .idle
        cases hsu : s.pc u with
        | idle => exact absurd hsu hidle
        | _ => intro heq; cases heq
      exact givesBack_move hnotify rfl rfl (by decide)
  | read t hpc => exact givesBack_move h rfl rfl (by intro heq; cases heq)
  | release t hpc => exact givesBack_free rfl

/-- **A thread that gets past the loop of `wait` leaks the mutex.** -/
theorem leak_of_pass {s s' : CountDownLatch Tid} {a : Label Tid}
    (h : Exclusive Inside s.pc s.m_mutex) (hpass : ¬ s.StaysInLoop a)
    (hs : step s a = some s') : ¬ s'.GivesBack := by
  cases a with
  | call t op => exact absurd trivial hpass
  | run t =>
      obtain ⟨hpc, hcount⟩ := Classical.not_imp.mp hpass
      have howner : s.m_mutex = some t := h t (by rw [hpc]; trivial)
      change s.runThread t = some s' at hs
      simp only [runThread, hpc] at hs
      rw [if_neg (by omega)] at hs
      cases hs
      intro hback
      exact hback t howner (Function.update_self t _ s.pc)

/-! ## §3. Runs. -/

omit [DecidableEq Tid] in
theorem givesBack_new (count : Int) : (new count : CountDownLatch Tid).GivesBack :=
  givesBack_free rfl

/-- **THE LATCH GIVES ITS MUTEX BACK EXACTLY WHEN** no thread of the run gets past
the loop of `wait`. -/
theorem givesBack_iff (count : Int) (as : List (Label Tid)) (s : CountDownLatch Tid)
    (hrun : exec step (new count) as = some s) :
    Always step GivesBack (new count) as ↔ Guarded step StaysInLoop (new count) as := by
  constructor
  · intro halways
    exact guarded_of_always step (fun s => Exclusive Inside s.pc s.m_mutex)
      (fun s a s' h _ hs => exclusive_step h (moves_of_step hs))
      (fun s a s' h hpass hs => leak_of_pass h hpass hs)
      as (new count) s (inv_new count).exclusive hrun halways
  · intro hguarded
    exact always_of_guarded step GivesBack
      (fun s a s' h hstay hs => givesBack_step h hstay hs)
      (fun s h => h) as (new count) (givesBack_new count) hguarded

end CountDownLatch

/-- `true` counts down, then `false` reads the count. -/
def countAndRead : List (Label Bool) :=
  [.call true .countDown, .run true, .run true, .run true, .run true, .call false .getCount,
    .run false, .run false, .run false]

theorem givesBack_iff_countAndRead :
    Library.Always CountDownLatch.step CountDownLatch.GivesBack
      (CountDownLatch.new 2) countAndRead :=
  (CountDownLatch.givesBack_iff 2 countAndRead _ (Option.some_get (by decide)).symm).mpr
    (by decide)

/-- A `wait` on an open latch returns with the mutex locked. -/
theorem mutex_leaks :
    ¬ ∀ (count : Int) (as : List (Label Unit)),
      Library.Always CountDownLatch.step CountDownLatch.GivesBack (CountDownLatch.new count) as := by
  intro h
  have hlast := ((((h 0 [.call () .wait, .run (), .run ()]).2 _ rfl).2 _ rfl).2 _ rfl)
  exact hlast () rfl rfl

end SylarCot.Sync
