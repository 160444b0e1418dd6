/-
  SylarCot.Sync.CountDownLatch.OneReturn
  ──────────────────────────────────────
  **A LATCH LETS ONE `wait` RETURN, AND NOTHING AFTER IT.**

  The first thread that gets past the loop of `wait` keeps the mutex, and every other
  call needs it.

    • `one_return` — at most one `wait` ever returns, and behind it the count stays as it
      is and no call that is in progress or made later returns;
    • `goes_on_iff` — while a thread is awake in a call, somebody awake can go on if and
      only if no `wait` has returned.
-/
import SylarCot.Sync.CountDownLatch.GivesBack

namespace SylarCot.Sync

namespace CountDownLatch

open Library

variable {Tid : Type*}

/-! ## §1. Before and behind the first return. -/

/-- The mutex is owned by threads inside the critical section only. -/
def Open (s : CountDownLatch Tid) : Prop := ∀ t, s.m_mutex = some t → Inside (s.pc t)

/-- The mutex is owned, and nobody is inside the critical section. -/
structure Shut (s : CountDownLatch Tid) : Prop where
  owned : s.m_mutex ≠ none
  outside : ∀ t, ¬ Inside (s.pc t)

/-- The invariant: the latch is open, or exactly one `wait` has returned. -/
structure AtMostOne (s : CountDownLatch Tid) : Prop where
  exclusive : Exclusive Inside s.pc s.m_mutex
  openOrShut : (s.passed = 0 ∧ s.Open) ∨ (s.passed = 1 ∧ s.Shut)

theorem atMostOne_new (count : Int) : AtMostOne (new count : CountDownLatch Tid) where
  exclusive t h := by cases h
  openOrShut := .inl ⟨rfl, fun t h => by cases h⟩

theorem inside_of_afterLock {p q : Pc} (h : afterLock p = some q) : Inside q ∧ ¬ Inside p := by
  cases p with
  | waitLock => cases h; exact ⟨trivial, id⟩
  | waitRelock => cases h; exact ⟨trivial, id⟩
  | countDownLock => cases h; exact ⟨trivial, id⟩
  | getCountLock => cases h; exact ⟨trivial, id⟩
  | _ => cases h

theorem inside_notify {p : Pc} (h : Inside p) : Inside p.notify := by
  cases p with
  | waitAsleep _ => cases h
  | _ => exact h

variable [DecidableEq Tid] {s s' : CountDownLatch Tid}

/-! ## §2. Steps of an open latch. -/

/-- A thread that stays on its side of the critical section. -/
theorem open_move {t : Tid} {p : Pc} (h : s.Open) (hpc : s'.pc = Function.update s.pc t p)
    (hm : s'.m_mutex = s.m_mutex) (hp : Inside (s.pc t) → Inside p) : s'.Open := by
  intro u hu
  rw [hm] at hu
  have hin := h u hu
  rw [hpc]
  by_cases hut : u = t
  · rw [hut] at hin ⊢
    rw [Function.update_self]
    exact hp hin
  · rw [Function.update_of_ne hut]
    exact hin

omit [DecidableEq Tid] in
theorem open_free (hm : s.m_mutex = none) : s.Open := by
  intro u hu
  rw [hm] at hu
  cases hu

/-- **Every step that leaves no loop of `wait`** keeps the latch open. -/
theorem open_step {a : Label Tid} (h : s.Open) (hstay : s.StaysInLoop a) (hs : Moves s a s') :
    s'.Open ∧ s'.passed = s.passed := by
  cases hs with
  | enter t op hpc => exact ⟨open_move h rfl rfl (by rw [hpc]; exact False.elim), rfl⟩
  | acquire t p hpc hfree =>
      refine ⟨?_, rfl⟩
      intro u hu
      obtain rfl : t = u := Option.some.inj hu
      show Inside (Function.update s.pc t p t)
      rw [Function.update_self]
      exact (inside_of_afterLock hpc).1
  | sleep t hpc hcount => exact ⟨open_free rfl, rfl⟩
  | pass t hpc hcount =>
      have : 0 < s.m_count := hstay hpc
      omega
  | wake t b hpc => exact ⟨open_move h rfl rfl (by rw [hpc]; exact False.elim), rfl⟩
  | decrement t hpc => exact ⟨open_move h rfl rfl (fun _ => trivial), rfl⟩
  | zero t hpc hcount => exact ⟨open_move h rfl rfl (fun _ => trivial), rfl⟩
  | nonzero t hpc hcount => exact ⟨open_move h rfl rfl (fun _ => trivial), rfl⟩
  | broadcast t hpc =>
      have hnotify : s.notifyAll.Open := fun u hu => inside_notify (h u hu)
      exact ⟨open_move hnotify rfl rfl (fun _ => trivial), rfl⟩
  | read t hpc => exact ⟨open_move h rfl rfl (fun _ => trivial), rfl⟩
  | release t hpc => exact ⟨open_free rfl, rfl⟩

/-- **The thread that gets past the loop** shuts the latch. -/
theorem shut_of_pass {t : Tid} (h : Exclusive Inside s.pc s.m_mutex) (hpc : s.pc t = .waitTest) :
    Shut { s.goto t .idle with passed := s.passed + 1 } where
  owned := by
    show s.m_mutex ≠ none
    rw [h t (by rw [hpc]; trivial)]
    simp
  outside u hu := by
    change Inside (Function.update s.pc t .idle u) at hu
    by_cases hut : u = t
    · rw [hut, Function.update_self] at hu
      exact hu
    · rw [Function.update_of_ne hut] at hu
      exact hut (h.unique hu (by rw [hpc]; trivial))

/-- The one step that leaves the loop. -/
theorem pass_of_leaves {a : Label Tid} (hleaves : ¬ s.StaysInLoop a) (hs : step s a = some s') :
    ∃ t, s.pc t = .waitTest ∧ s' = { s.goto t .idle with passed := s.passed + 1 } := by
  cases a with
  | call t op => exact absurd trivial hleaves
  | run t =>
      obtain ⟨hpc, hcount⟩ := Classical.not_imp.mp hleaves
      refine ⟨t, hpc, ?_⟩
      change s.runThread t = some s' at hs
      unfold runThread at hs
      simp only [hpc] at hs
      rw [if_neg (by omega)] at hs
      exact (Option.some.inj hs).symm

/-! ## §3. Steps of a shut latch. -/

/-- Nothing has been counted, nothing has returned. -/
structure Frozen (s s' : CountDownLatch Tid) : Prop where
  shut : s'.Shut
  passed : s'.passed = s.passed
  m_count : s'.m_count = s.m_count
  m_mutex : s'.m_mutex = s.m_mutex
  busy : ∀ t, s.pc t ≠ .idle → s'.pc t ≠ .idle

omit [DecidableEq Tid] in
theorem Shut.frozen (h : s.Shut) : Frozen s s := ⟨h, rfl, rfl, rfl, fun _ ht => ht⟩

/-- A thread outside the section stays outside and in its call. -/
theorem frozen_goto {t : Tid} {p : Pc} (h : s.Shut) (hout : ¬ Inside p) (hp : p ≠ .idle) :
    Frozen s (s.goto t p) where
  shut :=
    { owned := h.owned
      outside := by
        intro u hu
        change Inside (Function.update s.pc t p u) at hu
        by_cases hut : u = t
        · rw [hut, Function.update_self] at hu
          exact hout hu
        · rw [Function.update_of_ne hut] at hu
          exact h.outside u hu }
  passed := rfl
  m_count := rfl
  m_mutex := rfl
  busy u hu := by
    show Function.update s.pc t p u ≠ .idle
    by_cases hut : u = t
    · rw [hut, Function.update_self]
      exact hp
    · rw [Function.update_of_ne hut]
      exact hu

/-- **Only calls and wake-ups are left.** -/
theorem frozen_step {a : Label Tid} (h : s.Shut) (hs : step s a = some s') : Frozen s s' := by
  -- whoever is inside contradicts the shut latch
  have hno : ∀ {t p}, s.pc t = p → Inside p → False := by
    intro t p hpc hin
    rw [← hpc] at hin
    exact h.outside t hin
  cases moves_of_step hs with
  | enter t op hpc =>
      cases op with
      | _ => exact frozen_goto h id (by simp [Operation.entry])
  | acquire t p hpc hfree => exact absurd hfree h.owned
  | sleep t hpc hcount => exact (hno hpc trivial).elim
  | pass t hpc hcount => exact (hno hpc trivial).elim
  | wake t b hpc => exact frozen_goto h id (by simp)
  | decrement t hpc => exact (hno hpc trivial).elim
  | zero t hpc hcount => exact (hno hpc trivial).elim
  | nonzero t hpc hcount => exact (hno hpc trivial).elim
  | broadcast t hpc => exact (hno hpc trivial).elim
  | read t hpc => exact (hno hpc trivial).elim
  | release t hpc => exact (hno rfl (inside_atUnlock hpc)).elim

omit [DecidableEq Tid] in
theorem Frozen.trans {s'' : CountDownLatch Tid} (h : Frozen s s') (h' : Frozen s' s'') :
    Frozen s s'' where
  shut := h'.shut
  passed := h'.passed.trans h.passed
  m_count := h'.m_count.trans h.m_count
  m_mutex := h'.m_mutex.trans h.m_mutex
  busy t ht := h'.busy t (h.busy t ht)

theorem frozen_run (h : s.Shut) (bs : List (Label Tid)) (hrun : exec step s bs = some s') :
    Frozen s s' :=
  exec_invariant step (Frozen s) (fun _ _ _ hmid hs => hmid.trans (frozen_step hmid.shut hs)) bs s s'
    h.frozen hrun

/-! ## §4. Runs. -/

theorem atMostOne_step {a : Label Tid} (h : AtMostOne s) (hs : step s a = some s') :
    AtMostOne s' := by
  have hmoves := moves_of_step hs
  refine ⟨exclusive_step h.exclusive hmoves, ?_⟩
  rcases h.openOrShut with ⟨hzero, hopen⟩ | ⟨hone, hshut⟩
  · by_cases hstay : s.StaysInLoop a
    · obtain ⟨hopen', hpassed⟩ := open_step hopen hstay hmoves
      exact .inl ⟨hpassed.trans hzero, hopen'⟩
    · obtain ⟨t, hpc, rfl⟩ := pass_of_leaves hstay hs
      refine .inr ⟨?_, shut_of_pass h.exclusive hpc⟩
      show s.passed + 1 = 1
      omega
  · have hfrozen := frozen_step hshut hs
    exact .inr ⟨hfrozen.passed.trans hone, hfrozen.shut⟩

theorem atMostOne_run {count : Int} {as : List (Label Tid)}
    (hrun : exec step (new count) as = some s) : AtMostOne s :=
  exec_invariant step AtMostOne (fun _ _ _ h hs => atMostOne_step h hs) as _ s (atMostOne_new count)
    hrun

/-- **ONE `wait` RETURNS AT MOST.**  Once it has, the count stays as it is, the mutex stays
locked, and however the run goes on no call returns: neither those in progress nor, since
this holds in every later state as well, those made later. -/
theorem one_return (count : Int) (as : List (Label Tid)) (s : CountDownLatch Tid)
    (hrun : exec step (new count) as = some s) :
    s.passed ≤ 1 ∧ (s.passed = 1 → ∀ bs s', exec step s bs = some s' →
      s'.passed = 1 ∧ s'.m_count = s.m_count ∧ s'.m_mutex = s.m_mutex ∧ s'.m_mutex ≠ none ∧
        ∀ t, s.pc t ≠ .idle → s'.pc t ≠ .idle) := by
  rcases (atMostOne_run hrun).openOrShut with ⟨hzero, -⟩ | ⟨hone, hshut⟩
  · exact ⟨by omega, fun hone => by omega⟩
  · refine ⟨by omega, fun _ bs s' hbs => ?_⟩
    have hfrozen := frozen_run hshut bs hbs
    exact ⟨hfrozen.passed.trans hone, hfrozen.m_count, hfrozen.m_mutex, hfrozen.shut.owned,
      hfrozen.busy⟩

/-! ## §5. Who can go on. -/

/-- The thread is in a call and not asleep. -/
def Awake (s : CountDownLatch Tid) (t : Tid) : Prop := s.pc t ≠ .idle ∧ ∀ b, s.pc t ≠ .waitAsleep b

omit [DecidableEq Tid] in
/-- A thread that is awake is inside, or on its way in. -/
theorem Awake.inside_or {t : Tid} (h : s.Awake t) :
    Inside (s.pc t) ∨ ∃ p, afterLock (s.pc t) = some p := by
  obtain ⟨hidle, hasleep⟩ := h
  cases hpc : s.pc t with
  | idle => exact absurd hpc hidle
  | waitAsleep b => exact absurd hpc (hasleep b)
  | waitLock => exact .inr ⟨_, rfl⟩
  | waitRelock => exact .inr ⟨_, rfl⟩
  | countDownLock => exact .inr ⟨_, rfl⟩
  | getCountLock => exact .inr ⟨_, rfl⟩
  | _ => exact .inl trivial

omit [DecidableEq Tid] in
theorem awake_of_inside {t : Tid} (h : Inside (s.pc t)) : s.Awake t := by
  constructor
  · intro hpc
    rw [hpc] at h
    exact h
  · intro b hpc
    rw [hpc] at h
    exact h

/-- A thread on its way in waits for the mutex. -/
theorem runThread_eq_lock {t : Tid} {p : Pc} (h : afterLock (s.pc t) = some p) :
    s.runThread t = s.lock t p := by
  unfold runThread
  cases hpc : s.pc t with
  | waitLock => rw [hpc] at h; cases h; rfl
  | waitRelock => rw [hpc] at h; cases h; rfl
  | countDownLock => rw [hpc] at h; cases h; rfl
  | getCountLock => rw [hpc] at h; cases h; rfl
  | _ => rw [hpc] at h; cases h

/-- A thread inside waits for nobody. -/
theorem runThread_of_inside {t : Tid} (h : Inside (s.pc t)) (hmin : intMin < s.m_count) :
    (s.runThread t).isSome := by
  unfold runThread
  cases hpc : s.pc t with
  | waitTest =>
      by_cases hcount : s.m_count > 0
      · simp [hcount]
      · simp [hcount]
  | countDownDec =>
      have : ¬ s.m_count ≤ intMin := by omega
      simp [this]
  | countDownTest => rfl
  | countDownNotify => rfl
  | countDownUnlock => rfl
  | getCountRead => rfl
  | getCountUnlock v => rfl
  | _ => rw [hpc] at h; exact h.elim

/-- **SOMEBODY GOES ON EXACTLY UNTIL A `wait` RETURNS.**  In a state that a run reaches,
with a thread awake in a call and a count that can be decremented: some thread that is
awake in a call can take its next step if and only if no `wait` has returned. -/
theorem goes_on_iff (count : Int) (as : List (Label Tid)) (s : CountDownLatch Tid)
    (hrun : exec step (new count) as = some s) (hmin : intMin < s.m_count) (t : Tid)
    (ht : s.Awake t) : (∃ u, s.Awake u ∧ (step s (.run u)).isSome) ↔ s.passed = 0 := by
  have h := atMostOne_run hrun
  constructor
  · intro hgo
    obtain ⟨u, hu, hsome⟩ := hgo
    rcases h.openOrShut with ⟨hzero, -⟩ | ⟨-, hshut⟩
    · exact hzero
    · -- everybody awake waits for the mutex, which stays locked
      obtain ⟨p, hp⟩ := hu.inside_or.resolve_left (hshut.outside u)
      change (s.runThread u).isSome at hsome
      rw [runThread_eq_lock hp] at hsome
      unfold lock at hsome
      cases hm : s.m_mutex with
      | none => exact absurd hm hshut.owned
      | some v =>
          rw [hm] at hsome
          cases hsome
  · intro hzero
    have hopen : s.Open := by
      rcases h.openOrShut with ⟨-, hopen⟩ | ⟨hone, -⟩
      · exact hopen
      · omega
    cases hm : s.m_mutex with
    | some u =>
        have hin := hopen u hm
        exact ⟨u, awake_of_inside hin, runThread_of_inside hin hmin⟩
    | none =>
        refine ⟨t, ht, ?_⟩
        rcases ht.inside_or with hin | ⟨p, hp⟩
        · exact runThread_of_inside hin hmin
        · show (s.runThread t).isSome
          rw [runThread_eq_lock hp]
          unfold lock
          rw [hm]
          rfl

end CountDownLatch

/-- `false` has returned from `wait` on the open latch, `true` wants to count down. -/
def waitAndCountDown : List (Label Bool) :=
  [.call false .wait, .run false, .call true .countDown, .run false]

def afterWait : CountDownLatch Bool :=
  (Library.exec CountDownLatch.step (CountDownLatch.new 0) waitAndCountDown).get (by decide)

theorem one_return_waitAndCountDown :
    ∃ s, s.passed = 1 ∧ s.pc true = .countDownLock ∧
      ∀ bs s', Library.exec CountDownLatch.step s bs = some s' → s'.pc true ≠ .idle :=
  ⟨afterWait, by decide, by decide, fun bs s' hbs =>
    (((CountDownLatch.one_return 0 waitAndCountDown afterWait (Option.some_get _).symm).2 (by decide)
      bs s' hbs).2.2.2.2 true (by decide))⟩

theorem goes_on_iff_waitAndCountDown :
    (∃ u, afterWait.Awake u ∧ (CountDownLatch.step afterWait (.run u)).isSome) ↔
      afterWait.passed = 0 :=
  CountDownLatch.goes_on_iff 0 waitAndCountDown afterWait (Option.some_get _).symm (by decide) true
    ⟨by decide, by intro b h; revert h; cases b <;> decide⟩

end SylarCot.Sync
