/-
  SylarCot.Config.SetValue
  ────────────────────────
  `ConfigVar::setValue` under any number of threads.

  A call takes the reader lock, compares, calls the callbacks in key order with
  the value of the moment and its own, drops the reader lock, takes the writer
  lock and assigns.  A callback may throw, as the label says; the exception
  leaves `setValue` through the guard of the reader lock.  `history` records the
  callback invocations and the assignments.

    • `moves_of_step`, `step_of_moves` — the steps are exactly the moves, one
      constructor each;
    • `solo_setValue` — a call that nobody interrupts and no callback aborts
      stores what the sequential `ConfigVar.setValue` stores.
-/
import SylarCot.Config.ConfigVar

namespace SylarCot.Config

/-! ## §1. States and labels. -/

/-- The keys of `m_cbs`, a `std::map<uint64_t, OnChangeCb>`. -/
structure CallbackMap where
  keys : List UInt64
  nodup : keys.Nodup

/-- Where a thread is in `setValue(val)`. -/
inductive SetPc (T : Type*) where
  | idle
  /-- `LockGuard<MutexType, ReadLockTag>(m_mutex)` -/
  | readLock (val : T)
  /-- `if (val == m_val)` -/
  | compare (val : T)
  /-- `for (auto& i : m_cbs)`, with the keys still to come -/
  | callbacks (val : T) (rest : List UInt64)
  /-- the end of the guard's scope, on the way out of the function -/
  | readUnlockLeave
  /-- `LockGuard<MutexType, WriteLockTag>(m_mutex)` -/
  | writeLock (val : T)
  /-- `m_val = val` -/
  | assign (val : T)
  | writeUnlock
  deriving Repr, DecidableEq

/-- What a listener and the stored value see. -/
inductive Event (T : Type*) where
  | invoked (key : UInt64) (old_val new_value : T)
  | assigned (old_val new_value : T)
  deriving Repr, DecidableEq

/-- One `ConfigVar` and the threads that call `setValue` on it. -/
structure SharedVar (Tid T : Type*) where
  m_val : T
  m_cbs : CallbackMap
  /-- The holders of `m_mutex`. -/
  readers : List Tid := []
  writer : Option Tid := none
  pc : Tid → SetPc T := fun _ => .idle
  history : List (Event T) := []

/-- A thread calls `setValue`, takes its next step, or its next callback throws. -/
inductive SetLabel (Tid T : Type*) where
  | call (t : Tid) (val : T)
  | run (t : Tid)
  | throws (t : Tid)
  deriving Repr, DecidableEq

namespace SharedVar

variable {Tid T : Type*}

/-- A variable with its callbacks registered and no call in progress. -/
def new (init : T) (cbs : CallbackMap) : SharedVar Tid T := { m_val := init, m_cbs := cbs }

variable [DecidableEq Tid]

/-! ## §2. Steps. -/

/-- Thread `t` moves on to `p`. -/
def goto (s : SharedVar Tid T) (t : Tid) (p : SetPc T) : SharedVar Tid T :=
  { s with pc := Function.update s.pc t p }

/-- One more event. -/
def record (s : SharedVar Tid T) (e : Event T) : SharedVar Tid T :=
  { s with history := s.history ++ [e] }

/-- `RWMutex::rdlock`: blocks while there is a writer. -/
def rdlock (s : SharedVar Tid T) (t : Tid) (p : SetPc T) : Option (SharedVar Tid T) :=
  if s.writer.isNone then some { s.goto t p with readers := t :: s.readers } else none

/-- `RWMutex::wrlock`: blocks while anybody holds the lock. -/
def wrlock (s : SharedVar Tid T) (t : Tid) (p : SetPc T) : Option (SharedVar Tid T) :=
  if s.writer.isNone ∧ s.readers = [] then some { s.goto t p with writer := some t } else none

/-- `RWMutex::unlock` by a reader. -/
def unlockRead (s : SharedVar Tid T) (t : Tid) (p : SetPc T) : SharedVar Tid T :=
  { s.goto t p with readers := s.readers.erase t }

/-- `RWMutex::unlock` by the writer. -/
def unlockWrite (s : SharedVar Tid T) (t : Tid) (p : SetPc T) : SharedVar Tid T :=
  { s.goto t p with writer := none }

/-- One step of the thread `t`. -/
def runThread [DecidableEq T] (s : SharedVar Tid T) (t : Tid) : Option (SharedVar Tid T) :=
  match s.pc t with
  | .idle => none
  | .readLock val => s.rdlock t (.compare val)
  | .compare val =>
      if val = s.m_val then some (s.goto t .readUnlockLeave)
      else some (s.goto t (.callbacks val s.m_cbs.keys))
  -- i.second(m_val, val)
  | .callbacks val (key :: rest) =>
      some ((s.record (.invoked key s.m_val val)).goto t (.callbacks val rest))
  -- end of the inner block: from here to the writer lock nobody is kept out
  | .callbacks val [] => some (s.unlockRead t (.writeLock val))
  | .readUnlockLeave => some (s.unlockRead t .idle)
  | .writeLock val => s.wrlock t (.assign val)
  | .assign val =>
      some { (s.record (.assigned s.m_val val)).goto t .writeUnlock with m_val := val }
  | .writeUnlock => some (s.unlockWrite t .idle)

/-- The next callback of the thread `t` throws. -/
def throwCallback (s : SharedVar Tid T) (t : Tid) : Option (SharedVar Tid T) :=
  match s.pc t with
  | .callbacks val (key :: _) =>
      some ((s.record (.invoked key s.m_val val)).goto t .readUnlockLeave)
  | _ => none

/-- One step of the system. -/
def step [DecidableEq T] (s : SharedVar Tid T) : SetLabel Tid T → Option (SharedVar Tid T)
  | .call t val =>
      match s.pc t with
      | .idle => some (s.goto t (.readLock val))
      | _ => none
  | .run t => s.runThread t
  | .throws t => s.throwCallback t

/-! ## §3. Everything a step can do. -/

/-- **The moves of the system.** -/
inductive Moves (s : SharedVar Tid T) : SetLabel Tid T → SharedVar Tid T → Prop where
  | enter (t : Tid) (val : T) (hpc : s.pc t = .idle) :
      Moves s (.call t val) (s.goto t (.readLock val))
  | readLock (t : Tid) (val : T) (hpc : s.pc t = .readLock val) (hfree : s.writer = none) :
      Moves s (.run t) { s.goto t (.compare val) with readers := t :: s.readers }
  | same (t : Tid) (val : T) (hpc : s.pc t = .compare val) (hval : val = s.m_val) :
      Moves s (.run t) (s.goto t .readUnlockLeave)
  | differs (t : Tid) (val : T) (hpc : s.pc t = .compare val) (hval : val ≠ s.m_val) :
      Moves s (.run t) (s.goto t (.callbacks val s.m_cbs.keys))
  | callback (t : Tid) (val : T) (key : UInt64) (rest : List UInt64)
      (hpc : s.pc t = .callbacks val (key :: rest)) :
      Moves s (.run t) ((s.record (.invoked key s.m_val val)).goto t (.callbacks val rest))
  | callbackThrows (t : Tid) (val : T) (key : UInt64) (rest : List UInt64)
      (hpc : s.pc t = .callbacks val (key :: rest)) :
      Moves s (.throws t) ((s.record (.invoked key s.m_val val)).goto t .readUnlockLeave)
  | readUnlock (t : Tid) (val : T) (hpc : s.pc t = .callbacks val []) :
      Moves s (.run t) (s.unlockRead t (.writeLock val))
  | leave (t : Tid) (hpc : s.pc t = .readUnlockLeave) :
      Moves s (.run t) (s.unlockRead t .idle)
  | writeLock (t : Tid) (val : T) (hpc : s.pc t = .writeLock val) (hfree : s.writer = none)
      (hreaders : s.readers = []) :
      Moves s (.run t) { s.goto t (.assign val) with writer := some t }
  | assign (t : Tid) (val : T) (hpc : s.pc t = .assign val) :
      Moves s (.run t)
        { (s.record (.assigned s.m_val val)).goto t .writeUnlock with m_val := val }
  | writeUnlock (t : Tid) (hpc : s.pc t = .writeUnlock) :
      Moves s (.run t) (s.unlockWrite t .idle)

/-- **Every step is one of the moves.** -/
theorem moves_of_step [DecidableEq T] {s s' : SharedVar Tid T} {a : SetLabel Tid T}
    (h : step s a = some s') : Moves s a s' := by
  cases a with
  | call t val =>
      cases hpc : s.pc t with
      | idle =>
          simp only [step, hpc] at h
          cases h
          exact .enter t val hpc
      | _ =>
          simp only [step, hpc] at h
          cases h
  | throws t =>
      change s.throwCallback t = some s' at h
      cases hpc : s.pc t with
      | callbacks val keys =>
          cases keys with
          | nil =>
              simp only [throwCallback, hpc] at h
              cases h
          | cons key rest =>
              simp only [throwCallback, hpc] at h
              cases h
              exact .callbackThrows t val key rest hpc
      | _ =>
          simp only [throwCallback, hpc] at h
          cases h
  | run t =>
      change s.runThread t = some s' at h
      cases hpc : s.pc t with
      | idle =>
          simp only [runThread, hpc] at h
          cases h
      | readLock val =>
          simp only [runThread, hpc, rdlock] at h
          by_cases hfree : s.writer.isNone
          · rw [if_pos hfree] at h
            cases h
            exact .readLock t val hpc (Option.isNone_iff_eq_none.mp hfree)
          · rw [if_neg hfree] at h
            cases h
      | compare val =>
          simp only [runThread, hpc] at h
          by_cases hval : val = s.m_val
          · rw [if_pos hval] at h
            cases h
            exact .same t val hpc hval
          · rw [if_neg hval] at h
            cases h
            exact .differs t val hpc hval
      | callbacks val keys =>
          cases keys with
          | nil =>
              simp only [runThread, hpc] at h
              cases h
              exact .readUnlock t val hpc
          | cons key rest =>
              simp only [runThread, hpc] at h
              cases h
              exact .callback t val key rest hpc
      | readUnlockLeave =>
          simp only [runThread, hpc] at h
          cases h
          exact .leave t hpc
      | writeLock val =>
          simp only [runThread, hpc, wrlock] at h
          by_cases hfree : s.writer.isNone ∧ s.readers = []
          · rw [if_pos hfree] at h
            cases h
            exact .writeLock t val hpc (Option.isNone_iff_eq_none.mp hfree.1) hfree.2
          · rw [if_neg hfree] at h
            cases h
      | assign val =>
          simp only [runThread, hpc] at h
          cases h
          exact .assign t val hpc
      | writeUnlock =>
          simp only [runThread, hpc] at h
          cases h
          exact .writeUnlock t hpc

/-- Every move is a step. -/
theorem step_of_moves [DecidableEq T] {s s' : SharedVar Tid T} {a : SetLabel Tid T}
    (h : Moves s a s') : step s a = some s' := by
  cases h with
  | readLock t val hpc hfree =>
      simp only [step, runThread, hpc, rdlock, hfree]
      rfl
  | same t val hpc hval =>
      simp only [step, runThread, hpc]
      rw [if_pos hval]
  | differs t val hpc hval =>
      simp only [step, runThread, hpc]
      rw [if_neg hval]
  | writeLock t val hpc hfree hreaders =>
      simp only [step, runThread, hpc, wrlock, hfree]
      rw [if_pos ⟨rfl, hreaders⟩]
  | callbackThrows t val key rest hpc => simp only [step, throwCallback, hpc]
  | enter t val hpc => simp only [step, hpc]
  | _ => simp only [step, runThread, *]

/-! ## §4. A call that runs alone. -/

section Solo

open Library (Solo)

variable [DecidableEq T] {t : Tid}

theorem solo_move {s s' v : SharedVar Tid T} (h : Moves s (.run t) s')
    (hrest : Solo step (.run t) s' v) : Solo step (.run t) s v :=
  Solo.move step (step_of_moves h) hrest

/-- The callback loop, from any key on, changes only the place and the history. -/
theorem solo_callbacks (t : Tid) (val : T) (rest : List UInt64) :
    ∀ s : SharedVar Tid T, s.pc t = .callbacks val rest →
      ∃ history, Solo step (.run t) s { s.goto t (.callbacks val []) with history := history } := by
  induction rest with
  | nil =>
      intro s hpc
      refine ⟨s.history, ?_⟩
      unfold goto
      rw [← hpc, Function.update_eq_self]
      exact Solo.refl step _ s
  | cons key rest ih =>
      intro s hpc
      obtain ⟨history, hrest⟩ := ih
        ((s.record (.invoked key s.m_val val)).goto t (.callbacks val rest))
        (Function.update_self t _ s.pc)
      refine ⟨history, solo_move (.callback t val key rest hpc) ?_⟩
      unfold goto at hrest ⊢
      rw [Function.update_idem] at hrest
      exact hrest

/-- From the end of the callback loop on: the gap between the locks, and the
assignment. -/
theorem solo_assign {s : SharedVar Tid T} {val : T} (hpc : s.pc t = .callbacks val [])
    (hwriter : s.writer = none) (hreaders : s.readers = [t]) :
    ∃ s', Solo step (.run t) s s' ∧ s'.pc t = .idle ∧ s'.m_val = val := by
  have hfree : s.readers.erase t = [] := by
    rw [hreaders, List.erase_cons_head]
  have hwait : (s.unlockRead t (.writeLock val)).pc t = .writeLock val := Function.update_self ..
  refine ⟨_, solo_move (.readUnlock t val hpc) (solo_move (.writeLock t val hwait hwriter hfree)
    (solo_move (.assign t val (Function.update_self ..))
      (solo_move (.writeUnlock t (Function.update_self ..)) (Solo.refl step _ _)))),
    Function.update_self .., rfl⟩

/-- From the comparison on. -/
theorem solo_compare {s : SharedVar Tid T} {val : T} (hpc : s.pc t = .compare val)
    (hwriter : s.writer = none) (hreaders : s.readers = [t]) :
    ∃ s', Solo step (.run t) s s' ∧ s'.pc t = .idle ∧ s'.m_val = val := by
  by_cases hval : val = s.m_val
  · exact ⟨_, solo_move (.same t val hpc hval)
      (solo_move (.leave t (Function.update_self ..)) (Solo.refl step _ _)),
      Function.update_self .., hval.symm⟩
  · obtain ⟨history, hcallbacks⟩ := solo_callbacks t val s.m_cbs.keys
      (s.goto t (.callbacks val s.m_cbs.keys)) (Function.update_self ..)
    obtain ⟨s', hassign, hidle, hstored⟩ := solo_assign
      (s := { (s.goto t (.callbacks val s.m_cbs.keys)).goto t (.callbacks val []) with
        history := history }) (Function.update_self ..) hwriter hreaders
    exact ⟨s', solo_move (.differs t val hpc hval) (Solo.trans step hcallbacks hassign), hidle, hstored⟩

/-- **A call that runs alone** returns, and stores what the sequential `setValue`
stores. -/
theorem solo_setValue (s : SharedVar Tid T) (t : Tid) (val : T) (hpc : s.pc t = .idle)
    (hwriter : s.writer = none) (hreaders : s.readers = []) :
    ∃ n s', Library.exec step s (.call t val :: List.replicate n (.run t)) = some s' ∧
      s'.pc t = .idle ∧ s'.m_val = (ConfigVar.setValue ⟨s.m_val⟩ val).m_val := by
  obtain ⟨s', hsolo, hidle, hstored⟩ := solo_compare
    (s := { (s.goto t (.readLock val)).goto t (.compare val) with readers := t :: s.readers })
    (Function.update_self ..) hwriter (congrArg (t :: ·) hreaders)
  have hlock := Moves.readLock (s := s.goto t (.readLock val)) t val
    (Function.update_self ..) hwriter
  obtain ⟨n, hrun⟩ := solo_move hlock hsolo
  refine ⟨n, s', ?_, hidle, ?_⟩
  · exact (Library.exec_cons_eq_some step).mpr ⟨_, step_of_moves (.enter t val hpc), hrun⟩
  · rw [hstored, ConfigVar.setValue_m_val]

end Solo

end SharedVar

end SylarCot.Config
