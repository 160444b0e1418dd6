/-
  SylarCot.Config.Reentrant
  ─────────────────────────
  **CALLBACKS THAT CALL `setValue` THEMSELVES.**

  A callback runs under the reader lock of the `setValue` that calls it.  Here a thread
  has a stack of calls, the innermost first; a callback may make further calls before it
  returns or throws.

    • `flat_step` — without such calls the system is `SharedVar`;
    • `inv_step` — the readers of the lock are the frames that hold it, so a nested call
      is never granted the writer lock;
    • `nested_never_assigns` — hence all assignments are made by outermost calls, and a
      nested call that has told its callbacks of a change never returns, and with it no
      value is ever assigned again.
-/
import SylarCot.Config.Members

namespace SylarCot.Config

open Library

variable {Tid T : Type*}

/-! ## §1. Steps. -/

/-- A `ConfigVar` whose callbacks may call `setValue`. -/
structure NestedVar (Tid T : Type*) where
  m_val : T
  m_cbs : CallbackMap
  /-- The holders of `m_mutex`, a reader once for each time it has locked it. -/
  readers : List Tid := []
  writer : Option Tid := none
  /-- The calls of a thread, the innermost first. -/
  stack : Tid → List (SetPc T) := fun _ => []

namespace NestedVar

/-- A variable with its callbacks registered and no call in progress. -/
def new (init : T) (cbs : CallbackMap) : NestedVar Tid T := { m_val := init, m_cbs := cbs }

variable [DecidableEq Tid]

/-- The calls of thread `t` become `frames`. -/
def goto (s : NestedVar Tid T) (t : Tid) (frames : List (SetPc T)) : NestedVar Tid T :=
  { s with stack := Function.update s.stack t frames }

/-- A thread calls `setValue`: outside every call, or inside a callback. -/
def enter (s : NestedVar Tid T) (t : Tid) (val : T) : Option (NestedVar Tid T) :=
  match s.stack t with
  | [] => some (s.goto t [.readLock val])
  | .callbacks v (key :: keys) :: rest =>
      some (s.goto t (.readLock val :: .callbacks v (key :: keys) :: rest))
  | _ => none

/-- One step of the innermost call of `t`. -/
def runThread [DecidableEq T] (s : NestedVar Tid T) (t : Tid) : Option (NestedVar Tid T) :=
  match s.stack t with
  | [] => none
  | .idle :: _ => none
  | .readLock val :: rest =>
      -- a reader may lock again
      if s.writer.isNone then some { s.goto t (.compare val :: rest) with readers := t :: s.readers }
      else none
  | .compare val :: rest =>
      if val = s.m_val then some (s.goto t (.readUnlockLeave :: rest))
      else some (s.goto t (.callbacks val s.m_cbs.keys :: rest))
  -- the callback returns
  | .callbacks val (_ :: keys) :: rest => some (s.goto t (.callbacks val keys :: rest))
  | .callbacks val [] :: rest =>
      some { s.goto t (.writeLock val :: rest) with readers := s.readers.erase t }
  | .readUnlockLeave :: rest => some { s.goto t rest with readers := s.readers.erase t }
  | .writeLock val :: rest =>
      if s.writer.isNone ∧ s.readers = [] then
        some { s.goto t (.assign val :: rest) with writer := some t }
      else none
  | .assign val :: rest => some { s.goto t (.writeUnlock :: rest) with m_val := val }
  | .writeUnlock :: rest => some { s.goto t rest with writer := none }

/-- The callback of the innermost call of `t` throws. -/
def throwCallback (s : NestedVar Tid T) (t : Tid) : Option (NestedVar Tid T) :=
  match s.stack t with
  | .callbacks _ (_ :: _) :: rest => some (s.goto t (.readUnlockLeave :: rest))
  | _ => none

/-- One step of the system. -/
def step [DecidableEq T] (s : NestedVar Tid T) : SetLabel Tid T → Option (NestedVar Tid T)
  | .call t val => s.enter t val
  | .run t => s.runThread t
  | .throws t => s.throwCallback t

/-! ## §2. Everything a step can do. -/

/-- **The moves of the system.** -/
inductive Moves (s : NestedVar Tid T) : SetLabel Tid T → NestedVar Tid T → Prop where
  | enter (t : Tid) (val : T) (hpc : s.stack t = []) :
      Moves s (.call t val) (s.goto t [.readLock val])
  | nest (t : Tid) (val v : T) (key : UInt64) (keys : List UInt64) (rest : List (SetPc T))
      (hpc : s.stack t = .callbacks v (key :: keys) :: rest) :
      Moves s (.call t val) (s.goto t (.readLock val :: .callbacks v (key :: keys) :: rest))
  | readLock (t : Tid) (val : T) (rest : List (SetPc T)) (hpc : s.stack t = .readLock val :: rest)
      (hfree : s.writer = none) :
      Moves s (.run t) { s.goto t (.compare val :: rest) with readers := t :: s.readers }
  | same (t : Tid) (val : T) (rest : List (SetPc T)) (hpc : s.stack t = .compare val :: rest)
      (hval : val = s.m_val) : Moves s (.run t) (s.goto t (.readUnlockLeave :: rest))
  | differs (t : Tid) (val : T) (rest : List (SetPc T)) (hpc : s.stack t = .compare val :: rest)
      (hval : val ≠ s.m_val) : Moves s (.run t) (s.goto t (.callbacks val s.m_cbs.keys :: rest))
  | callback (t : Tid) (val : T) (key : UInt64) (keys : List UInt64) (rest : List (SetPc T))
      (hpc : s.stack t = .callbacks val (key :: keys) :: rest) :
      Moves s (.run t) (s.goto t (.callbacks val keys :: rest))
  | callbackThrows (t : Tid) (val : T) (key : UInt64) (keys : List UInt64) (rest : List (SetPc T))
      (hpc : s.stack t = .callbacks val (key :: keys) :: rest) :
      Moves s (.throws t) (s.goto t (.readUnlockLeave :: rest))
  | readUnlock (t : Tid) (val : T) (rest : List (SetPc T))
      (hpc : s.stack t = .callbacks val [] :: rest) :
      Moves s (.run t) { s.goto t (.writeLock val :: rest) with readers := s.readers.erase t }
  | leave (t : Tid) (rest : List (SetPc T)) (hpc : s.stack t = .readUnlockLeave :: rest) :
      Moves s (.run t) { s.goto t rest with readers := s.readers.erase t }
  | writeLock (t : Tid) (val : T) (rest : List (SetPc T))
      (hpc : s.stack t = .writeLock val :: rest) (hfree : s.writer = none)
      (hreaders : s.readers = []) :
      Moves s (.run t) { s.goto t (.assign val :: rest) with writer := some t }
  | assign (t : Tid) (val : T) (rest : List (SetPc T)) (hpc : s.stack t = .assign val :: rest) :
      Moves s (.run t) { s.goto t (.writeUnlock :: rest) with m_val := val }
  | writeUnlock (t : Tid) (rest : List (SetPc T)) (hpc : s.stack t = .writeUnlock :: rest) :
      Moves s (.run t) { s.goto t rest with writer := none }

theorem moves_of_enter {s s' : NestedVar Tid T} {t : Tid} {val : T} (h : s.enter t val = some s') :
    Moves s (.call t val) s' := by
  unfold enter at h
  split at h
  · next hpc =>
      cases h
      exact .enter t val hpc
  · next v key keys rest hpc =>
      cases h
      exact .nest t val v key keys rest hpc
  · cases h

theorem moves_of_throwCallback {s s' : NestedVar Tid T} {t : Tid}
    (h : s.throwCallback t = some s') : Moves s (.throws t) s' := by
  unfold throwCallback at h
  split at h
  · next v key keys rest hpc =>
      cases h
      exact .callbackThrows t v key keys rest hpc
  · cases h

theorem moves_of_runThread [DecidableEq T] {s s' : NestedVar Tid T} {t : Tid}
    (h : s.runThread t = some s') : Moves s (.run t) s' := by
  unfold runThread at h
  split at h
  · cases h
  · cases h
  · next val rest hpc =>
      obtain ⟨hfree, hs⟩ := Option.ite_none_right_eq_some.mp h
      cases hs
      exact .readLock t val rest hpc (Option.isNone_iff_eq_none.mp hfree)
  · next val rest hpc =>
      by_cases hval : val = s.m_val
      · rw [if_pos hval] at h
        cases h
        exact .same t val rest hpc hval
      · rw [if_neg hval] at h
        cases h
        exact .differs t val rest hpc hval
  · next val key keys rest hpc =>
      cases h
      exact .callback t val key keys rest hpc
  · next val rest hpc =>
      cases h
      exact .readUnlock t val rest hpc
  · next rest hpc =>
      cases h
      exact .leave t rest hpc
  · next val rest hpc =>
      obtain ⟨hfree, hs⟩ := Option.ite_none_right_eq_some.mp h
      cases hs
      exact .writeLock t val rest hpc (Option.isNone_iff_eq_none.mp hfree.1) hfree.2
  · next val rest hpc =>
      cases h
      exact .assign t val rest hpc
  · next rest hpc =>
      cases h
      exact .writeUnlock t rest hpc

/-- **Every step is one of the moves.** -/
theorem moves_of_step [DecidableEq T] {s s' : NestedVar Tid T} {a : SetLabel Tid T}
    (h : step s a = some s') : Moves s a s' := by
  cases a with
  | call t val => exact moves_of_enter h
  | run t => exact moves_of_runThread h
  | throws t => exact moves_of_throwCallback h

/-! ## §3. The invariant. -/

/-- The frames that hold the reader lock. -/
def holdsRead : SetPc T → Bool
  | .compare _ => true
  | .callbacks _ _ => true
  | .readUnlockLeave => true
  | _ => false

/-- The frames that hold the writer lock. -/
def holdsWrite : SetPc T → Bool
  | .assign _ => true
  | .writeUnlock => true
  | _ => false

/-- A frame whose callback is running. -/
def InCallback : SetPc T → Prop
  | .callbacks _ (_ :: _) => True
  | _ => False

/-- All calls but the innermost are in a callback. -/
def Waiting : List (SetPc T) → Prop
  | [] => True
  | _ :: rest => ∀ f ∈ rest, InCallback f

/-- The innermost call holds the writer lock. -/
def topWrites : List (SetPc T) → Bool
  | [] => false
  | p :: _ => holdsWrite p

/-- The invariant: the lock is held by the frames, each reader once for each of its. -/
structure Inv (s : NestedVar Tid T) : Prop where
  waiting : ∀ t, Waiting (s.stack t)
  shared : ∀ t, s.readers.count t = (s.stack t).countP holdsRead
  alone : ∀ t, s.writer = some t ↔ topWrites (s.stack t) = true
  exclusive : s.writer = none ∨ s.readers = []

theorem inv_new (init : T) (cbs : CallbackMap) : Inv (new init cbs : NestedVar Tid T) where
  waiting _ := trivial
  shared _ := rfl
  alone t := iff_of_false (by intro h; cases h) Bool.false_ne_true
  exclusive := .inl rfl

omit [DecidableEq Tid] in
theorem holdsRead_of_inCallback {f : SetPc T} (h : InCallback f) : holdsRead f = true := by
  cases f with
  | callbacks val keys => rfl
  | _ => cases h

omit [DecidableEq Tid] in
theorem topWrites_of_waiting {p : SetPc T} {rest : List (SetPc T)} (h : Waiting (p :: rest)) :
    topWrites rest = false := by
  cases rest with
  | nil => rfl
  | cons f rest =>
      have hf := h f List.mem_cons_self
      cases f with
      | callbacks val keys => rfl
      | _ => cases hf

omit [DecidableEq Tid] in
/-- What is left of a stack when its innermost call returns. -/
theorem Waiting.tail {p : SetPc T} {rest : List (SetPc T)} (h : Waiting (p :: rest)) :
    Waiting rest := by
  cases rest with
  | nil => trivial
  | cons f rest => exact fun g hg => h g (List.mem_cons_of_mem f hg)

/-- The frames of one thread change, and the lock with them. -/
theorem inv_update {s s' : NestedVar Tid T} {t : Tid} {frames : List (SetPc T)} (h : Inv s)
    (hstack : s'.stack = Function.update s.stack t frames) (hwaiting : Waiting frames)
    (hshared : ∀ u, s'.readers.count u
      = if u = t then frames.countP holdsRead else s.readers.count u)
    (halone : ∀ u, s'.writer = some u ↔ if u = t then topWrites frames = true else s.writer = some u)
    (hexclusive : s'.writer = none ∨ s'.readers = []) : Inv s' := by
  refine ⟨?_, ?_, ?_, hexclusive⟩
  · intro u
    rw [hstack]
    by_cases hut : u = t
    · rw [hut, Function.update_self]
      exact hwaiting
    · rw [Function.update_of_ne hut]
      exact h.waiting u
  · intro u
    rw [hstack, hshared]
    by_cases hut : u = t
    · rw [hut, Function.update_self, if_pos rfl]
    · rw [Function.update_of_ne hut, if_neg hut]
      exact h.shared u
  · intro u
    rw [hstack, halone]
    by_cases hut : u = t
    · rw [hut, Function.update_self, if_pos rfl]
    · rw [Function.update_of_ne hut, if_neg hut]
      exact h.alone u

section Rules

variable {s : NestedVar Tid T} {t : Tid} {frames : List (SetPc T)}

theorem readers_same (h : Inv s) (hcount : frames.countP holdsRead = (s.stack t).countP holdsRead)
    (u : Tid) :
    s.readers.count u = if u = t then frames.countP holdsRead else s.readers.count u := by
  by_cases hut : u = t
  · rw [if_pos hut, hcount, hut, h.shared]
  · rw [if_neg hut]

theorem writer_same (h : Inv s) (htop : topWrites frames = topWrites (s.stack t)) (u : Tid) :
    s.writer = some u ↔ if u = t then topWrites frames = true else s.writer = some u := by
  by_cases hut : u = t
  · rw [if_pos hut, htop, hut]
    exact h.alone t
  · rw [if_neg hut]

/-- The lock is not touched. -/
theorem inv_move (h : Inv s) {s' : NestedVar Tid T} (hstack : s'.stack = Function.update s.stack t frames)
    (hreaders : s'.readers = s.readers) (hwriter : s'.writer = s.writer) (hwaiting : Waiting frames)
    (hcount : frames.countP holdsRead = (s.stack t).countP holdsRead)
    (htop : topWrites frames = topWrites (s.stack t)) : Inv s' := by
  refine inv_update h hstack hwaiting ?_ ?_ ?_
  · rw [hreaders]
    exact readers_same h hcount
  · rw [hwriter]
    exact writer_same h htop
  · rw [hreaders, hwriter]
    exact h.exclusive

/-- One reading frame more. -/
theorem inv_rdlock (h : Inv s) (hfree : s.writer = none) (hwaiting : Waiting frames)
    (hcount : frames.countP holdsRead = (s.stack t).countP holdsRead + 1)
    (htop : topWrites frames = topWrites (s.stack t)) :
    Inv { s.goto t frames with readers := t :: s.readers } := by
  refine inv_update h rfl hwaiting ?_ (writer_same (s := s) h htop) (.inl hfree)
  intro u
  show (t :: s.readers).count u = _
  by_cases hut : u = t
  · rw [if_pos hut, hcount, hut, List.count_cons_self, h.shared]
  · rw [if_neg hut, List.count_cons_of_ne (Ne.symm hut)]

/-- One reading frame less. -/
theorem inv_rdunlock (h : Inv s) (hwaiting : Waiting frames)
    (hcount : frames.countP holdsRead + 1 = (s.stack t).countP holdsRead)
    (htop : topWrites frames = topWrites (s.stack t)) :
    Inv { s.goto t frames with readers := s.readers.erase t } := by
  refine inv_update h rfl hwaiting ?_ (writer_same (s := s) h htop) ?_
  · intro u
    show (s.readers.erase t).count u = _
    by_cases hut : u = t
    · rw [if_pos hut, hut, List.count_erase_self, h.shared, ← hcount]
      rfl
    · rw [if_neg hut, List.count_erase_of_ne hut]
  · rcases h.exclusive with hnone | hnil
    · exact .inl hnone
    · right
      show s.readers.erase t = []
      rw [hnil]
      rfl

end Rules

/-! ## §4. Steps. -/

section Step

variable {s s' : NestedVar Tid T}

/-- A thread with a nested call is a reader. -/
theorem readers_of_nested (h : Inv s) {t : Tid} {p f : SetPc T} {rest : List (SetPc T)}
    (hpc : s.stack t = p :: f :: rest) : s.readers ≠ [] := by
  intro hnil
  have hwait := h.waiting t
  rw [hpc] at hwait
  -- the outer call is in its callback, under the reader lock
  have hf := holdsRead_of_inCallback (hwait f List.mem_cons_self)
  have hcount := h.shared t
  rw [hpc, hnil, List.countP_cons, List.countP_cons_of_pos hf] at hcount
  have : 0 = rest.countP holdsRead + 1 + _ := hcount
  omega

/-- **Every step keeps the invariant.** -/
theorem inv_step [DecidableEq T] {a : SetLabel Tid T} (h : Inv s) (hs : step s a = some s') :
    Inv s' := by
  cases moves_of_step hs with
  | enter t val hpc => exact inv_move h rfl rfl rfl (by intro f hf; cases hf) (by rw [hpc]; rfl) (by rw [hpc]; rfl)
  | nest t val v key keys rest hpc =>
      have hwait := h.waiting t
      rw [hpc] at hwait
      refine inv_move h rfl rfl rfl ?_ (by rw [hpc]; rfl) (by rw [hpc]; rfl)
      exact List.forall_mem_cons.mpr ⟨trivial, hwait⟩
  | readLock t val rest hpc hfree =>
      have hwait := h.waiting t
      rw [hpc] at hwait
      refine inv_rdlock h hfree hwait ?_ (by rw [hpc]; rfl)
      rw [hpc, List.countP_cons_of_pos rfl, List.countP_cons_of_neg Bool.false_ne_true]
  | same t val rest hpc hval =>
      have hwait := h.waiting t
      rw [hpc] at hwait
      exact inv_move h rfl rfl rfl hwait (by rw [hpc]; rfl) (by rw [hpc]; rfl)
  | differs t val rest hpc hval =>
      have hwait := h.waiting t
      rw [hpc] at hwait
      exact inv_move h rfl rfl rfl hwait (by rw [hpc]; rfl) (by rw [hpc]; rfl)
  | callback t val key keys rest hpc =>
      have hwait := h.waiting t
      rw [hpc] at hwait
      exact inv_move h rfl rfl rfl hwait (by rw [hpc]; rfl) (by rw [hpc]; rfl)
  | callbackThrows t val key keys rest hpc =>
      have hwait := h.waiting t
      rw [hpc] at hwait
      exact inv_move h rfl rfl rfl hwait (by rw [hpc]; rfl) (by rw [hpc]; rfl)
  | readUnlock t val rest hpc =>
      have hwait := h.waiting t
      rw [hpc] at hwait
      refine inv_rdunlock h hwait ?_ (by rw [hpc]; rfl)
      rw [hpc, List.countP_cons_of_neg Bool.false_ne_true, List.countP_cons_of_pos rfl]
  | leave t rest hpc =>
      have hwait := h.waiting t
      rw [hpc] at hwait
      refine inv_rdunlock h hwait.tail ?_ ?_
      · rw [hpc, List.countP_cons_of_pos rfl]
      · rw [hpc]
        exact topWrites_of_waiting hwait
  | writeLock t val rest hpc hfree hreaders =>
      obtain rfl : rest = [] := by
        cases rest with
        | nil => rfl
        | cons f rest => exact absurd hreaders (readers_of_nested h hpc)
      have hstack : (s.goto t [.assign val]).stack = Function.update s.stack t [.assign val] := rfl
      refine inv_update h hstack (fun f hf => by cases hf) ?_ ?_ (.inr hreaders)
      · exact readers_same (s := s) h (by rw [hpc]; rfl)
      · intro u
        show some t = some u ↔ _
        by_cases hut : u = t
        · rw [if_pos hut, hut]
          exact iff_of_true rfl rfl
        · rw [if_neg hut, hfree, Option.some_inj]
          exact iff_of_false (Ne.symm hut) (by intro hu; cases hu)
  | assign t val rest hpc =>
      have hwait := h.waiting t
      rw [hpc] at hwait
      exact inv_move h rfl rfl rfl hwait (by rw [hpc]; rfl) (by rw [hpc]; rfl)
  | writeUnlock t rest hpc =>
      have hwait := h.waiting t
      rw [hpc] at hwait
      have hwriter : s.writer = some t := (h.alone t).mpr (by rw [hpc]; rfl)
      have hstack : (s.goto t rest).stack = Function.update s.stack t rest := rfl
      refine inv_update h hstack hwait.tail ?_ ?_ (.inl rfl)
      · refine readers_same (s := s) h ?_
        rw [hpc, List.countP_cons_of_neg Bool.false_ne_true]
      · intro u
        show none = some u ↔ _
        by_cases hut : u = t
        · rw [if_pos hut, topWrites_of_waiting hwait]
          exact iff_of_false (by intro hu; cases hu) Bool.false_ne_true
        · rw [if_neg hut, hwriter, Option.some_inj]
          exact iff_of_false (by intro hu; cases hu) (Ne.symm hut)

/-! ## §5. Nested calls. -/

/-- The innermost call of `t` was made by a callback, and waits for the writer lock. -/
def Blocked (s : NestedVar Tid T) (t : Tid) : Prop :=
  ∃ val f rest, s.stack t = .writeLock val :: f :: rest

/-- A blocked thread is a reader, so there is no writer. -/
theorem Blocked.no_writer (h : Inv s) {t : Tid} (ht : s.Blocked t) :
    s.readers ≠ [] ∧ s.writer = none := by
  obtain ⟨val, f, rest, hpc⟩ := ht
  have hreaders := readers_of_nested h hpc
  exact ⟨hreaders, h.exclusive.resolve_right hreaders⟩

theorem Blocked.waits [DecidableEq T] {t : Tid} (ht : s.Blocked t) (hreaders : s.readers ≠ [])
    {a : SetLabel Tid T} (ha : a.thread = t) : step s a = none := by
  obtain ⟨val, f, rest, hpc⟩ := ht
  subst ha
  cases a with
  | call t val =>
      show s.enter t val = none
      unfold enter
      change s.stack t = _ at hpc
      simp only [hpc]
  | run t =>
      show s.runThread t = none
      unfold runThread
      change s.stack t = _ at hpc
      simp only [hpc, hreaders, and_false, if_false]
  | throws t =>
      show s.throwCallback t = none
      unfold throwCallback
      change s.stack t = _ at hpc
      simp only [hpc]

/-- A step moves one thread. -/
theorem stack_of_moves {a : SetLabel Tid T} (hs : Moves s a s') {t : Tid} (ht : a.thread ≠ t) :
    s'.stack t = s.stack t := by
  cases hs with
  | _ => exact Function.update_of_ne (Ne.symm ht) _ _

/-- Only a call with the writer lock assigns. -/
theorem value_of_moves {a : SetLabel Tid T} (hs : Moves s a s') :
    s'.m_val = s.m_val ∨ ∃ t, topWrites (s.stack t) = true := by
  cases hs with
  | assign t val rest hpc => exact .inr ⟨t, by rw [hpc]; rfl⟩
  | _ => exact .inl rfl

/-- **A blocked thread stays blocked**, and no value is assigned. -/
theorem blocked_step [DecidableEq T] {a : SetLabel Tid T} (h : Inv s) {t : Tid}
    (ht : s.Blocked t) (hs : step s a = some s') :
    s'.stack t = s.stack t ∧ s'.m_val = s.m_val := by
  obtain ⟨hreaders, hwriter⟩ := ht.no_writer h
  have hmoves := moves_of_step hs
  constructor
  · refine stack_of_moves hmoves ?_
    intro ha
    rw [ht.waits hreaders ha] at hs
    cases hs
  · refine (value_of_moves hmoves).resolve_right ?_
    intro hwrites
    obtain ⟨u, hu⟩ := hwrites
    have hsome := (h.alone u).mpr hu
    rw [hwriter] at hsome
    cases hsome

/-- **For good.** -/
theorem blocked_run [DecidableEq T] {t : Tid} (as : List (SetLabel Tid T)) :
    ∀ s s' : NestedVar Tid T, Inv s → s.Blocked t → exec step s as = some s' →
      s'.stack t = s.stack t ∧ s'.m_val = s.m_val := by
  induction as with
  | nil =>
      intro s s' _ _ hrun
      obtain rfl : s = s' := Option.some.inj hrun
      exact ⟨rfl, rfl⟩
  | cons a as ih =>
      intro s s' h ht hrun
      obtain ⟨u, ha, has⟩ := (exec_cons_eq_some step).mp hrun
      obtain ⟨hstack, hval⟩ := blocked_step h ht ha
      have ht' : u.Blocked t := by
        unfold Blocked
        rw [hstack]
        exact ht
      obtain ⟨hstack', hval'⟩ := ih u s' (inv_step h ha) ht' has
      exact ⟨hstack'.trans hstack, hval'.trans hval⟩

/-- **A NESTED CALL NEVER ASSIGNS.**  In every state of every run, only an outermost call
holds the writer lock.  A call that a callback has made, and that has told the callbacks
of its change, blocks its thread for good; and no thread ever assigns again. -/
theorem nested_never_assigns [DecidableEq T] (init : T) (cbs : CallbackMap)
    (as : List (SetLabel Tid T)) (s : NestedVar Tid T) (hrun : exec step (new init cbs) as = some s) :
    (∀ t p f rest, s.stack t = p :: f :: rest → holdsWrite p = false) ∧
      ∀ t, s.Blocked t → ∀ bs s', exec step s bs = some s' →
        s'.stack t = s.stack t ∧ s'.m_val = s.m_val := by
  have h : Inv s := exec_invariant step Inv (fun _ _ _ hs hstep => inv_step hs hstep) as _ s
    (inv_new init cbs) hrun
  refine ⟨?_, fun t ht bs s' hbs => blocked_run bs s s' h ht hbs⟩
  intro t p f rest hpc
  rw [Bool.eq_false_iff]
  intro hwrite
  have hwriter : s.writer = some t := (h.alone t).mpr (by rw [hpc]; exact hwrite)
  rw [h.exclusive.resolve_right (readers_of_nested h hpc)] at hwriter
  cases hwriter

end Step

/-- The callback sets 7 while its variable is being set to 5. -/
def nestedSet : List (SetLabel Bool Nat) :=
  [.call true 5, .run true, .run true, .call true 7, .run true, .run true, .run true, .run true]

def selfBlocked : NestedVar Bool Nat :=
  (exec step (new 0 ⟨[1], List.pairwise_singleton _ _⟩) nestedSet).get (by decide)

theorem nested_never_assigns_selfBlocked :
    selfBlocked.stack true = [.writeLock 7, .callbacks 5 [1]] ∧
      ∀ bs s', exec step selfBlocked bs = some s' → s'.stack true = selfBlocked.stack true ∧ s'.m_val = 0 :=
  ⟨rfl, (nested_never_assigns 0 ⟨[1], List.pairwise_singleton _ _⟩ nestedSet selfBlocked (Option.some_get _).symm).2 true
    ⟨7, .callbacks 5 [1], [], rfl⟩⟩

/-! ## §6. Without nested calls. -/

/-- The calls of a thread that is in at most one. -/
def frameOf : SetPc T → List (SetPc T)
  | .idle => []
  | p => [p]

/-- No thread is in a nested call, and the variable is that of the other system. -/
structure Flat (s : NestedVar Tid T) (v : SharedVar Tid T) : Prop where
  m_val : v.m_val = s.m_val
  m_cbs : v.m_cbs = s.m_cbs
  readers : v.readers = s.readers
  writer : v.writer = s.writer
  stack : ∀ t, s.stack t = frameOf (v.pc t)

/-- The label is no nested call. -/
def Outermost (s : NestedVar Tid T) : SetLabel Tid T → Prop
  | .call t _ => s.stack t = []
  | _ => True

section Flat

variable {s s' : NestedVar Tid T} {v : SharedVar Tid T}

omit [DecidableEq Tid] in
theorem Flat.pc_eq (h : Flat s v) {t : Tid} {p : SetPc T} {rest : List (SetPc T)}
    (hpc : s.stack t = p :: rest) : v.pc t = p ∧ rest = [] := by
  have hstack := h.stack t
  rw [hpc] at hstack
  cases hp : v.pc t with
  | idle =>
      rw [hp] at hstack
      cases hstack
  | _ =>
      rw [hp] at hstack
      cases hstack
      exact ⟨rfl, rfl⟩

omit [DecidableEq Tid] in
theorem Flat.pc_idle (h : Flat s v) {t : Tid} (hpc : s.stack t = []) : v.pc t = .idle := by
  have hstack := h.stack t
  rw [hpc] at hstack
  cases hp : v.pc t with
  | idle => rfl
  | _ =>
      rw [hp] at hstack
      cases hstack

theorem Flat.goto (h : Flat s v) (t : Tid) (p : SetPc T) (u : Tid) :
    Function.update s.stack t (frameOf p) u = frameOf (Function.update v.pc t p u) := by
  by_cases hut : u = t
  · rw [hut, Function.update_self, Function.update_self]
  · rw [Function.update_of_ne hut, Function.update_of_ne hut]
    exact h.stack u

/-- **Without nested calls every step is one of `SharedVar`.** -/
theorem flat_step [DecidableEq T] {a : SetLabel Tid T} (h : Flat s v) (ha : s.Outermost a)
    (hs : step s a = some s') : ∃ v', SharedVar.step v a = some v' ∧ Flat s' v' := by
  cases moves_of_step hs with
  | enter t val hpc =>
      exact ⟨_, SharedVar.step_of_moves (.enter t val (h.pc_idle hpc)), h.m_val, h.m_cbs, h.readers,
        h.writer, h.goto t (.readLock val)⟩
  | nest t val v' key keys rest hpc =>
      have hnil : s.stack t = [] := ha
      rw [hpc] at hnil
      cases hnil
  | readLock t val rest hpc hfree =>
      obtain ⟨hp, rfl⟩ := h.pc_eq hpc
      exact ⟨_, SharedVar.step_of_moves (.readLock t val hp (h.writer.trans hfree)), h.m_val,
        h.m_cbs, congrArg (t :: ·) h.readers, h.writer, h.goto t (.compare val)⟩
  | same t val rest hpc hval =>
      obtain ⟨hp, rfl⟩ := h.pc_eq hpc
      exact ⟨_, SharedVar.step_of_moves (.same t val hp (hval.trans h.m_val.symm)), h.m_val,
        h.m_cbs, h.readers, h.writer, h.goto t .readUnlockLeave⟩
  | differs t val rest hpc hval =>
      obtain ⟨hp, rfl⟩ := h.pc_eq hpc
      refine ⟨_, SharedVar.step_of_moves (.differs t val hp (by rw [h.m_val]; exact hval)), h.m_val,
        h.m_cbs, h.readers, h.writer, ?_⟩
      rw [h.m_cbs]
      exact h.goto t (.callbacks val s.m_cbs.keys)
  | callback t val key keys rest hpc =>
      obtain ⟨hp, rfl⟩ := h.pc_eq hpc
      exact ⟨_, SharedVar.step_of_moves (.callback t val key keys hp), h.m_val, h.m_cbs, h.readers,
        h.writer, h.goto t (.callbacks val keys)⟩
  | callbackThrows t val key keys rest hpc =>
      obtain ⟨hp, rfl⟩ := h.pc_eq hpc
      exact ⟨_, SharedVar.step_of_moves (.callbackThrows t val key keys hp), h.m_val, h.m_cbs,
        h.readers, h.writer, h.goto t .readUnlockLeave⟩
  | readUnlock t val rest hpc =>
      obtain ⟨hp, rfl⟩ := h.pc_eq hpc
      exact ⟨_, SharedVar.step_of_moves (.readUnlock t val hp), h.m_val, h.m_cbs,
        congrArg (·.erase t) h.readers, h.writer, h.goto t (.writeLock val)⟩
  | leave t rest hpc =>
      obtain ⟨hp, rfl⟩ := h.pc_eq hpc
      exact ⟨_, SharedVar.step_of_moves (.leave t hp), h.m_val, h.m_cbs,
        congrArg (·.erase t) h.readers, h.writer, h.goto t .idle⟩
  | writeLock t val rest hpc hfree hreaders =>
      obtain ⟨hp, rfl⟩ := h.pc_eq hpc
      exact ⟨_, SharedVar.step_of_moves (.writeLock t val hp (h.writer.trans hfree)
        (h.readers.trans hreaders)), h.m_val, h.m_cbs, h.readers, rfl, h.goto t (.assign val)⟩
  | assign t val rest hpc =>
      obtain ⟨hp, rfl⟩ := h.pc_eq hpc
      exact ⟨_, SharedVar.step_of_moves (.assign t val hp), rfl, h.m_cbs, h.readers, h.writer,
        h.goto t .writeUnlock⟩
  | writeUnlock t rest hpc =>
      obtain ⟨hp, rfl⟩ := h.pc_eq hpc
      exact ⟨_, SharedVar.step_of_moves (.writeUnlock t hp), h.m_val, h.m_cbs, h.readers, rfl,
        h.goto t .idle⟩

/-- **Without nested calls every run is one of `SharedVar`.** -/
theorem flat_run [DecidableEq T] (as : List (SetLabel Tid T)) :
    ∀ (s s' : NestedVar Tid T) (v : SharedVar Tid T), Flat s v → Guarded step Outermost s as →
      exec step s as = some s' → ∃ v', exec SharedVar.step v as = some v' ∧ Flat s' v' := by
  induction as with
  | nil =>
      intro s s' v h _ hrun
      obtain rfl : s = s' := Option.some.inj hrun
      exact ⟨v, rfl, h⟩
  | cons a as ih =>
      intro s s' v h hguarded hrun
      obtain ⟨u, ha, has⟩ := (exec_cons_eq_some step).mp hrun
      obtain ⟨v', hv', hflat⟩ := flat_step h hguarded.1 ha
      obtain ⟨w, hw, hlast⟩ := ih u s' v' hflat (hguarded.2 u ha) has
      exact ⟨w, (exec_cons_eq_some SharedVar.step).mpr ⟨v', hv', hw⟩, hlast⟩

end Flat

end NestedVar

end SylarCot.Config
