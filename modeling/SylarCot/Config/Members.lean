/-
  SylarCot.Config.Members
  ───────────────────────
  All members of a `ConfigVar` under any number of threads.

  The members that only read take the reader lock, do their work and drop it:
  `toString` converts `m_val`, `fromString` its argument.  `getValue` returns a
  reference, and its caller copies `m_val` after the lock has been dropped.
  `setValue` goes on as in `SharedVar`; a thread is in one call at a time.

  That copy holds no lock, so it may overlap an assignment.  It is then torn: it
  finds parts of both values, or storage that is no longer there, and what it
  returns is any value at all (`ConfigLabel.torn`).  A `T` that is copied and
  assigned in one step has no torn copies.

  `result` is what the call of a thread is going to return, or the exception it is
  going to leave by, from the moment on at which that is settled.

    • `moves_of_step` — everything a step can do;
    • `inv_step` — every step keeps the lock with the threads that are in their
      sections, and `m_val` as it is while callbacks are being told of it.
-/
import SylarCot.Library.ReadersWriter
import SylarCot.Config.SetValue

namespace SylarCot.Config

open Library

/-! ## §1. States and labels. -/

/-- The members that only read. -/
inductive Reading where
  | getValue
  | fromString (val : String)
  | toString
  deriving Repr, DecidableEq

/-- Where a thread is in such a member. -/
inductive ReadPc where
  | idle
  /-- `LockGuard<MutexType, ReadLockTag>(m_mutex)` -/
  | lock (c : Reading)
  | body (c : Reading)
  /-- the end of the guard's scope -/
  | unlock
  /-- the same in `getValue`, which returns a reference to `m_val` -/
  | unlockRef
  /-- the caller of `getValue` copies `m_val` -/
  | copy
  | leave
  deriving Repr, DecidableEq

/-- A `ConfigVar` and the threads that use it. -/
structure SharedConfig (Tid T : Type*) where
  var : SharedVar Tid T
  reader : Tid → ReadPc := fun _ => .idle
  result : Tid → Option (Result T) := fun _ => none

/-- A step of `setValue`, the call of another member, or a step of it. -/
inductive ConfigLabel (Tid T : Type*) where
  | set (a : SetLabel Tid T)
  | read (t : Tid) (c : Reading)
  | run (t : Tid)
  /-- the caller of `getValue` copies `val` while another thread assigns -/
  | torn (t : Tid) (val : T)
  deriving Repr, DecidableEq

/-- The thread that takes the step. -/
def SetLabel.thread {Tid T : Type*} : SetLabel Tid T → Tid
  | .call t _ => t
  | .run t => t
  | .throws t => t

variable {Tid T : Type*}

/-- The member as a call of the sequential template. -/
def Reading.call : Reading → Call T
  | .getValue => .getValue
  | .fromString val => .fromString val
  | .toString => .toString

namespace SharedConfig

/-- A variable with its callbacks registered and no call in progress. -/
def new (init : T) (cbs : CallbackMap) : SharedConfig Tid T := { var := SharedVar.new init cbs }

variable [DecidableEq Tid]

/-! ## §2. Steps. -/

/-- Thread `t` moves on in a reading member. -/
def goto (s : SharedConfig Tid T) (t : Tid) (p : ReadPc) : SharedConfig Tid T :=
  { s with reader := Function.update s.reader t p }

/-- What the call of `t` is going to return. -/
def settle (s : SharedConfig Tid T) (t : Tid) (r : Option (Result T)) : SharedConfig Tid T :=
  { s with result := Function.update s.result t r }

/-- Replace the readers of the lock. -/
def setReaders (s : SharedConfig Tid T) (readers : List Tid) : SharedConfig Tid T :=
  { s with var := { s.var with readers := readers } }

/-- What a step of `setValue` settles. -/
def outcome [DecidableEq T] (s : SharedConfig Tid T) : SetLabel Tid T → Option (Result T)
  | .call _ _ => none
  -- the exception of the callback leaves `setValue`
  | .throws _ => some (.threw .other)
  | .run t =>
      match s.var.pc t with
      | .compare val => if val = s.var.m_val then some .done else none
      | .assign _ => some .done
      | _ => none

/-- One step of the thread `t` in a reading member. -/
def runReader [DecidableEq T] (cv : Conversions T) (s : SharedConfig Tid T) (t : Tid) :
    Option (SharedConfig Tid T) :=
  match s.reader t with
  | .idle => none
  | .lock c =>
      if s.var.writer.isNone then some ((s.goto t (.body c)).setReaders (t :: s.var.readers))
      else none
  | .body .getValue => some (s.goto t .unlockRef)
  | .body c => some ((s.goto t .unlock).settle t (some ((ConfigVar.mk s.var.m_val).call cv c.call).2))
  | .unlock => some (((s.goto t .idle).setReaders (s.var.readers.erase t)).settle t none)
  | .unlockRef => some ((s.goto t .copy).setReaders (s.var.readers.erase t))
  -- no lock is held here
  | .copy => some ((s.goto t .leave).settle t (some (.value s.var.m_val)))
  | .leave => some ((s.goto t .idle).settle t none)

/-- A thread is inside the assignment of `m_val`. -/
def beingAssigned (s : SharedConfig Tid T) : Bool :=
  match s.var.writer with
  | some t =>
      match s.var.pc t with
      | .assign _ => true
      | _ => false
  | none => false

/-- A thread is in one call at a time. -/
def mayStep (s : SharedConfig Tid T) (a : SetLabel Tid T) : Bool := s.reader a.thread = .idle

/-- One step of the system. -/
def step [DecidableEq T] (cv : Conversions T) (s : SharedConfig Tid T) :
    ConfigLabel Tid T → Option (SharedConfig Tid T)
  | .set a =>
      if s.mayStep a then
        (SharedVar.step s.var a).map fun v =>
          { (s.settle a.thread (s.outcome a)) with var := v }
      else none
  | .read t c =>
      match s.var.pc t, s.reader t with
      | .idle, .idle => some (s.goto t (.lock c))
      | _, _ => none
  | .run t => runReader cv s t
  | .torn t val =>
      match s.reader t with
      | .copy =>
          if s.beingAssigned then some ((s.goto t .leave).settle t (some (.value val))) else none
      | _ => none

/-! ## §3. Everything a step can do. -/

/-- **The moves of the system.** -/
inductive Moves [DecidableEq T] (cv : Conversions T) (s : SharedConfig Tid T) :
    ConfigLabel Tid T → SharedConfig Tid T → Prop where
  | set (a : SetLabel Tid T) (v : SharedVar Tid T) (hfree : s.reader a.thread = .idle)
      (hv : SharedVar.Moves s.var a v) :
      Moves cv s (.set a) { (s.settle a.thread (s.outcome a)) with var := v }
  | enter (t : Tid) (c : Reading) (hset : s.var.pc t = .idle) (hread : s.reader t = .idle) :
      Moves cv s (.read t c) (s.goto t (.lock c))
  | lock (t : Tid) (c : Reading) (hpc : s.reader t = .lock c) (hfree : s.var.writer = none) :
      Moves cv s (.run t) ((s.goto t (.body c)).setReaders (t :: s.var.readers))
  | reference (t : Tid) (hpc : s.reader t = .body .getValue) :
      Moves cv s (.run t) (s.goto t .unlockRef)
  | work (t : Tid) (c : Reading) (hpc : s.reader t = .body c) (hc : c ≠ .getValue) :
      Moves cv s (.run t)
        ((s.goto t .unlock).settle t (some ((ConfigVar.mk s.var.m_val).call cv c.call).2))
  | unlock (t : Tid) (hpc : s.reader t = .unlock) :
      Moves cv s (.run t) (((s.goto t .idle).setReaders (s.var.readers.erase t)).settle t none)
  | unlockRef (t : Tid) (hpc : s.reader t = .unlockRef) :
      Moves cv s (.run t) ((s.goto t .copy).setReaders (s.var.readers.erase t))
  | copy (t : Tid) (hpc : s.reader t = .copy) :
      Moves cv s (.run t) ((s.goto t .leave).settle t (some (.value s.var.m_val)))
  | leave (t : Tid) (hpc : s.reader t = .leave) :
      Moves cv s (.run t) ((s.goto t .idle).settle t none)
  | torn (t : Tid) (val : T) (hpc : s.reader t = .copy) (hassign : s.beingAssigned = true) :
      Moves cv s (.torn t val) ((s.goto t .leave).settle t (some (.value val)))

variable [DecidableEq T] {cv : Conversions T} {s s' : SharedConfig Tid T}

theorem moves_of_runReader {t : Tid} (h : runReader cv s t = some s') : Moves cv s (.run t) s' := by
  unfold runReader at h
  cases hpc : s.reader t with
  | idle =>
      simp only [hpc] at h
      cases h
  | lock c =>
      simp only [hpc] at h
      obtain ⟨hfree, hs⟩ := Option.ite_none_right_eq_some.mp h
      cases hs
      exact .lock t c hpc (Option.isNone_iff_eq_none.mp hfree)
  | body c =>
      cases c with
      | getValue =>
          simp only [hpc] at h
          cases h
          exact .reference t hpc
      | fromString val =>
          simp only [hpc] at h
          cases h
          exact .work t _ hpc (by intro hc; cases hc)
      | toString =>
          simp only [hpc] at h
          cases h
          exact .work t _ hpc (by intro hc; cases hc)
  | unlock =>
      simp only [hpc] at h
      cases h
      exact .unlock t hpc
  | unlockRef =>
      simp only [hpc] at h
      cases h
      exact .unlockRef t hpc
  | copy =>
      simp only [hpc] at h
      cases h
      exact .copy t hpc
  | leave =>
      simp only [hpc] at h
      cases h
      exact .leave t hpc

/-- **Every step is one of the moves.** -/
theorem moves_of_step {a : ConfigLabel Tid T} (h : step cv s a = some s') : Moves cv s a s' := by
  cases a with
  | set a =>
      obtain ⟨hmay, hs⟩ := Option.ite_none_right_eq_some.mp h
      obtain ⟨v, hv, rfl⟩ := Option.map_eq_some_iff.mp hs
      exact .set a v (of_decide_eq_true hmay) (SharedVar.moves_of_step hv)
  | read t c =>
      cases hset : s.var.pc t with
      | idle =>
          cases hread : s.reader t with
          | idle =>
              simp only [step, hset, hread] at h
              cases h
              exact .enter t c hset hread
          | _ =>
              simp only [step, hset, hread] at h
              cases h
      | _ =>
          simp only [step, hset] at h
          cases h
  | run t => exact moves_of_runReader h
  | torn t val =>
      cases hpc : s.reader t with
      | copy =>
          simp only [step, hpc] at h
          obtain ⟨hassign, hs⟩ := Option.ite_none_right_eq_some.mp h
          cases hs
          exact .torn t val hpc hassign
      | _ =>
          simp only [step, hpc] at h
          cases h

/-! ## §4. Sections of the lock. -/

/-- Where a thread is in `setValue` and in the reading members. -/
abbrev Place (T : Type*) := SetPc T × ReadPc

/-- The places of all threads. -/
def place (s : SharedConfig Tid T) (t : Tid) : Place T := (s.var.pc t, s.reader t)

/-- The places under the reader lock. -/
def Reads : Place T → Prop
  | (.compare _, _) => True
  | (.callbacks _ _, _) => True
  | (.readUnlockLeave, _) => True
  | (.idle, .body _) => True
  | (.idle, .unlock) => True
  | (.idle, .unlockRef) => True
  | _ => False

/-- The places under the writer lock. -/
def Writes : Place T → Prop
  | (.assign _, _) => True
  | (.writeUnlock, _) => True
  | _ => False

/-- The places of a call whose result is settled. -/
def Settled : Place T → Prop
  | (.readUnlockLeave, _) => True
  | (.writeUnlock, _) => True
  | (.idle, .unlock) => True
  | (.idle, .leave) => True
  | _ => False

omit [DecidableEq T] in
theorem place_var (s : SharedConfig Tid T) (v : SharedVar Tid T) (result : Tid → Option (Result T))
    {t : Tid} {p : SetPc T} (hpc : v.pc = Function.update s.var.pc t p) :
    place { s with var := v, result := result } = Function.update s.place t (p, s.reader t) := by
  funext u
  show (v.pc u, s.reader u) = _
  rw [hpc]
  by_cases hut : u = t
  · rw [hut, Function.update_self, Function.update_self]
  · rw [Function.update_of_ne hut, Function.update_of_ne hut]
    rfl

omit [DecidableEq T] in
theorem place_reader (s : SharedConfig Tid T) (v : SharedVar Tid T)
    (result : Tid → Option (Result T)) {t : Tid} {p : ReadPc} (hpc : v.pc = s.var.pc) :
    place { var := v, reader := Function.update s.reader t p, result := result }
      = Function.update s.place t (s.var.pc t, p) := by
  funext u
  show (v.pc u, Function.update s.reader t p u) = _
  rw [hpc]
  by_cases hut : u = t
  · rw [hut, Function.update_self, Function.update_self]
  · rw [Function.update_of_ne hut, Function.update_of_ne hut]
    rfl

/-- What a step does: one thread moves, and with it the lock and its result. -/
def Turn (t : Tid) (s s' : SharedConfig Tid T) : Prop :=
  ∃ q, s'.place = Function.update s.place t q ∧ (q.1 = .idle ∨ q.2 = .idle) ∧
    (∃ r, s'.result = Function.update s.result t r ∧ (r.isSome ↔ Settled q)) ∧
    LockStep Reads Writes t (s.place t) q s.var.readers s.var.writer s'.var.readers s'.var.writer

theorem turn_of_set {v : SharedVar Tid T} {a : SetLabel Tid T} {p q : SetPc T}
    (hread : s.reader a.thread = .idle) (hpc : s.var.pc a.thread = p)
    (hpc' : v.pc = Function.update s.var.pc a.thread q)
    (hr : (s.outcome a).isSome ↔ Settled (q, ReadPc.idle))
    (h : LockStep Reads Writes a.thread (p, ReadPc.idle) (q, ReadPc.idle) s.var.readers s.var.writer
      v.readers v.writer) :
    Turn a.thread s { (s.settle a.thread (s.outcome a)) with var := v } := by
  refine ⟨(q, .idle), ?_, .inr rfl, ⟨s.outcome a, rfl, hr⟩, ?_⟩
  · rw [← hread]
    exact place_var s v _ hpc'
  · show LockStep _ _ _ (s.var.pc a.thread, s.reader a.thread) _ _ _ _ _
    rw [hpc, hread]
    exact h

omit [DecidableEq T] in
theorem turn_of_reader {v : SharedVar Tid T} {t : Tid} {p q : ReadPc} {r : Option (Result T)}
    (hset : s.var.pc t = .idle) (hpc : s.reader t = p) (hv : v.pc = s.var.pc)
    (hr : r.isSome ↔ Settled ((SetPc.idle : SetPc T), q))
    (h : LockStep Reads Writes t ((SetPc.idle : SetPc T), p) (SetPc.idle, q) s.var.readers s.var.writer
      v.readers v.writer) :
    Turn t s { var := v, reader := Function.update s.reader t q,
               result := Function.update s.result t r } := by
  refine ⟨(.idle, q), ?_, .inl rfl, ⟨r, rfl, hr⟩, ?_⟩
  · rw [← hset]
    exact place_reader s v _ hv
  · show LockStep _ _ _ (s.var.pc t, s.reader t) _ _ _ _ _
    rw [hset, hpc]
    exact h

/-- **What a step of `setValue` does.** -/
theorem turn_of_setMoves {v : SharedVar Tid T} {a : SetLabel Tid T}
    (hread : s.reader a.thread = .idle) (h : SharedVar.Moves s.var a v) :
    Turn a.thread s { (s.settle a.thread (s.outcome a)) with var := v } := by
  cases h with
  | enter t val hpc => exact turn_of_set hread hpc rfl (by simp [outcome, Settled]) (.move Iff.rfl Iff.rfl)
  | readLock t val hpc hfree =>
      exact turn_of_set hread hpc rfl (by simp [outcome, hpc, Settled]) (.rdlock hfree id trivial id)
  | same t val hpc hval =>
      exact turn_of_set hread hpc rfl (by simp [outcome, hpc, hval, Settled]) (.move Iff.rfl Iff.rfl)
  | differs t val hpc hval =>
      exact turn_of_set hread hpc rfl (by simp [outcome, hpc, hval, Settled]) (.move Iff.rfl Iff.rfl)
  | callback t val key rest hpc =>
      exact turn_of_set hread hpc rfl (by simp [outcome, hpc, Settled]) (.move Iff.rfl Iff.rfl)
  | callbackThrows t val key rest hpc =>
      exact turn_of_set hread hpc rfl (by simp [outcome, Settled]) (.move Iff.rfl Iff.rfl)
  | readUnlock t val hpc =>
      exact turn_of_set hread hpc rfl (by simp [outcome, hpc, Settled]) (.rdunlock trivial id id)
  | leave t hpc =>
      exact turn_of_set hread hpc rfl (by simp [outcome, hpc, Settled]) (.rdunlock trivial id id)
  | writeLock t val hpc hfree hreaders =>
      exact turn_of_set hread hpc rfl (by simp [outcome, hpc, Settled])
        (.wrlock hfree hreaders trivial id)
  | assign t val hpc =>
      exact turn_of_set hread hpc rfl (by simp [outcome, hpc, Settled]) (.move Iff.rfl Iff.rfl)
  | writeUnlock t hpc =>
      exact turn_of_set hread hpc rfl (by simp [outcome, hpc, Settled]) (.wrunlock trivial id id)

/-! ## §5. The invariant. -/

/-- The lock is held by the threads that are in its sections; a thread is in one call
at a time; and while callbacks are being told of a change, it is one. -/
structure Inv (s : SharedConfig Tid T) : Prop where
  holds : Holds Reads Writes s.place s.var.readers s.var.writer
  apart : ∀ t, s.var.pc t = .idle ∨ s.reader t = .idle
  settled : ∀ t, (s.result t).isSome ↔ Settled (s.place t)
  differs : ∀ t val rest, s.var.pc t = .callbacks val rest → val ≠ s.var.m_val

omit [DecidableEq Tid] [DecidableEq T] in
theorem inv_new (init : T) (cbs : CallbackMap) : Inv (new init cbs : SharedConfig Tid T) where
  holds :=
    { once := List.nodup_nil
      shared := by
        intro t
        exact iff_of_false List.not_mem_nil id
      alone := by
        intro t
        exact iff_of_false (by intro h; cases h) id
      exclusive := .inl rfl }
  apart _ := .inl rfl
  settled := by
    intro t
    exact iff_of_false Bool.false_ne_true id
  differs := by
    intro t val rest h
    cases h

/-- The thread that takes a step. -/
def thread : ConfigLabel Tid T → Tid
  | .set a => a.thread
  | .read t _ => t
  | .run t => t
  | .torn t _ => t

omit [DecidableEq Tid] [DecidableEq T] in
theorem Inv.set_idle (h : Inv s) {t : Tid} {p : ReadPc} (hpc : s.reader t = p) (hp : p ≠ .idle) :
    s.var.pc t = .idle :=
  (h.apart t).resolve_right (by rw [hpc]; exact hp)

omit [DecidableEq Tid] [DecidableEq T] in
/-- The result of a call that is not settled. -/
theorem Inv.unsettled (h : Inv s) {t : Tid} (ht : ¬ Settled (s.place t)) : s.result t = none := by
  cases hr : s.result t with
  | none => rfl
  | some r => exact absurd ((h.settled t).mp (by rw [hr]; rfl)) ht

omit [DecidableEq T] in
/-- A reader moves on with its result still open. -/
theorem Inv.turn_open (h : Inv s) {v : SharedVar Tid T} {t : Tid} {p q : ReadPc}
    (hset : s.var.pc t = .idle) (hpc : s.reader t = p) (hv : v.pc = s.var.pc)
    (hp : ¬ Settled ((SetPc.idle : SetPc T), p)) (hq : ¬ Settled ((SetPc.idle : SetPc T), q))
    (hlock : LockStep Reads Writes t ((SetPc.idle : SetPc T), p) (SetPc.idle, q) s.var.readers
      s.var.writer v.readers v.writer) :
    Turn t s { var := v, reader := Function.update s.reader t q, result := s.result } := by
  have hnone : s.result t = none := h.unsettled (by
    show ¬ Settled (s.var.pc t, s.reader t)
    rw [hset, hpc]
    exact hp)
  have hsame : Function.update s.result t none = s.result := by rw [← hnone, Function.update_eq_self]
  have hturn := turn_of_reader (r := none) hset hpc hv
    (iff_of_false Bool.false_ne_true hq) hlock
  rw [hsame] at hturn
  exact hturn

/-- **Every step is a turn of one thread.** -/
theorem turn_of_moves {a : ConfigLabel Tid T} (h : Inv s) (hs : Moves cv s a s') :
    Turn (thread a) s s' := by
  cases hs with
  | set a v hfree hv => exact turn_of_setMoves hfree hv
  | enter t c hset hread => exact h.turn_open hset hread rfl id id (.move Iff.rfl Iff.rfl)
  | lock t c hpc hfree =>
      exact h.turn_open (h.set_idle hpc (by intro h; cases h)) hpc rfl id id
        (.rdlock hfree id trivial id)
  | reference t hpc =>
      exact h.turn_open (h.set_idle hpc (by intro h; cases h)) hpc rfl id id (.move Iff.rfl Iff.rfl)
  | work t c hpc hc =>
      exact turn_of_reader (h.set_idle hpc (by intro h; cases h)) hpc rfl (iff_of_true rfl trivial)
        (.move Iff.rfl Iff.rfl)
  | unlock t hpc =>
      exact turn_of_reader (h.set_idle hpc (by intro h; cases h)) hpc rfl
        (iff_of_false Bool.false_ne_true id) (.rdunlock trivial id id)
  | unlockRef t hpc =>
      exact h.turn_open (h.set_idle hpc (by intro h; cases h)) hpc rfl id id
        (.rdunlock trivial id id)
  | copy t hpc =>
      exact turn_of_reader (h.set_idle hpc (by intro h; cases h)) hpc rfl (iff_of_true rfl trivial)
        (.move Iff.rfl Iff.rfl)
  | leave t hpc =>
      exact turn_of_reader (h.set_idle hpc (by intro h; cases h)) hpc rfl
        (iff_of_false Bool.false_ne_true id) (.move Iff.rfl Iff.rfl)
  | torn t val hpc hassign =>
      exact turn_of_reader (h.set_idle hpc (by intro h; cases h)) hpc rfl (iff_of_true rfl trivial)
        (.move Iff.rfl Iff.rfl)

omit [DecidableEq T] in
/-- An assignment is made under the writer lock. -/
theorem value_of_setMoves {v v' : SharedVar Tid T} {a : SetLabel Tid T}
    (h : SharedVar.Moves v a v') :
    v'.m_val = v.m_val ∨ ∃ t val, a = .run t ∧ v.pc t = .assign val ∧
      v'.pc = Function.update v.pc t .writeUnlock := by
  cases h with
  | assign t val hpc => exact .inr ⟨t, val, rfl, hpc, rfl⟩
  | _ => exact .inl rfl

omit [DecidableEq T] in
/-- One more thread in the callback loop, or one place further in it. -/
theorem callbacks_of_update {pc : Tid → SetPc T} {t u : Tid} {q : SetPc T} {val : T}
    {rest : List UInt64} (h : Function.update pc u q t = .callbacks val rest) :
    pc t = .callbacks val rest ∨ (t = u ∧ q = .callbacks val rest) := by
  by_cases htu : t = u
  · rw [htu, Function.update_self] at h
    exact .inr ⟨htu, h⟩
  · rw [Function.update_of_ne htu] at h
    exact .inl h

omit [DecidableEq T] in
/-- A thread enters the callback loop when it finds a difference. -/
theorem differs_of_setMoves {v v' : SharedVar Tid T} {a : SetLabel Tid T}
    (h : SharedVar.Moves v a v') {t : Tid} {val : T} {rest : List UInt64}
    (hpc : v'.pc t = .callbacks val rest) :
    (∃ rest', v.pc t = .callbacks val rest') ∨ (val ≠ v.m_val ∧ v'.m_val = v.m_val) := by
  cases h with
  | differs u val' hu hval =>
      obtain hold | ⟨rfl, hq⟩ := callbacks_of_update hpc
      · exact .inl ⟨rest, hold⟩
      · cases hq
        exact .inr ⟨hval, rfl⟩
  | callback u val' key rest' hu =>
      obtain hold | ⟨rfl, hq⟩ := callbacks_of_update hpc
      · exact .inl ⟨rest, hold⟩
      · cases hq
        exact .inl ⟨_, hu⟩
  | _ =>
      obtain hold | ⟨-, hq⟩ := callbacks_of_update hpc
      · exact .inl ⟨rest, hold⟩
      · cases hq

/-- Reading members assign nothing. -/
theorem var_of_run {t : Tid} (hs : Moves cv s (.run t) s') :
    s'.var.pc = s.var.pc ∧ s'.var.m_val = s.var.m_val := by
  cases hs with
  | _ => exact ⟨rfl, rfl⟩

/-- While a thread tells its callbacks of a change, it is one. -/
theorem differs_step {a : ConfigLabel Tid T} (h : Inv s) (hs : Moves cv s a s') :
    ∀ t val rest, s'.var.pc t = .callbacks val rest → val ≠ s'.var.m_val := by
  intro t val rest hpc
  cases a with
  | read u c =>
      cases hs with
      | enter _ _ hset hread => exact h.differs t val rest hpc
  | run u =>
      obtain ⟨hsame, hval⟩ := var_of_run hs
      rw [hsame] at hpc
      rw [hval]
      exact h.differs t val rest hpc
  | torn u val' =>
      cases hs with
      | torn _ _ hcopy hassign => exact h.differs t val rest hpc
  | set a =>
      cases hs with
      | set _ v hfree hv =>
          show val ≠ v.m_val
          obtain ⟨rest', hold⟩ | ⟨hval, hsame⟩ := differs_of_setMoves hv hpc
          · obtain hsame | ⟨u, new, -, hassign, -⟩ := value_of_setMoves hv
            · rw [hsame]
              exact h.differs t val rest' hold
            · -- the reader lock of `t` keeps the writer out
              refine absurd ?_ (h.holds.not_reads (t := u) (u := t) ?_)
              · show Reads (s.var.pc t, s.reader t)
                rw [hold]
                trivial
              · show Writes (s.var.pc u, s.reader u)
                rw [hassign]
                trivial
          · rw [hsame]
            exact hval

/-- **Every step keeps the invariant.** -/
theorem inv_step {a : ConfigLabel Tid T} (h : Inv s) (hs : step cv s a = some s') : Inv s' := by
  have hmoves := moves_of_step hs
  obtain ⟨q, hplace, hq, ⟨r, hresult, hr⟩, hlock⟩ := turn_of_moves h hmoves
  refine ⟨?_, ?_, ?_, differs_step h hmoves⟩
  · rw [hplace]
    exact h.holds.step hlock
  · intro t
    show (s'.place t).1 = .idle ∨ (s'.place t).2 = .idle
    rw [hplace]
    by_cases ht : t = thread a
    · rw [ht, Function.update_self]
      exact hq
    · rw [Function.update_of_ne ht]
      exact h.apart t
  · intro t
    rw [hplace, hresult]
    by_cases ht : t = thread a
    · rw [ht, Function.update_self, Function.update_self]
      exact hr
    · rw [Function.update_of_ne ht, Function.update_of_ne ht]
      exact h.settled t

end SharedConfig

end SylarCot.Config
