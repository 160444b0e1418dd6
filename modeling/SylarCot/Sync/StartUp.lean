/-
  SylarCot.Sync.StartUp
  ─────────────────────
  **THE START-UP HAND-SHAKE OF `Thread`.**

  The started thread makes five accesses to its object and posts the semaphore
  with the last; the constructor waits for that post.  `At` annotates every
  place of `Thread::run` with what holds there, and every step of either thread
  keeps the annotation, save one: a `sem_wait` that fails before the post ends
  the object's lifetime under the started thread.

    • `inv_step` — every other step keeps the annotation;
    • `start_up_safe` — so runs without such a failure touch no dead object, and a
      constructor that returns leaves `m_id` set and the callback taken;
    • `start_up_iff` — after such a failure two steps of the started thread are
      enough to touch the dead object, so the condition is exact.
-/
import SylarCot.Sync.Thread

namespace SylarCot.Sync

namespace Thread

open Library

variable {Cb : Type*}

/-! ## §1. The annotation of `Thread::run`. -/

/-- The constructor waits, and the post has not happened. -/
def Working (x : Thread Cb) : Prop := x.creator = .waiting ∧ x.alive = true ∧ x.m_sem = 0

/-- The callback is still in the object. -/
def CbKept (x : Thread Cb) : Prop := x.m_cb = x.given

/-- The started thread has taken the callback over. -/
def CbTaken (x : Thread Cb) : Prop := x.m_cb = none ∧ x.cb = x.given

/-- The started thread has stored its id. -/
def IdSet (x : Thread Cb) : Prop := x.m_id = x.threadId

/-- Places at which the thread may have been started. -/
def mayHaveStarted : CreatorPc → Bool
  | .unconstructed => false
  | .creating => false
  | _ => true

/-- Places at which it need not have been. -/
def mayHaveNone : CreatorPc → Bool
  | .waiting => false
  | .returned => false
  | _ => true

/-- No thread has been started. -/
def Unstarted (x : Thread Cb) : Prop :=
  x.m_sem = 0 ∧ mayHaveNone x.creator = true ∧ (x.creator = .creating → x.alive = true)

/-- The constructor has got as far as starting the thread. -/
def Started (x : Thread Cb) : Prop := mayHaveStarted x.creator = true

/-- **What holds at each place of `Thread::run`.** -/
def At (x : Thread Cb) : RunPc → Prop
  | .notStarted => x.Unstarted ∧ x.CbKept
  | .setThread => x.Working ∧ x.CbKept
  | .readName => x.Working ∧ x.CbKept
  | .writeId => x.Working ∧ x.CbKept
  | .setName => x.Working ∧ x.CbKept ∧ x.IdSet
  | .swapCb => x.Working ∧ x.CbKept ∧ x.IdSet
  | .notify => x.Working ∧ x.CbTaken ∧ x.IdSet
  | .callback => x.Started ∧ x.CbTaken ∧ x.IdSet
  | .finished => x.Started ∧ x.CbTaken ∧ x.IdSet

/-- The invariant. -/
def Inv (x : Thread Cb) : Prop := x.touchedDead = false ∧ x.At x.runner

/-- The started thread is past its last access. -/
def Posted (x : Thread Cb) : Prop := x.runner = .callback ∨ x.runner = .finished

instance (x : Thread Cb) : Decidable x.Posted :=
  inferInstanceAs (Decidable (x.runner = .callback ∨ x.runner = .finished))

theorem inv_unconstructed : Inv ({} : Thread Cb) :=
  ⟨rfl, ⟨rfl, rfl, by intro h; cases h⟩, rfl⟩

/-! ## §2. Where the started thread can be. -/

theorem Inv.working_or {x : Thread Cb} (h : x.Inv) :
    (x.runner = .notStarted ∧ x.Unstarted ∧ x.CbKept) ∨ x.Working ∨
      (x.Posted ∧ x.Started ∧ x.CbTaken ∧ x.IdSet) := by
  obtain ⟨-, hat⟩ := h
  cases hr : x.runner with
  | notStarted => rw [hr] at hat; exact .inl ⟨rfl, hat⟩
  | callback => rw [hr] at hat; exact .inr (.inr ⟨.inl hr, hat⟩)
  | finished => rw [hr] at hat; exact .inr (.inr ⟨.inr hr, hat⟩)
  | _ => rw [hr] at hat; exact .inr (.inl hat.1)

/-- Past the last access the callback has been taken and the id set. -/
theorem Inv.of_posted {x : Thread Cb} (h : x.Inv) (hposted : x.Posted) :
    x.Started ∧ x.CbTaken ∧ x.IdSet := by
  have hat := h.2
  rcases hposted with hr | hr <;> rw [hr] at hat <;> exact hat

/-- Before `pthread_create` no thread runs. -/
theorem Inv.notStarted {x : Thread Cb} (h : x.Inv) (hpc : mayHaveStarted x.creator = false) :
    x.runner = .notStarted ∧ x.Unstarted ∧ x.CbKept := by
  rcases h.working_or with hnone | hwork | ⟨-, hstarted, -⟩
  · exact hnone
  · rw [hwork.1] at hpc
    cases hpc
  · rw [hstarted] at hpc
    cases hpc

/-- The semaphore has been posted, or the constructor has returned: the started
thread is past its last access. -/
theorem Inv.posted {x : Thread Cb} (h : x.Inv)
    (hpc : (x.creator = .waiting ∧ 0 < x.m_sem) ∨ x.creator = .returned) : x.Posted := by
  rcases h.working_or with ⟨-, hnone, -⟩ | hwork | hposted
  · have hno := hnone.2.1
    rcases hpc with ⟨hpc, -⟩ | hpc <;> rw [hpc] at hno <;> cases hno
  · rcases hpc with ⟨-, hsem⟩ | hpc
    · have := hwork.2.2
      omega
    · rw [hwork.1] at hpc
      cases hpc
  · exact hposted.1

/-- The invariant of an object whose started thread is past its last access. -/
theorem inv_of_posted {x : Thread Cb} (huntouched : x.touchedDead = false) (h : x.Posted)
    (hstarted : x.Started) (htaken : x.CbTaken) (hid : x.IdSet) : x.Inv := by
  refine ⟨huntouched, ?_⟩
  rcases h with hr | hr <;> rw [hr] <;> exact ⟨hstarted, htaken, hid⟩

/-- An access to a live object leaves no trace. -/
theorem access_alive {x : Thread Cb} (huntouched : x.touchedDead = false)
    (halive : x.alive = true) : x.access.touchedDead = false := by
  show (x.touchedDead || !x.alive) = false
  rw [huntouched, halive]
  rfl

/-! ## §3. Steps. -/

/-- **Every step of the started thread leads to the next annotation.** -/
theorem inv_runStep {x x' : Thread Cb} (h : x.Inv) (hrun : x.runStep = some x') : x'.Inv := by
  obtain ⟨huntouched, hat⟩ := h
  cases hr : x.runner with
  | notStarted =>
      simp only [runStep, hr] at hrun
      cases hrun
  | setThread =>
      simp only [runStep, hr] at hrun
      rw [hr] at hat
      cases hrun
      exact ⟨huntouched, hat⟩
  | readName =>
      simp only [runStep, hr] at hrun
      rw [hr] at hat
      cases hrun
      exact ⟨access_alive huntouched hat.1.2.1, hat⟩
  | writeId =>
      simp only [runStep, hr] at hrun
      rw [hr] at hat
      cases hrun
      exact ⟨access_alive huntouched hat.1.2.1, hat.1, hat.2, rfl⟩
  | setName =>
      simp only [runStep, hr] at hrun
      rw [hr] at hat
      cases hrun
      exact ⟨access_alive huntouched hat.1.2.1, hat⟩
  | swapCb =>
      simp only [runStep, hr] at hrun
      rw [hr] at hat
      cases hrun
      obtain ⟨hwork, hkept, hid⟩ := hat
      exact ⟨access_alive huntouched hwork.2.1, hwork, ⟨rfl, hkept⟩, hid⟩
  | notify =>
      simp only [runStep, hr] at hrun
      rw [hr] at hat
      cases hrun
      obtain ⟨hwork, htaken, hid⟩ := hat
      refine ⟨access_alive huntouched hwork.2.1, ?_, htaken, hid⟩
      show mayHaveStarted x.creator = true
      rw [hwork.1]
      rfl
  | callback =>
      simp only [runStep, hr] at hrun
      rw [hr] at hat
      cases hrun
      exact ⟨huntouched, hat⟩
  | finished =>
      simp only [runStep, hr] at hrun
      cases hrun

/-- The step is no `sem_wait` that fails before the started thread has posted. -/
def FailsLate (x : Thread Cb) : ThreadStep Cb → Prop
  | .semWaitFails => x.Posted
  | _ => True

instance (x : Thread Cb) : ∀ a : ThreadStep Cb, Decidable (x.FailsLate a)
  | .semWaitFails => inferInstanceAs (Decidable x.Posted)
  | .construct _ _ => inferInstanceAs (Decidable True)
  | .createFails => inferInstanceAs (Decidable True)
  | .create _ => inferInstanceAs (Decidable True)
  | .semWait => inferInstanceAs (Decidable True)
  | .destroy => inferInstanceAs (Decidable True)
  | .run => inferInstanceAs (Decidable True)

/-- **Every step but an early failure keeps the invariant.** -/
theorem inv_step {x x' : Thread Cb} {a : ThreadStep Cb} (h : x.Inv) (hlate : x.FailsLate a)
    (hs : step x a = some x') : x'.Inv := by
  cases moves_of_step hs with
  | construct cb name hpc =>
      -- `construct` sets the callback and the ghost `given` to the same value
      obtain ⟨hr, hnone, -⟩ := h.notStarted (by rw [hpc]; rfl)
      refine ⟨h.1, ?_⟩
      show At _ x.runner
      rw [hr]
      exact ⟨⟨hnone.1, rfl, fun _ => rfl⟩, rfl⟩
  | createFails hpc =>
      obtain ⟨hr, hnone, hkept⟩ := h.notStarted (by rw [hpc]; rfl)
      refine ⟨h.1, ?_⟩
      show At _ x.runner
      rw [hr]
      exact ⟨⟨hnone.1, rfl, by intro heq; cases heq⟩, hkept⟩
  | create threadId hpc =>
      obtain ⟨-, hnone, hkept⟩ := h.notStarted (by rw [hpc]; rfl)
      exact ⟨h.1, ⟨rfl, hnone.2.2 hpc, hnone.1⟩, hkept⟩
  | semWait hpc hsem =>
      -- a positive semaphore has been posted, and the post is the last access
      have hposted := h.posted (.inl ⟨hpc, hsem⟩)
      obtain ⟨-, htaken, hid⟩ := h.of_posted hposted
      exact inv_of_posted h.1 hposted rfl htaken hid
  | semWaitFails hpc =>
      -- the lifetime ends, but only behind the last access
      obtain ⟨-, htaken, hid⟩ := h.of_posted hlate
      exact inv_of_posted h.1 hlate rfl htaken hid
  | destroy hpc =>
      have hposted := h.posted (.inr hpc)
      obtain ⟨-, htaken, hid⟩ := h.of_posted hposted
      exact inv_of_posted h.1 hposted rfl htaken hid
  | run _ hrun => exact inv_runStep h hrun

/-! ## §4. Runs. -/

/-- No started thread has accessed a dead object, and a constructor that has
returned has left the id set and the callback taken over. -/
def Safe (x : Thread Cb) : Prop :=
  x.touchedDead = false ∧
    (x.creator = .returned → x.m_id = x.threadId ∧ x.m_cb = none ∧ x.cb = x.given)

theorem Inv.safe {x : Thread Cb} (h : x.Inv) : x.Safe := by
  refine ⟨h.1, ?_⟩
  intro hpc
  obtain ⟨-, htaken, hid⟩ := h.of_posted (h.posted (.inr hpc))
  exact ⟨hid, htaken⟩

variable {Obj : Type*} [DecidableEq Obj]

/-- Any number of objects, none constructed yet. -/
def unconstructedAll : Obj → Thread Cb := fun _ => {}

/-- The guard of a run: no object's `sem_wait` fails early. -/
def AllFailLate (s : Obj → Thread Cb) : Obj × ThreadStep Cb → Prop
  | (o, a) => (s o).FailsLate a

instance (s : Obj → Thread Cb) : ∀ l : Obj × ThreadStep Cb, Decidable (AllFailLate s l)
  | (o, a) => inferInstanceAs (Decidable ((s o).FailsLate a))

/-- Every object is safe. -/
def AllSafe (s : Obj → Thread Cb) : Prop := ∀ o, (s o).Safe

theorem allInv_step {s s' : Obj → Thread Cb} {l : Obj × ThreadStep Cb} (hs : ∀ o, (s o).Inv)
    (hlate : AllFailLate s l) (h : familyStep step s l = some s') : ∀ o, (s' o).Inv := by
  obtain ⟨o, a⟩ := l
  exact family_invariant (C := FailsLate) (fun _ _ _ => inv_step) hs hlate h

/-- **The hand-shake is safe** in every run in which no `sem_wait` fails early. -/
theorem start_up_safe (as : List (Obj × ThreadStep Cb))
    (h : Guarded (familyStep step) AllFailLate unconstructedAll as) :
    Always (familyStep step) AllSafe unconstructedAll as :=
  always_of_guarded (familyStep step) (fun s => ∀ o, (s o).Inv)
    (fun _ _ _ => allInv_step) (fun _ hs o => (hs o).safe) as unconstructedAll (fun _ => inv_unconstructed) h

/-! ## §5. After an early failure. -/

/-- Places with an access still to come. -/
def accessing : RunPc → Bool
  | .notStarted => false
  | .callback => false
  | .finished => false
  | _ => true

/-- The started thread has accessed the dead object, or is about to. -/
def Doomed (x : Thread Cb) : Prop :=
  x.touchedDead = true ∨
    (x.alive = false ∧ x.creator = .threw "sem_wait error" ∧ accessing x.runner = true)

theorem touched_access {x : Thread Cb} (h : x.touchedDead = true ∨ x.alive = false) :
    x.access.touchedDead = true := by
  show (x.touchedDead || !x.alive) = true
  rcases h with h | h <;> rw [h]
  · rfl
  · exact Bool.or_true _

/-- A doomed thread that takes a step stays doomed; unless it was at the very
start, it has then touched the object. -/
theorem doomed_runStep {x x' : Thread Cb} (h : x.Doomed) (hrun : x.runStep = some x') :
    x'.Doomed ∧ (x.runner ≠ .setThread → x'.touchedDead = true) := by
  have hdead : accessing x.runner = true → x.touchedDead = true ∨ x.alive = false := by
    intro _
    rcases h with h | h
    · exact .inl h
    · exact .inr h.1
  cases hr : x.runner with
  | notStarted =>
      simp only [runStep, hr] at hrun
      cases hrun
  | setThread =>
      simp only [runStep, hr] at hrun
      cases hrun
      refine ⟨?_, fun hne => absurd rfl hne⟩
      rcases h with h | ⟨halive, hthrew, -⟩
      · exact .inl h
      · exact .inr ⟨halive, hthrew, rfl⟩
  | callback =>
      simp only [runStep, hr] at hrun
      cases hrun
      rcases h with h | ⟨-, -, hno⟩
      · exact ⟨.inl h, fun _ => h⟩
      · rw [hr] at hno
        cases hno
  | finished =>
      simp only [runStep, hr] at hrun
      cases hrun
  | _ =>
      simp only [runStep, hr] at hrun
      cases hrun
      have htouched := touched_access (hdead (by rw [hr]; rfl))
      exact ⟨.inl htouched, fun _ => htouched⟩

/-- A doomed thread whose creator has not thrown has made its access. -/
theorem Doomed.touched {x : Thread Cb} {p : CreatorPc} (h : x.Doomed) (hpc : x.creator = p)
    (hp : p ≠ .threw "sem_wait error") : x.touchedDead = true := by
  refine h.resolve_right fun hthrown => hp ?_
  rw [← hpc]
  exact hthrown.2.1

/-- **Nothing saves a doomed thread.** -/
theorem doomed_step {x x' : Thread Cb} {a : ThreadStep Cb} (h : x.Doomed)
    (hs : step x a = some x') : x'.Doomed := by
  cases moves_of_step hs with
  | run _ hrun => exact (doomed_runStep h hrun).1
  | construct cb name hpc => exact .inl (h.touched hpc (by intro h; cases h))
  | createFails hpc => exact .inl (h.touched hpc (by intro h; cases h))
  | create threadId hpc => exact .inl (h.touched hpc (by intro h; cases h))
  | semWait hpc hsem => exact .inl (h.touched hpc (by intro h; cases h))
  | semWaitFails hpc => exact .inl (h.touched hpc (by intro h; cases h))
  | destroy hpc => exact .inl (h.touched hpc (by intro h; cases h))

/-- An early failure dooms the started thread. -/
theorem doomed_of_early {x x' : Thread Cb} {a : ThreadStep Cb} (h : x.Inv)
    (hearly : ¬ x.FailsLate a) (hs : step x a = some x') : x'.Doomed := by
  cases moves_of_step hs with
  | semWaitFails hpc =>
      rcases h.working_or with ⟨-, hnone, -⟩ | hwork | ⟨hposted, -⟩
      · have hno := hnone.2.1
        rw [hpc] at hno
        cases hno
      · right
        refine ⟨rfl, rfl, ?_⟩
        show accessing x.runner = true
        cases hr : x.runner with
        | callback => exact absurd (.inl hr) hearly
        | finished => exact absurd (.inr hr) hearly
        | notStarted =>
            have hno := h.2
            rw [hr] at hno
            have hcontra := hno.1.2.1
            rw [hpc] at hcontra
            cases hcontra
        | _ => rfl
      · exact absurd hposted hearly
  | _ => exact absurd trivial hearly

/-- Two steps of a doomed thread touch the object. -/
theorem doomed_touches {x : Thread Cb} (h : x.Doomed) (huntouched : x.touchedDead = false) :
    ∃ y, x.runStep = some y ∧ (y.touchedDead = false → ∃ z, y.runStep = some z ∧
      z.touchedDead = true) := by
  have hdoomed := h.resolve_left (by rw [huntouched]; decide)
  cases hr : x.runner with
  | setThread =>
      have hrun : x.runStep = some { x with runner := .readName } := by simp only [runStep, hr]
      refine ⟨_, hrun, fun _ => ⟨_, rfl, ?_⟩⟩
      exact touched_access (.inr hdoomed.1)
  | notStarted =>
      rw [hr] at hdoomed
      cases hdoomed.2.2
  | callback =>
      rw [hr] at hdoomed
      cases hdoomed.2.2
  | finished =>
      rw [hr] at hdoomed
      cases hdoomed.2.2
  | _ =>
      obtain ⟨y, hrun⟩ : ∃ y, x.runStep = some y := by simp only [runStep, hr]; exact ⟨_, rfl⟩
      have htouched := (doomed_runStep h hrun).2 (by rw [hr]; decide)
      exact ⟨y, hrun, fun hno => absurd (htouched.symm.trans hno) (by decide)⟩

/-- A doomed thread makes the run unsafe within two more steps. -/
theorem not_always_of_doomed {s : Obj → Thread Cb} {o : Obj} (h : (s o).Doomed) :
    ¬ Always (familyStep step) AllSafe s [(o, .run), (o, .run)] := by
  intro halways
  have hs := (halways.1 o).1
  obtain ⟨y, hy, hz⟩ := doomed_touches h hs
  have hstep : familyStep step s (o, .run) = some (Function.update s o y) :=
    familyStep_eq_some.mpr ⟨y, hy, rfl⟩
  have hnext := halways.2 _ hstep
  have hyo : Function.update s o y o = y := Function.update_self o y s
  have hyfalse := (hnext.1 o).1
  rw [hyo] at hyfalse
  obtain ⟨z, hrun, htouched⟩ := hz hyfalse
  have hstep' : familyStep step (Function.update s o y) (o, .run)
      = some (Function.update (Function.update s o y) o z) :=
    familyStep_eq_some.mpr ⟨z, by rw [hyo]; exact hrun, rfl⟩
  have hlast := ((hnext.2 _ hstep') o).1
  rw [Function.update_self, htouched] at hlast
  cases hlast

/-! ## §6. The exact condition. -/

/-- **THE HAND-SHAKE IS SAFE EXACTLY WHEN** no `sem_wait` fails before the started
thread has posted: such runs are safe in every state they reach, however the
started threads go on, and any other run can be continued by started threads to
an access to a dead object. -/
theorem start_up_iff (as : List (Obj × ThreadStep Cb)) (s : Obj → Thread Cb)
    (hrun : exec (familyStep step) unconstructedAll as = some s) :
    Guarded (familyStep step) AllFailLate unconstructedAll as ↔
      ∀ bs : List (Obj × ThreadStep Cb), (∀ b ∈ bs, b.2 = .run) →
        Always (familyStep step) AllSafe unconstructedAll (as ++ bs) := by
  constructor
  · intro hguarded bs hbs
    refine start_up_safe (as ++ bs) (guarded_append (familyStep step) ?_ as _ hguarded)
    rintro ⟨o, a⟩ hb t
    obtain rfl : a = .run := hbs _ hb
    exact trivial
  · intro hsafe
    by_contra hearly
    have hdoomed : ∃ o, (s o).Doomed := by
      refine marked_of_unguarded (familyStep step) (fun s => ∀ o, (s o).Inv)
        (fun s => ∃ o, (s o).Doomed) (fun _ _ _ => allInv_step) ?_ ?_ as unconstructedAll s
        (fun _ => inv_unconstructed) hrun hearly
      · rintro s ⟨o, a⟩ s' hs hC h
        obtain ⟨x, hx, rfl⟩ := familyStep_eq_some.mp h
        refine ⟨o, ?_⟩
        rw [Function.update_self]
        exact doomed_of_early (hs o) hC hx
      · rintro s ⟨o, a⟩ s' ⟨o', hdoom⟩ h
        obtain ⟨x, hx, rfl⟩ := familyStep_eq_some.mp h
        refine ⟨o', ?_⟩
        by_cases ho : o' = o
        · subst ho
          rw [Function.update_self]
          exact doomed_step hdoom hx
        · rw [Function.update_of_ne ho]
          exact hdoom
    obtain ⟨o, ho⟩ := hdoomed
    refine not_always_of_doomed ho (always_of_append (familyStep step) as _ s hrun (hsafe _ ?_))
    intro b hb
    simp only [List.mem_cons, List.not_mem_nil, or_false, or_self] at hb
    rw [hb]

end Thread

/-- One object from construction to destruction. -/
def oneThread : List (Unit × ThreadStep Unit) :=
  [((), .construct (some ()) "worker".toList), ((), .create 42), ((), .run), ((), .run),
    ((), .run), ((), .run), ((), .run), ((), .run), ((), .semWait), ((), .destroy), ((), .run)]

theorem start_up_iff_oneThread :
    Library.Always (Library.familyStep Thread.step) Thread.AllSafe Thread.unconstructedAll
      (oneThread ++ []) :=
  (Thread.start_up_iff oneThread _ (Option.some_get (by decide)).symm).mp (by decide) []
    (by intro b hb; cases hb)

/-- A signal interrupts `sem_wait` before the started thread has read its name. -/
theorem interrupted_start_up :
    ¬ ∀ as : List (Unit × ThreadStep Unit),
      Library.Always (Library.familyStep Thread.step) Thread.AllSafe Thread.unconstructedAll as := by
  intro h
  have hrun := h [((), .construct (some ()) "worker".toList), ((), .create 42),
    ((), .semWaitFails), ((), .run), ((), .run)]
  have hlast := ((((hrun.2 _ rfl).2 _ rfl).2 _ rfl).2 _ rfl).2 _ rfl
  exact absurd (hlast ()).1 (by decide)

end SylarCot.Sync
