/-
  SylarCot.Sync.Completion
  ────────────────────────
  **CONSTRUCTORS AND JOINS RETURN.**  The constructor of `Thread` waits for a post of the
  thread it starts, `join` waits for that thread to finish.  Calling an empty function ends
  the process, and a `pthread_join` on a released thread never returns; so the callbacks
  have to be there, and the calls on one object must not overlap.

    • `live_step` — a constructor that waits has a started thread that has still to
      post, or has posted; kept by every step, overlapping calls or not;
    • `callback_step` — a started thread has the callback its object was given;
    • `completes` — so in every such run somebody can go on while a constructor or a
      `join` has not returned, and in every run all of them together take a bounded
      number of steps.
-/
import SylarCot.Sync.Lifecycle

namespace SylarCot.Sync

open Library

namespace JoinableThread

variable {Cb Tid : Type*}

/-! ## §1. What is waited for. -/

/-- A constructor that waits, or a thread in `join`. -/
def Pending (x : JoinableThread Cb Tid) : Prop :=
  x.thread.creator = .waiting ∨ ∃ t, x.joinPc t ≠ .outside

/-- A step of a call that has been made, or of the started thread; the call of an empty
function is no step to go on with. -/
def GoesOn (x : JoinableThread Cb Tid) : LifeStep Cb Tid → Prop
  | .run _ => True
  | .thread .run => x.thread.runner = .callback → x.thread.cb ≠ none
  | .thread .semWait => True
  | _ => False

/-- The step does not construct an object with an empty callback. -/
def GivesCallback : LifeStep Cb Tid → Prop
  | .thread (.construct none _) => False
  | _ => True

instance : ∀ a : LifeStep Cb Tid, Decidable (GivesCallback a)
  | .thread (.construct none _) => .isFalse id
  | .thread (.construct (some _) _) | .thread .createFails | .thread (.create _)
  | .thread .semWait | .thread .semWaitFails | .thread .destroy | .thread .run
  | .join _ | .joinFails _ | .run _ => .isTrue trivial

/-- An object that has been constructed has been given a callback. -/
def HasCallback (x : JoinableThread Cb Tid) : Prop :=
  x.thread.creator ≠ .unconstructed → x.thread.given ≠ none

/-- No thread is started before `pthread_create`; whoever waits for the started thread
waits for one that has been started, and one that has posted has left its post. -/
structure Live (x : JoinableThread Cb Tid) : Prop where
  fresh : Thread.mayHaveStarted x.thread.creator = false → x.thread.runner = .notStarted
  started : x.thread.runner = .notStarted →
    x.thread.creator ≠ .waiting ∧ x.thread.creator ≠ .returned ∧ x.Idle
  posted : x.thread.creator = .waiting → x.thread.Posted → 0 < x.thread.m_sem

theorem live_unconstructed : Live ({} : JoinableThread Cb Tid) where
  fresh _ := rfl
  started _ := ⟨CreatorPc.noConfusion, CreatorPc.noConfusion, fun _ => rfl⟩
  posted h := by cases h

/-- A step of the started thread: it has been started, and its post counts. -/
theorem live_runStep {x x' : Thread Cb} (h : x.runStep = some x')
    (hposted : x.creator = .waiting → x.Posted → 0 < x.m_sem) :
    x.runner ≠ .notStarted ∧ x'.runner ≠ .notStarted ∧
      (x'.creator = .waiting → x'.Posted → 0 < x'.m_sem) := by
  cases hr : x.runner with
  | notStarted =>
      simp only [Thread.runStep, hr] at h
      cases h
  | finished =>
      simp only [Thread.runStep, hr] at h
      cases h
  | notify =>
      simp only [Thread.runStep, hr] at h
      cases h
      exact ⟨RunPc.noConfusion, RunPc.noConfusion, fun _ _ => Nat.succ_pos x.m_sem⟩
  | callback =>
      simp only [Thread.runStep, hr] at h
      cases h
      exact ⟨RunPc.noConfusion, RunPc.noConfusion, fun hpc _ => hposted hpc (.inl hr)⟩
  | _ =>
      simp only [Thread.runStep, hr] at h
      cases h
      refine ⟨RunPc.noConfusion, RunPc.noConfusion, fun _ hp => ?_⟩
      rcases hp with hp | hp <;> cases hp

/-- Steps of the constructor, the destructor and the started thread. -/
theorem live_thread {x : JoinableThread Cb Tid} {a : ThreadStep Cb} {th : Thread Cb}
    (h : x.Live) (hs : x.thread.step a = some th) :
    Live { x with thread := th } := by
  cases Thread.moves_of_step hs with
  | construct cb name hpc =>
      refine ⟨fun _ => h.fresh (by rw [hpc]; rfl), fun hr => ?_, CreatorPc.noConfusion⟩
      exact ⟨CreatorPc.noConfusion, CreatorPc.noConfusion, (h.started hr).2.2⟩
  | createFails hpc =>
      refine ⟨fun hno => (by cases hno), fun hr => ?_, CreatorPc.noConfusion⟩
      exact ⟨CreatorPc.noConfusion, CreatorPc.noConfusion, (h.started hr).2.2⟩
  | create threadId hpc =>
      refine ⟨fun hno => (by cases hno), RunPc.noConfusion, fun _ hp => ?_⟩
      rcases hp with hp | hp <;> cases hp
  | semWait hpc hsem =>
      exact ⟨fun hno => (by cases hno), fun hr => absurd hpc (h.started hr).1,
        CreatorPc.noConfusion⟩
  | semWaitFails hpc =>
      exact ⟨fun hno => (by cases hno), fun hr => absurd hpc (h.started hr).1,
        CreatorPc.noConfusion⟩
  | destroy hpc =>
      exact ⟨fun hno => (by cases hno), fun hr => absurd hpc (h.started hr).2.1,
        CreatorPc.noConfusion⟩
  | run _ hrun =>
      obtain ⟨hbefore, hstarted, hposted⟩ := live_runStep hrun h.posted
      refine ⟨fun hpc => ?_, fun hr => absurd hr hstarted, hposted⟩
      rw [show th.creator = x.thread.creator from (runStep_frame hrun).1] at hpc
      exact absurd (h.fresh hpc) hbefore

theorem thread_afterThread (x : JoinableThread Cb Tid) (a : ThreadStep Cb) (th : Thread Cb) :
    (x.afterThread a th).thread = th ∧ (x.afterThread a th).joinPc = x.joinPc := by
  cases a with
  | destroy =>
      cases hhandle : x.m_thread_handle with
      | true =>
          rw [afterThread_destroy_held hhandle]
          exact ⟨rfl, rfl⟩
      | false =>
          rw [afterThread_destroy_forgotten hhandle]
          exact ⟨rfl, rfl⟩
  | _ => exact ⟨rfl, rfl⟩

/-- It says nothing of the handle and what has been released. -/
theorem Live.congr {x x' : JoinableThread Cb Tid} (h : x.Live) (hthread : x'.thread = x.thread)
    (hjoin : x'.joinPc = x.joinPc ∨ x.thread.runner ≠ .notStarted) : x'.Live := by
  refine ⟨?_, ?_, ?_⟩
  · rw [hthread]
    exact h.fresh
  · intro hr
    rw [hthread] at hr
    obtain ⟨hwaiting, hreturned, hidle⟩ := h.started hr
    rw [hthread]
    refine ⟨hwaiting, hreturned, fun t => ?_⟩
    rw [hjoin.resolve_right (fun hno => hno hr)]
    exact hidle t
  · rw [hthread]
    exact h.posted

theorem given_runStep {x x' : Thread Cb} (h : x.runStep = some x') : x'.given = x.given := by
  cases hr : x.runner with
  | notStarted =>
      simp only [Thread.runStep, hr] at h
      cases h
  | finished =>
      simp only [Thread.runStep, hr] at h
      cases h
  | _ =>
      simp only [Thread.runStep, hr] at h
      cases h
      rfl

variable [DecidableEq Tid]

/-- **Every step keeps it**, whatever overlaps. -/
theorem live_step {x x' : JoinableThread Cb Tid} {a : LifeStep Cb Tid} (h : x.Live)
    (hs : step x a = some x') : x'.Live := by
  have hin : ∀ t, x.joinPc t ≠ .outside → x.thread.runner ≠ .notStarted :=
    fun t ht hr => ht ((h.started hr).2.2 t)
  cases moves_of_step hs with
  | thread a th hth =>
      obtain ⟨hthread, hjoin⟩ := thread_afterThread x a th
      exact (live_thread h hth).congr hthread (.inl hjoin)
  | call t hout hpc => exact h.congr rfl (.inr fun hr => (h.started hr).2.1 hpc)
  | fails t hpc => exact h.congr rfl (.inr (hin t (by rw [hpc]; decide)))
  | enter t hpc hhandle => exact h.congr rfl (.inr (hin t (by rw [hpc]; decide)))
  | skip t hpc hhandle => exact h.congr rfl (.inr (hin t (by rw [hpc]; decide)))
  | wait t hpc hreleased hfinished => exact h.congr rfl (.inr (hin t (by rw [hpc]; decide)))
  | again t hpc hreleased => exact h.congr rfl (.inr (hin t (by rw [hpc]; decide)))
  | forget t hpc => exact h.congr rfl (.inr (hin t (by rw [hpc]; decide)))

/-- **The callback an object was given stays.** -/
theorem callback_step {x x' : JoinableThread Cb Tid} {a : LifeStep Cb Tid} (h : x.HasCallback)
    (hgives : GivesCallback a) (hs : step x a = some x') : x'.HasCallback := by
  cases moves_of_step hs with
  | thread a th hth =>
      unfold HasCallback
      rw [(thread_afterThread x a th).1]
      cases Thread.moves_of_step hth with
      | construct cb name hpc =>
          cases cb with
          | none => exact hgives.elim
          | some cb => exact fun _ => Option.some_ne_none cb
      | createFails hpc => exact fun _ => h (by rw [hpc]; exact CreatorPc.noConfusion)
      | create threadId hpc => exact fun _ => h (by rw [hpc]; exact CreatorPc.noConfusion)
      | semWait hpc hsem => exact fun _ => h (by rw [hpc]; exact CreatorPc.noConfusion)
      | semWaitFails hpc => exact fun _ => h (by rw [hpc]; exact CreatorPc.noConfusion)
      | destroy hpc => exact fun _ => h (by rw [hpc]; exact CreatorPc.noConfusion)
      | run _ hrun =>
          rw [(runStep_frame hrun).1, given_runStep hrun]
          exact h
  | _ => exact h

/-! ## §2. Somebody can go on. -/

omit [DecidableEq Tid] in
/-- A started thread that has not finished has a next step. -/
theorem exists_runStep {x : Thread Cb} (hstarted : x.runner ≠ .notStarted)
    (hrunning : x.runner ≠ .finished) : ∃ x', x.runStep = some x' := by
  cases hr : x.runner with
  | notStarted => exact absurd hr hstarted
  | finished => exact absurd hr hrunning
  | _ =>
      simp only [Thread.runStep, hr]
      exact ⟨_, rfl⟩

/-- What is known of an object in a run without overlap whose callbacks are there. -/
structure Proper (x : JoinableThread Cb Tid) : Prop where
  life : x.LifeInv
  live : x.Live
  callback : x.HasCallback

omit [DecidableEq Tid] in
/-- A started thread calls the function its object was given. -/
theorem Proper.cb_ne_none {x : JoinableThread Cb Tid} (h : x.Proper)
    (hpc : x.thread.creator = .waiting ∨ x.thread.creator = .returned)
    (hr : x.thread.runner = .callback) : x.thread.cb ≠ none := by
  have hthrew : x.thread.creator ≠ .threw "sem_wait error" := by
    rcases hpc with hpc | hpc <;> rw [hpc] <;> exact CreatorPc.noConfusion
  have hconstructed : x.thread.creator ≠ .unconstructed := by
    rcases hpc with hpc | hpc <;> rw [hpc] <;> exact CreatorPc.noConfusion
  obtain ⟨-, ⟨-, hcb⟩, -⟩ := (h.life.startUp.resolve_left hthrew).of_posted (.inl hr)
  rw [hcb]
  exact h.callback hconstructed

/-- So it can make it. -/
theorem Proper.goesOn_run {x : JoinableThread Cb Tid} (h : x.Proper)
    (hpc : x.thread.creator = .waiting ∨ x.thread.creator = .returned)
    (hstarted : x.thread.runner ≠ .notStarted) (hrunning : x.thread.runner ≠ .finished) :
    ∃ a, x.GoesOn a ∧ (step x a).isSome := by
  obtain ⟨th, hth⟩ := exists_runStep hstarted hrunning
  refine ⟨.thread .run, h.cb_ne_none hpc, ?_⟩
  show (x.thread.runStep.map _).isSome
  rw [hth]
  rfl

/-- **While a call has not returned, somebody can go on.** -/
theorem Proper.goesOn {x : JoinableThread Cb Tid} (h : x.Proper) (hpending : x.Pending) :
    ∃ a, x.GoesOn a ∧ (step x a).isSome := by
  rcases hpending with hwaiting | ⟨t, ht⟩
  · have hstarted : x.thread.runner ≠ .notStarted := fun hr => (h.live.started hr).1 hwaiting
    by_cases hposted : x.thread.Posted
    · refine ⟨.thread .semWait, trivial, ?_⟩
      have hsem : x.thread.creator = .waiting ∧ 0 < x.thread.m_sem :=
        ⟨hwaiting, h.live.posted hwaiting hposted⟩
      show ((if _ then _ else _ : Option (Thread Cb)).map _).isSome
      rw [if_pos hsem]
      rfl
    · -- the post is still to come
      exact h.goesOn_run (.inl hwaiting) hstarted fun hr => hposted (.inr hr)
  · have hstarted : x.thread.runner ≠ .notStarted := fun hr => ht ((h.live.started hr).2.2 t)
    have hrun : x.joinPc t ≠ .joining ∨ x.thread.runner = .finished →
        ∃ a, x.GoesOn a ∧ (step x a).isSome := by
      intro hfree
      refine ⟨.run t, trivial, ?_⟩
      show (x.runJoin t).isSome
      cases h.life.stage.busy ht with
      | held hhandle hreleased hpc =>
          rcases hpc with hpc | hpc
          · simp only [runJoin, hpc, hhandle, if_true]
            rfl
          · have hfinished := hfree.resolve_left fun hno => hno hpc
            simp only [runJoin, hpc, if_pos hreleased, if_pos hfinished]
            rfl
      | joined _ _ hpc =>
          simp only [runJoin, hpc]
          rfl
      | forgotten hhandle _ hpc =>
          simp only [runJoin, hpc, hhandle, Bool.false_eq_true, if_false]
          rfl
    by_cases hfinished : x.thread.runner = .finished
    · exact hrun (.inr hfinished)
    · -- `pthread_join` waits for the started thread, which can go on
      exact h.goesOn_run (.inr (h.life.stage.returned ht)) hstarted hfinished

/-! ## §3. Steps are bounded. -/

/-- The steps that are left of `Thread::run`. -/
def runRemaining : RunPc → Nat
  | .notStarted => 7
  | .setThread => 7
  | .readName => 6
  | .writeId => 5
  | .setName => 4
  | .swapCb => 3
  | .notify => 2
  | .callback => 1
  | .finished => 0

/-- The steps that are left of `join`. -/
def joinRemaining : JoinPc → Nat
  | .outside => 0
  | .test => 3
  | .joining => 2
  | .reset => 1
  | .lost => 0

/-- The label is a step of the started thread. -/
def isRun : LifeStep Cb Tid → Bool
  | .thread .run => true
  | _ => false

/-- The label is a step of the thread in `join`. -/
def isRunOf (t : Tid) : LifeStep Cb Tid → Bool
  | .run u => u = t
  | _ => false

/-- The label is a call of `join` by the thread. -/
def isJoinOf (t : Tid) : LifeStep Cb Tid → Bool
  | .join u => u = t
  | _ => false

omit [DecidableEq Tid] in
theorem runRemaining_runStep {x x' : Thread Cb} (h : x.runStep = some x') :
    1 + runRemaining x'.runner = runRemaining x.runner := by
  cases hr : x.runner with
  | notStarted =>
      simp only [Thread.runStep, hr] at h
      cases h
  | finished =>
      simp only [Thread.runStep, hr] at h
      cases h
  | _ =>
      simp only [Thread.runStep, hr] at h
      cases h
      rfl

/-- **The started thread pays for its steps.** -/
theorem pays_run {x x' : JoinableThread Cb Tid} {a : LifeStep Cb Tid} (h : x.Live)
    (hs : step x a = some x') :
    (if isRun a then 1 else 0) + runRemaining x'.thread.runner
      ≤ runRemaining x.thread.runner + if (fun _ => false) a then 0 else 0 := by
  cases moves_of_step hs with
  | thread a th hth =>
      rw [(thread_afterThread x a th).1]
      cases Thread.moves_of_step hth with
      -- a thread that is started has all its steps left
      | create threadId hpc =>
          rw [h.fresh (by rw [hpc]; rfl)]
          exact Nat.le_refl 7
      | run _ hrun => exact Nat.le_of_eq (runRemaining_runStep hrun)
      | _ => simp [isRun]
  | _ => simp [isRun, setPc, leave, access, release]

/-- A step within `join`: who takes it has one less to take. -/
theorem pays_within {x z : JoinableThread Cb Tid} (t : Tid) {u : Tid} {p : JoinPc}
    (hz : z.joinPc = x.joinPc) (hp : 1 + joinRemaining p ≤ joinRemaining (x.joinPc u)) :
    (if isRunOf t (.run u : LifeStep Cb Tid) then 1 else 0) + joinRemaining ((z.setPc u p).joinPc t)
      ≤ joinRemaining (x.joinPc t) + if isJoinOf t (.run u : LifeStep Cb Tid) then 3 else 0 := by
  by_cases hu : u = t
  · subst hu
    simpa [isRunOf, isJoinOf] using hp
  · rw [setPc_other z (Ne.symm hu), hz]
    simp [isRunOf, isJoinOf, hu]

/-- **A thread pays for its `join`.** -/
theorem pays_join {x x' : JoinableThread Cb Tid} {a : LifeStep Cb Tid} (t : Tid)
    (hs : step x a = some x') :
    (if isRunOf t a then 1 else 0) + joinRemaining (x'.joinPc t)
      ≤ joinRemaining (x.joinPc t) + if isJoinOf t a then 3 else 0 := by
  cases moves_of_step hs with
  | thread a th hth =>
      rw [(thread_afterThread x a th).2]
      simp [isRunOf, isJoinOf]
  | call u hout hpc =>
      by_cases hu : u = t
      · subst hu
        simp [isRunOf, isJoinOf, hout, joinRemaining]
      · rw [setPc_other x (Ne.symm hu)]
        simp [isRunOf, isJoinOf, hu]
  | fails u hpc =>
      by_cases hu : u = t
      · subst hu
        simp [isRunOf, isJoinOf, joinRemaining]
      · rw [setPc_other x (Ne.symm hu)]
        simp [isRunOf, isJoinOf]
  | enter u hpc hhandle => exact pays_within (z := x.access) t rfl (by rw [hpc]; decide)
  | skip u hpc hhandle => exact pays_within (z := x.access) t rfl (by rw [hpc]; decide)
  | wait u hpc hreleased hfinished =>
      exact pays_within (z := x.release) t rfl (by rw [hpc]; decide)
  | again u hpc hreleased =>
      exact pays_within (z := { x with misused := true }) t rfl (by rw [hpc]; decide)
  | forget u hpc =>
      exact pays_within (z := { x.access with m_thread_handle := false }) t rfl (by rw [hpc]; decide)

/-! ## §4. Runs. -/

variable {Obj : Type*} [DecidableEq Obj]

/-- How many labels of a run are steps of one object of this kind. -/
def countOn (o : Obj) (p : LifeStep Cb Tid → Bool) (as : List (Obj × LifeStep Cb Tid)) : Nat :=
  as.countP fun l => decide (l.1 = o) && p l.2

/-- The guard of a run: no calls on one object overlap, and every callback is there. -/
def AllProper (s : Obj → JoinableThread Cb Tid) (l : Obj × LifeStep Cb Tid) : Prop :=
  AllExclusive s l ∧ GivesCallback l.2

instance [Fintype Tid] (s : Obj → JoinableThread Cb Tid) (l : Obj × LifeStep Cb Tid) :
    Decidable (AllProper s l) :=
  inferInstanceAs (Decidable (_ ∧ _))

theorem proper_step {s s' : Obj → JoinableThread Cb Tid} {l : Obj × LifeStep Cb Tid}
    (hs : ∀ o, (s o).Proper) (hproper : AllProper s l) (h : familyStep step s l = some s') :
    ∀ o, (s' o).Proper := by
  obtain ⟨o, a⟩ := l
  have hC : (s o).Exclusive a ∧ GivesCallback a := hproper
  refine family_invariant (C := fun (x : JoinableThread Cb Tid) b =>
    x.Exclusive b ∧ GivesCallback b) ?_ hs hC h
  intro x b x' hx hb hstep
  exact ⟨inv_step hx.life hb.1 hstep, live_step hx.live hstep, callback_step hx.callback hb.2 hstep⟩

/-- **CONSTRUCTORS AND JOINS RETURN.**  In every state that a run without overlapping calls
reaches, all its callbacks being there, somebody can go on while a constructor waits or a
thread is in `join`; and in any run a started thread has taken at most 7 steps, a thread at
most 3 for each of its calls of `join`. -/
theorem completes (as : List (Obj × LifeStep Cb Tid)) (s : Obj → JoinableThread Cb Tid)
    (hrun : exec (familyStep step) unconstructedAll as = some s) (o : Obj) :
    (Guarded (familyStep step) AllProper unconstructedAll as → (s o).Pending →
        ∃ a, (s o).GoesOn a ∧ (step (s o) a).isSome) ∧
      countOn o isRun as ≤ 7 ∧
      ∀ t, countOn o (isRunOf t) as ≤ 3 * countOn o (isJoinOf t) as := by
  have hstart : ∀ p : Obj, (unconstructedAll p : JoinableThread Cb Tid).Live :=
    fun _ => live_unconstructed
  refine ⟨fun hguarded hpending => ?_, ?_, fun t => ?_⟩
  · have hproper : ∀ p, (s p).Proper :=
      Guarded.exec_invariant (fun s => ∀ p, (s p).Proper) (fun _ _ _ => proper_step) as _ s
        (fun _ => ⟨lifeInv_unconstructed, live_unconstructed, fun hno => absurd rfl hno⟩)
        hguarded hrun
    exact (hproper o).goesOn hpending
  · have hpaid := family_countP_le step Live (fun _ _ _ h hs => live_step h hs)
      (fun x => runRemaining x.thread.runner) (fun _ _ _ h hs => pays_run h hs) o as hstart hrun
    have hseven : runRemaining (unconstructedAll o : JoinableThread Cb Tid).thread.runner = 7 := rfl
    rw [hseven] at hpaid
    unfold countOn
    omega
  · have hpaid := family_countP_le step Live (fun _ _ _ h hs => live_step h hs)
      (fun x => joinRemaining (x.joinPc t)) (fun _ _ _ _ hs => pays_join t hs) o as hstart hrun
    have hzero : joinRemaining ((unconstructedAll o : JoinableThread Cb Tid).joinPc t) = 0 := rfl
    rw [hzero] at hpaid
    unfold countOn
    omega

end JoinableThread

/-- Two objects: the callback of the one runs and `true` is at `pthread_join`; the
constructor of the other waits. -/
def joinAndConstruct : List (Bool × LifeStep Unit Bool) :=
  [.thread (.construct (some ()) "worker".toList), .thread (.create 42), .thread .run,
    .thread .run, .thread .run, .thread .run, .thread .run, .thread .run, .thread .semWait,
    .join true, .run true].map (Prod.mk true)
  ++ [.thread (.construct (some ()) []), .thread (.create 43)].map (Prod.mk false)

def joiningAndWaiting : Bool → JoinableThread Unit Bool :=
  (exec (familyStep JoinableThread.step) JoinableThread.unconstructedAll joinAndConstruct).get
    (by decide)

theorem completes_joiningAndWaiting :
    (∃ a, (joiningAndWaiting true).GoesOn a ∧
        (JoinableThread.step (joiningAndWaiting true) a).isSome) ∧
      ∃ a, (joiningAndWaiting false).GoesOn a ∧
        (JoinableThread.step (joiningAndWaiting false) a).isSome := by
  have h := JoinableThread.completes joinAndConstruct joiningAndWaiting (Option.some_get _).symm
  constructor
  · exact (h true).1 (by decide) (.inr ⟨true, by decide⟩)
  · exact (h false).1 (by decide) (.inl (by decide))

end SylarCot.Sync
