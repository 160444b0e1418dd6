/-
  SylarCot.Config.Notifications
  ─────────────────────────────
  **WHEN THE NOTIFICATIONS OF A `ConfigVar` MATCH ITS CHANGES.**

  `setValue` announces `(m_val, val)` under the reader lock and assigns under the
  writer lock, and drops the one before it takes the other.  As long as no second
  thread passes its comparison in that gap and no callback throws, a callback's
  notifications are the changes so far, plus at most the announcement of the one
  thread in the gap:

    • `inv_step` — a step that meets this condition keeps the invariant;
    • `notifications_match` — so in every state of such a run notifications match
      changes, and when no call is in progress a listener that replays its
      notifications holds the current value;
    • `overlapping_setters` — two threads in the gap announce the same old value.
-/
import Mathlib.Data.Fintype.Basic
import SylarCot.Config.SetValue

namespace SylarCot.Config

open Library

variable {Tid T : Type*}

/-! ## §1. Notifications and changes. -/

/-- The notifications one callback has received, in order. -/
def notes (key : UInt64) (history : List (Event T)) : List (T × T) :=
  history.filterMap fun
    | .invoked k old_val new_value => if k = key then some (old_val, new_value) else none
    | .assigned _ _ => none

/-- The assignments that changed the value, in order. -/
def changes [DecidableEq T] (history : List (Event T)) : List (T × T) :=
  history.filterMap fun
    | .invoked _ _ _ => none
    | .assigned old_val new_value => if old_val = new_value then none else some (old_val, new_value)

/-- The value of a listener that follows what it is told. -/
def replay (init : T) (told : List (T × T)) : T := told.foldl (fun _ change => change.2) init

@[simp] theorem notes_invoked_self (key : UInt64) (h : List (Event T)) (a b : T) :
    notes key (h ++ [.invoked key a b]) = notes key h ++ [(a, b)] := by
  simp [notes]

theorem notes_invoked_ne {key k : UInt64} (hk : k ≠ key) (h : List (Event T)) (a b : T) :
    notes key (h ++ [.invoked k a b]) = notes key h := by
  simp [notes, hk]

@[simp] theorem notes_assigned (key : UInt64) (h : List (Event T)) (a b : T) :
    notes key (h ++ [.assigned a b]) = notes key h := by
  simp [notes]

variable [DecidableEq T]

@[simp] theorem changes_invoked (key : UInt64) (h : List (Event T)) (a b : T) :
    changes (h ++ [.invoked key a b]) = changes h := by
  simp [changes]

theorem changes_assigned {a b : T} (hab : a ≠ b) (h : List (Event T)) :
    changes (h ++ [.assigned a b]) = changes h ++ [(a, b)] := by
  simp [changes, hab]

omit [DecidableEq T] in
theorem replay_append (init : T) (told : List (T × T)) (change : T × T) :
    replay init (told ++ [change]) = change.2 := by
  unfold replay
  rw [List.foldl_append]
  rfl

namespace SharedVar

/-! ## §2. The property and the condition. -/

/-- Between the comparison that found a difference and the assignment. -/
def Announcing : SetPc T → Prop
  | .callbacks _ _ => True
  | .writeLock _ => True
  | .assign _ => True
  | _ => False

/-- No call is in progress. -/
def Quiescent (s : SharedVar Tid T) : Prop := ∀ t, s.pc t = .idle

/-- Every callback has been told of all changes, each once and in order, and of
at most one that is still to come; and once all calls have returned, of nothing
else, so that replaying the notifications gives the current value. -/
def NotesMatch (init : T) (s : SharedVar Tid T) : Prop :=
  ∀ key ∈ s.m_cbs.keys,
    (∃ pending, notes key s.history = changes s.history ++ pending ∧ pending.length ≤ 1) ∧
      (s.Quiescent → notes key s.history = changes s.history ∧
        replay init (notes key s.history) = s.m_val)

/-- No callback throws, and a thread that finds a difference is alone in the gap
between comparison and assignment. -/
def Undisturbed (s : SharedVar Tid T) : SetLabel Tid T → Prop
  | .call _ _ => True
  | .throws _ => False
  | .run t => ∀ val, s.pc t = .compare val → val ≠ s.m_val → ∀ u, ¬ Announcing (s.pc u)

instance : ∀ p : SetPc T, Decidable (Announcing p)
  | .callbacks _ _ | .writeLock _ | .assign _ => .isTrue trivial
  | .idle | .readLock _ | .compare _ | .readUnlockLeave | .writeUnlock => .isFalse id

instance [Fintype Tid] (s : SharedVar Tid T) : ∀ a, Decidable (s.Undisturbed a)
  | .call _ _ => .isTrue trivial
  | .throws _ => .isFalse id
  | .run t =>
      match hpc : s.pc t with
      | .compare val =>
          decidable_of_iff (val ≠ s.m_val → ∀ u, ¬ Announcing (s.pc u))
            ⟨fun h _ hval => by cases hpc.symm.trans hval; exact h, fun h => h val hpc⟩
      | .idle | .readLock _ | .callbacks _ _ | .readUnlockLeave | .writeLock _ | .assign _
      | .writeUnlock => .isTrue fun _ hval => by cases hpc.symm.trans hval

/-- The condition of a step; without callbacks there is nothing to disturb. -/
def Orderly (s : SharedVar Tid T) (a : SetLabel Tid T) : Prop :=
  s.m_cbs.keys = [] ∨ s.Undisturbed a

instance [Fintype Tid] (s : SharedVar Tid T) (a : SetLabel Tid T) :
    Decidable (s.Orderly a) :=
  inferInstanceAs (Decidable (_ ∨ _))

/-! ## §3. The invariant. -/

/-- What the callbacks have been told when a thread is at a place. -/
def Told (s : SharedVar Tid T) : SetPc T → Prop
  | .callbacks val rest =>
      val ≠ s.m_val ∧ rest.Nodup ∧
        ∀ key ∈ s.m_cbs.keys, notes key s.history
          = changes s.history ++ if key ∈ rest then [] else [(s.m_val, val)]
  | .writeLock val =>
      val ≠ s.m_val ∧
        ∀ key ∈ s.m_cbs.keys, notes key s.history = changes s.history ++ [(s.m_val, val)]
  | .assign val =>
      val ≠ s.m_val ∧
        ∀ key ∈ s.m_cbs.keys, notes key s.history = changes s.history ++ [(s.m_val, val)]
  | _ => True

/-- The callbacks have been told exactly the changes so far. -/
def UpToDate (s : SharedVar Tid T) : Prop :=
  ∀ key ∈ s.m_cbs.keys, notes key s.history = changes s.history

/-- The invariant. -/
structure Inv (init : T) (s : SharedVar Tid T) : Prop where
  alone : ∀ t u, Announcing (s.pc t) → Announcing (s.pc u) → t = u
  told : ∀ t, s.Told (s.pc t)
  upToDate : (∀ t, ¬ Announcing (s.pc t)) → s.UpToDate
  replayed : replay init (changes s.history) = s.m_val

theorem inv_new (init : T) (cbs : CallbackMap) : Inv init (new init cbs : SharedVar Tid T) where
  alone := by
    intro t u h
    cases h
  told := by
    intro t
    trivial
  upToDate := by
    intro _ key _
    rfl
  replayed := rfl

theorem told_of_not_announcing (s : SharedVar Tid T) {p : SetPc T} (h : ¬ Announcing p) :
    s.Told p := by
  cases p with
  | callbacks _ _ => exact absurd trivial h
  | writeLock _ => exact absurd trivial h
  | assign _ => exact absurd trivial h
  | _ => trivial

/-- A thread in the gap has told every callback of its change, or still means to. -/
theorem told_pending {s : SharedVar Tid T} {p : SetPc T} (h : s.Told p) (hp : Announcing p)
    {key : UInt64} (hkey : key ∈ s.m_cbs.keys) :
    ∃ pending, notes key s.history = changes s.history ++ pending ∧ pending.length ≤ 1 := by
  cases p with
  | callbacks val rest =>
      refine ⟨_, h.2.2 key hkey, ?_⟩
      split
      · exact Nat.zero_le 1
      · exact Nat.le_refl 1
  | writeLock val => exact ⟨_, h.2 key hkey, Nat.le_refl 1⟩
  | assign val => exact ⟨_, h.2 key hkey, Nat.le_refl 1⟩
  | _ => cases hp

/-- **The invariant gives the property.** -/
theorem Inv.notesMatch {init : T} {s : SharedVar Tid T} (h : Inv init s) : s.NotesMatch init := by
  intro key hkey
  constructor
  · by_cases hgap : ∃ t, Announcing (s.pc t)
    · obtain ⟨t, ht⟩ := hgap
      exact told_pending (h.told t) ht hkey
    · have hnone := not_exists.mp hgap
      exact ⟨[], by rw [h.upToDate hnone key hkey, List.append_nil], Nat.zero_le 1⟩
  · intro hquiet
    have hnone : ∀ t, ¬ Announcing (s.pc t) := by
      intro t
      rw [hquiet t]
      exact id
    have hnotes := h.upToDate hnone key hkey
    refine ⟨hnotes, ?_⟩
    rw [hnotes]
    exact h.replayed

/-! ## §4. Steps. -/

variable [DecidableEq Tid]

/-- A thread outside the gap that stays outside changes nothing that matters. -/
theorem inv_outside {init : T} {s s' : SharedVar Tid T} {t : Tid} {p : SetPc T} (h : Inv init s)
    (hpc : s'.pc = Function.update s.pc t p) (hval : s'.m_val = s.m_val)
    (hcbs : s'.m_cbs = s.m_cbs) (hhistory : s'.history = s.history)
    (ht : ¬ Announcing (s.pc t)) (hp : ¬ Announcing p) : Inv init s' := by
  have hiff : ∀ u, Announcing (s'.pc u) ↔ Announcing (s.pc u) := by
    intro u
    rw [hpc]
    by_cases hut : u = t
    · rw [hut, Function.update_self]
      exact ⟨fun h => absurd h hp, fun h => absurd h ht⟩
    · rw [Function.update_of_ne hut]
  refine ⟨?_, ?_, ?_, ?_⟩
  · intro u v hu hv
    exact h.alone u v ((hiff u).mp hu) ((hiff v).mp hv)
  · intro u
    rw [hpc]
    by_cases hut : u = t
    · rw [hut, Function.update_self]
      exact told_of_not_announcing s' hp
    · rw [Function.update_of_ne hut]
      have := h.told u
      unfold Told at this ⊢
      rw [hval, hcbs, hhistory]
      exact this
  · intro hnone
    unfold UpToDate
    rw [hcbs, hhistory]
    exact h.upToDate (fun u hu => hnone u ((hiff u).mpr hu))
  · rw [hhistory, hval]
    exact h.replayed

/-- A thread that is alone in the gap may do as it likes with the history. -/
theorem inv_alone {init : T} {s s' : SharedVar Tid T} {t : Tid} {p : SetPc T}
    (hpc : s'.pc = Function.update s.pc t p) (halone : ∀ u, u ≠ t → ¬ Announcing (s.pc u))
    (htold : s'.Told p) (hdone : ¬ Announcing p → s'.UpToDate)
    (hreplay : replay init (changes s'.history) = s'.m_val) : Inv init s' := by
  have honly : ∀ u, Announcing (s'.pc u) → u = t := by
    intro u hu
    by_contra hut
    rw [hpc, Function.update_of_ne hut] at hu
    exact halone u hut hu
  refine ⟨?_, ?_, ?_, hreplay⟩
  · intro u v hu hv
    rw [honly u hu, honly v hv]
  · intro u
    rw [hpc]
    by_cases hut : u = t
    · rw [hut, Function.update_self]
      exact htold
    · rw [Function.update_of_ne hut]
      exact told_of_not_announcing s' (halone u hut)
  · intro hnone
    apply hdone
    have := hnone t
    rw [hpc, Function.update_self] at this
    exact this

omit [DecidableEq Tid] in
theorem Inv.others {init : T} {s : SharedVar Tid T} (h : Inv init s) {t : Tid}
    (ht : Announcing (s.pc t)) : ∀ u, u ≠ t → ¬ Announcing (s.pc u) :=
  fun u hut hu => hut (h.alone u t hu ht)

/-- **Every undisturbed step keeps the invariant.** -/
theorem inv_step {init : T} {s s' : SharedVar Tid T} {a : SetLabel Tid T} (h : Inv init s)
    (hund : s.Undisturbed a) (hs : step s a = some s') : Inv init s' := by
  cases moves_of_step hs with
  | enter t val hpc => exact inv_outside h rfl rfl rfl rfl (by rw [hpc]; exact id) id
  | readLock t val hpc hfree => exact inv_outside h rfl rfl rfl rfl (by rw [hpc]; exact id) id
  | same t val hpc hval => exact inv_outside h rfl rfl rfl rfl (by rw [hpc]; exact id) id
  | leave t hpc => exact inv_outside h rfl rfl rfl rfl (by rw [hpc]; exact id) id
  | writeUnlock t hpc => exact inv_outside h rfl rfl rfl rfl (by rw [hpc]; exact id) id
  | callbackThrows t val key rest hpc => exact absurd hund id
  | differs t val hpc hval =>
      -- the gap was empty, so the callbacks were up to date
      have hnone := hund val hpc hval
      refine inv_alone rfl (fun u _ => hnone u) ?_ (fun hp => absurd trivial hp) h.replayed
      refine ⟨hval, s.m_cbs.nodup, fun key hkey => ?_⟩
      have hnotes := h.upToDate hnone key hkey
      have hmem : key ∈ s.m_cbs.keys := hkey
      rw [if_pos hmem, List.append_nil]
      exact hnotes
  | callback t val key rest hpc =>
      have htold := h.told t
      rw [hpc] at htold
      obtain ⟨hval, hnodup, hnotes⟩ := htold
      have hfresh := List.nodup_cons.mp hnodup
      refine inv_alone rfl (h.others (by rw [hpc]; trivial)) ?_ (fun hp => absurd trivial hp) ?_
      · refine ⟨hval, hfresh.2, fun k hk => ?_⟩
        show notes k (s.history ++ [.invoked key s.m_val val])
          = changes (s.history ++ [.invoked key s.m_val val])
              ++ if k ∈ rest then [] else [(s.m_val, val)]
        rw [changes_invoked]
        have hbefore := hnotes k hk
        by_cases hkey : k = key
        · -- the callback that has just been told
          subst hkey
          rw [if_pos List.mem_cons_self, List.append_nil] at hbefore
          rw [if_neg hfresh.1, notes_invoked_self, hbefore]
        · rw [notes_invoked_ne (Ne.symm hkey), hbefore]
          simp [hkey]
      · show replay init (changes (s.history ++ [.invoked key s.m_val val])) = s.m_val
        rw [changes_invoked]
        exact h.replayed
  | readUnlock t val hpc =>
      have htold := h.told t
      rw [hpc] at htold
      obtain ⟨hval, -, hnotes⟩ := htold
      refine inv_alone rfl (h.others (by rw [hpc]; trivial)) ⟨hval, fun key hkey => ?_⟩
        (fun hp => absurd trivial hp) h.replayed
      have := hnotes key hkey
      rw [if_neg List.not_mem_nil] at this
      exact this
  | writeLock t val hpc hfree hreaders =>
      have htold := h.told t
      rw [hpc] at htold
      exact inv_alone rfl (h.others (by rw [hpc]; trivial)) htold
        (fun hp => absurd trivial hp) h.replayed
  | assign t val hpc =>
      -- what was pending becomes a change
      have htold := h.told t
      rw [hpc] at htold
      obtain ⟨hval, hnotes⟩ := htold
      refine inv_alone rfl (h.others (by rw [hpc]; trivial)) trivial ?_ ?_
      · intro _ key hkey
        show notes key (s.history ++ [.assigned s.m_val val])
          = changes (s.history ++ [.assigned s.m_val val])
        rw [notes_assigned, changes_assigned (Ne.symm hval)]
        exact hnotes key hkey
      · show replay init (changes (s.history ++ [.assigned s.m_val val])) = val
        rw [changes_assigned (Ne.symm hval), replay_append]

/-! ## §5. Runs. -/

/-- No step touches the callback map. -/
theorem step_m_cbs {s s' : SharedVar Tid T} {a : SetLabel Tid T} (hs : step s a = some s') :
    s'.m_cbs = s.m_cbs := by
  cases moves_of_step hs with
  | _ => rfl

/-- **NOTIFICATIONS MATCH CHANGES** in every state of every run in which no
callback throws and no thread passes its comparison while another is between
comparison and assignment. -/
theorem notifications_match (init : T) (cbs : CallbackMap) (as : List (SetLabel Tid T))
    (h : Guarded step Orderly (new init cbs) as) :
    Always step (NotesMatch init) (new init cbs) as := by
  refine always_of_guarded step (fun s => s.m_cbs.keys = [] ∨ Inv init s) ?_ ?_ as
    (new init cbs) (.inr (inv_new init cbs)) h
  · intro s a s' hs horderly hstep
    by_cases hnone : s.m_cbs.keys = []
    · left
      rw [step_m_cbs hstep]
      exact hnone
    · right
      exact inv_step (hs.resolve_left hnone) (horderly.resolve_left hnone) hstep
  · rintro s (hnone | hinv)
    · intro key hkey
      rw [hnone] at hkey
      cases hkey
    · exact hinv.notesMatch

end SharedVar

/-! ## §6. Two concrete runs. -/

/-- One registered callback. -/
def oneCallback : CallbackMap := ⟨[1], by decide⟩

/-- `true` has called when `false` compares, and compares when `false` has assigned. -/
def settersInTurn : List (SetLabel Bool Nat) :=
  [.call false 5, .run false, .call true 7, .run false, .run false, .run false, .run false,
    .run false, .run false, .run true, .run true, .run true, .run true, .run true, .run true,
    .run true]

theorem notifications_match_settersInTurn :
    Always SharedVar.step (SharedVar.NotesMatch 0) (SharedVar.new 0 oneCallback) settersInTurn :=
  SharedVar.notifications_match 0 oneCallback settersInTurn (by decide)

/-- Two threads pass their comparison before either assigns. -/
def twoSetters : List (SetLabel Bool Nat) :=
  [.call false 5, .call true 7, .run false, .run true, .run false, .run true, .run false,
    .run true, .run false, .run true, .run false, .run false, .run false, .run true, .run true,
    .run true]

/-- The variable after that run. -/
def afterTwoSetters : SharedVar Bool Nat :=
  (exec SharedVar.step (SharedVar.new 0 oneCallback) twoSetters).get (by decide)

/-- The callback hears of `(0, 5)` and `(0, 7)`; the value goes from 0 to 5 to 7. -/
theorem overlapping_setters :
    ¬ ∀ as : List (SetLabel Bool Nat),
      Always SharedVar.step (SharedVar.NotesMatch 0) (SharedVar.new 0 oneCallback) as := by
  intro h
  have hrun : exec SharedVar.step (SharedVar.new 0 oneCallback) twoSetters
      = some afterTwoSetters := (Option.some_get _).symm
  have hlast : SharedVar.NotesMatch 0 afterTwoSetters :=
    always_of_append SharedVar.step twoSetters _ _ hrun (h (twoSetters ++ []))
  have hquiet : afterTwoSetters.Quiescent := by
    intro t
    cases t with
    | _ => decide
  have hnotes := ((hlast 1 (by decide)).2 hquiet).1
  revert hnotes
  decide

end SylarCot.Config
