/-
  SylarCot.Library.ReadersWriter
  ──────────────────────────────
  **READERS AND WRITERS**, for threads given by program counters.

  A readers–writer lock is the list of its readers and its writer, if any.
  `Holds reads writes pc readers writer` says that the lock is held by exactly the
  threads whose counters are in a reading or in a writing section, and never in
  both ways at once.  There is one rule for each thing a step can do to counters
  and lock:

    • `Holds.move` — a thread moves within its section;
    • `Holds.rdlock`, `Holds.rdunlock`, `Holds.wrlock`, `Holds.wrunlock`;
    • `LockStep`, `Holds.step` — the five of them as one relation and its rule;
    • `Holds.some_can` — if holders and, once the lock is free, everybody can go on,
      then somebody can.
-/
import Mathlib.Logic.Function.Basic
import Mathlib.Data.List.Nodup

namespace SylarCot.Library

variable {Tid Pc : Type*} {reads writes : Pc → Prop} {pc : Tid → Pc} {readers : List Tid}
  {writer : Option Tid}

/-- The lock is held by the threads in a section, and by nobody else. -/
structure Holds (reads writes : Pc → Prop) (pc : Tid → Pc) (readers : List Tid)
    (writer : Option Tid) : Prop where
  once : readers.Nodup
  shared : ∀ t, t ∈ readers ↔ reads (pc t)
  alone : ∀ t, writer = some t ↔ writes (pc t)
  exclusive : writer = none ∨ readers = []

/-! ## §1. Exclusion. -/

/-- **No reader beside a writer.** -/
theorem Holds.not_reads (h : Holds reads writes pc readers writer) {t u : Tid}
    (ht : writes (pc t)) : ¬ reads (pc u) := by
  intro hu
  have hmem := (h.shared u).mpr hu
  rcases h.exclusive with hnone | hnil
  · rw [(h.alone t).mpr ht] at hnone
    cases hnone
  · rw [hnil] at hmem
    cases hmem

/-- **One writer at most.** -/
theorem Holds.unique (h : Holds reads writes pc readers writer) {t u : Tid}
    (ht : writes (pc t)) (hu : writes (pc u)) : t = u :=
  Option.some.inj (((h.alone t).mpr ht).symm.trans ((h.alone u).mpr hu))

/-- **The rule of progress.** -/
theorem Holds.some_can (h : Holds reads writes pc readers writer) {can : Tid → Prop}
    {busy : Tid → Prop} (hheld : ∀ t, reads (pc t) ∨ writes (pc t) → can t)
    (hfree : writer = none → readers = [] → ∀ t, busy t → can t) {t : Tid} (ht : busy t) :
    ∃ u, can u := by
  cases hw : writer with
  | some u => exact ⟨u, hheld u (.inr ((h.alone u).mp hw))⟩
  | none =>
      cases hr : readers with
      | cons u rest =>
          refine ⟨u, hheld u (.inl ((h.shared u).mp ?_))⟩
          rw [hr]
          exact List.mem_cons_self
      | nil => exact ⟨t, hfree hw hr t ht⟩

/-! ## §2. Steps. -/

variable [DecidableEq Tid] {t : Tid} {p : Pc}

/-- A property that the moving thread keeps is kept by all. -/
theorem kept_by_move {P : Pc → Prop} (ht : P p ↔ P (pc t)) (u : Tid) :
    P (Function.update pc t p u) ↔ P (pc u) := by
  by_cases hut : u = t
  · rw [hut, Function.update_self]
    exact ht
  · rw [Function.update_of_ne hut]

/-- A thread moves within its section. -/
theorem Holds.move (h : Holds reads writes pc readers writer) (hr : reads p ↔ reads (pc t))
    (hw : writes p ↔ writes (pc t)) :
    Holds reads writes (Function.update pc t p) readers writer where
  once := h.once
  shared u := (h.shared u).trans (kept_by_move hr u).symm
  alone u := (h.alone u).trans (kept_by_move hw u).symm
  exclusive := h.exclusive

/-- A thread takes the lock for reading. -/
theorem Holds.rdlock (h : Holds reads writes pc readers writer) (hfree : writer = none)
    (hout : ¬ reads (pc t)) (hp : reads p) (hpw : ¬ writes p) :
    Holds reads writes (Function.update pc t p) (t :: readers) writer where
  once := List.nodup_cons.mpr ⟨fun hmem => hout ((h.shared t).mp hmem), h.once⟩
  shared u := by
    rw [List.mem_cons, h.shared u]
    by_cases hut : u = t
    · rw [hut, Function.update_self]
      exact iff_of_true (.inl rfl) hp
    · rw [Function.update_of_ne hut]
      exact or_iff_right hut
  alone u := by
    refine (h.alone u).trans (kept_by_move ?_ u).symm
    refine iff_of_false hpw (fun ht => ?_)
    have := (h.alone t).mpr ht
    rw [hfree] at this
    cases this
  exclusive := .inl hfree

/-- A reader gives the lock back. -/
theorem Holds.rdunlock (h : Holds reads writes pc readers writer) (hin : reads (pc t))
    (hp : ¬ reads p) (hpw : ¬ writes p) :
    Holds reads writes (Function.update pc t p) (readers.erase t) writer where
  once := h.once.erase t
  shared u := by
    rw [h.once.mem_erase_iff, h.shared u]
    by_cases hut : u = t
    · rw [hut, Function.update_self]
      exact iff_of_false (fun hall => hall.1 rfl) hp
    · rw [Function.update_of_ne hut]
      exact and_iff_right hut
  alone u :=
    (h.alone u).trans (kept_by_move (iff_of_false hpw (fun ht => h.not_reads ht hin)) u).symm
  exclusive := by
    rcases h.exclusive with hnone | hnil
    · exact .inl hnone
    · right
      rw [hnil]
      rfl

/-- A thread takes the free lock for writing. -/
theorem Holds.wrlock (h : Holds reads writes pc readers writer) (hfree : writer = none)
    (hnil : readers = []) (hp : writes p) (hpr : ¬ reads p) :
    Holds reads writes (Function.update pc t p) readers (some t) where
  once := h.once
  shared u := by
    refine (h.shared u).trans (kept_by_move (iff_of_false hpr (fun ht => ?_)) u).symm
    have hmem := (h.shared t).mpr ht
    rw [hnil] at hmem
    cases hmem
  alone u := by
    rw [Option.some_inj]
    by_cases hut : u = t
    · rw [hut, Function.update_self]
      exact iff_of_true rfl hp
    · rw [Function.update_of_ne hut]
      refine iff_of_false (Ne.symm hut) (fun hu => ?_)
      have := (h.alone u).mpr hu
      rw [hfree] at this
      cases this
  exclusive := .inr hnil

/-- The writer gives the lock back. -/
theorem Holds.wrunlock (h : Holds reads writes pc readers writer) (hin : writes (pc t))
    (hp : ¬ writes p) (hpr : ¬ reads p) :
    Holds reads writes (Function.update pc t p) readers none where
  once := h.once
  shared u :=
    (h.shared u).trans (kept_by_move (iff_of_false hpr (fun ht => h.not_reads hin ht)) u).symm
  alone u := by
    refine iff_of_false (fun hu => by cases hu) ?_
    by_cases hut : u = t
    · rw [hut, Function.update_self]
      exact hp
    · rw [Function.update_of_ne hut]
      exact fun hu => hut (h.unique hu hin)
  exclusive := .inl rfl

/-! ## §3. All of them. -/

/-- What a thread that goes from `p` to `q` may do to the lock. -/
inductive LockStep (reads writes : Pc → Prop) (t : Tid) (p q : Pc) (readers : List Tid)
    (writer : Option Tid) : List Tid → Option Tid → Prop where
  | move (hr : reads q ↔ reads p) (hw : writes q ↔ writes p) :
      LockStep reads writes t p q readers writer readers writer
  | rdlock (hfree : writer = none) (hout : ¬ reads p) (hr : reads q) (hw : ¬ writes q) :
      LockStep reads writes t p q readers writer (t :: readers) writer
  | rdunlock (hin : reads p) (hr : ¬ reads q) (hw : ¬ writes q) :
      LockStep reads writes t p q readers writer (readers.erase t) writer
  | wrlock (hfree : writer = none) (hnil : readers = []) (hw : writes q) (hr : ¬ reads q) :
      LockStep reads writes t p q readers writer readers (some t)
  | wrunlock (hin : writes p) (hw : ¬ writes q) (hr : ¬ reads q) :
      LockStep reads writes t p q readers writer readers none

/-- **The step rule.** -/
theorem Holds.step {readers' : List Tid} {writer' : Option Tid} {q : Pc}
    (h : Holds reads writes pc readers writer)
    (hs : LockStep reads writes t (pc t) q readers writer readers' writer') :
    Holds reads writes (Function.update pc t q) readers' writer' := by
  cases hs with
  | move hr hw => exact h.move hr hw
  | rdlock hfree hout hr hw => exact h.rdlock hfree hout hr hw
  | rdunlock hin hr hw => exact h.rdunlock hin hr hw
  | wrlock hfree hnil hw hr => exact h.wrlock hfree hnil hw hr
  | wrunlock hin hw hr => exact h.wrunlock hin hw hr

end SylarCot.Library
