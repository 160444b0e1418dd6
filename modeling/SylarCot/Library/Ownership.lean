/-
  SylarCot.Library.Ownership
  ──────────────────────────
  **MUTUAL EXCLUSION BY OWNERSHIP**, for threads given by program counters.

  A system of threads is a map `pc : Tid → Pc` and a mutex is its owner, if any.
  `Exclusive inside pc owner` says that a thread whose counter is `inside` the
  critical section owns the mutex.  There is one rule for each thing a step can
  do to counters and mutex:

    • `Exclusive.move` — a thread moves without touching the mutex;
    • `Exclusive.acquire`, `Exclusive.release` — it takes or gives back the mutex;
    • `Exclusive.map` — all counters are relabelled at once (a broadcast).

  `Lends` says what becomes of the thing a mutex protects: it is `whole` while nobody
  owns the mutex, and else as the place of the owner says (`held`).
-/
import Mathlib.Logic.Function.Basic

namespace SylarCot.Library

variable {Tid Pc : Type*} {inside : Pc → Prop} {pc : Tid → Pc} {owner : Option Tid}

/-- Whoever is inside owns the mutex. -/
def Exclusive (inside : Pc → Prop) (pc : Tid → Pc) (owner : Option Tid) : Prop :=
  ∀ t, inside (pc t) → owner = some t

theorem Exclusive.unique (h : Exclusive inside pc owner) {t u : Tid} (ht : inside (pc t))
    (hu : inside (pc u)) : t = u :=
  Option.some.inj ((h t ht).symm.trans (h u hu))

theorem Exclusive.map (h : Exclusive inside pc owner) {f : Pc → Pc}
    (hf : ∀ p, inside (f p) → inside p) : Exclusive inside (fun t => f (pc t)) owner := by
  intro t ht
  exact h t (hf _ ht)

variable [DecidableEq Tid] {t : Tid} {p : Pc}

/-- A thread moves without touching the mutex. -/
theorem Exclusive.move (h : Exclusive inside pc owner) (hp : inside p → inside (pc t)) :
    Exclusive inside (Function.update pc t p) owner := by
  intro u hu
  by_cases hut : u = t
  · subst hut
    rw [Function.update_self] at hu
    exact h u (hp hu)
  · rw [Function.update_of_ne hut] at hu
    exact h u hu

/-- A thread takes the free mutex. -/
theorem Exclusive.acquire (h : Exclusive inside pc none) :
    Exclusive inside (Function.update pc t p) (some t) := by
  intro u hu
  by_cases hut : u = t
  · rw [hut]
  · rw [Function.update_of_ne hut] at hu
    cases h u hu

/-- The thread inside gives the mutex back and leaves. -/
theorem Exclusive.release (h : Exclusive inside pc owner) (ht : inside (pc t)) (hp : ¬ inside p) :
    Exclusive inside (Function.update pc t p) none := by
  intro u hu
  by_cases hut : u = t
  · subst hut
    rw [Function.update_self] at hu
    exact absurd hu hp
  · rw [Function.update_of_ne hut] at hu
    exact absurd (h.unique hu ht) hut

/-! ## What the mutex protects. -/

/-- The thing is whole, or the owner of the mutex has it. -/
def Lends (whole : Prop) (held : Pc → Prop) (pc : Tid → Pc) : Option Tid → Prop
  | none => whole
  | some t => held (pc t)

variable {whole : Prop} {held : Pc → Prop}

/-- A thread moves that does not have the thing. -/
theorem Lends.move (h : Lends whole held pc owner) (hout : ¬ held (pc t)) :
    Lends whole held (Function.update pc t p) owner := by
  cases owner with
  | none => exact h
  | some u =>
      show held (Function.update pc t p u)
      rw [Function.update_of_ne]
      · exact h
      · rintro rfl
        exact hout h

/-- The owner moves, and has changed the thing. -/
theorem Lends.keep (hp : held p) : Lends whole held (Function.update pc t p) (some t) := by
  show held (Function.update pc t p t)
  rw [Function.update_self]
  exact hp

end SylarCot.Library
