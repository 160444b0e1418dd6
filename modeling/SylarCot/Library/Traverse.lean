/-
  SylarCot.Library.Traverse
  ─────────────────────────
  **LOOPS THAT MAY THROW**, over lists in `Except`.

    • `mapM_eq_ok_iff` — a traversal succeeds exactly when every element does,
      and its result is the list of their results;
    • `foldlM_collect` — a loop that converts each element and inserts the result
      is a traversal followed by the insertions;
    • `mapM_range` — an index loop over a list is a traversal of the list.
-/
import Mathlib.Data.List.Forall2

namespace SylarCot.Library

universe u

variable {ε α δ κ : Type*} {β γ : Type u}

/-! ## §1. Traversals. -/

/-- Related lists: every element of the one has a partner in the other. -/
theorem exists_of_mem_left {R : α → δ → Prop} {xs : List α} {ys : List δ}
    (h : List.Forall₂ R xs ys) {x : α} (hx : x ∈ xs) : ∃ y ∈ ys, R x y := by
  induction h with
  | nil => cases hx
  | cons hhead _ ih =>
      rcases List.mem_cons.mp hx with rfl | hx
      · exact ⟨_, List.mem_cons_self, hhead⟩
      · obtain ⟨y, hy, hR⟩ := ih hx
        exact ⟨y, List.mem_cons_of_mem _ hy, hR⟩

theorem exists_of_mem_right {R : α → δ → Prop} {xs : List α} {ys : List δ}
    (h : List.Forall₂ R xs ys) {y : δ} (hy : y ∈ ys) : ∃ x ∈ xs, R x y :=
  exists_of_mem_left (R := fun y x => R x y) h.flip hy

/-- Partners come from the lists. -/
theorem forall₂_mem {R : α → δ → Prop} {xs : List α} {ys : List δ} (h : List.Forall₂ R xs ys) :
    List.Forall₂ (fun x y => x ∈ xs ∧ y ∈ ys ∧ R x y) xs ys := by
  induction h with
  | nil => exact .nil
  | cons hhead _ ih =>
      refine .cons ⟨List.mem_cons_self, List.mem_cons_self, hhead⟩ (ih.imp fun x y h => ?_)
      exact ⟨List.mem_cons_of_mem _ h.1, List.mem_cons_of_mem _ h.2.1, h.2.2⟩

/-- Where every element has a partner, so has the list, and only there. -/
theorem exists_forall₂_iff {R : α → δ → Prop} {xs : List α} :
    (∃ ys, List.Forall₂ R xs ys) ↔ ∀ x ∈ xs, ∃ y, R x y := by
  constructor
  · intro h x hx
    obtain ⟨ys, hys⟩ := h
    obtain ⟨y, -, hy⟩ := exists_of_mem_left hys hx
    exact ⟨y, hy⟩
  · intro h
    induction xs with
    | nil => exact ⟨[], .nil⟩
    | cons x xs ih =>
        obtain ⟨y, hy⟩ := h x List.mem_cons_self
        obtain ⟨ys, hys⟩ := ih fun z hz => h z (List.mem_cons_of_mem x hz)
        exact ⟨y :: ys, .cons hy hys⟩

theorem map_eq_ok_iff {f : α → δ} {x : Except ε α} {z : δ} :
    x.map f = .ok z ↔ ∃ y, x = .ok y ∧ f y = z := by
  cases x with
  | error e =>
      constructor
      · intro h
        cases h
      · intro h
        obtain ⟨y, hy, -⟩ := h
        cases hy
  | ok y =>
      constructor
      · intro h
        cases h
        exact ⟨y, rfl, rfl⟩
      · intro h
        obtain ⟨y', hy, rfl⟩ := h
        cases hy
        rfl

/-- **A traversal is elementwise.** -/
theorem mapM_eq_ok_iff {f : α → Except ε β} {xs : List α} :
    ∀ {ys : List β}, xs.mapM f = .ok ys ↔ List.Forall₂ (fun x y => f x = .ok y) xs ys := by
  induction xs with
  | nil =>
      intro ys
      rw [List.mapM_nil]
      constructor
      · intro h
        cases h
        exact .nil
      · intro h
        cases h
        rfl
  | cons x xs ih =>
      intro ys
      rw [List.mapM_cons]
      constructor
      · intro h
        cases hx : f x with
        | error e =>
            rw [hx] at h
            cases h
        | ok y =>
            cases hxs : xs.mapM f with
            | error e =>
                rw [hx, hxs] at h
                cases h
            | ok zs =>
                rw [hx, hxs] at h
                cases h
                exact .cons hx (ih.mp hxs)
      · intro h
        cases h with
        | cons hx hxs =>
            rw [hx, ih.mpr hxs]
            rfl

/-- If every element converts to something related to its partner, so does the
list. -/
theorem mapM_ok_of_forall₂ {f : α → Except ε β} {R : β → γ → Prop} {xs : List α} {zs : List γ}
    (h : List.Forall₂ (fun x z => ∃ y, f x = .ok y ∧ R y z) xs zs) :
    ∃ ys, xs.mapM f = .ok ys ∧ List.Forall₂ R ys zs := by
  induction h with
  | nil => exact ⟨[], rfl, .nil⟩
  | cons hhead _ ih =>
      obtain ⟨y, hy, hR⟩ := hhead
      obtain ⟨ys, hys, hRs⟩ := ih
      exact ⟨y :: ys, mapM_eq_ok_iff.mpr (.cons hy (mapM_eq_ok_iff.mp hys)), .cons hR hRs⟩

/-- A traversal all of whose elements succeed is a plain map. -/
theorem mapM_eq_map {f : α → Except ε β} {g : α → β} {xs : List α}
    (h : ∀ x ∈ xs, f x = .ok (g x)) : xs.mapM f = .ok (xs.map g) := by
  rw [mapM_eq_ok_iff, List.forall₂_map_right_iff, List.forall₂_same]
  exact h

/-- Where a traversal succeeds, every result is the result of an element. -/
theorem mapM_ok_mem_right {f : α → Except ε β} {xs : List α} {ys : List β}
    (h : xs.mapM f = .ok ys) {y : β} (hy : y ∈ ys) : ∃ x ∈ xs, f x = .ok y :=
  exists_of_mem_right (mapM_eq_ok_iff.mp h) hy

/-- What is done to every result may be done afterwards. -/
theorem mapM_map_results (f : α → Except ε β) (g : β → γ) (xs : List α) :
    xs.mapM (fun x => (f x).map g) = (xs.mapM f).map (List.map g) := by
  induction xs with
  | nil => rfl
  | cons x xs ih =>
      rw [List.mapM_cons, List.mapM_cons, ih]
      cases f x with
      | error e => rfl
      | ok y =>
          cases xs.mapM f with
          | error e => rfl
          | ok ys => rfl

/-- A map gives a list back exactly when it gives every element back. -/
theorem map_eq_self_iff {f : α → α} {xs : List α} : xs.map f = xs ↔ ∀ x ∈ xs, f x = x := by
  conv_lhs => rhs; rw [← List.map_id xs]
  exact List.map_inj_left

/-- So does a traversal. -/
theorem mapM_eq_self_iff {f : β → Except ε β} {xs : List β} :
    xs.mapM f = .ok xs ↔ ∀ x ∈ xs, f x = .ok x := by
  rw [mapM_eq_ok_iff, List.forall₂_same]

/-- Partners with the same image make lists with the same image. -/
theorem map_eq_map_of_forall₂ {f : α → κ} {g : δ → κ} {xs : List α} {ys : List δ}
    (h : List.Forall₂ (fun x y => f x = g y) xs ys) : xs.map f = ys.map g := by
  rw [← List.forall₂_eq_eq_eq, List.forall₂_map_left_iff, List.forall₂_map_right_iff]
  exact h

/-- Partners that are images of one another make an image. -/
theorem forall₂_eq_map {f : α → δ} {ys : List δ} {xs : List α}
    (h : List.Forall₂ (fun y x => y = f x) ys xs) : ys = xs.map f :=
  (List.map_id ys).symm.trans (map_eq_map_of_forall₂ h)

/-- Lists with the same image are related element by element. -/
theorem forall₂_of_map_eq {f : α → κ} {g : δ → κ} {xs : List α} {ys : List δ}
    (h : xs.map f = ys.map g) : List.Forall₂ (fun x y => f x = g y) xs ys := by
  have himages : List.Forall₂ Eq (xs.map f) (ys.map g) := by
    rw [List.forall₂_eq_eq_eq]
    exact h
  rw [List.forall₂_map_left_iff, List.forall₂_map_right_iff] at himages
  exact himages

/-- Partners that convert alike make lists that do. -/
theorem mapM_congr_forall₂ {f : α → Except ε β} {g : δ → Except ε β} {xs : List α} {ys : List δ}
    (h : List.Forall₂ (fun x y => f x = g y) xs ys) : xs.mapM f = ys.mapM g := by
  induction h with
  | nil => rfl
  | cons hhead _ ih => rw [List.mapM_cons, List.mapM_cons, hhead, ih]

/-- Pairs whose values are converted keep their keys. -/
theorem mapM_keys {A K : Type*} {B : Type u} {f : A → Except ε B} {xs : List (K × A)}
    {zs : List (K × B)} (h : xs.mapM (fun i => (f i.2).map fun z => (i.1, z)) = .ok zs) :
    zs.map Prod.fst = xs.map Prod.fst := by
  apply map_eq_map_of_forall₂
  refine (mapM_eq_ok_iff.mp h).flip.imp fun z i hz => ?_
  obtain ⟨value, -, rfl⟩ := map_eq_ok_iff.mp hz
  rfl

/-! ## §2. Loops. -/

/-- **Convert and insert**: the loop is a traversal and then the insertions. -/
theorem foldlM_collect (f : α → Except ε β) (insert : γ → β → γ) (xs : List α) :
    ∀ acc : γ, xs.foldlM (fun acc x => do let y ← f x; pure (insert acc y)) acc
      = (xs.mapM f).map fun ys => ys.foldl insert acc := by
  induction xs with
  | nil => intro acc; rfl
  | cons x xs ih =>
      intro acc
      rw [List.foldlM_cons, List.mapM_cons]
      cases hx : f x with
      | error e => rfl
      | ok y =>
          show xs.foldlM _ (insert acc y) = _
          rw [ih]
          cases xs.mapM f with
          | error e => rfl
          | ok ys => rfl

/-- **An index loop over a list** is a traversal of the list. -/
theorem mapM_range (f : α → Except ε β) (d : α) (xs : List α) :
    (List.range xs.length).mapM (fun i => f (xs[i]?.getD d)) = xs.mapM f := by
  have hxs : (List.range xs.length).map (fun i => xs[i]?.getD d) = xs := by
    apply List.ext_getElem
    · rw [List.length_map, List.length_range]
    · intro i _ hi
      rw [List.getElem_map, List.getElem_range, List.getElem?_eq_getElem hi, Option.getD_some]
  conv_rhs => rw [← hxs, List.mapM_map]
  rfl

end SylarCot.Library
