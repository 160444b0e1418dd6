/-
  SylarCot.Library.KeyedList
  ──────────────────────────
  **LISTS WITH AT MOST ONE ELEMENT A KEY**, sorted by the key or in any order.

  With the identity as key these are sets, with the first component as key they
  are maps.  `insert` does nothing for a key that is already there.

    • `SortedBy` — strictly increasing keys; `toList_foldl_insert`: inserting the
      elements of a sorted list one after the other gives that list back;
    • `DistinctBy` — pairwise different keys, in the order of insertion, with the
      same rule;
    • `mem_foldl_insert_iff` — for both, after any insertions: of the elements with a
      key that was not there the first one is.
-/
import Mathlib.Order.Lattice
import Mathlib.Data.List.Sort

namespace SylarCot.Library

variable {α κ : Type*}

/-! ## §1. Sorted by a key. -/

/-- A list with strictly increasing keys. -/
structure SortedBy [LinearOrder κ] (key : α → κ) where
  toList : List α
  sorted : toList.Pairwise fun a b => key a < key b

namespace SortedBy

variable [LinearOrder κ] {key : α → κ}

@[ext] theorem ext {s t : SortedBy key} (h : s.toList = t.toList) : s = t := by
  cases s
  cases t
  cases h
  rfl

def empty : SortedBy key := ⟨[], .nil⟩

/-- No key is there twice. -/
theorem nodup_keys (s : SortedBy key) : (s.toList.map key).Nodup :=
  List.pairwise_map.mpr (s.sorted.imp fun h => ne_of_lt h)

/-- A list with the same keys is sorted too. -/
theorem sorted_of_keys (s : SortedBy key) {xs : List α} (h : xs.map key = s.toList.map key) :
    xs.Pairwise fun a b => key a < key b := by
  have hkeys := List.pairwise_map.mpr s.sorted
  rw [← h] at hkeys
  exact List.pairwise_map.mp hkeys

/-- Put an element where its key belongs, unless the key is there. -/
def insertList (key : α → κ) (x : α) : List α → List α
  | [] => [x]
  | y :: ys =>
      if key x < key y then x :: y :: ys
      else if key y < key x then y :: insertList key x ys
      else y :: ys

theorem mem_insertList {x z : α} {ys : List α} (h : z ∈ insertList key x ys) :
    z = x ∨ z ∈ ys := by
  induction ys with
  | nil => exact .inl (List.mem_singleton.mp h)
  | cons y ys ih =>
      unfold insertList at h
      by_cases hlt : key x < key y
      · rw [if_pos hlt] at h
        exact List.mem_cons.mp h
      rw [if_neg hlt] at h
      by_cases hgt : key y < key x
      · rw [if_pos hgt] at h
        rcases List.mem_cons.mp h with rfl | h
        · exact .inr List.mem_cons_self
        · exact (ih h).imp_right (List.mem_cons_of_mem y)
      · rw [if_neg hgt] at h
        exact .inr h

theorem subset_insertList (x : α) (ys : List α) : ys ⊆ insertList key x ys := by
  induction ys with
  | nil => exact List.nil_subset _
  | cons y ys ih =>
      intro z hz
      unfold insertList
      split
      · exact List.mem_cons_of_mem x hz
      · split
        · rcases List.mem_cons.mp hz with rfl | hz
          · exact List.mem_cons_self
          · exact List.mem_cons_of_mem y (ih hz)
        · exact hz

theorem sorted_insertList (x : α) {ys : List α}
    (h : ys.Pairwise fun a b => key a < key b) :
    (insertList key x ys).Pairwise fun a b => key a < key b := by
  induction ys with
  | nil => exact List.pairwise_singleton _ x
  | cons y ys ih =>
      have hhead : ∀ z ∈ ys, key y < key z := fun z hz => List.rel_of_pairwise_cons h hz
      have htail := List.Pairwise.of_cons h
      unfold insertList
      by_cases hlt : key x < key y
      · rw [if_pos hlt]
        refine .cons ?_ h
        intro z hz
        rcases List.mem_cons.mp hz with rfl | hz
        · exact hlt
        · exact lt_trans hlt (hhead z hz)
      rw [if_neg hlt]
      by_cases hgt : key y < key x
      · rw [if_pos hgt]
        refine .cons ?_ (ih htail)
        intro z hz
        rcases mem_insertList hz with rfl | hz
        · exact hgt
        · exact hhead z hz
      · rw [if_neg hgt]
        exact h

/-- Insert an element, unless its key is there. -/
def insert (s : SortedBy key) (x : α) : SortedBy key :=
  ⟨insertList key x s.toList, sorted_insertList x s.sorted⟩

theorem insertList_append (x : α) {ys : List α} (h : ∀ y ∈ ys, key y < key x) :
    insertList key x ys = ys ++ [x] := by
  induction ys with
  | nil => rfl
  | cons y ys ih =>
      have hy := h y List.mem_cons_self
      unfold insertList
      rw [if_neg (lt_asymm hy), if_pos hy, ih fun z hz => h z (List.mem_cons_of_mem y hz)]
      rfl

/-- **Inserting a sorted list gives it back.** -/
theorem toList_foldl_insert (xs : List α) :
    ∀ s : SortedBy key, (s.toList ++ xs).Pairwise (fun a b => key a < key b) →
      (xs.foldl insert s).toList = s.toList ++ xs := by
  induction xs with
  | nil => intro s _; exact (List.append_nil _).symm
  | cons x xs ih =>
      intro s h
      have hx : (s.insert x).toList = s.toList ++ [x] :=
        insertList_append x fun y hy => (List.pairwise_append.mp h).2.2 y hy x List.mem_cons_self
      rw [List.foldl_cons, ih, hx, List.append_assoc]
      · rfl
      · rw [hx, List.append_assoc]
        exact h

theorem foldl_insert_toList (s : SortedBy key) : s.toList.foldl insert empty = s :=
  ext (toList_foldl_insert s.toList empty s.sorted)

/-- What has been inserted was there or is one of the elements. -/
theorem mem_foldl_insert (xs : List α) {z : α} :
    ∀ s : SortedBy key, z ∈ (xs.foldl insert s).toList → z ∈ s.toList ∨ z ∈ xs := by
  induction xs with
  | nil => intro s h; exact .inl h
  | cons x xs ih =>
      intro s h
      rcases ih (s.insert x) h with h | h
      · rcases mem_insertList h with rfl | h
        · exact .inr List.mem_cons_self
        · exact .inl h
      · exact .inr (List.mem_cons_of_mem x h)

theorem subset_foldl_insert (xs : List α) :
    ∀ s : SortedBy key, s.toList ⊆ (xs.foldl insert s).toList := by
  induction xs with
  | nil => intro s; exact List.Subset.refl _
  | cons x xs ih => intro s; exact List.Subset.trans (subset_insertList x s.toList) (ih (s.insert x))

/-- Inserting anything at all leaves something. -/
theorem foldl_insert_eq_empty_iff (xs : List α) :
    xs.foldl insert (empty : SortedBy key) = empty ↔ xs = [] := by
  constructor
  · intro h
    cases xs with
    | nil => rfl
    | cons x xs =>
        have hz : x ∈ insertList key x [] := List.mem_cons_self
        have hmem := subset_foldl_insert xs ((empty : SortedBy key).insert x) hz
        rw [List.foldl_cons] at h
        rw [h] at hmem
        cases hmem
  · rintro rfl
    rfl

end SortedBy

/-! ## §2. Distinct by a key. -/

/-- A list with pairwise different keys. -/
structure DistinctBy (key : α → κ) where
  toList : List α
  nodup : (toList.map key).Nodup

namespace DistinctBy

variable {key : α → κ}

def empty : DistinctBy key := ⟨[], .nil⟩

variable [DecidableEq κ]

/-- Insert an element, unless its key is there. -/
def insert (s : DistinctBy key) (x : α) : DistinctBy key :=
  if h : key x ∈ s.toList.map key then s
  else
    { toList := s.toList ++ [x]
      nodup := by
        rw [List.map_append, List.nodup_append]
        refine ⟨s.nodup, List.pairwise_singleton _ _, ?_⟩
        intro a ha b hb
        rw [List.map_singleton, List.mem_singleton] at hb
        rw [hb]
        rintro rfl
        exact h ha }

/-- **Inserting a list of different keys gives it back.** -/
theorem toList_foldl_insert (xs : List α) :
    ∀ s : DistinctBy key, ((s.toList ++ xs).map key).Nodup →
      (xs.foldl insert s).toList = s.toList ++ xs := by
  induction xs with
  | nil => intro s _; exact (List.append_nil _).symm
  | cons x xs ih =>
      intro s h
      have hfresh : key x ∉ s.toList.map key := by
        rw [List.map_append, List.nodup_append] at h
        exact fun hmem => h.2.2 _ hmem _ (List.mem_map_of_mem List.mem_cons_self) rfl
      have hx : (s.insert x).toList = s.toList ++ [x] := by
        unfold insert
        rw [dif_neg hfresh]
      rw [List.foldl_cons, ih, hx, List.append_assoc]
      · rfl
      · rw [hx, List.append_assoc]
        exact h

end DistinctBy

/-! ## §3. The first of each key. -/

section Firsts

variable {C : Type*}

/-- The element is the first of the list with its key. -/
def IsFirst [DecidableEq κ] (key : α → κ) (xs : List α) (z : α) : Prop :=
  xs.find? (fun x => decide (key x = key z)) = some z

theorem isFirst_cons [DecidableEq κ] (key : α → κ) (x : α) (xs : List α) (z : α) :
    IsFirst key (x :: xs) z ↔ x = z ∨ key x ≠ key z ∧ IsFirst key xs z := by
  unfold IsFirst
  by_cases hkey : key x = key z
  · simp [hkey]
  · have hne : x ≠ z := fun heq => hkey (congrArg key heq)
    simp [hkey, hne]

theorem IsFirst.mem [DecidableEq κ] {key : α → κ} {xs : List α} {z : α} (h : IsFirst key xs z) :
    z ∈ xs :=
  List.mem_of_find?_eq_some h

/-- Where different elements have different keys, all are first. -/
theorem isFirst_iff_mem [DecidableEq κ] {key : α → κ} {xs : List α}
    (hkey : ∀ x ∈ xs, ∀ z ∈ xs, key x = key z → x = z) {z : α} : IsFirst key xs z ↔ z ∈ xs := by
  refine ⟨IsFirst.mem, fun hmem => ?_⟩
  induction xs with
  | nil => cases hmem
  | cons x xs ih =>
      rw [isFirst_cons]
      by_cases hx : x = z
      · exact .inl hx
      · have hz : z ∈ xs := (List.mem_cons.mp hmem).resolve_left (Ne.symm hx)
        refine .inr ⟨fun heq => hx (hkey x List.mem_cons_self z hmem heq), ih ?_ hz⟩
        exact fun a ha b hb => hkey a (List.mem_cons_of_mem x ha) b (List.mem_cons_of_mem x hb)

/-- An insertion that does nothing for a key that is there. -/
def InsertsNew (key : α → κ) (mem : C → α → Prop) (insert : C → α → C) : Prop :=
  ∀ s x z, mem (insert s x) z ↔ mem s z ∨ z = x ∧ ∀ w, mem s w → key w ≠ key x

/-- **The first of each key stays**, by induction on what is inserted. -/
theorem InsertsNew.foldl [DecidableEq κ] {key : α → κ} {mem : C → α → Prop} {insert : C → α → C}
    (h : InsertsNew key mem insert) (xs : List α) : ∀ s z, mem (xs.foldl insert s) z ↔
      mem s z ∨ (∀ w, mem s w → key w ≠ key z) ∧ IsFirst key xs z := by
  induction xs with
  | nil =>
      intro s z
      simp [IsFirst]
  | cons x xs ih =>
      intro s z
      rw [List.foldl_cons, ih (insert s x) z, isFirst_cons]
      constructor
      · intro hmem
        rcases hmem with hmem | ⟨hfresh, hfirst⟩
        · rcases (h s x z).mp hmem with hmem | ⟨rfl, hfresh⟩
          · exact .inl hmem
          · exact .inr ⟨hfresh, .inl rfl⟩
        · -- whether `x` was inserted or its key was there, `z` has another key
          have hx : key x ≠ key z := by
            intro heq
            by_cases hthere : ∀ w, mem s w → key w ≠ key x
            · exact hfresh x ((h s x x).mpr (.inr ⟨rfl, hthere⟩)) heq
            · push Not at hthere
              obtain ⟨w, hw, hkey⟩ := hthere
              exact hfresh w ((h s x w).mpr (.inl hw)) (hkey.trans heq)
          exact .inr ⟨fun w hw => hfresh w ((h s x w).mpr (.inl hw)), .inr ⟨hx, hfirst⟩⟩
      · intro hmem
        rcases hmem with hmem | ⟨hfresh, rfl | ⟨hx, hfirst⟩⟩
        · exact .inl ((h s x z).mpr (.inl hmem))
        · exact .inl ((h s x x).mpr (.inr ⟨rfl, hfresh⟩))
        · refine .inr ⟨fun w hw => ?_, hfirst⟩
          rcases (h s x w).mp hw with hw | ⟨rfl, -⟩
          · exact hfresh w hw
          · exact hx

end Firsts

namespace SortedBy

variable [LinearOrder κ] {key : α → κ}

/-- The order leaves no choice: the elements determine the list. -/
theorem ext_mem {s t : SortedBy key} (h : ∀ z, z ∈ s.toList ↔ z ∈ t.toList) : s = t := by
  have hantisymm : Std.Antisymm fun a b : α => key a < key b :=
    ⟨fun a b hab hba => (lt_asymm hab hba).elim⟩
  have hirrefl : Std.Irrefl fun a b : α => key a < key b := ⟨fun a => lt_irrefl (key a)⟩
  exact ext (s.sorted.eq_of_mem_iff t.sorted fun {z} => h z)

theorem insertsNew_insert :
    InsertsNew key (fun (s : SortedBy key) z => z ∈ s.toList) SortedBy.insert := by
  intro s x z
  have hlist : ∀ ys : List α, (ys.Pairwise fun a b => key a < key b) →
      (z ∈ insertList key x ys ↔ z ∈ ys ∨ z = x ∧ ∀ w, w ∈ ys → key w ≠ key x) := by
    intro ys hys
    induction ys with
    | nil => simp [insertList]
    | cons y ys ih =>
        have hhead : ∀ w ∈ ys, key y < key w := fun w hw => List.rel_of_pairwise_cons hys hw
        unfold insertList
        by_cases hlt : key x < key y
        · -- in front of all others, so its key is none of theirs
          rw [if_pos hlt]
          have hfresh : ∀ w, w ∈ y :: ys → key w ≠ key x := by
            intro w hw
            rcases List.mem_cons.mp hw with rfl | hw
            · exact (ne_of_lt hlt).symm
            · exact (ne_of_lt (lt_trans hlt (hhead w hw))).symm
          rw [List.mem_cons, or_comm]
          exact or_congr_right (iff_self_and.mpr fun _ => hfresh)
        rw [if_neg hlt]
        by_cases hgt : key y < key x
        · rw [if_pos hgt, List.mem_cons, List.mem_cons, ih (List.Pairwise.of_cons hys), or_assoc]
          simp [ne_of_lt hgt]
        · rw [if_neg hgt]
          have heq : key y = key x := le_antisymm (not_lt.mp hlt) (not_lt.mp hgt)
          exact (or_iff_left fun hx => hx.2 y List.mem_cons_self heq).symm
  exact hlist s.toList s.sorted

/-- **What insertions leave**, sorted. -/
theorem mem_foldl_insert_iff [DecidableEq κ] (xs : List α) (z : α) :
    z ∈ (xs.foldl insert (empty : SortedBy key)).toList ↔ IsFirst key xs z := by
  rw [insertsNew_insert.foldl xs empty z]
  simp [empty]

end SortedBy

namespace DistinctBy

variable [DecidableEq κ] {key : α → κ}

theorem insertsNew_insert :
    InsertsNew key (fun (s : DistinctBy key) z => z ∈ s.toList) DistinctBy.insert := by
  intro s x z
  show z ∈ (s.insert x).toList ↔ _
  unfold insert
  by_cases hthere : key x ∈ s.toList.map key
  · rw [dif_pos hthere]
    obtain ⟨w, hw, hkey⟩ := List.mem_map.mp hthere
    exact (or_iff_left fun hx => hx.2 w hw hkey).symm
  · rw [dif_neg hthere]
    have hfresh : ∀ w, w ∈ s.toList → key w ≠ key x :=
      fun w hw heq => hthere (heq ▸ List.mem_map_of_mem hw)
    rw [List.mem_append, List.mem_singleton]
    exact or_congr_right (iff_self_and.mpr fun _ => hfresh)

/-- **What insertions leave**, in the order of insertion. -/
theorem mem_foldl_insert_iff (xs : List α) (z : α) :
    z ∈ (xs.foldl insert (empty : DistinctBy key)).toList ↔ IsFirst key xs z := by
  rw [insertsNew_insert.foldl xs empty z]
  simp [empty]

end DistinctBy

end SylarCot.Library
