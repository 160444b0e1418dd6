/-
  SylarCot.Library.Walk
  ─────────────────────
  **WALKING ALONG A LIST THAT CHANGES.**

  The nodes of a linked list carry numbers that grow along the list: new nodes go to
  the end and get the next number.  An iterator stands on a node, which may have been
  taken out of the list; `after` is what it has in front of it.  `Walk nodes visited c`
  says of a walk that it has visited every node of the list below `c`, each once and in
  order.

    • `Walk.start`, `Walk.visit`, `Walk.advance` — the walk goes on;
    • `Walk.append`, `Walk.erase` — the list changes around it;
    • `Walk.finish` — at its end the walk has visited every node of the list.
-/
import Mathlib.Data.List.Basic

namespace SylarCot.Library

variable {α : Type*} {nodes visited : List (Nat × α)} {n c : Nat}

/-! ## §1. Nodes in order. -/

/-- The numbers grow along the list. -/
def Ordered (nodes : List (Nat × α)) : Prop := nodes.Pairwise fun x y => x.1 < y.1

theorem Ordered.append (h : Ordered nodes) (hfresh : ∀ x ∈ nodes, x.1 < n) (a : α) :
    Ordered (nodes ++ [(n, a)]) := by
  refine List.pairwise_append.mpr ⟨h, List.pairwise_singleton _ _, ?_⟩
  intro x hx y hy
  rw [List.mem_singleton.mp hy]
  exact hfresh x hx

/-- The nodes in front of an iterator on the node `n`, whether `n` itself is still in the
list or not. -/
def after (n : Nat) : List (Nat × α) → List (Nat × α)
  | [] => []
  | x :: rest => if n < x.1 then x :: rest else after n rest

/-- **What is in front of a node** are the nodes with greater numbers. -/
theorem mem_after (h : Ordered nodes) {x : Nat × α} : x ∈ after n nodes ↔ x ∈ nodes ∧ n < x.1 := by
  induction nodes with
  | nil => exact iff_of_false List.not_mem_nil (fun hall => List.not_mem_nil hall.1)
  | cons y rest ih =>
      obtain ⟨hhead, hrest⟩ := List.pairwise_cons.mp h
      show x ∈ (if n < y.1 then y :: rest else after n rest) ↔ _
      by_cases hy : n < y.1
      · rw [if_pos hy, iff_self_and]
        intro hx
        rcases List.mem_cons.mp hx with rfl | hx
        · exact hy
        · exact Nat.lt_trans hy (hhead x hx)
      · rw [if_neg hy, ih hrest, List.mem_cons]
        refine and_congr_left fun hlt => (or_iff_right ?_).symm
        rintro rfl
        exact hy hlt

/-- The same for a list that is given in two parts. -/
theorem after_append {before rest : List (Nat × α)} {m : Nat × α}
    (h : Ordered (before ++ m :: rest)) : after m.1 (before ++ m :: rest) = rest := by
  induction before with
  | nil =>
      obtain ⟨hhead, -⟩ := List.pairwise_cons.mp h
      show (if m.1 < m.1 then _ else after m.1 rest) = rest
      rw [if_neg (Nat.lt_irrefl _)]
      cases rest with
      | nil => rfl
      | cons y rest => exact if_pos (hhead y List.mem_cons_self)
  | cons y before ih =>
      obtain ⟨hhead, hrest⟩ := List.pairwise_cons.mp h
      have hlt := hhead m (List.mem_append_right _ List.mem_cons_self)
      show (if m.1 < y.1 then _ else after m.1 _) = rest
      rw [if_neg (Nat.lt_asymm hlt)]
      exact ih hrest

/-- A number is given to one node only. -/
theorem Ordered.eq_of_number (h : Ordered nodes) {x y : Nat × α} (hx : x ∈ nodes) (hy : y ∈ nodes)
    (heq : x.1 = y.1) : x = y := by
  induction nodes with
  | nil => cases hx
  | cons z rest ih =>
      obtain ⟨hhead, hrest⟩ := List.pairwise_cons.mp h
      rcases List.mem_cons.mp hx with hxz | hxr
      · rcases List.mem_cons.mp hy with hyz | hyr
        · rw [hxz, hyz]
        · rw [hxz] at heq
          exact absurd heq (Nat.ne_of_lt (hhead y hyr))
      · rcases List.mem_cons.mp hy with hyz | hyr
        · rw [hyz] at heq
          exact absurd heq.symm (Nat.ne_of_lt (hhead x hxr))
        · exact ih hrest hxr hyr

theorem after_ordered (h : Ordered nodes) : Ordered (after n nodes) := by
  induction nodes with
  | nil => exact h
  | cons y rest ih =>
      show Ordered (if n < y.1 then y :: rest else after n rest)
      by_cases hy : n < y.1
      · rw [if_pos hy]
        exact h
      · rw [if_neg hy]
        exact ih (List.pairwise_cons.mp h).2

/-- The head of an ordered list is its least node. -/
theorem head_le (h : Ordered nodes) {m x : Nat × α} (hm : nodes.head? = some m) (hx : x ∈ nodes) :
    m.1 ≤ x.1 := by
  cases nodes with
  | nil => cases hx
  | cons y rest =>
      obtain rfl : y = m := Option.some.inj hm
      rcases List.mem_cons.mp hx with rfl | hx
      · exact Nat.le_refl _
      · exact Nat.le_of_lt ((List.pairwise_cons.mp h).1 x hx)

/-! ## §2. Walks. -/

/-- The walk has visited the nodes below `c`, each once and in order. -/
structure Walk (nodes visited : List (Nat × α)) (c : Nat) : Prop where
  once : Ordered visited
  below : ∀ x ∈ visited, x.1 < c
  covers : ∀ x ∈ nodes, x.1 < c → x ∈ visited

theorem Walk.start (h : Ordered nodes) {m : Nat × α} (hm : nodes.head? = some m) :
    Walk nodes [] m.1 where
  once := List.Pairwise.nil
  below x hx := by cases hx
  covers x hx hlt := absurd (head_le h hm hx) (Nat.not_le_of_lt hlt)

/-- The walk visits the node it stands on, which need not be in the list any more. -/
theorem Walk.visit (h : Walk nodes visited c) {a : α} (hsame : ∀ x ∈ nodes, x.1 = c → x = (c, a)) :
    Walk nodes (visited ++ [(c, a)]) (c + 1) where
  once := h.once.append h.below a
  below x hx := by
    rcases List.mem_append.mp hx with hx | hx
    · exact Nat.lt_succ_of_lt (h.below x hx)
    · rw [List.mem_singleton.mp hx]
      exact Nat.lt_succ_self c
  covers x hx hlt := by
    rcases Nat.lt_or_eq_of_le (Nat.lt_succ_iff.mp hlt) with hlt | heq
    · exact List.mem_append_left _ (h.covers x hx hlt)
    · obtain rfl := hsame x hx heq
      exact List.mem_append_right _ (List.mem_singleton_self _)

/-- The walk goes on to the next node. -/
theorem Walk.advance (h : Walk nodes visited (n + 1)) (hnodes : Ordered nodes) {m : Nat × α}
    (hm : (after n nodes).head? = some m) : Walk nodes visited m.1 where
  once := h.once
  below x hx := Nat.lt_of_lt_of_le (h.below x hx) ((mem_after hnodes).mp (List.mem_of_mem_head? hm)).2
  covers x hx hlt := by
    refine h.covers x hx (Nat.lt_of_not_le fun hge => ?_)
    have hafter : x ∈ after n nodes := (mem_after hnodes).mpr ⟨hx, hge⟩
    exact absurd (head_le (after_ordered hnodes) hm hafter) (Nat.not_le_of_lt hlt)

/-- The walk is at its end. -/
theorem Walk.finish (h : Walk nodes visited (n + 1)) (hnodes : Ordered nodes)
    (hnil : (after n nodes).head? = none) {x : Nat × α} (hx : x ∈ nodes) : x ∈ visited := by
  refine h.covers x hx (Nat.lt_of_not_le fun hge => ?_)
  have hafter : x ∈ after n nodes := (mem_after hnodes).mpr ⟨hx, hge⟩
  rw [List.head?_eq_none_iff.mp hnil] at hafter
  cases hafter

/-! ## §3. The list changes. -/

/-- Nodes are erased. -/
theorem Walk.erase (h : Walk nodes visited c) {rest : List (Nat × α)} (hsub : ∀ x ∈ rest, x ∈ nodes) :
    Walk rest visited c where
  once := h.once
  below := h.below
  covers x hx hlt := h.covers x (hsub x hx) hlt

/-- A node is appended. -/
theorem Walk.append (h : Walk nodes visited c) (hc : c ≤ n) (a : α) :
    Walk (nodes ++ [(n, a)]) visited c where
  once := h.once
  below := h.below
  covers x hx hlt := by
    rcases List.mem_append.mp hx with hx | hx
    · exact h.covers x hx hlt
    · rw [List.mem_singleton.mp hx] at hlt
      exact absurd hlt (Nat.not_lt_of_le hc)

end SylarCot.Library
