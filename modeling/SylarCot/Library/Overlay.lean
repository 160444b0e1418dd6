/-
  SylarCot.Library.Overlay
  ────────────────────────
  **SEVERAL WRITERS OF ONE FILE**, each at an offset of its own.

  `writeAt` puts a text over the content of a file from an offset on.  A writer writes
  where it stopped, whatever others have written since.

    • `writeAt_end`, `length_writeAt` — at the end of the file a text is appended; below
      it, the file grows by less than the text;
    • `chunks_eq_iff` — the writers have texts to write, and each passes on its own in pieces
      as it likes; starting with an empty file, it holds all texts one after another exactly
      if all that are not empty come from one writer.
-/
import Mathlib.Data.List.Basic
import Mathlib.Logic.Function.Basic

namespace SylarCot.Library

variable {ι α : Type*}

/-! ## §1. Writing at an offset. -/

/-- The content after a text has been written at an offset; a hole behind the end is
filled.  An empty text writes nothing. -/
def writeAt (hole : α) (position : Nat) (text content : List α) : List α :=
  if text = [] then content
  else (content ++ List.replicate (position - content.length) hole).take position ++ text
    ++ content.drop (position + text.length)

theorem writeAt_nil (hole : α) (position : Nat) (content : List α) :
    writeAt hole position [] content = content := if_pos rfl

/-- **At the end** a text is appended. -/
theorem writeAt_end (hole : α) (text content : List α) :
    writeAt hole content.length text content = content ++ text := by
  unfold writeAt
  by_cases h : text = []
  · rw [if_pos h, h, List.append_nil]
  · rw [if_neg h, Nat.sub_self, List.drop_of_length_le (by omega)]
    simp

theorem length_writeAt (hole : α) {position : Nat} {text : List α} (content : List α)
    (h : text ≠ []) :
    (writeAt hole position text content).length = max content.length (position + text.length) := by
  unfold writeAt
  rw [if_neg h]
  simp only [List.length_append, List.length_take, List.length_replicate, List.length_drop]
  omega

/-! ## §2. Writers and their offsets. -/

/-- A file and how far each of its writers has written. -/
structure Overlay (ι α : Type*) where
  content : List α := []
  position : ι → Nat := fun _ => 0

namespace Overlay

variable [DecidableEq ι]

/-- A writer goes on where it stopped. -/
def write (hole : α) (o : Overlay ι α) (w : ι × List α) : Overlay ι α where
  content := writeAt hole (o.position w.1) w.2 o.content
  position := Function.update o.position w.1 (o.position w.1 + w.2.length)

/-- One text after another. -/
def run (hole : α) (o : Overlay ι α) (ws : List (ι × List α)) : Overlay ι α :=
  ws.foldl (write hole) o

/-- All texts, one after another. -/
def texts (ws : List (ι × List α)) : List α := ws.flatMap Prod.snd

/-- All texts that are not empty come from one writer. -/
def OneWriter (ws : List (ι × List α)) : Prop :=
  ∀ w ∈ ws, ∀ w' ∈ ws, w.2 ≠ [] → w'.2 ≠ [] → w.1 = w'.1

/-- How much a writer has written. -/
def written (i : ι) : List (ι × List α) → Nat
  | [] => 0
  | w :: ws => (if w.1 = i then w.2.length else 0) + written i ws

theorem written_append (i : ι) (ws : List (ι × List α)) (w : ι × List α) :
    written i (ws ++ [w]) = written i ws + if w.1 = i then w.2.length else 0 := by
  induction ws with
  | nil =>
      show (if w.1 = i then w.2.length else 0) + 0 = 0 + _
      omega
  | cons x ws ih =>
      show (if x.1 = i then x.2.length else 0) + written i (ws ++ [w]) = _
      rw [ih]
      show _ = (if x.1 = i then x.2.length else 0) + written i ws + _
      omega

/-- Two writers share what has been written. -/
theorem written_add_le {i j : ι} (hij : i ≠ j) (ws : List (ι × List α)) :
    written i ws + written j ws ≤ (texts ws).length := by
  induction ws with
  | nil => exact Nat.le_refl 0
  | cons w ws ih =>
      show (if w.1 = i then w.2.length else 0) + written i ws
        + ((if w.1 = j then w.2.length else 0) + written j ws) ≤ (w.2 ++ texts ws).length
      rw [List.length_append]
      by_cases hi : w.1 = i
      · rw [if_pos hi, if_neg (fun hj => hij (hi.symm.trans hj))]
        omega
      · rw [if_neg hi]
        by_cases hj : w.1 = j
        · rw [if_pos hj]
          omega
        · rw [if_neg hj]
          omega

theorem written_pos {w : ι × List α} {ws : List (ι × List α)} (hw : w ∈ ws) (hne : w.2 ≠ []) :
    0 < written w.1 ws := by
  have hlength := List.length_pos_iff.mpr hne
  induction ws with
  | nil => cases hw
  | cons x ws ih =>
      show 0 < (if x.1 = w.1 then x.2.length else 0) + written w.1 ws
      rcases List.mem_cons.mp hw with hx | hx
      · rw [← hx, if_pos rfl]
        omega
      · have := ih hx
        omega

/-- A single writer has written everything. -/
theorem written_eq_length {i : ι} {ws : List (ι × List α)} (h : ∀ w ∈ ws, w.2 ≠ [] → w.1 = i) :
    written i ws = (texts ws).length := by
  induction ws with
  | nil => rfl
  | cons w ws ih =>
      show (if w.1 = i then w.2.length else 0) + written i ws = (w.2 ++ texts ws).length
      rw [List.length_append, ih fun x hx => h x (List.mem_cons_of_mem w hx)]
      by_cases hne : w.2 = []
      · rw [hne]
        simp
      · rw [if_pos (h w List.mem_cons_self hne)]

/-! ## §3. One text more. -/

/-- What is known of a file after some texts: it holds all of them, or there were two
writers and it is shorter. -/
structure Account (ws : List (ι × List α)) (o : Overlay ι α) : Prop where
  position : ∀ i, o.position i = written i ws
  content : (OneWriter ws ∧ o.content = texts ws) ∨
    (¬ OneWriter ws ∧ o.content.length < (texts ws).length)

omit [DecidableEq ι] in
theorem texts_append (ws : List (ι × List α)) (w : ι × List α) :
    texts (ws ++ [w]) = texts ws ++ w.2 := by
  unfold texts
  rw [List.flatMap_append, List.flatMap_cons, List.flatMap_nil, List.append_nil]

omit [DecidableEq ι] in
theorem OneWriter.of_append {ws ws' : List (ι × List α)} (h : OneWriter (ws ++ ws')) :
    OneWriter ws := by
  intro w hw w' hw'
  exact h w (List.mem_append_left _ hw) w' (List.mem_append_left _ hw')

omit [DecidableEq ι] in
/-- With an empty text nothing changes. -/
theorem oneWriter_append_nil {ws : List (ι × List α)} {i : ι} :
    OneWriter (ws ++ [(i, [])]) ↔ OneWriter ws := by
  refine ⟨OneWriter.of_append, fun h w hw w' hw' hne hne' => ?_⟩
  have hold : ∀ x : ι × List α, x ∈ ws ++ [(i, [])] → x.2 ≠ [] → x ∈ ws := by
    intro x hx hnex
    refine (List.mem_append.mp hx).resolve_right fun hlast => hnex ?_
    rw [List.mem_singleton.mp hlast]
  exact h w (hold w hw hne) w' (hold w' hw' hne') hne hne'

omit [DecidableEq ι] in
/-- The writer of a text that is not empty must have written all others. -/
theorem oneWriter_append_iff {ws : List (ι × List α)} {w : ι × List α} (hw : w.2 ≠ []) :
    OneWriter (ws ++ [w]) ↔ ∀ x ∈ ws, x.2 ≠ [] → x.1 = w.1 := by
  have hlast : w ∈ ws ++ [w] := List.mem_append_right _ (List.mem_singleton_self w)
  constructor
  · intro h x hx hne
    exact h x (List.mem_append_left _ hx) w hlast hne hw
  · intro h x hx y hy hnex hney
    have hall : ∀ z ∈ ws ++ [w], z.2 ≠ [] → z.1 = w.1 := by
      intro z hz hnez
      rcases List.mem_append.mp hz with hz | hz
      · exact h z hz hnez
      · rw [List.mem_singleton.mp hz]
    rw [hall x hx hnex, hall y hy hney]

/-- **One text more.** -/
theorem account_write (hole : α) {ws : List (ι × List α)} {o : Overlay ι α} (h : Account ws o)
    (w : ι × List α) : Account (ws ++ [w]) (o.write hole w) := by
  obtain ⟨i, text⟩ := w
  refine ⟨?_, ?_⟩
  · intro j
    rw [written_append]
    show Function.update o.position i (o.position i + text.length) j = _
    by_cases hj : j = i
    · rw [hj, Function.update_self, if_pos rfl, h.position]
    · rw [Function.update_of_ne hj, if_neg (Ne.symm hj), h.position]
      rfl
  · rw [texts_append]
    show (OneWriter _ ∧ writeAt hole (o.position i) text o.content = _) ∨
      (¬ OneWriter _ ∧ (writeAt hole (o.position i) text o.content).length < _)
    by_cases htext : text = []
    · subst htext
      rw [oneWriter_append_nil, writeAt_nil, List.append_nil]
      exact h.content
    rw [oneWriter_append_iff (w := (i, text)) htext, h.position]
    by_cases hall : ∀ x ∈ ws, x.2 ≠ [] → x.1 = i
    · -- all by this writer, which is therefore at the end
      have hone : OneWriter ws := fun x hx y hy hnex hney =>
        (hall x hx hnex).trans (hall y hy hney).symm
      obtain ⟨-, hcontent⟩ := h.content.resolve_right fun hno => hno.1 hone
      rw [written_eq_length hall, ← hcontent, writeAt_end]
      exact .inl ⟨hall, rfl⟩
    · right
      refine ⟨hall, ?_⟩
      obtain ⟨x, hx⟩ := not_forall.mp hall
      obtain ⟨hmem, hx⟩ := Classical.not_imp.mp hx
      obtain ⟨hnex, hother⟩ := Classical.not_imp.mp hx
      -- another writer has written, so this one is below the end
      have hadd := written_add_le (Ne.symm hother) ws
      have hpos := written_pos hmem hnex
      have hlength := List.length_pos_iff.mpr htext
      have hle : o.content.length ≤ (texts ws).length := by
        rcases h.content with ⟨-, hcontent⟩ | ⟨-, hlt⟩
        · exact Nat.le_of_eq (congrArg List.length hcontent)
        · omega
      rw [length_writeAt hole _ htext, List.length_append]
      show max _ _ < _ + text.length
      omega

theorem account_run (hole : α) : ∀ (ws' ws : List (ι × List α)) (o : Overlay ι α),
    Account ws o → Account (ws ++ ws') (o.run hole ws')
  | [], ws, o, h => by
      rw [List.append_nil]
      exact h
  | w :: ws', ws, o, h => by
      have hrest := account_run hole ws' (ws ++ [w]) (o.write hole w) (account_write hole h w)
      rw [List.append_assoc] at hrest
      exact hrest

theorem account_empty : Account ([] : List (ι × List α)) {} where
  position _ := rfl
  content := .inl ⟨fun _ hw => (List.not_mem_nil hw).elim, rfl⟩

/-! ## §4. Writers that write in pieces. -/

/-- All that a writer writes. -/
def share (i : ι) (ws : List (ι × List α)) : List α :=
  ws.flatMap fun w => if w.1 = i then w.2 else []

theorem share_append (i : ι) (ws ws' : List (ι × List α)) :
    share i (ws ++ ws') = share i ws ++ share i ws' := List.flatMap_append

theorem share_singleton (i : ι) (w : ι × List α) :
    share i [w] = if w.1 = i then w.2 else [] := by
  unfold share
  rw [List.flatMap_cons, List.flatMap_nil, List.append_nil]

theorem written_eq_share (i : ι) (ws : List (ι × List α)) : written i ws = (share i ws).length := by
  induction ws with
  | nil => rfl
  | cons w ws ih =>
      show (if w.1 = i then w.2.length else 0) + written i ws = ((if w.1 = i then w.2 else []) ++ share i ws).length
      rw [ih, List.length_append]
      by_cases hw : w.1 = i
      · rw [if_pos hw, if_pos hw]
      · rw [if_neg hw, if_neg hw]
        rfl

/-- Who has written which char. -/
def tags (ws : List (ι × List α)) : List ι := ws.flatMap fun w => List.replicate w.2.length w.1

theorem count_tags (i : ι) (ws : List (ι × List α)) : (tags ws).count i = written i ws := by
  induction ws with
  | nil => rfl
  | cons w ws ih =>
      show (List.replicate w.2.length w.1 ++ tags ws).count i = _
      rw [List.count_append, ih, List.count_replicate]
      show (if (w.1 == i) = true then _ else _) + _ = (if w.1 = i then w.2.length else 0) + written i ws
      by_cases hw : w.1 = i
      · rw [if_pos hw, if_pos (beq_iff_eq.mpr hw)]
      · rw [if_neg hw, if_neg (fun h => hw (beq_iff_eq.mp h))]

omit [DecidableEq ι] in
theorem length_tags (ws : List (ι × List α)) : (tags ws).length = (texts ws).length := by
  induction ws with
  | nil => rfl
  | cons w ws ih =>
      show (List.replicate w.2.length w.1 ++ tags ws).length = (w.2 ++ texts ws).length
      rw [List.length_append, List.length_append, List.length_replicate, ih]

/-- What all have written depends on what each has written. -/
theorem length_texts_congr {ws ws' : List (ι × List α)} (h : ∀ i, written i ws = written i ws') :
    (texts ws).length = (texts ws').length := by
  have hperm : (tags ws).Perm (tags ws') :=
    List.perm_iff_count.mpr fun i => by rw [count_tags, count_tags, h]
  rw [← length_tags, ← length_tags, hperm.length_eq]

theorem exists_of_written_pos {i : ι} {ws : List (ι × List α)} (h : 0 < written i ws) :
    ∃ w ∈ ws, w.1 = i ∧ w.2 ≠ [] := by
  by_contra hnone
  have hzero : share i ws = [] := by
    refine List.flatMap_eq_nil_iff.mpr fun w hw => ?_
    by_cases hwi : w.1 = i
    · rw [if_pos hwi]
      by_contra hne
      exact hnone ⟨w, hw, hwi, hne⟩
    · exact if_neg hwi
  rw [written_eq_share, hzero] at h
  exact Nat.lt_irrefl _ h

/-- So does whether one has written everything. -/
theorem oneWriter_iff_written (ws : List (ι × List α)) :
    OneWriter ws ↔ ∀ i j, 0 < written i ws → 0 < written j ws → i = j := by
  constructor
  · intro h i j hi hj
    obtain ⟨w, hw, rfl, hne⟩ := exists_of_written_pos hi
    obtain ⟨w', hw', rfl, hne'⟩ := exists_of_written_pos hj
    exact h w hw w' hw' hne hne'
  · intro h w hw w' hw' hne hne'
    exact h w.1 w'.1 (written_pos hw hne) (written_pos hw' hne')

/-- **A single writer** has written the texts in order. -/
theorem texts_eq_share {i : ι} {ws : List (ι × List α)} (h : ∀ w ∈ ws, w.2 ≠ [] → w.1 = i) :
    texts ws = share i ws := by
  refine List.flatMap_congr fun w hw => ?_
  by_cases hne : w.2 = []
  · rw [hne, ite_self]
  · rw [if_pos (h w hw hne)]

theorem texts_congr {ws ws' : List (ι × List α)} (h : ∀ i, share i ws = share i ws')
    (hone : OneWriter ws) (hone' : OneWriter ws') : texts ws = texts ws' := by
  by_cases hnone : ∀ w ∈ ws, w.2 = []
  · have hlength : (texts ws).length = (texts ws').length :=
      length_texts_congr fun i => by rw [written_eq_share, written_eq_share, h]
    have hnil : texts ws = [] := List.flatMap_eq_nil_iff.mpr hnone
    rw [hnil] at hlength ⊢
    exact (List.length_eq_zero_iff.mp hlength.symm).symm
  · obtain ⟨w, hw⟩ := not_forall.mp hnone
    obtain ⟨hmem, hne⟩ := Classical.not_imp.mp hw
    have hpos : 0 < written w.1 ws' := by
      rw [written_eq_share, ← h, ← written_eq_share]
      exact written_pos hmem hne
    obtain ⟨w', hmem', hsame, hne'⟩ := exists_of_written_pos hpos
    rw [texts_eq_share (i := w.1) fun x hx hnex => hone x hx w hmem hnex hne,
      texts_eq_share (i := w.1) fun x hx hnex => (hone' x hx w' hmem' hnex hne').trans hsame, h]

/-- **When nothing is written over**, whatever the pieces. -/
theorem chunks_eq_iff (hole : α) {ws chunks : List (ι × List α)}
    (h : ∀ i, share i ws = share i chunks) :
    (({} : Overlay ι α).run hole chunks).content = texts ws ↔ OneWriter ws := by
  have hwritten : ∀ i, written i ws = written i chunks := fun i => by
    rw [written_eq_share, written_eq_share, h]
  have hsame : OneWriter ws ↔ OneWriter chunks := by
    rw [oneWriter_iff_written, oneWriter_iff_written]
    simp only [hwritten]
  rcases (account_run hole chunks [] {} account_empty).content with ⟨hone, hcontent⟩ | ⟨htwo, hlt⟩
  · refine iff_of_true ?_ (hsame.mpr hone)
    exact hcontent.trans (texts_congr h (hsame.mpr hone) hone).symm
  · refine iff_of_false (fun heq => ?_) (fun hone => htwo (hsame.mp hone))
    rw [heq, length_texts_congr hwritten] at hlt
    exact Nat.lt_irrefl _ hlt

end Overlay

end SylarCot.Library
