/-
  SylarCot.Config.LexicalCast.Sequences
  ─────────────────────────────────────
  **WHICH TEXTS DECODE AS A SEQUENCE**.  The loop of the decoders asks a node for
  its `size()` and its elements `node[i]`, never for its kind: a scalar has size 0
  and decodes to the empty container, a map is searched for the keys 0, 1, ....

    • `stringToVector_nodes` — the result, for each of the five kinds of nodes;
    • `decodesSequences_iff` — for which roots that is what the exception the
      class promises would make of them.
-/
import SylarCot.Config.LexicalCast.RoundTrip

namespace SylarCot.Config

open SylarCot.Log (Str)
open SylarCot.Library
open SylarCot.Config.BlockYaml (blockYaml)

variable {P K T : Type} {y : YamlCpp P K}

/-! ## §1. The loop, node by node. -/

/-- The text of every `node[i]` below `node.size()` converts; `xs` are the values. -/
def ElementsConvert (y : YamlCpp P K) (cast : LexicalCast Str T) (node : Node P) (xs : List T) :
    Prop :=
  List.Forall₂ (fun i x => cast (y.emit (y.index node i)) = .ok x) (List.range node.size) xs

/-- **The decoders look at the elements only.** -/
theorem stringToVector_ok_iff {s : Str} {root : Node P} (hload : y.load s = .ok root)
    (cast : LexicalCast Str T) (xs : List T) :
    stringToVector y cast s = .ok xs ↔ ElementsConvert y cast root xs := by
  unfold stringToVector ElementsConvert
  rw [sequenceOfString_ok hload, map_eq_ok_iff, ← mapM_eq_ok_iff]
  simp only [foldl_push_back]
  constructor
  · intro h
    obtain ⟨zs, hzs, rfl⟩ := h
    exact hzs
  · intro h
    exact ⟨xs, h, rfl⟩

/-- The list decoder is the vector decoder. -/
theorem stringToList_eq (cast : LexicalCast Str T) :
    stringToList y cast = stringToVector y cast := rfl

/-- On a sequence these are the items. -/
theorem elementsConvert_sequence (cast : LexicalCast Str T) (p : P) (items : List (Node P))
    (xs : List T) : ElementsConvert y cast (.sequence p items) xs
      ↔ List.Forall₂ (fun n x => cast (y.emit n) = .ok x) items xs := by
  unfold ElementsConvert
  rw [← mapM_eq_ok_iff, ← mapM_eq_ok_iff]
  show (List.range items.length).mapM (fun i => cast (y.emit (items[i]?.getD .undefined))) = _ ↔ _
  rw [mapM_range (fun n => cast (y.emit n)) .undefined items]

/-- A node of size 0 has no elements, and they all convert. -/
theorem elementsConvert_of_size {node : Node P} (h : node.size = 0) (cast : LexicalCast Str T)
    (xs : List T) : ElementsConvert y cast node xs ↔ xs = [] := by
  unfold ElementsConvert
  rw [h, List.range_zero, List.forall₂_nil_left_iff]

/-! ## §2. What the class promises. -/

/-- What a decoder may return: for a sequence the values of its items, in their
order, for null nothing; anything else has to throw. -/
def IsSequenceOf (y : YamlCpp P K) (cast : LexicalCast Str T) (root : Node P) (xs : List T) : Prop :=
  match root with
  | .sequence _ items => List.Forall₂ (fun n x => cast (y.emit n) = .ok x) items xs
  | .null _ => xs = []
  | _ => False

/-- The decoder returns normally exactly on sequences whose items convert. -/
def DecodesSequences (y : YamlCpp P K) (cast : LexicalCast Str T) (root : Node P)
    (result : Except Thrown (List T)) : Prop :=
  ∀ xs, result = .ok xs ↔ IsSequenceOf y cast root xs

/-- The roots for which it does: a sequence, null, or a map in which some number
below its size is no key of a value that converts. -/
def SequenceOrFails (y : YamlCpp P K) (cast : LexicalCast Str T) (root : Node P) : Prop :=
  match root with
  | .sequence _ _ => True
  | .null _ => True
  | .map _ entries => ∃ i < entries.length, ∀ x, cast (y.emit (y.index root i)) ≠ .ok x
  | _ => False

/-- A map decodes exactly when each of its numbers is the key of a value that
converts. -/
theorem elementsConvert_map_iff (cast : LexicalCast Str T) (p : P)
    (entries : List (Node P × Node P)) :
    (∃ xs, ElementsConvert y cast (.map p entries) xs)
      ↔ ∀ i < entries.length, ∃ x, cast (y.emit (y.index (.map p entries) i)) = .ok x := by
  unfold ElementsConvert
  rw [exists_forall₂_iff]
  simp only [List.mem_range]
  rfl

/-- **The kinds of roots, one by one.** -/
theorem elements_iff (cast : LexicalCast Str T) (root : Node P) :
    (∀ xs, ElementsConvert y cast root xs ↔ IsSequenceOf y cast root xs)
      ↔ SequenceOrFails y cast root := by
  -- a root of size 0 decodes to the empty sequence
  have hempty : root.size = 0 → (∀ xs, ElementsConvert y cast root xs ↔ False) → False := by
    intro hsize h
    exact (h []).mp ((elementsConvert_of_size hsize cast []).mpr rfl)
  cases root with
  | undefined => exact iff_of_false (hempty rfl) id
  | null p => exact iff_of_true (elementsConvert_of_size rfl cast) trivial
  | scalar p text => exact iff_of_false (hempty rfl) id
  | sequence p items => exact iff_of_true (elementsConvert_sequence cast p items) trivial
  | map p entries =>
      have hmap := elementsConvert_map_iff (y := y) cast p entries
      show (∀ xs, ElementsConvert y cast (.map p entries) xs ↔ False)
        ↔ ∃ i < entries.length, ∀ x, cast (y.emit (y.index (.map p entries) i)) ≠ .ok x
      simp only [iff_false]
      rw [← not_exists, hmap]
      simp only [not_forall, not_exists, exists_prop]

/-- **THE DECODERS SUCCEED EXACTLY ON SEQUENCES** for exactly these roots. -/
theorem decodesSequences_iff (y : YamlCpp P K) (cast : LexicalCast Str T) {s : Str} {root : Node P}
    (hload : y.load s = .ok root) :
    (DecodesSequences y cast root (stringToVector y cast s) ↔ SequenceOrFails y cast root) ∧
      (DecodesSequences y cast root (stringToList y cast s) ↔ SequenceOrFails y cast root) := by
  have hvector : DecodesSequences y cast root (stringToVector y cast s)
      ↔ SequenceOrFails y cast root := by
    unfold DecodesSequences
    simp only [stringToVector_ok_iff hload]
    exact elements_iff cast root
  rw [stringToList_eq]
  exact ⟨hvector, hvector⟩

/-- "- 1\n- x" is a sequence, so it throws as it should. -/
theorem decodesSequences_iff_items :
    DecodesSequences blockYaml lexicalCastInt
      (.sequence () [.scalar () ['1'], .scalar () ['x']])
      (stringToVector blockYaml lexicalCastInt "- 1\n- x".toList) :=
  (decodesSequences_iff blockYaml lexicalCastInt (by rfl)).1.mpr trivial

/-- "5" is no sequence, and decodes to an empty one. -/
theorem scalar_decodes :
    blockYaml.load "5".toList = .ok (.scalar () "5".toList) ∧
      stringToVector blockYaml lexicalCastInt "5".toList = .ok [] ∧
      ¬ DecodesSequences blockYaml lexicalCastInt (.scalar () "5".toList)
        (stringToVector blockYaml lexicalCastInt "5".toList) := by
  refine ⟨rfl, rfl, fun h => ?_⟩
  exact (h []).mp rfl

end SylarCot.Config
