/-
  SylarCot.Config.LexicalCast.Across
  ──────────────────────────────────
  **WHAT ONE CONTAINER WRITES, ANOTHER READS.**  The encoders of `std::list`,
  `std::set` and `std::unordered_set` write the same kind of text, and so do those of
  the two maps; every decoder of that kind takes it, whatever container it fills.

    • `written_sequence`, `written_map` — the text of a list of elements, or of pairs
      with different keys, for every decoder at once;
    • `reads_across` — so a value can be written as one type and read as another.
-/
import SylarCot.Config.LexicalCast.RoundTrip

namespace SylarCot.Config

open SylarCot.Log (Str intText)
open SylarCot.Library
open SylarCot.Config.BlockYaml (blockYaml)

variable {P K T A B : Type} {y : YamlCpp P K}

/-! ## §1. The containers. -/

section Containers

variable (y) (c : Casts T)

/-- The encoders of sequences that load an element before they push it, with the
elements in order of iteration. -/
inductive WritesSequence : (A : Type) → LexicalCast A Str → (A → List T) → Prop where
  | list : WritesSequence (List T) (listToString y c.toStr) id
  | set [LinearOrder T] : WritesSequence (StdSet T) (setToString y c.toStr) SortedBy.toList
  | unorderedSet : WritesSequence (UnorderedSet T) (unorderedSetToString y c.toStr)
      DistinctBy.toList

/-- The decoders of sequences, with what it means that the container holds the
elements of a list. -/
inductive ReadsSequence : (B : Type) → LexicalCast Str B → (B → List T → Prop) → Prop where
  | vector : ReadsSequence (List T) (stringToVector y c.fromStr) fun w xs => w = xs
  | list : ReadsSequence (List T) (stringToList y c.fromStr) fun w xs => w = xs
  | set [LinearOrder T] : ReadsSequence (StdSet T) (stringToSet y c.fromStr)
      fun w xs => ∀ x, x ∈ w.toList ↔ x ∈ xs
  | unorderedSet [DecidableEq T] : ReadsSequence (UnorderedSet T)
      (stringToUnorderedSet y c.fromStr) fun w xs => ∀ x, x ∈ w.toList ↔ x ∈ xs

/-- The encoders of maps. -/
inductive WritesMap : (A : Type) → LexicalCast A Str → (A → List (Str × T)) → Prop where
  | map : WritesMap (StdMap T) (mapToString y c.toStr) SortedBy.toList
  | unorderedMap : WritesMap (UnorderedMap T) (unorderedMapToString y c.toStr) DistinctBy.toList

/-- The decoders of maps. -/
inductive ReadsMap : (B : Type) → LexicalCast Str B → (B → List (Str × T)) → Prop where
  | map : ReadsMap (StdMap T) (stringToMap y c.fromStr) SortedBy.toList
  | unorderedMap : ReadsMap (UnorderedMap T) (stringToUnorderedMap y c.fromStr) DistinctBy.toList

end Containers

variable {c : Casts T} {R : T → T → Prop}

/-! ## §2. Texts for every decoder. -/

/-- **The text of a list of elements.** -/
theorem written_sequence (hy : y.Faithful) (hc : RoundTrips y c R) (vs : List T) :
    ∃ text xs, listToString y c.toStr vs = .ok text ∧ List.Forall₂ R xs vs ∧
      ∀ (C : Type) (empty : C) (insert : C → T → C),
        sequenceOfString y c.fromStr empty insert text = .ok (xs.foldl insert empty) := by
  obtain ⟨items, hmap, hitems⟩ := loadedElements_standFor hy hc vs
  obtain ⟨xs, hxs, hloop⟩ := decode_sequence hy hitems (built_sequence hitems) rfl
  refine ⟨y.emit (.sequence y.fresh items), xs, ?_, hxs, hloop⟩
  show (vs.mapM (loadedElement y c.toStr)).bind _ = _
  rw [hmap]
  rfl

/-- **The text of pairs with different keys.** -/
theorem written_map (hy : y.Faithful) (hc : RoundTrips y c R) {vs : List (Str × T)}
    (hvs : (vs.map Prod.fst).Nodup) :
    ∃ text zs, pairsToString y c.toStr vs = .ok text ∧ List.Forall₂ (SamePairs R) zs vs ∧
      ∀ (C : Type) (empty : C) (insert : C → Str × T → C),
        mapOfString y c.fromStr empty insert text = .ok (zs.foldl insert empty) := by
  obtain ⟨xs, hxs, hbuilt, hstr⟩ := pairsToString_ok hy hc hvs
  obtain ⟨zs, hzs, hloop⟩ := decode_map hy hxs hbuilt rfl
  exact ⟨_, zs, hstr, hzs, hloop⟩

/-- Every encoder writes the elements in order of iteration. -/
theorem WritesSequence.written {toStr : LexicalCast A Str} {toList : A → List T}
    (h : WritesSequence y c A toStr toList) (v : A) :
    toStr v = listToString y c.toStr (toList v) := by
  cases h with
  | _ => rfl

/-- **Every decoder gets the elements** into its container. -/
theorem ReadsSequence.reads {fromStr : LexicalCast Str B} {Holds : B → List T → Prop}
    (h : ReadsSequence y c B fromStr Holds) {text : Str} {xs : List T}
    (htext : ∀ (C : Type) (empty : C) (insert : C → T → C),
      sequenceOfString y c.fromStr empty insert text = .ok (xs.foldl insert empty)) :
    ∃ w, fromStr text = .ok w ∧ Holds w xs := by
  have hinjective : ∀ x ∈ xs, ∀ z ∈ xs, id x = id z → x = z := fun _ _ _ _ heq => heq
  cases h with
  | vector => exact ⟨_, htext _ _ _, foldl_push_back xs⟩
  | list => exact ⟨_, htext _ _ _, foldl_push_back xs⟩
  | set =>
      refine ⟨_, htext _ _ _, fun x => ?_⟩
      rw [SortedBy.mem_foldl_insert_iff, isFirst_iff_mem hinjective]
  | unorderedSet =>
      refine ⟨_, htext _ _ _, fun x => ?_⟩
      rw [DistinctBy.mem_foldl_insert_iff, isFirst_iff_mem hinjective]

theorem WritesMap.written {toStr : LexicalCast A Str} {toList : A → List (Str × T)}
    (h : WritesMap y c A toStr toList) (v : A) :
    toStr v = pairsToString y c.toStr (toList v) ∧ ((toList v).map Prod.fst).Nodup := by
  cases h with
  | map => exact ⟨rfl, v.nodup_keys⟩
  | unorderedMap => exact ⟨rfl, v.nodup⟩

theorem ReadsMap.reads {fromStr : LexicalCast Str B} {toList : B → List (Str × T)}
    (h : ReadsMap y c B fromStr toList) {text : Str} {zs : List (Str × T)}
    (hzs : (zs.map Prod.fst).Nodup)
    (htext : ∀ (C : Type) (empty : C) (insert : C → Str × T → C),
      mapOfString y c.fromStr empty insert text = .ok (zs.foldl insert empty)) :
    ∃ w, fromStr text = .ok w ∧ ∀ e, e ∈ toList w ↔ e ∈ zs := by
  have hinjective : ∀ x ∈ zs, ∀ z ∈ zs, x.1 = z.1 → x = z :=
    fun x hx z hz heq => List.inj_on_of_nodup_map hzs hx hz heq
  cases h with
  | map =>
      refine ⟨_, htext _ _ _, fun e => ?_⟩
      rw [SortedBy.mem_foldl_insert_iff, isFirst_iff_mem hinjective]
  | unorderedMap =>
      refine ⟨_, htext _ _ _, fun e => ?_⟩
      rw [DistinctBy.mem_foldl_insert_iff, isFirst_iff_mem hinjective]

/-! ## §3. Across. -/

/-- **WHAT ONE CONTAINER WRITES, ANOTHER READS**, for elements of every nested type: the
elements that are read are those that were written, up to their `operator==`, and so
are the pairs of maps. -/
theorem reads_across (y : YamlCpp P K) (hy : y.Faithful) (toInt : LexicalCast Str Int32)
    (hint : ∀ n : Int32, toInt (intText n.toInt) = .ok n) {b : Bool} {c : Casts T}
    {R : T → T → Prop} (hT : Nested y toInt T b c R) :
    (∀ {A B : Type} {toStr : LexicalCast A Str} {toList : A → List T}
        {fromStr : LexicalCast Str B} {Holds : B → List T → Prop},
        WritesSequence y c A toStr toList → ReadsSequence y c B fromStr Holds →
        ∀ v, ∃ text w xs, toStr v = .ok text ∧ fromStr text = .ok w ∧ Holds w xs ∧
          List.Forall₂ R xs (toList v)) ∧
      ∀ {A B : Type} {toStr : LexicalCast A Str} {toList : A → List (Str × T)}
        {fromStr : LexicalCast Str B} {toList' : B → List (Str × T)},
        WritesMap y c A toStr toList → ReadsMap y c B fromStr toList' →
        ∀ v, ∃ text w zs, toStr v = .ok text ∧ fromStr text = .ok w ∧
          (∀ e, e ∈ toList' w ↔ e ∈ zs) ∧ List.Forall₂ (SamePairs R) zs (toList v) := by
  have hc := hT.roundTrips hy hint
  constructor
  · intro A B toStr toList fromStr Holds hwrites hreads v
    obtain ⟨text, xs, hstr, hxs, htext⟩ := written_sequence hy hc (toList v)
    obtain ⟨w, hw, hholds⟩ := hreads.reads htext
    exact ⟨text, w, xs, (hwrites.written v).trans hstr, hw, hholds, hxs⟩
  · intro A B toStr toList fromStr toList' hwrites hreads v
    obtain ⟨hwritten, hnodup⟩ := hwrites.written v
    obtain ⟨text, zs, hstr, hzs, htext⟩ := written_map hy hc hnodup
    obtain ⟨w, hw, hholds⟩ := hreads.reads (by rw [keys_eq hzs]; exact hnodup) htext
    exact ⟨text, w, zs, hwritten.trans hstr, hw, hholds, hzs⟩

/-- A list with a repetition, read as a set. -/
theorem reads_across_listAsSet :
    ∃ (text : Str) (w : UnorderedSet Int32) (xs : List Int32),
      listToString blockYaml (intCasts lexicalCastInt).toStr [2, 1, 2] = .ok text ∧
      stringToUnorderedSet blockYaml lexicalCastInt text = .ok w ∧
      (∀ x, x ∈ w.toList ↔ x ∈ xs) ∧ List.Forall₂ Eq xs [2, 1, 2] :=
  (reads_across blockYaml BlockYaml.faithful lexicalCastInt lexicalCastInt_intText .int).1
    .list .unorderedSet [2, 1, 2]

end SylarCot.Config
