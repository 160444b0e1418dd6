/-
  SylarCot.Config.LexicalCast.Documents
  ─────────────────────────────────────
  **THE DECODERS READ THE DOCUMENT**, although they go through a text at every level:
  an element is written (`ss << node[i]`), and the decoder of its type loads that text
  and takes it apart again.

    • `Reader` — the types, each with its decoder and a reader that walks the tree of
      the document and writes and loads nothing but what is in the leaves;
    • `Reader.reads` — by induction on the type: the decoder does what the reader does;
    • `decodes_document` — so texts whose documents have the same data decode to the
      same value or throw the same exception.
-/
import SylarCot.Config.LexicalCast.RoundTrip

namespace SylarCot.Config

open SylarCot.Log (Str)
open SylarCot.Library
open SylarCot.Config.BlockYaml (blockYaml)

variable {P K L T C : Type} {y : YamlCpp P K}

/-! ## §1. What is relied on. -/

/-- Besides `Faithful`: an undefined node is written as a text that loads as null, and
the data of a key decides which number it is. -/
structure YamlCpp.Documented (y : YamlCpp P K) : Prop extends y.Faithful where
  load_undefined : ∃ p, y.load (y.emit .undefined) = .ok (.null p)
  keyIs_data : ∀ k k' i, y.data k = y.data k' → y.keyIs k i = y.keyIs k' i

/-- Nodes with the same data are written as texts that the leaf's cast takes alike. -/
def TakesAlike (y : YamlCpp P K) (leaf : LexicalCast Str L) : Prop :=
  ∀ m n, y.Built m → y.Built n → y.data m = y.data n → leaf (y.emit m) = leaf (y.emit n)

/-! ## §2. Readers. -/

section Readers

variable (y)

/-- Read a sequence: what the elements `node[0]`, `node[1]`, ... are read as. -/
def readSequence (read : Node P → Except Thrown T) (empty : C) (insert : C → T → C)
    (node : Node P) : Except Thrown C :=
  ((List.range node.size).mapM fun i => read (y.index node i)).map fun xs => xs.foldl insert empty

/-- Read a map: the scalar texts of the keys, with what the values are read as. -/
def readMap (read : Node P → Except Thrown T) (empty : C) (insert : C → Str × T → C)
    (node : Node P) : Except Thrown C :=
  (YamlCpp.entries node).bind fun es =>
    (es.mapM fun e => (read e.2).map fun x => (YamlCpp.scalarOf e.1, x)).map
      fun zs => zs.foldl insert empty

/-- The types of containers over the leaf `L`, each with its decoder and its reader.
The flag says that the type is a container. -/
inductive Reader (leaf : LexicalCast Str L) :
    (T : Type) → Bool → LexicalCast Str T → (Node P → Except Thrown T) → Prop where
  | leaf : Reader leaf L false leaf fun n => leaf (y.emit n)
  | vector {T : Type} {b : Bool} {cast : LexicalCast Str T} {read : Node P → Except Thrown T}
      (h : Reader leaf T b cast read) : Reader leaf (List T) true (stringToVector y cast)
        (readSequence y read [] fun vec x => vec ++ [x])
  | list {T : Type} {b : Bool} {cast : LexicalCast Str T} {read : Node P → Except Thrown T}
      (h : Reader leaf T b cast read) : Reader leaf (List T) true (stringToList y cast)
        (readSequence y read [] fun vec x => vec ++ [x])
  | set {T : Type} {b : Bool} {cast : LexicalCast Str T} {read : Node P → Except Thrown T}
      [LinearOrder T] (h : Reader leaf T b cast read) :
      Reader leaf (StdSet T) true (stringToSet y cast) (readSequence y read .empty .insert)
  | unorderedSet {T : Type} {b : Bool} {cast : LexicalCast Str T}
      {read : Node P → Except Thrown T} [DecidableEq T] (h : Reader leaf T b cast read) :
      Reader leaf (UnorderedSet T) true (stringToUnorderedSet y cast)
        (readSequence y read .empty .insert)
  | map {T : Type} {b : Bool} {cast : LexicalCast Str T} {read : Node P → Except Thrown T}
      (h : Reader leaf T b cast read) :
      Reader leaf (StdMap T) true (stringToMap y cast) (readMap read .empty .insert)
  | unorderedMap {T : Type} {b : Bool} {cast : LexicalCast Str T}
      {read : Node P → Except Thrown T} (h : Reader leaf T b cast read) :
      Reader leaf (UnorderedMap T) true (stringToUnorderedMap y cast)
        (readMap read .empty .insert)

end Readers

/-! ## §3. Nodes with the same data. -/

/-- What an iteration can meet: an undefined node or one that a program gets hold of. -/
def Met (y : YamlCpp P K) (n : Node P) : Prop := n = .undefined ∨ y.Built n

theorem index_met {node : Node P} (h : Met y node) (i : Nat) : Met y (y.index node i) := by
  rcases h with rfl | h
  · exact .inl rfl
  cases node with
  | sequence p items =>
      show Met y (items[i]?.getD .undefined)
      cases hi : items[i]? with
      | none => exact .inl rfl
      | some n => exact .inr (.item h (List.mem_of_getElem? hi))
  | map p entries =>
      show Met y (((entries.find? fun e => y.keyIs e.1 i).map Prod.snd).getD .undefined)
      cases he : entries.find? fun e => y.keyIs e.1 i with
      | none => exact .inl rfl
      | some e => exact .inr (.value h (List.mem_of_find?_eq_some he))
  | _ => exact .inl rfl

theorem entries_met {node : Node P} {es : List (Node P × Node P)} (h : Met y node)
    (hes : YamlCpp.entries node = .ok es) : ∀ e ∈ es, Met y e.2 := by
  intro e he
  cases node with
  | sequence p items =>
      cases items with
      | nil =>
          cases hes
          cases he
      | cons n ns => cases hes
  | map p entries =>
      cases hes
      rcases h with h | h
      · cases h
      · exact .inr (.value h he)
  | _ =>
      cases hes
      cases he

/-- The key and the value of an entry have the data of those of the other. -/
def SameEntry (y : YamlCpp P K) (e e' : Node P × Node P) : Prop :=
  y.data e.1 = y.data e'.1 ∧ y.data e.2 = y.data e'.2

/-- Two nodes with the same data, side by side. -/
inductive SameNode (y : YamlCpp P K) : Node P → Node P → Prop where
  | undefined : SameNode y .undefined .undefined
  | null (p q : P) : SameNode y (.null p) (.null q)
  | scalar (p q : P) (text : Str) : SameNode y (.scalar p text) (.scalar q text)
  | sequence (p q : P) {ms ns : List (Node P)}
      (h : List.Forall₂ (fun m n => y.data m = y.data n) ms ns) :
      SameNode y (.sequence p ms) (.sequence q ns)
  | map (p q : P) {es es' : List (Node P × Node P)} (h : List.Forall₂ (SameEntry y) es es') :
      SameNode y (.map p es) (.map q es')

theorem sameNode_of_data {m n : Node P} (h : y.data m = y.data n) : SameNode y m n := by
  cases n with
  | undefined =>
      cases m with
      | undefined => exact .undefined
      | _ => cases h
  | null q =>
      cases m with
      | null p => exact .null p q
      | _ => cases h
  | scalar q text =>
      obtain ⟨p, rfl⟩ := YamlCpp.data_eq_scalar h
      exact .scalar p q text
  | sequence q ns =>
      rw [YamlCpp.data_sequence] at h
      obtain ⟨p, ms, rfl, hms⟩ := YamlCpp.data_eq_sequence h
      exact .sequence p q (forall₂_of_map_eq hms)
  | map q es =>
      rw [YamlCpp.data_map] at h
      obtain ⟨p, es', rfl, hes⟩ := YamlCpp.data_eq_map h
      refine .map p q ((forall₂_of_map_eq hes).imp fun e e' he => ?_)
      exact ⟨congrArg Prod.fst he, congrArg Prod.snd he⟩

theorem size_eq {m n : Node P} (h : SameNode y m n) : m.size = n.size := by
  cases h with
  | sequence p q h => exact h.length_eq
  | map p q h => exact h.length_eq
  | _ => rfl

/-- **The elements have the same data**, also where they are looked up by a key. -/
theorem index_data (hy : y.Documented) {m n : Node P} (h : SameNode y m n) (i : Nat) :
    y.data (y.index m i) = y.data (y.index n i) := by
  cases h with
  | sequence p q h =>
      unfold YamlCpp.index
      induction h generalizing i with
      | nil => rfl
      | cons hhead _ ih =>
          cases i with
          | zero => exact hhead
          | succ i => exact ih i
  | map p q h =>
      unfold YamlCpp.index
      induction h with
      | nil => rfl
      | @cons e e' es es' hhead _ ih =>
          have hkey : y.keyIs e.1 i = y.keyIs e'.1 i := hy.keyIs_data _ _ i hhead.1
          cases hfound : y.keyIs e.1 i with
          | true =>
              rw [hfound] at hkey
              simpa [List.find?_cons, hfound, ← hkey] using hhead.2
          | false =>
              rw [hfound] at hkey
              simpa [List.find?_cons, hfound, ← hkey] using ih
  | _ => rfl

/-- Both nodes have iterators with the same data, or those of both throw. -/
theorem entries_data {m n : Node P} (h : SameNode y m n) :
    (∃ e, YamlCpp.entries m = .error e ∧ YamlCpp.entries n = .error e) ∨
      ∃ es es', YamlCpp.entries m = .ok es ∧ YamlCpp.entries n = .ok es' ∧
        List.Forall₂ (SameEntry y) es es' := by
  cases h with
  | sequence p q h =>
      cases h with
      | nil => exact .inr ⟨[], [], rfl, rfl, .nil⟩
      | cons hhead htail => exact .inl ⟨.stdException, rfl, rfl⟩
  | map p q h => exact .inr ⟨_, _, rfl, rfl, h⟩
  | _ => exact .inr ⟨[], [], rfl, rfl, .nil⟩

/-! ## §4. The induction on the type. -/

/-- The reader depends on the data only, the decoder applied to a written node does what
the reader does, and so does a container's decoder on a text. -/
structure ReadsAs (y : YamlCpp P K) (b : Bool) (cast : LexicalCast Str T)
    (read : Node P → Except Thrown T) : Prop where
  data : ∀ m n, Met y m → Met y n → y.data m = y.data n → read m = read n
  element : ∀ n, Met y n → cast (y.emit n) = read n
  document : b = true → ∀ s root, y.load s = .ok root → cast s = read root

/-- **A container**: its elements are loaded from what they are written as. -/
theorem readsAs_container (hy : y.Documented) {cast : LexicalCast Str T}
    {read : Node P → Except Thrown T}
    (hdata : ∀ m n, Met y m → Met y n → y.data m = y.data n → read m = read n)
    (hnull : ∀ p, read (.null p) = read .undefined)
    (hdocument : ∀ s root, y.load s = .ok root → cast s = read root) : ReadsAs y true cast read where
  data := hdata
  element n hn := by
    rcases hn with rfl | hn
    · obtain ⟨p, hload⟩ := hy.load_undefined
      rw [hdocument _ _ hload, hnull]
    · obtain ⟨m, hload, hm⟩ := hy.load_emit n hn
      rw [hdocument _ _ hload]
      exact hdata m n (.inr (.load hload)) (.inr hn) hm
  document _ := hdocument

theorem readsAs_leaf {leaf : LexicalCast Str L} (hleaf : TakesAlike y leaf) :
    ReadsAs y false leaf fun n => leaf (y.emit n) where
  data m n hm hn hdata := by
    rcases hm with rfl | hm
    · cases sameNode_of_data hdata with
      | undefined => rfl
    · rcases hn with rfl | hn
      · cases sameNode_of_data hdata with
        | undefined => rfl
      · exact hleaf m n hm hn hdata
  element _ _ := rfl
  document h := nomatch h

/-- **Sequences.** -/
theorem readsAs_sequence (hy : y.Documented) {b : Bool} {cast : LexicalCast Str T}
    {read : Node P → Except Thrown T} (h : ReadsAs y b cast read) (empty : C)
    (insert : C → T → C) :
    ReadsAs y true (sequenceOfString y cast empty insert) (readSequence y read empty insert) := by
  refine readsAs_container hy ?_ (fun _ => rfl) ?_
  · intro m n hm hn hdata
    have hsame := sameNode_of_data hdata
    have helements : (fun i => read (y.index m i)) = fun i => read (y.index n i) :=
      funext fun i => h.data _ _ (index_met hm i) (index_met hn i) (index_data hy hsame i)
    unfold readSequence
    rw [size_eq hsame, helements]
  · intro s root hload
    have helements : (fun i => cast (y.emit (y.index root i))) = fun i => read (y.index root i) :=
      funext fun i => h.element _ (index_met (.inr (.load hload)) i)
    rw [sequenceOfString_ok hload, helements]
    rfl

/-- **Maps.** -/
theorem readsAs_map (hy : y.Documented) {b : Bool} {cast : LexicalCast Str T}
    {read : Node P → Except Thrown T} (h : ReadsAs y b cast read) (empty : C)
    (insert : C → Str × T → C) :
    ReadsAs y true (mapOfString y cast empty insert) (readMap read empty insert) := by
  refine readsAs_container hy ?_ (fun _ => rfl) ?_
  · intro m n hm hn hdata
    unfold readMap
    rcases entries_data (sameNode_of_data hdata) with ⟨e, hes, hes'⟩ | ⟨es, es', hes, hes', hsame⟩
    · rw [hes, hes']
    · have hpairs : List.Forall₂ (fun e e' =>
          ((read e.2).map fun x => (YamlCpp.scalarOf e.1, x))
            = (read e'.2).map fun x => (YamlCpp.scalarOf e'.1, x)) es es' := by
        refine (forall₂_mem hsame).imp fun e e' he => ?_
        obtain ⟨hmem, hmem', hkey, hvalue⟩ := he
        have hread : read e.2 = read e'.2 :=
          h.data _ _ (entries_met hm hes e hmem) (entries_met hn hes' e' hmem') hvalue
        rw [hread, ← y.scalarOf_data e.1, hkey, y.scalarOf_data]
      rw [hes, hes']
      show Except.map _ (es.mapM _) = Except.map _ (es'.mapM _)
      rw [mapM_congr_forall₂ hpairs]
  · intro s root hload
    rw [mapOfString_ok hload]
    unfold readMap
    cases hes : YamlCpp.entries root with
    | error e => rfl
    | ok es =>
        have hpairs : List.Forall₂ (fun e e' : Node P × Node P =>
            ((cast (y.emit e.2)).map fun x => (YamlCpp.scalarOf e.1, x))
              = (read e'.2).map fun x => (YamlCpp.scalarOf e'.1, x)) es es := by
          rw [List.forall₂_same]
          intro e he
          rw [h.element _ (entries_met (.inr (.load hload)) hes e he)]
        show Except.map _ (es.mapM _) = Except.map _ (es.mapM _)
        rw [mapM_congr_forall₂ hpairs]

/-- **THE DECODERS READ THE TREE.** -/
theorem Reader.reads (hy : y.Documented) {leaf : LexicalCast Str L} (hleaf : TakesAlike y leaf)
    {b : Bool} {cast : LexicalCast Str T} {read : Node P → Except Thrown T}
    (h : Reader y leaf T b cast read) : ReadsAs y b cast read := by
  induction h with
  | leaf => exact readsAs_leaf hleaf
  | vector _ ih => exact readsAs_sequence hy ih [] fun vec x => vec ++ [x]
  | list _ ih => exact readsAs_sequence hy ih [] fun vec x => vec ++ [x]
  | set _ ih => exact readsAs_sequence hy ih SortedBy.empty SortedBy.insert
  | unorderedSet _ ih => exact readsAs_sequence hy ih DistinctBy.empty DistinctBy.insert
  | map _ ih => exact readsAs_map hy ih SortedBy.empty SortedBy.insert
  | unorderedMap _ ih => exact readsAs_map hy ih DistinctBy.empty DistinctBy.insert

/-- **DECODING A TEXT IS READING ITS DOCUMENT**, for every nested container: what is
written and loaded again on the way changes nothing, and another text whose document has
the same data decodes alike. -/
theorem decodes_document (y : YamlCpp P K) (hy : y.Documented) (leaf : LexicalCast Str L)
    (hleaf : TakesAlike y leaf) {cast : LexicalCast Str T} {read : Node P → Except Thrown T}
    (hT : Reader y leaf T true cast read) {s : Str} {root : Node P} (hload : y.load s = .ok root) :
    cast s = read root ∧
      ∀ s' root', y.load s' = .ok root' → y.data root' = y.data root → cast s' = cast s := by
  have h := hT.reads hy hleaf
  refine ⟨h.document rfl s root hload, fun s' root' hload' hdata => ?_⟩
  rw [h.document rfl s root hload, h.document rfl s' root' hload']
  exact h.data root' root (.inr (.load hload')) (.inr (.load hload)) hdata

/-! ## §5. A library that does this. -/

mutual

/-- Nothing is lost when all props survive. -/
theorem relabel_id : ∀ n : Node P, n.relabel id = n
  | .undefined => rfl
  | .null _ => rfl
  | .scalar _ _ => rfl
  | .sequence p items => congrArg (Node.sequence p) (relabelItems_id items)
  | .map p entries => congrArg (Node.map p) (relabelEntries_id entries)

theorem relabelItems_id : ∀ ns : List (Node P), Node.relabelItems id ns = ns
  | [] => rfl
  | n :: ns => congrArg₂ List.cons (relabel_id n) (relabelItems_id ns)

theorem relabelEntries_id : ∀ es : List (Node P × Node P), Node.relabelEntries id es = es
  | [] => rfl
  | (k, v) :: es =>
      congrArg₂ List.cons (congrArg₂ Prod.mk (relabel_id k) (relabel_id v)) (relabelEntries_id es)

end

theorem data_blockYaml (n : Node Unit) : blockYaml.data n = n := relabel_id n

theorem blockYaml_documented : blockYaml.Documented where
  toFaithful := BlockYaml.faithful
  load_undefined := ⟨(), rfl⟩
  keyIs_data k k' i h := by
    rw [data_blockYaml, data_blockYaml] at h
    rw [h]

theorem takesAlike_blockYaml (leaf : LexicalCast Str L) : TakesAlike blockYaml leaf := by
  intro m n _ _ h
  rw [data_blockYaml, data_blockYaml] at h
  rw [h]

/-- An item in quotes, two levels below the root. -/
theorem decodes_document_quoted :
    stringToList blockYaml (stringToVector blockYaml lexicalCastInt) "- - \"1\"\n  - 2\n- []".toList
      = stringToList blockYaml (stringToVector blockYaml lexicalCastInt) "- - 1\n  - 2\n- []".toList :=
  (decodes_document blockYaml blockYaml_documented lexicalCastInt
    (takesAlike_blockYaml lexicalCastInt)
    (.list (.vector .leaf)) (by rfl)).2 _ _ (by rfl) (by rfl)

end SylarCot.Config
