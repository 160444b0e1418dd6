/-
  SylarCot.Config.LexicalCast.VectorCodec
  ───────────────────────────────────────
  **`std::vector` AGAINST `std::list`**.  The encoder of a list loads the text of
  an element before it pushes it, that of a vector pushes the text itself, as a
  scalar.  For a container as element the decoder then meets a scalar, whose
  `size()` is 0, and its loop runs zero times.

    • `decodes_scalar` — every scalar decodes to the empty container;
    • `OfInt.roundTrips` — what any of the types gives back, by induction on the
      type: `back v` is empty exactly when `v` is;
    • `vector_agrees_iff` — the two codecs agree exactly on sequences of
      integers and of empty containers.
-/
import SylarCot.Config.LexicalCast.RoundTrip

namespace SylarCot.Config

open SylarCot.Log (Str intText)
open SylarCot.Library
open SylarCot.Config.BlockYaml (blockYaml)

variable {P K T C : Type} {y : YamlCpp P K}

/-! ## §1. Scalars in the place of containers. -/

/-- The value a scalar decodes to, whatever its text. -/
def ScalarsGive (y : YamlCpp P K) (cast : LexicalCast Str T) (empty : T) : Prop :=
  ∀ (p : P) (text : Str), y.Built (.scalar p text) → cast (y.emit (.scalar p text)) = .ok empty

/-- What a written scalar loads as. -/
theorem load_emit_scalar (hy : y.Faithful) {p : P} {text : Str} (hn : y.Built (.scalar p text)) :
    ∃ q, y.load (y.emit (.scalar p text)) = .ok (.scalar q text) := by
  obtain ⟨m, hload, hdata⟩ := hy.load_emit _ hn
  rw [YamlCpp.data_scalar] at hdata
  obtain ⟨q, rfl⟩ := YamlCpp.data_eq_scalar hdata
  exact ⟨q, hload⟩

/-- **The sequence decoders read a scalar as empty**: its size is 0. -/
theorem sequenceOfString_scalar (hy : y.Faithful) (cast : LexicalCast Str T) (empty : C)
    (insert : C → T → C) : ScalarsGive y (sequenceOfString y cast empty insert) empty := by
  intro p text hn
  obtain ⟨q, hload⟩ := load_emit_scalar hy hn
  rw [sequenceOfString_ok hload]
  rfl

/-- So do the map decoders: it has no entries. -/
theorem mapOfString_scalar (hy : y.Faithful) (cast : LexicalCast Str T) (empty : C)
    (insert : C → Str × T → C) : ScalarsGive y (mapOfString y cast empty insert) empty := by
  intro p text hn
  obtain ⟨q, hload⟩ := load_emit_scalar hy hn
  show (y.load _).bind _ = _
  rw [hload]
  rfl

/-- **A scalar stands for the empty container.** -/
theorem decodes_scalar {cast : LexicalCast Str T} {empty : T} (h : ScalarsGive y cast empty)
    (text : Str) (v : T) :
    StandsFor y cast (fun w _ => w = empty) (.scalar y.fresh text) v := by
  refine ⟨.scalar text, fun m hm hdata => ⟨empty, ?_, rfl⟩⟩
  obtain ⟨p, rfl⟩ := YamlCpp.data_eq_scalar hdata
  exact h p text hm

/-! ## §2. The types. -/

/-- The types built from `int`, each with its casts and, for a container, its
empty value. -/
inductive OfInt (y : YamlCpp P K) (toInt : LexicalCast Str Int32) :
    (T : Type) → Casts T → Option T → Prop where
  | int : OfInt y toInt Int32 (intCasts toInt) none
  | vector {T : Type} {c : Casts T} {e : Option T} (h : OfInt y toInt T c e) :
      OfInt y toInt (List T) (vectorCasts y c) (some [])
  | list {T : Type} {c : Casts T} {e : Option T} (h : OfInt y toInt T c e) :
      OfInt y toInt (List T) (listCasts y c) (some [])
  | set {T : Type} {c : Casts T} {e : Option T} [LinearOrder T] (h : OfInt y toInt T c e) :
      OfInt y toInt (StdSet T) (setCasts y c) (some .empty)
  | map {T : Type} {c : Casts T} {e : Option T} (h : OfInt y toInt T c e) :
      OfInt y toInt (StdMap T) (mapCasts y c) (some .empty)

/-- What the round trip makes of the elements of a vector: it keeps integers and
empties containers. -/
def emptied (e : Option T) (x : T) : T := e.getD x

/-- The two kinds of types: what comes back of them, and what a scalar in their
place gives. -/
def ComesBack (y : YamlCpp P K) (c : Casts T) (e : Option T) (back : T → T) : Prop :=
  RoundTrips y c (fun w v => w = back v) ∧
    match e with
    | none => ∀ v, back v = v
    | some empty => ScalarsGive y c.fromStr empty ∧ ∀ v, back v = empty ↔ v = empty

/-- A vector of containers comes back as that many empty ones. -/
theorem roundTrips_vectorContainer (hy : y.Faithful) {c : Casts T} {R : T → T → Prop} {empty : T}
    (hc : RoundTrips y c R) (hscalar : ScalarsGive y c.fromStr empty) :
    RoundTrips y (vectorCasts y c) (fun ws vs => ws = vs.map fun _ => empty) := by
  refine (roundTrips_scalars (R := fun w _ => w = empty) hy fun v => ?_).mono
    fun _ _ h => forall₂_eq_map h
  obtain ⟨n, -, hstr, -⟩ := hc v
  refine ⟨.scalar y.fresh (y.emit n), ?_, decodes_scalar hscalar _ v⟩
  unfold scalarElement
  rw [hstr]
  rfl

/-- **A vector**: its integers come back, its containers come back empty. -/
theorem roundTrips_vector (hy : y.Faithful) {toInt : LexicalCast Str Int32}
    (hint : ∀ n : Int32, toInt (intText n.toInt) = .ok n) {c : Casts T} {e : Option T}
    (hT : OfInt y toInt T c e) {back : T → T} (hback : ComesBack y c e back) :
    RoundTrips y (vectorCasts y c) (fun ws vs => ws = vs.map (emptied e)) := by
  cases e with
  | none =>
      cases hT
      exact (roundTrips_vectorInt hy hint).mono fun ws vs h => h.trans (List.map_id vs).symm
  | some empty => exact roundTrips_vectorContainer hy hback.1 hback.2.1

/-- **A list** gives back what its elements give back. -/
theorem roundTrips_listBack (hy : y.Faithful) {c : Casts T} {back : T → T}
    (hc : RoundTrips y c fun w v => w = back v) :
    RoundTrips y (listCasts y c) (fun ws vs => ws = vs.map back) :=
  (roundTrips_list hy hc).mono fun _ _ h => forall₂_eq_map h

/-- **A set** inserts what its elements give back. -/
theorem roundTrips_setBack [LinearOrder T] (hy : y.Faithful) {c : Casts T} {back : T → T}
    (hc : RoundTrips y c fun w v => w = back v) :
    RoundTrips y (setCasts y c)
      (fun w v => w = (v.toList.map back).foldl SortedBy.insert .empty) := by
  refine roundTrips_sequence hy hc SortedBy.toList .empty .insert fun v xs hxs => ?_
  rw [forall₂_eq_map hxs]

/-- **A map** inserts its keys with what their values give back. -/
theorem roundTrips_mapBack (hy : y.Faithful) {c : Casts T} {back : T → T}
    (hc : RoundTrips y c fun w v => w = back v) :
    RoundTrips y (mapCasts y c)
      (fun w v => w = (v.toList.map (Prod.map id back)).foldl SortedBy.insert .empty) := by
  refine roundTrips_pairs hy hc SortedBy.toList SortedBy.nodup_keys .empty .insert
    fun v zs hzs => ?_
  rw [forall₂_eq_map (f := Prod.map id back) (hzs.imp fun z v h => Prod.ext h.1 h.2)]

/-- Nothing was inserted exactly when there was nothing. -/
theorem foldl_map_eq_empty_iff {A B : Type} {key : A → B} [LinearOrder B] (f : A → A)
    (v : SortedBy key) :
    (v.toList.map f).foldl SortedBy.insert (.empty : SortedBy key) = .empty ↔ v = .empty := by
  rw [SortedBy.foldl_insert_eq_empty_iff, List.map_eq_nil_iff]
  constructor
  · intro h
    exact SortedBy.ext h
  · intro h
    rw [h]
    rfl

/-- **Every type gives something back**, and an empty container exactly for an
empty one. -/
theorem OfInt.comesBack (hy : y.Faithful) {toInt : LexicalCast Str Int32}
    (hint : ∀ n : Int32, toInt (intText n.toInt) = .ok n) {c : Casts T} {e : Option T}
    (hT : OfInt y toInt T c e) : ∃ back, ComesBack y c e back := by
  induction hT with
  | int => exact ⟨id, roundTrips_int hy hint, fun _ => rfl⟩
  | vector h ih =>
      obtain ⟨back, hback⟩ := ih
      exact ⟨_, roundTrips_vector hy hint h hback, sequenceOfString_scalar hy _ _ _,
        fun _ => List.map_eq_nil_iff⟩
  | list h ih =>
      obtain ⟨back, hback⟩ := ih
      exact ⟨_, roundTrips_listBack hy hback.1, sequenceOfString_scalar hy _ _ _,
        fun _ => List.map_eq_nil_iff⟩
  | set h ih =>
      obtain ⟨back, hback⟩ := ih
      exact ⟨_, roundTrips_setBack hy hback.1, sequenceOfString_scalar hy _ _ _,
        foldl_map_eq_empty_iff back⟩
  | map h ih =>
      obtain ⟨back, hback⟩ := ih
      exact ⟨_, roundTrips_mapBack hy hback.1, mapOfString_scalar hy _ _ _,
        foldl_map_eq_empty_iff (Prod.map id back)⟩

/-! ## §3. The two codecs. -/

/-- Encoding and decoding give what the round trip says. -/
theorem RoundTrips.roundTrip {c : Casts T} {back : T → T}
    (h : RoundTrips y c fun w v => w = back v) (v : T) : c.roundTrip v = .ok (back v) := by
  obtain ⟨n, hn, hstr, hdec⟩ := h v
  obtain ⟨w, hw, rfl⟩ := hdec n hn rfl
  unfold Casts.roundTrip
  rw [hstr]
  exact hw

/-- A vector keeps an element that is an integer or an empty container. -/
theorem emptied_eq_iff (e : Option T) (x : T) : emptied e x = x ↔ e = none ∨ e = some x := by
  cases e with
  | none => simp [emptied]
  | some empty => simp [emptied]

/-- These are also the elements a list gives back in the same way. -/
theorem emptied_eq_back_iff {c : Casts T} {e : Option T} {back : T → T}
    (h : ComesBack y c e back) (x : T) : emptied e x = back x ↔ e = none ∨ e = some x := by
  obtain ⟨-, hback⟩ := h
  cases e with
  | none =>
      have hx : back x = x := hback x
      simp [emptied, hx]
  | some empty =>
      have hx := hback.2 x
      simp only [emptied, Option.getD_some, reduceCtorEq, Option.some.injEq, false_or]
      constructor
      · intro h
        exact (hx.mp h.symm).symm
      · intro h
        exact (hx.mpr h.symm).symm

/-- **THE VECTOR CODEC AGREES WITH THE LIST CODEC** exactly on sequences of
integers and on sequences of empty containers, and these are the ones that come
back as they were. -/
theorem vector_agrees_iff (y : YamlCpp P K) (hy : y.Faithful) (toInt : LexicalCast Str Int32)
    (hint : ∀ n : Int32, toInt (intText n.toInt) = .ok n) {c : Casts T} {e : Option T}
    (hT : OfInt y toInt T c e) (xs : List T) :
    ((∃ zs, (vectorCasts y c).roundTrip xs = .ok zs ∧ (listCasts y c).roundTrip xs = .ok zs) ↔
        ∀ x ∈ xs, e = none ∨ e = some x) ∧
      ((vectorCasts y c).roundTrip xs = .ok xs ↔ ∀ x ∈ xs, e = none ∨ e = some x) := by
  obtain ⟨back, hback⟩ := hT.comesBack hy hint
  have hvector := (roundTrips_vector hy hint hT hback).roundTrip xs
  have hlist := (roundTrips_listBack hy hback.1).roundTrip xs
  have hmaps : xs.map (emptied e) = xs.map back ↔ ∀ x ∈ xs, e = none ∨ e = some x := by
    rw [List.map_inj_left]
    exact forall₂_congr fun x _ => emptied_eq_back_iff hback x
  constructor
  · rw [hvector, hlist, ← hmaps]
    constructor
    · intro h
      obtain ⟨zs, hv, hl⟩ := h
      exact Except.ok.inj (hv.trans hl.symm)
    · intro h
      exact ⟨xs.map back, congrArg Except.ok h, rfl⟩
  · rw [hvector, Except.ok.injEq, map_eq_self_iff]
    exact forall₂_congr fun x _ => emptied_eq_iff e x

/-- A vector of three empty lists comes back. -/
theorem vector_agrees_iff_empties :
    (vectorCasts blockYaml (listCasts blockYaml (intCasts lexicalCastInt))).roundTrip
      [[], [], []] = .ok [[], [], []] :=
  (vector_agrees_iff blockYaml BlockYaml.faithful lexicalCastInt lexicalCastInt_intText
    (.list .int) [[], [], []]).2.mpr (by simp)

/-- `std::vector<std::vector<int>>{{1}}` comes back as `{{}}`, the list of the same
vector as it was. -/
theorem vector_loses_elements :
    (vectorCasts blockYaml (vectorCasts blockYaml (intCasts lexicalCastInt))).roundTrip [[1]]
        = .ok [[]] ∧
      (listCasts blockYaml (vectorCasts blockYaml (intCasts lexicalCastInt))).roundTrip [[1]]
        = .ok [[1]] := by
  constructor
  · rfl
  · rfl

end SylarCot.Config
