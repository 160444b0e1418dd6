/-
  SylarCot.Config.LexicalCast.RoundTrip
  ─────────────────────────────────────
  **DECODE UNDOES ENCODE**, for containers nested to any depth.

  An encoder writes a node; the decoder of the container around it sees that node
  after it has been loaded, written and loaded again.  So the property carried
  through the induction speaks of EVERY node with the same data: `Decodes d v`.

    • `decode_sequence`, `decode_map` — from the elements to the container, for
      every container that inserts what the loop converts;
    • `Nested` — the types, their casts and their `operator==`;
    • `decode_encode` — by induction on the type.
-/
import SylarCot.Config.LexicalCast.LexicalCast
import SylarCot.Config.LexicalCast.LexicalCastInt
import SylarCot.Config.Yaml.BlockYaml

namespace SylarCot.Config

open SylarCot.Log (Str intText)
open SylarCot.Library
open SylarCot.Config.BlockYaml (blockYaml)

variable {P K T C : Type} {y : YamlCpp P K}

/-! ## §1. From the elements to the container. -/

/-- Every node with the data `d` is written as a text that decodes to `v`, up to
`R`. -/
def Decodes (y : YamlCpp P K) (cast : LexicalCast Str T) (R : T → T → Prop) (d : Node K) (v : T) :
    Prop :=
  ∀ m, y.Built m → y.data m = d → ∃ v', cast (y.emit m) = .ok v' ∧ R v' v

/-- What the encoder of `c` writes is decoded again. -/
def RoundTrips (y : YamlCpp P K) (c : Casts T) (R : T → T → Prop) : Prop :=
  ∀ v, ∃ n, y.Built n ∧ c.toStr v = .ok (y.emit n) ∧ Decodes y c.fromStr R (y.data n) v

theorem RoundTrips.mono {c : Casts T} {R S : T → T → Prop} (h : RoundTrips y c R)
    (hRS : ∀ w v, R w v → S w v) : RoundTrips y c S := by
  intro v
  obtain ⟨n, hn, hstr, hdec⟩ := h v
  refine ⟨n, hn, hstr, fun m hm hdata => ?_⟩
  obtain ⟨w, hw, hR⟩ := hdec m hm hdata
  exact ⟨w, hw, hRS w v hR⟩

/-- A node in a container that stands for a value. -/
def StandsFor (y : YamlCpp P K) (cast : LexicalCast Str T) (R : T → T → Prop) (n : Node P) (v : T) :
    Prop :=
  y.Built n ∧ Decodes y cast R (y.data n) v

/-- The element the encoders push stands for the value. -/
theorem loadedElement_standsFor (hy : y.Faithful) {c : Casts T} {R : T → T → Prop}
    (hc : RoundTrips y c R) (v : T) :
    ∃ n, loadedElement y c.toStr v = .ok n ∧ StandsFor y c.fromStr R n v := by
  obtain ⟨n, hn, hstr, hdec⟩ := hc v
  obtain ⟨m, hload, hdata⟩ := hy.load_emit n hn
  refine ⟨m, ?_, .load hload, ?_⟩
  · unfold loadedElement
    rw [hstr]
    exact hload
  · rw [hdata]
    exact hdec

/-- So every element of a list has one. -/
theorem loadedElements_standFor (hy : y.Faithful) {c : Casts T} {R : T → T → Prop}
    (hc : RoundTrips y c R) (vs : List T) :
    ∃ items, vs.mapM (loadedElement y c.toStr) = .ok items ∧
      List.Forall₂ (StandsFor y c.fromStr R) items vs :=
  mapM_ok_of_forall₂ (List.forall₂_same.mpr fun v _ => loadedElement_standsFor hy hc v)

/-- The nodes of a reloaded container stand for the same values. -/
theorem standsFor_of_data {cast : LexicalCast Str T} {R : T → T → Prop} {vs : List T}
    {items its : List (Node P)} (hdata : its.map y.data = items.map y.data)
    (hbuilt : ∀ n ∈ its, y.Built n) (hitems : List.Forall₂ (StandsFor y cast R) items vs) :
    List.Forall₂ (StandsFor y cast R) its vs := by
  have hdec : List.Forall₂ (Decodes y cast R) (items.map y.data) vs := by
    rw [List.forall₂_map_left_iff]
    exact hitems.imp fun _ _ h => h.2
  rw [← hdata, List.forall₂_map_left_iff] at hdec
  exact (List.forall₂_and_left (p := fun n => y.Built n) _ _).mpr ⟨hbuilt, hdec⟩

/-- **Sequences**: the text of a sequence whose items stand for `vs` decodes to
`vs`, in every container. -/
theorem decode_sequence (hy : y.Faithful) {cast : LexicalCast Str T} {R : T → T → Prop}
    {vs : List T} {items : List (Node P)} (hitems : List.Forall₂ (StandsFor y cast R) items vs)
    {m : Node P} (hm : y.Built m) (hdata : y.data m = y.data (.sequence y.fresh items)) :
    ∃ xs, List.Forall₂ R xs vs ∧ ∀ (C : Type) (empty : C) (insert : C → T → C),
      sequenceOfString y cast empty insert (y.emit m) = .ok (xs.foldl insert empty) := by
  obtain ⟨l, hload, hl⟩ := hy.load_emit m hm
  rw [hdata, YamlCpp.data_sequence] at hl
  obtain ⟨p, its, rfl, hits⟩ := YamlCpp.data_eq_sequence hl
  have hbuilt : ∀ n ∈ its, y.Built n := fun n hn => .item (.load hload) hn
  have hstand := standsFor_of_data hits hbuilt hitems
  obtain ⟨xs, hxs, hR⟩ := mapM_ok_of_forall₂ (f := fun n => cast (y.emit n))
    (hstand.imp fun n v h => h.2 n h.1 rfl)
  refine ⟨xs, hR, fun C empty insert => ?_⟩
  rw [sequenceOfString_items hload, hxs]
  rfl

theorem built_sequence {cast : LexicalCast Str T} {R : T → T → Prop} {vs : List T}
    {items : List (Node P)} (hitems : List.Forall₂ (StandsFor y cast R) items vs) :
    y.Built (.sequence y.fresh items) :=
  .sequence ((List.forall₂_and_left (p := fun n => y.Built n) items vs).mp hitems).1

/-- The pairs agree in their keys, and their values are related. -/
def SamePairs {A B : Type} (R : A → B → Prop) (a : Str × A) (b : Str × B) : Prop :=
  a.1 = b.1 ∧ R a.2 b.2

/-- The entries of a map node made in the program. -/
def scalarKeys (y : YamlCpp P K) (xs : List (Str × Node P)) : List (Node P × Node P) :=
  xs.map fun x => (.scalar y.fresh x.1, x.2)

theorem built_map {xs : List (Str × Node P)} (h : ∀ x ∈ xs, y.Built x.2) :
    y.Built (.map y.fresh (scalarKeys y xs)) := by
  unfold scalarKeys
  refine .map ?_ ?_
  · rw [List.forall_mem_map]
    exact fun x _ => ⟨x.1, rfl⟩
  · rw [List.forall_mem_map]
    exact h

/-- The entries of a reloaded map stand for the same pairs. -/
theorem entries_of_data {cast : LexicalCast Str T} {R : T → T → Prop} {vs : List (Str × T)}
    {xs : List (Str × Node P)} {es : List (Node P × Node P)}
    (hdata : es.map (Prod.map y.data y.data) = (scalarKeys y xs).map (Prod.map y.data y.data))
    (hbuilt : ∀ e ∈ es, y.Built e.2)
    (hxs : List.Forall₂ (SamePairs (StandsFor y cast R)) xs vs) :
    List.Forall₂ (fun e v => y.Built e.2 ∧ YamlCpp.scalarOf e.1 = v.1 ∧
      Decodes y cast R (y.data e.2) v.2) es vs := by
  have hdec : List.Forall₂
      (fun e v => e.1 = .scalar (y.keeps y.fresh) v.1 ∧ Decodes y cast R e.2 v.2)
      ((scalarKeys y xs).map (Prod.map y.data y.data)) vs := by
    unfold scalarKeys
    rw [List.map_map, List.forall₂_map_left_iff]
    refine hxs.imp fun x v h => ⟨?_, h.2.2⟩
    rw [← h.1]
    rfl
  rw [← hdata, List.forall₂_map_left_iff] at hdec
  refine (List.forall₂_and_left (p := fun e => y.Built e.2) _ _).mpr ⟨hbuilt, hdec.imp ?_⟩
  intro e v h
  obtain ⟨p, hp⟩ := YamlCpp.data_eq_scalar h.1
  refine ⟨?_, h.2⟩
  rw [hp]
  rfl

/-- **Maps**: the text of a map whose values stand for those of `vs` decodes to
`vs`, in every container. -/
theorem decode_map (hy : y.Faithful) {cast : LexicalCast Str T} {R : T → T → Prop}
    {vs : List (Str × T)} {xs : List (Str × Node P)}
    (hxs : List.Forall₂ (SamePairs (StandsFor y cast R)) xs vs) {m : Node P} (hm : y.Built m)
    (hdata : y.data m = y.data (.map y.fresh (scalarKeys y xs))) :
    ∃ zs, List.Forall₂ (SamePairs R) zs vs ∧ ∀ (C : Type) (empty : C) (insert : C → Str × T → C),
      mapOfString y cast empty insert (y.emit m) = .ok (zs.foldl insert empty) := by
  obtain ⟨l, hload, hl⟩ := hy.load_emit m hm
  rw [hdata, YamlCpp.data_map] at hl
  obtain ⟨p, es, rfl, hes⟩ := YamlCpp.data_eq_map hl
  have hbuilt : ∀ e ∈ es, y.Built e.2 := fun e he => .value (.load hload) he
  have hstand := entries_of_data hes hbuilt hxs
  obtain ⟨zs, hzs, hR⟩ := mapM_ok_of_forall₂ (R := SamePairs R)
    (f := fun it => (cast (y.emit it.2)).map fun x => (YamlCpp.scalarOf it.1, x))
    (hstand.imp (by
      intro e v h
      obtain ⟨hb, hkey, hdec⟩ := h
      obtain ⟨v', hv', hR⟩ := hdec e.2 hb rfl
      refine ⟨(YamlCpp.scalarOf e.1, v'), ?_, hkey, hR⟩
      rw [hv']
      rfl))
  refine ⟨zs, hR, fun C empty insert => ?_⟩
  rw [mapOfString_entries hload, hzs]
  rfl

/-! ## §2. Encoders. -/

/-- What the loop of the map encoders has put into the node. -/
theorem setKeys_append (xs : List (Str × Node P)) :
    ∀ ws : List (Str × Node P), ((ws ++ xs).map Prod.fst).Nodup →
      xs.foldl (fun node x => y.setKey node x.1 x.2) (scalarKeys y ws) = scalarKeys y (ws ++ xs) := by
  induction xs with
  | nil => intro ws _; rw [List.append_nil]; rfl
  | cons x xs ih =>
      intro ws hnodup
      have hfresh : ∀ e ∈ scalarKeys y ws, ∀ p, e.1 ≠ .scalar p x.1 := by
        intro e he p hp
        obtain ⟨w, hw, rfl⟩ := List.mem_map.mp he
        injection hp with _ hkey
        rw [List.map_append, List.nodup_append] at hnodup
        exact hnodup.2.2 w.1 (List.mem_map_of_mem hw) x.1 (List.mem_map_of_mem List.mem_cons_self)
          hkey
      have happend : y.setKey (scalarKeys y ws) x.1 x.2 = scalarKeys y (ws ++ [x]) := by
        rw [YamlCpp.setKey_append y hfresh]
        unfold scalarKeys
        rw [List.map_append]
        rfl
      rw [List.foldl_cons, happend, ih (ws ++ [x]) (by simpa using hnodup), List.append_assoc]
      rfl

/-- **The map encoders**: make a node of every value, write the map of these. -/
theorem pairsToString_eq {vs : List (Str × T)} (hvs : (vs.map Prod.fst).Nodup)
    (cast : LexicalCast T Str) :
    pairsToString y cast vs
      = (vs.mapM fun i => (loadedElement y cast i.2).map fun value => (i.1, value)).map
          fun xs => y.emit (.map y.fresh (scalarKeys y xs)) := by
  have hloop := foldlM_collect (fun i : Str × T =>
    (loadedElement y cast i.2).map fun value => (i.1, value))
    (fun node x => y.setKey node x.1 x.2) vs []
  unfold pairsToString
  rw [hloop]
  cases hxs : vs.mapM (fun i : Str × T =>
      (loadedElement y cast i.2).map fun value => (i.1, value)) with
  | error e => rfl
  | ok xs =>
      have hkeys : xs.map Prod.fst = vs.map Prod.fst := mapM_keys hxs
      have hset := setKeys_append (y := y) xs [] (by rw [List.nil_append, hkeys]; exact hvs)
      show Except.ok (y.emit (.map y.fresh (xs.foldl _ (scalarKeys y [])))) = _
      rw [hset]
      rfl

/-- They write a map whose values stand for those of the pairs. -/
theorem pairsToString_ok (hy : y.Faithful) {c : Casts T} {R : T → T → Prop}
    (hc : RoundTrips y c R) {vs : List (Str × T)} (hvs : (vs.map Prod.fst).Nodup) :
    ∃ xs, List.Forall₂ (SamePairs (StandsFor y c.fromStr R)) xs vs ∧
      y.Built (.map y.fresh (scalarKeys y xs)) ∧
      pairsToString y c.toStr vs = .ok (y.emit (.map y.fresh (scalarKeys y xs))) := by
  have helements : List.Forall₂ (fun (i v : Str × T) => ∃ x,
      ((loadedElement y c.toStr i.2).map fun value => (i.1, value)) = .ok x ∧
        SamePairs (StandsFor y c.fromStr R) x v) vs vs := by
    rw [List.forall₂_same]
    intro i _
    obtain ⟨n, hn, hstand⟩ := loadedElement_standsFor hy hc i.2
    refine ⟨(i.1, n), ?_, rfl, hstand⟩
    rw [hn]
    rfl
  obtain ⟨xs, hxs, hpairs⟩ := mapM_ok_of_forall₂ helements
  refine ⟨xs, hpairs, built_map ?_, ?_⟩
  · intro x hx
    obtain ⟨v, -, hv⟩ := exists_of_mem_left hpairs hx
    exact hv.2.1
  · rw [pairsToString_eq hvs, hxs]
    rfl

/-! ## §3. Each container. -/

section Containers

variable {c : Casts T} {R : T → T → Prop}

theorem roundTrips_int (hy : y.Faithful) {toInt : LexicalCast Str Int32}
    (hint : ∀ n : Int32, toInt (intText n.toInt) = .ok n) :
    RoundTrips y (intCasts toInt) Eq := by
  intro v
  have hbuilt : y.Built (.scalar y.fresh (intText v.toInt)) := .scalar _
  refine ⟨_, hbuilt, ?_, ?_⟩
  · rw [hy.emit_int _ v.toInt hbuilt rfl]
    rfl
  · intro m hm hdata
    refine ⟨v, ?_, rfl⟩
    rw [hy.emit_int m v.toInt hm hdata]
    exact hint v

/-- **A vector**: its elements are pushed as scalars. -/
theorem roundTrips_scalars (hy : y.Faithful)
    (helement : ∀ v, ∃ n, scalarElement y c.toStr v = .ok n ∧ StandsFor y c.fromStr R n v) :
    RoundTrips y (vectorCasts y c) (List.Forall₂ R) := by
  intro vs
  obtain ⟨items, hmap, hitems⟩ :=
    mapM_ok_of_forall₂ (List.forall₂_same.mpr fun v (_ : v ∈ vs) => helement v)
  refine ⟨.sequence y.fresh items, built_sequence hitems, ?_, fun m hm hdata => ?_⟩
  · show (vs.mapM (scalarElement y c.toStr)).bind _ = _
    rw [hmap]
    rfl
  · obtain ⟨xs, hxs, hloop⟩ := decode_sequence hy hitems hm hdata
    refine ⟨xs, ?_, hxs⟩
    show stringToVector y c.fromStr (y.emit m) = _
    unfold stringToVector
    rw [hloop, foldl_push_back]

/-- For integers that makes no difference. -/
theorem roundTrips_vectorInt (hy : y.Faithful) {toInt : LexicalCast Str Int32}
    (hint : ∀ n : Int32, toInt (intText n.toInt) = .ok n) :
    RoundTrips y (vectorCasts y (intCasts toInt)) Eq := by
  have hscalars : RoundTrips y (vectorCasts y (intCasts toInt)) (List.Forall₂ Eq) := by
    refine roundTrips_scalars hy fun v => ?_
    refine ⟨.scalar y.fresh (intText v.toInt), rfl, .scalar _, fun m hm hdata => ⟨v, ?_, rfl⟩⟩
    rw [hy.emit_int m v.toInt hm hdata]
    exact hint v
  rw [List.forall₂_eq_eq_eq] at hscalars
  exact hscalars

/-- **The containers whose elements are loaded before they are pushed**: what comes
back is made by inserting the elements one after the other. -/
theorem roundTrips_sequence (hy : y.Faithful) (hc : RoundTrips y c R) (toList : C → List T)
    (empty : C) (insert : C → T → C) {S : C → C → Prop}
    (hS : ∀ v xs, List.Forall₂ R xs (toList v) → S (xs.foldl insert empty) v) :
    RoundTrips y ⟨fun v => listToString y c.toStr (toList v),
      sequenceOfString y c.fromStr empty insert⟩ S := by
  intro v
  obtain ⟨items, hmap, hitems⟩ := loadedElements_standFor hy hc (toList v)
  refine ⟨.sequence y.fresh items, built_sequence hitems, ?_, fun m hm hdata => ?_⟩
  · show ((toList v).mapM (loadedElement y c.toStr)).bind _ = _
    rw [hmap]
    rfl
  · obtain ⟨xs, hxs, hloop⟩ := decode_sequence hy hitems hm hdata
    exact ⟨xs.foldl insert empty, hloop C empty insert, hS v xs hxs⟩

theorem roundTrips_list (hy : y.Faithful) (hc : RoundTrips y c R) :
    RoundTrips y (listCasts y c) (List.Forall₂ R) := by
  refine roundTrips_sequence hy hc (fun vs => vs) [] (fun vec x => vec ++ [x]) fun vs xs hxs => ?_
  rw [foldl_push_back]
  exact hxs

theorem roundTrips_set [LinearOrder T] (hy : y.Faithful) (hc : RoundTrips y c R)
    (hR : ∀ a b, R a b → a = b) : RoundTrips y (setCasts y c) Eq := by
  refine roundTrips_sequence hy hc SortedBy.toList .empty .insert fun v xs hxs => ?_
  obtain rfl : xs = v.toList := List.forall₂_eq_eq_eq ▸ hxs.imp hR
  exact v.foldl_insert_toList

/-- `operator==` of `std::unordered_set` -/
def SameElements (a b : UnorderedSet T) : Prop := ∀ x, x ∈ a.toList ↔ x ∈ b.toList

theorem roundTrips_unorderedSet [DecidableEq T] (hy : y.Faithful) (hc : RoundTrips y c Eq) :
    RoundTrips y (unorderedSetCasts y c) SameElements := by
  refine roundTrips_sequence hy hc DistinctBy.toList .empty .insert fun v xs hxs x => ?_
  obtain rfl : xs = v.toList := List.forall₂_eq_eq_eq ▸ hxs
  rw [DistinctBy.toList_foldl_insert v.toList .empty v.nodup]
  rfl

/-- Pairs related to those of `vs` have the same keys. -/
theorem keys_eq {zs vs : List (Str × T)} (h : List.Forall₂ (SamePairs R) zs vs) :
    zs.map Prod.fst = vs.map Prod.fst :=
  map_eq_map_of_forall₂ (h.imp fun _ _ h => h.1)

/-- **The maps**: what comes back is made by inserting the pairs one after the other. -/
theorem roundTrips_pairs (hy : y.Faithful) (hc : RoundTrips y c R) (toList : C → List (Str × T))
    (hnodup : ∀ v, ((toList v).map Prod.fst).Nodup) (empty : C) (insert : C → Str × T → C)
    {S : C → C → Prop}
    (hS : ∀ v zs, List.Forall₂ (SamePairs R) zs (toList v) → S (zs.foldl insert empty) v) :
    RoundTrips y ⟨fun v => pairsToString y c.toStr (toList v),
      mapOfString y c.fromStr empty insert⟩ S := by
  intro v
  obtain ⟨xs, hxs, hbuilt, hstr⟩ := pairsToString_ok hy hc (hnodup v)
  refine ⟨_, hbuilt, hstr, fun m hm hdata => ?_⟩
  obtain ⟨zs, hzs, hloop⟩ := decode_map hy hxs hm hdata
  exact ⟨zs.foldl insert empty, hloop C empty insert, hS v zs hzs⟩

/-- `operator==` of `std::map` -/
def SameMap (R : T → T → Prop) (a b : StdMap T) : Prop :=
  List.Forall₂ (SamePairs R) a.toList b.toList

theorem roundTrips_map (hy : y.Faithful) (hc : RoundTrips y c R) :
    RoundTrips y (mapCasts y c) (SameMap R) := by
  refine roundTrips_pairs hy hc SortedBy.toList SortedBy.nodup_keys .empty .insert
    fun v zs hzs => ?_
  have hsorted : zs.Pairwise fun a b => a.1 < b.1 := v.sorted_of_keys (keys_eq hzs)
  unfold SameMap
  rw [SortedBy.toList_foldl_insert zs .empty hsorted]
  exact hzs

/-- `operator==` of `std::unordered_map`: each has the pairs of the other. -/
def SameEntries (R : T → T → Prop) (a b : UnorderedMap T) : Prop :=
  (∀ e ∈ a.toList, ∃ e' ∈ b.toList, SamePairs R e e') ∧
    ∀ e' ∈ b.toList, ∃ e ∈ a.toList, SamePairs R e e'

theorem roundTrips_unorderedMap (hy : y.Faithful) (hc : RoundTrips y c R) :
    RoundTrips y (unorderedMapCasts y c) (SameEntries R) := by
  refine roundTrips_pairs hy hc DistinctBy.toList DistinctBy.nodup .empty .insert
    fun v zs hzs => ?_
  have hnodup : (zs.map Prod.fst).Nodup := by
    rw [keys_eq hzs]
    exact v.nodup
  unfold SameEntries
  rw [DistinctBy.toList_foldl_insert zs .empty hnodup]
  exact ⟨fun e he => exists_of_mem_left hzs he, fun e' he' => exists_of_mem_right hzs he'⟩

end Containers

/-! ## §4. Every nested type. -/

/-- The types of nested containers, each with its casts and its `operator==`.  The
flag says that the type has an `operator<`, which a `std::set` needs of its
elements. -/
inductive Nested (y : YamlCpp P K) (toInt : LexicalCast Str Int32) :
    (T : Type) → Bool → Casts T → (T → T → Prop) → Prop where
  | int : Nested y toInt Int32 true (intCasts toInt) Eq
  | vectorInt : Nested y toInt (List Int32) true (vectorCasts y (intCasts toInt)) Eq
  | unorderedSetInt :
      Nested y toInt (UnorderedSet Int32) false (unorderedSetCasts y (intCasts toInt)) SameElements
  | list {T : Type} {b : Bool} {c : Casts T} {R : T → T → Prop} (h : Nested y toInt T b c R) :
      Nested y toInt (List T) b (listCasts y c) (List.Forall₂ R)
  | set {T : Type} {c : Casts T} {R : T → T → Prop} [LinearOrder T]
      (h : Nested y toInt T true c R) : Nested y toInt (StdSet T) true (setCasts y c) Eq
  | map {T : Type} {b : Bool} {c : Casts T} {R : T → T → Prop} (h : Nested y toInt T b c R) :
      Nested y toInt (StdMap T) b (mapCasts y c) (SameMap R)
  | unorderedMap {T : Type} {b : Bool} {c : Casts T} {R : T → T → Prop}
      (h : Nested y toInt T b c R) :
      Nested y toInt (UnorderedMap T) false (unorderedMapCasts y c) (SameEntries R)

/-- The `operator==` of a type with an `operator<` is equality: it has no
unordered container inside. -/
theorem Nested.eq_of_ordered {toInt : LexicalCast Str Int32} {b : Bool} {c : Casts T}
    {R : T → T → Prop} (h : Nested y toInt T b c R) (hb : b = true) : ∀ v w, R v w → v = w := by
  induction h with
  | int => exact fun _ _ h => h
  | vectorInt => exact fun _ _ h => h
  | unorderedSetInt => cases hb
  | list _ ih =>
      intro v w hvw
      exact List.forall₂_eq_eq_eq ▸ hvw.imp (ih hb)
  | set _ _ => exact fun _ _ h => h
  | map _ ih =>
      intro v w hvw
      apply SortedBy.ext
      exact List.forall₂_eq_eq_eq ▸ hvw.imp fun a b h => Prod.ext h.1 (ih hb a.2 b.2 h.2)
  | unorderedMap _ _ => cases hb

/-- **The induction on the type.** -/
theorem Nested.roundTrips (hy : y.Faithful) {toInt : LexicalCast Str Int32}
    (hint : ∀ n : Int32, toInt (intText n.toInt) = .ok n) {b : Bool} {c : Casts T}
    {R : T → T → Prop} (h : Nested y toInt T b c R) : RoundTrips y c R := by
  induction h with
  | int => exact roundTrips_int hy hint
  | vectorInt => exact roundTrips_vectorInt hy hint
  | unorderedSetInt => exact roundTrips_unorderedSet hy (roundTrips_int hy hint)
  | list _ ih => exact roundTrips_list hy ih
  | set h ih => exact roundTrips_set hy ih (h.eq_of_ordered rfl)
  | map _ ih => exact roundTrips_map hy ih
  | unorderedMap _ ih => exact roundTrips_unorderedMap hy ih

/-- **DECODE UNDOES ENCODE**: for every value of every nested type, the text of the
value decodes, and to a value `operator==` does not tell from it. -/
theorem decode_encode (y : YamlCpp P K) (hy : y.Faithful) (toInt : LexicalCast Str Int32)
    (hint : ∀ n : Int32, toInt (intText n.toInt) = .ok n) {b : Bool} {c : Casts T}
    {R : T → T → Prop} (hT : Nested y toInt T b c R) (v : T) :
    ∃ v', c.roundTrip v = .ok v' ∧ R v' v := by
  obtain ⟨n, hn, hstr, hdec⟩ := hT.roundTrips hy hint v
  obtain ⟨v', hv', hR⟩ := hdec n hn rfl
  refine ⟨v', ?_, hR⟩
  unfold Casts.roundTrip
  rw [hstr]
  exact hv'

/-- `{"": [], "k": [[1, -2], []]}`, as a `std::map<std::string, std::list<std::vector<int>>>`. -/
def sampleMap : StdMap (List (List Int32)) :=
  ⟨[([], []), (['k'], [[1, -2], []])], by simp⟩

theorem decode_encode_sampleMap :
    ∃ v', (mapCasts blockYaml (listCasts blockYaml (vectorCasts blockYaml
        (intCasts lexicalCastInt)))).roundTrip sampleMap = .ok v' ∧
      SameMap (List.Forall₂ Eq) v' sampleMap :=
  decode_encode blockYaml BlockYaml.faithful lexicalCastInt lexicalCastInt_intText
    (.map (.list .vectorInt)) sampleMap

end SylarCot.Config
