/-
  SylarCot.Config.LexicalCast.Strings
  ───────────────────────────────────
  **CONTAINERS OF STRINGS**.  A string is its own text for `boost::lexical_cast`,
  but the decoders take the text an element is WRITTEN as: a string in quotes comes
  back with the quotes.  The encoders that load their elements first turn a string
  into whatever it means in YAML.

    • `rewritten` — what reading and writing makes of a text;
    • `listStrings_roundTrip` and its siblings — the round trip of each container,
      element by element;
    • `strings_survive_iff` — so exactly the strings that are written without
      quotes come back in a vector, and exactly those that are YAML in the form
      the emitter writes it in the other containers.
-/
import SylarCot.Config.LexicalCast.RoundTrip

namespace SylarCot.Config

open SylarCot.Log (Str)
open SylarCot.Library
open SylarCot.Config.BlockYaml (blockYaml)

variable {P K C : Type} (y : YamlCpp P K)

/-! ## §1. Texts of elements. -/

/-- The nodes the encoders push: scalars of the program's own and loaded nodes. -/
inductive Element : Node P → Prop where
  | scalar (text : Str) : Element (.scalar y.fresh text)
  | load {s : Str} {n : Node P} (h : y.load s = .ok n) : Element n

/-- `n` is written, alone or in a container, and `m` is read in its place. -/
inductive Reload : Node P → Node P → Prop where
  | alone {n m : Node P} (hn : Element y n) (h : y.load (y.emit n) = .ok m) : Reload n m
  | item {items its : List (Node P)} {p : P} {n m : Node P} (hitems : ∀ n ∈ items, Element y n)
      (h : y.load (y.emit (.sequence y.fresh items)) = .ok (.sequence p its))
      (hmem : (n, m) ∈ items.zip its) : Reload n m
  | value {xs : List (Str × Node P)} {es : List (Node P × Node P)} {p : P} {n m : Node P}
      (hxs : ∀ x ∈ xs, Element y x.2) (h : y.load (y.emit (.map y.fresh (scalarKeys y xs)))
        = .ok (.map p es)) (hmem : (n, m) ∈ (xs.map Prod.snd).zip (es.map Prod.snd)) : Reload n m

/-- What is relied on besides `YamlCpp.Faithful`: an element that has been written
and read again is written as before. -/
def KeepsText : Prop := ∀ n m, Reload y n m → y.emit m = y.emit n

/-- A text read and written again. -/
def rewritten (x : Str) : Except Thrown Str := (y.load x).map y.emit

variable {y}

theorem Element.built {n : Node P} (h : Element y n) : y.Built n := by
  cases h with
  | scalar text => exact .scalar text
  | load h => exact .load h

/-- **Writing what has been read is final.** -/
theorem rewritten_idempotent (hy : y.Faithful) (htext : KeepsText y) {x z : Str}
    (h : rewritten y x = .ok z) : rewritten y z = .ok z := by
  obtain ⟨n, hn, rfl⟩ := map_eq_ok_iff.mp h
  obtain ⟨m, hm, -⟩ := hy.load_emit n (.load hn)
  have hsame : y.emit m = y.emit n := htext n m (.alone (.load hn) hm)
  unfold rewritten
  rw [hm]
  exact congrArg Except.ok hsame

/-! ## §2. Decoders. -/

/-- A list that is read in the place of another has the same texts. -/
theorem texts_eq {items its : List (Node P)} (hlength : items.length = its.length)
    (h : ∀ n m, (n, m) ∈ items.zip its → y.emit m = y.emit n) :
    its.map y.emit = items.map y.emit := by
  apply map_eq_map_of_forall₂
  apply List.Forall₂.flip
  rw [List.forall₂_iff_zip]
  exact ⟨hlength, fun hmem => h _ _ hmem⟩

/-- **Sequences of strings** decode to the texts of the elements. -/
theorem decode_strings (hy : y.Faithful) (htext : KeepsText y) {items : List (Node P)}
    (hitems : ∀ n ∈ items, Element y n) (empty : C) (insert : C → Str → C) :
    sequenceOfString y .ok empty insert (y.emit (.sequence y.fresh items))
      = .ok ((items.map y.emit).foldl insert empty) := by
  obtain ⟨l, hload, hl⟩ := hy.load_emit _ (.sequence fun n hn => (hitems n hn).built)
  rw [YamlCpp.data_sequence] at hl
  obtain ⟨p, its, rfl, hits⟩ := YamlCpp.data_eq_sequence hl
  have hlength : items.length = its.length := by
    have := congrArg List.length hits
    rw [List.length_map, List.length_map] at this
    exact this.symm
  have htexts := texts_eq hlength fun n m hmem => htext n m (.item hitems hload hmem)
  rw [sequenceOfString_items hload, mapM_eq_map (g := y.emit) (fun _ _ => rfl), htexts]
  rfl

/-- **Maps of strings** decode to the keys and the texts of the values. -/
theorem decode_stringMap (hy : y.Faithful) (htext : KeepsText y) {xs : List (Str × Node P)}
    (hxs : ∀ x ∈ xs, Element y x.2) (empty : C) (insert : C → Str × Str → C) :
    mapOfString y .ok empty insert (y.emit (.map y.fresh (scalarKeys y xs)))
      = .ok ((xs.map (Prod.map id y.emit)).foldl insert empty) := by
  obtain ⟨l, hload, hl⟩ := hy.load_emit _ (built_map fun x hx => (hxs x hx).built)
  rw [YamlCpp.data_map] at hl
  obtain ⟨p, es, rfl, hes⟩ := YamlCpp.data_eq_map hl
  have hkeys : es.map (fun e => YamlCpp.scalarOf e.1) = xs.map Prod.fst := by
    have := congrArg (List.map fun e => YamlCpp.scalarOf e.1) hes
    simpa [scalarKeys, Function.comp_def, YamlCpp.scalarOf_data] using this
  have hlength : xs.length = es.length := by
    have := congrArg List.length hkeys
    rw [List.length_map, List.length_map] at this
    exact this.symm
  have htexts := texts_eq (by rw [List.length_map, List.length_map, hlength])
    fun n m hmem => htext n m (.value hxs hload hmem)
  have hpairs : es.map (fun e => (YamlCpp.scalarOf e.1, y.emit e.2))
      = xs.map (Prod.map id y.emit) := by
    rw [List.map_map, List.map_map] at htexts
    rw [← List.zip_map', hkeys]
    exact (congrArg (List.zip (xs.map Prod.fst)) htexts).trans List.zip_map'
  rw [mapOfString_entries hload,
      mapM_eq_map (f := fun it : Node P × Node P =>
          (Except.ok (y.emit it.2)).map fun x => (YamlCpp.scalarOf it.1, x))
        (g := fun e => (YamlCpp.scalarOf e.1, y.emit e.2)) (fun _ _ => rfl), hpairs]
  rfl

/-! ## §3. Each container. -/

/-- **A vector of strings**: each comes back as it is written. -/
theorem vectorStrings_roundTrip (hy : y.Faithful) (htext : KeepsText y) (xs : List Str) :
    (vectorCasts y stringCasts).roundTrip xs
      = .ok (xs.map fun x => y.emit (.scalar y.fresh x)) := by
  have hitems : ∀ n ∈ xs.map (fun x => .scalar y.fresh x), Element y n := by
    intro n hn
    obtain ⟨x, -, rfl⟩ := List.mem_map.mp hn
    exact .scalar x
  have hstr : vectorToString y stringCasts.toStr xs
      = .ok (y.emit (.sequence y.fresh (xs.map fun x => .scalar y.fresh x))) := by
    show (xs.mapM (scalarElement y stringCasts.toStr)).bind _ = _
    rw [mapM_eq_map (f := scalarElement y stringCasts.toStr)
          (g := fun x => .scalar y.fresh x) (fun _ _ => rfl)]
    rfl
  show (vectorToString y stringCasts.toStr xs).bind (stringToVector y stringCasts.fromStr) = _
  rw [hstr]
  show sequenceOfString y .ok [] _ _ = _
  rw [decode_strings hy htext hitems, foldl_push_back, List.map_map]
  rfl

/-- The containers that load their elements first, before the insertions. -/
theorem sequenceStrings_roundTrip (hy : y.Faithful) (htext : KeepsText y) (xs : List Str)
    (empty : C) (insert : C → Str → C) :
    (listToString y stringCasts.toStr xs).bind (sequenceOfString y .ok empty insert)
      = (xs.mapM (rewritten y)).map fun zs => zs.foldl insert empty := by
  have hrewritten : xs.mapM (rewritten y) = (xs.mapM y.load).map (List.map y.emit) :=
    mapM_map_results y.load y.emit xs
  rw [hrewritten]
  show ((xs.mapM y.load).bind fun items => .ok (y.emit (.sequence y.fresh items))).bind _ = _
  cases hload : xs.mapM y.load with
  | error e => rfl
  | ok items =>
      have hitems : ∀ n ∈ items, Element y n := by
        intro n hn
        obtain ⟨x, -, hx⟩ := mapM_ok_mem_right hload hn
        exact .load hx
      exact decode_strings hy htext hitems empty insert

theorem listStrings_roundTrip (hy : y.Faithful) (htext : KeepsText y) (xs : List Str) :
    (listCasts y stringCasts).roundTrip xs = xs.mapM (rewritten y) := by
  refine (sequenceStrings_roundTrip hy htext xs [] fun vec x => vec ++ [x]).trans ?_
  cases xs.mapM (rewritten y) with
  | error e => rfl
  | ok zs => exact congrArg Except.ok (foldl_push_back zs)

theorem setStrings_roundTrip (hy : y.Faithful) (htext : KeepsText y) (v : StdSet Str) :
    (setCasts y stringCasts).roundTrip v
      = (v.toList.mapM (rewritten y)).map fun zs => zs.foldl .insert .empty :=
  sequenceStrings_roundTrip hy htext v.toList (SortedBy.empty : StdSet Str) SortedBy.insert

/-- **A map of strings**: the keys, with what the values are rewritten to. -/
theorem mapStrings_roundTrip (hy : y.Faithful) (htext : KeepsText y) (v : StdMap Str) :
    (mapCasts y stringCasts).roundTrip v
      = (v.toList.mapM fun i => (rewritten y i.2).map fun z => (i.1, z)).map
          fun zs => zs.foldl .insert .empty := by
  have hrewritten : v.toList.mapM (fun i => (rewritten y i.2).map fun z => (i.1, z))
      = (v.toList.mapM fun i => (y.load i.2).map fun value => (i.1, value)).map
          (List.map (Prod.map id y.emit)) := by
    rw [← mapM_map_results]
    congr 1
    funext i
    unfold rewritten
    cases y.load i.2 with
    | _ => rfl
  show (pairsToString y stringCasts.toStr v.toList).bind (stringToMap y stringCasts.fromStr) = _
  rw [pairsToString_eq v.nodup_keys, hrewritten]
  show ((v.toList.mapM fun i => (y.load i.2).map fun value => (i.1, value)).map _).bind _ = _
  cases hload : v.toList.mapM (fun i => (y.load i.2).map fun value => (i.1, value)) with
  | error e => rfl
  | ok xs =>
      have hxs : ∀ x ∈ xs, Element y x.2 := by
        intro x hx
        obtain ⟨i, -, hi⟩ := mapM_ok_mem_right hload hx
        obtain ⟨n, hn, rfl⟩ := map_eq_ok_iff.mp hi
        exact .load hn
      exact decode_stringMap hy htext hxs (SortedBy.empty : StdMap Str) SortedBy.insert

/-! ## §4. What survives. -/

theorem setStrings_survive_iff (hy : y.Faithful) (htext : KeepsText y) (v : StdSet Str) :
    (setCasts y stringCasts).roundTrip v = .ok v ↔ ∀ x ∈ v.toList, rewritten y x = .ok x := by
  rw [setStrings_roundTrip hy htext, map_eq_ok_iff]
  constructor
  · intro h x hx
    obtain ⟨zs, hzs, rfl⟩ := h
    -- x has been inserted, so it is what some element was rewritten to
    have hmem : x ∈ zs := by
      rcases SortedBy.mem_foldl_insert zs .empty hx with h | h
      · cases h
      · exact h
    obtain ⟨x', -, hx'⟩ := mapM_ok_mem_right hzs hmem
    exact rewritten_idempotent hy htext hx'
  · intro h
    exact ⟨v.toList, mapM_eq_self_iff.mpr h, v.foldl_insert_toList⟩

theorem mapStrings_survive_iff (hy : y.Faithful) (htext : KeepsText y) (v : StdMap Str) :
    (mapCasts y stringCasts).roundTrip v = .ok v
      ↔ ∀ i ∈ v.toList, rewritten y i.2 = .ok i.2 := by
  have hself : ∀ i : Str × Str,
      (rewritten y i.2).map (fun z => (i.1, z)) = .ok i ↔ rewritten y i.2 = .ok i.2 := by
    intro i
    rw [map_eq_ok_iff]
    constructor
    · intro h
      obtain ⟨z, hz, hi⟩ := h
      exact hz.trans (congrArg Except.ok (congrArg Prod.snd hi))
    · intro h
      exact ⟨i.2, h, rfl⟩
  rw [mapStrings_roundTrip hy htext, map_eq_ok_iff]
  constructor
  · intro h
    obtain ⟨zs, hzs, hv⟩ := h
    -- the keys are those of v, so the insertions only append
    have hsorted : zs.Pairwise fun a b => a.1 < b.1 := v.sorted_of_keys (mapM_keys hzs)
    have hlist : zs = v.toList := by
      rw [← hv, SortedBy.toList_foldl_insert zs .empty hsorted]
      rfl
    rw [hlist] at hzs
    exact fun i hi => (hself i).mp (mapM_eq_self_iff.mp hzs i hi)
  · intro h
    exact ⟨v.toList, mapM_eq_self_iff.mpr fun i hi => (hself i).mpr (h i hi), v.foldl_insert_toList⟩

/-- **STRINGS SURVIVE** in a vector exactly when each is written without quotes, in
a list, a set or as the values of a map exactly when each is YAML in the form the
emitter writes it. -/
theorem strings_survive_iff (y : YamlCpp P K) (hy : y.Faithful) (htext : KeepsText y) :
    (∀ xs, (vectorCasts y stringCasts).roundTrip xs = .ok xs
        ↔ ∀ x ∈ xs, y.emit (.scalar y.fresh x) = x) ∧
      (∀ xs, (listCasts y stringCasts).roundTrip xs = .ok xs
        ↔ ∀ x ∈ xs, rewritten y x = .ok x) ∧
      (∀ v, (setCasts y stringCasts).roundTrip v = .ok v
        ↔ ∀ x ∈ v.toList, rewritten y x = .ok x) ∧
      ∀ v, (mapCasts y stringCasts).roundTrip v = .ok v
        ↔ ∀ i ∈ v.toList, rewritten y i.2 = .ok i.2 := by
  refine ⟨fun xs => ?_, fun xs => ?_, setStrings_survive_iff hy htext,
    mapStrings_survive_iff hy htext⟩
  · rw [vectorStrings_roundTrip hy htext, Except.ok.injEq]
    exact map_eq_self_iff
  · rw [listStrings_roundTrip hy htext]
    exact mapM_eq_self_iff

/-- Every element of `blockYaml` is read back as it was, so it is written as before. -/
theorem keepsText_blockYaml : KeepsText blockYaml := by
  have hself : ∀ (ns : List (Node Unit)) {n m : Node Unit}, (n, m) ∈ ns.zip ns → n = m :=
    fun ns _ _ hmem => List.forall₂_zip (List.forall₂_refl ns) hmem
  intro n m h
  cases h with
  | alone hn h =>
      have hload := BlockYaml.load_emit (BlockYaml.storable_of_built hn.built)
      obtain rfl : m = n := Except.ok.inj (h.symm.trans hload)
      rfl
  | item hitems h hmem =>
      have hload := BlockYaml.load_emit (.sequence fun n hn =>
        BlockYaml.storable_of_built (hitems n hn).built)
      have hnode := Except.ok.inj (h.symm.trans hload)
      injection hnode with _ hits
      subst hits
      rw [hself _ hmem]
  | @value xs es p _ _ hxs h hmem =>
      have hload := BlockYaml.load_emit
        (BlockYaml.storable_of_built (built_map fun x hx => (hxs x hx).built))
      have hnode := Except.ok.inj (h.symm.trans hload)
      injection hnode with _ hes
      subst hes
      have hvalues : (scalarKeys blockYaml xs).map Prod.snd = xs.map Prod.snd := by
        simp [scalarKeys]
      rw [hvalues] at hmem
      rw [hself _ hmem]

/-- The words "a1" and "-7" survive in a vector. -/
theorem strings_survive_iff_words :
    (vectorCasts blockYaml stringCasts).roundTrip ["a1".toList, "-7".toList]
      = .ok ["a1".toList, "-7".toList] :=
  ((strings_survive_iff blockYaml BlockYaml.faithful keepsText_blockYaml).1 _).mpr (by decide)

/-- The empty string comes back in quotes from a vector, and as the null word from
the other containers. -/
theorem empty_string_changes :
    (vectorCasts blockYaml stringCasts).roundTrip [[]] = .ok ["\"\"".toList] ∧
      (listCasts blockYaml stringCasts).roundTrip [[]] = .ok ["~".toList] := by
  constructor
  · rfl
  · rfl

end SylarCot.Config
