/-
  SylarCot.Config.LexicalCast.Maps
  ────────────────────────────────
  **WHICH TEXTS DECODE AS A MAP**, and to which one.  The loop of the map decoders
  runs over the iterators of the root: a root that is no map has none, but those of
  a sequence with items are invalid.  A key is taken as `Scalar()`, which is empty
  for every key that is no scalar, and `insert` keeps what is there.

    • `mapOfString_ok_iff` — the result, from the entries of the root;
    • `map_decodes_iff` — the decoders return normally exactly for `Readable` roots,
      and then a key has the value of the first entry with its text.
-/
import SylarCot.Config.LexicalCast.RoundTrip

namespace SylarCot.Config

open SylarCot.Log (Str)
open SylarCot.Library
open SylarCot.Config.BlockYaml (blockYaml)

variable {P K T C : Type} {y : YamlCpp P K}

/-! ## §1. The loop. -/

/-- The pair the loop makes of an entry. -/
def EntryGives (y : YamlCpp P K) (cast : LexicalCast Str T) (e : Node P × Node P) (z : Str × T) :
    Prop :=
  YamlCpp.scalarOf e.1 = z.1 ∧ cast (y.emit e.2) = .ok z.2

/-- **The loop** makes a pair of each entry and inserts them one after the other. -/
theorem mapOfString_ok_iff {s : Str} {root : Node P} (hload : y.load s = .ok root)
    (cast : LexicalCast Str T) (empty : C) (insert : C → Str × T → C) (m : C) :
    mapOfString y cast empty insert s = .ok m ↔ ∃ es zs, YamlCpp.entries root = .ok es ∧
      List.Forall₂ (EntryGives y cast) es zs ∧ zs.foldl insert empty = m := by
  have hpair : ∀ (e : Node P × Node P) (z : Str × T),
      (cast (y.emit e.2)).map (fun value => (YamlCpp.scalarOf e.1, value)) = .ok z
        ↔ EntryGives y cast e z := by
    intro e z
    rw [map_eq_ok_iff]
    constructor
    · intro h
      obtain ⟨x, hx, rfl⟩ := h
      exact ⟨rfl, hx⟩
    · intro h
      exact ⟨z.2, h.2, Prod.ext h.1 rfl⟩
  rw [mapOfString_ok hload]
  cases hentries : YamlCpp.entries root with
  | error e =>
      constructor
      · intro h
        cases h
      · intro h
        obtain ⟨es, zs, hes, -⟩ := h
        cases hes
  | ok es =>
      show Except.map _ (List.mapM _ es) = .ok m ↔ _
      rw [map_eq_ok_iff]
      simp only [mapM_eq_ok_iff, hpair]
      constructor
      · intro h
        obtain ⟨zs, hzs, hm⟩ := h
        exact ⟨es, zs, rfl, hzs, hm⟩
      · intro h
        obtain ⟨es', zs, hes, hzs, hm⟩ := h
        cases hes
        exact ⟨zs, hzs, hm⟩

/-! ## §2. The specification. -/

/-- The roots for which no iteration throws. -/
def Readable (y : YamlCpp P K) (cast : LexicalCast Str T) (root : Node P) : Prop :=
  match root with
  | .map _ entries => ∀ e ∈ entries, ∃ x, cast (y.emit e.2) = .ok x
  | .sequence _ items => items = []
  | _ => True

/-- The first entry of the root whose key has this text holds `x`. -/
def FirstEntry (y : YamlCpp P K) (cast : LexicalCast Str T) (root : Node P) (key : Str) (x : T) :
    Prop :=
  match root with
  | .map _ entries =>
      ∃ e, entries.find? (fun e => decide (YamlCpp.scalarOf e.1 = key)) = some e ∧
        cast (y.emit e.2) = .ok x
  | _ => False

/-- The roots that are readable are those whose iterators give entries that convert. -/
theorem readable_iff (cast : LexicalCast Str T) (root : Node P) :
    Readable y cast root ↔
      ∃ es zs, YamlCpp.entries root = .ok es ∧ List.Forall₂ (EntryGives y cast) es zs := by
  -- without entries there is nothing to convert
  have hnone : ∃ (es : List (Node P × Node P)) (zs : List (Str × T)),
      (Except.ok [] : Except Thrown (List (Node P × Node P))) = .ok es ∧
        List.Forall₂ (EntryGives y cast) es zs := ⟨[], [], rfl, .nil⟩
  cases root with
  | map p entries =>
      have hconvert : (∃ zs, List.Forall₂ (EntryGives y cast) entries zs)
          ↔ ∀ e ∈ entries, ∃ x, cast (y.emit e.2) = .ok x := by
        rw [exists_forall₂_iff]
        refine forall₂_congr fun e _ => ?_
        constructor
        · intro h
          obtain ⟨z, -, hz⟩ := h
          exact ⟨z.2, hz⟩
        · intro h
          obtain ⟨x, hx⟩ := h
          exact ⟨(YamlCpp.scalarOf e.1, x), rfl, hx⟩
      show (∀ e ∈ entries, ∃ x, cast (y.emit e.2) = .ok x) ↔ _
      rw [← hconvert]
      constructor
      · intro h
        obtain ⟨zs, hzs⟩ := h
        exact ⟨entries, zs, rfl, hzs⟩
      · intro h
        obtain ⟨es, zs, hes, hzs⟩ := h
        cases hes
        exact ⟨zs, hzs⟩
  | sequence p items =>
      cases items with
      | nil => exact iff_of_true rfl hnone
      | cons n ns =>
          refine iff_of_false (List.cons_ne_nil n ns) fun h => ?_
          obtain ⟨es, zs, hes, -⟩ := h
          cases hes
  | _ => exact iff_of_true trivial hnone

/-- The first pair of a key comes from the first entry with its text. -/
theorem isFirst_iff_find? {cast : LexicalCast Str T} {es : List (Node P × Node P)}
    {zs : List (Str × T)} (h : List.Forall₂ (EntryGives y cast) es zs) (key : Str) (x : T) :
    IsFirst Prod.fst zs (key, x) ↔
      ∃ e, es.find? (fun e => decide (YamlCpp.scalarOf e.1 = key)) = some e ∧
        cast (y.emit e.2) = .ok x := by
  induction h with
  | nil => simp [IsFirst]
  | @cons e z es zs he _ ih =>
      rw [isFirst_cons, List.find?_cons]
      by_cases hkey : z.1 = key
      · -- this pair is the first, and its value is what the entry converts to
        have hfound : decide (YamlCpp.scalarOf e.1 = key) = true :=
          decide_eq_true (he.1.trans hkey)
        simp only [hfound, Option.some.injEq, exists_eq_left', he.2, Except.ok.injEq]
        constructor
        · intro h
          rcases h with rfl | ⟨hne, -⟩
          · rfl
          · exact (hne hkey).elim
        · intro h
          exact .inl (Prod.ext hkey h)
      · have hother : decide (YamlCpp.scalarOf e.1 = key) = false :=
          decide_eq_false fun heq => hkey (he.1.symm.trans heq)
        rw [hother, ← ih]
        constructor
        · intro h
          rcases h with rfl | ⟨-, hfirst⟩
          · exact (hkey rfl).elim
          · exact hfirst
        · intro h
          exact .inr ⟨hkey, h⟩

/-- **The pairs of the result** are the first entries of the root. -/
theorem isFirst_iff_firstEntry {cast : LexicalCast Str T} {root : Node P}
    {es : List (Node P × Node P)} {zs : List (Str × T)} (hes : YamlCpp.entries root = .ok es)
    (hzs : List.Forall₂ (EntryGives y cast) es zs) (key : Str) (x : T) :
    IsFirst Prod.fst zs (key, x) ↔ FirstEntry y cast root key x := by
  rw [isFirst_iff_find? hzs]
  cases root with
  | map p entries =>
      cases hes
      rfl
  | sequence p items =>
      cases items with
      | nil =>
          cases hes
          simp [FirstEntry]
      | cons n ns => cases hes
  | _ =>
      cases hes
      simp [FirstEntry]

/-! ## §3. Both maps. -/

/-- The decoder returns normally exactly for readable roots, and a result has exactly
the pairs of the first entries. -/
def DecodesFirstEntries (y : YamlCpp P K) (cast : LexicalCast Str T) (root : Node P)
    (toList : C → List (Str × T)) (result : Except Thrown C) : Prop :=
  ((∃ m, result = .ok m) ↔ Readable y cast root) ∧
    ∀ m, result = .ok m → ∀ key x, (key, x) ∈ toList m ↔ FirstEntry y cast root key x

/-- Every decoder does that whose insertions leave the first of each key. -/
theorem decodesFirstEntries {s : Str} {root : Node P} (hload : y.load s = .ok root)
    (cast : LexicalCast Str T) (empty : C) (insert : C → Str × T → C) (toList : C → List (Str × T))
    (hinsert : ∀ zs z, z ∈ toList (zs.foldl insert empty) ↔ IsFirst Prod.fst zs z) :
    DecodesFirstEntries y cast root toList (mapOfString y cast empty insert s) := by
  constructor
  · rw [readable_iff]
    simp only [mapOfString_ok_iff hload]
    constructor
    · intro h
      obtain ⟨m, es, zs, hes, hzs, -⟩ := h
      exact ⟨es, zs, hes, hzs⟩
    · intro h
      obtain ⟨es, zs, hes, hzs⟩ := h
      exact ⟨_, es, zs, hes, hzs, rfl⟩
  · intro m hm key x
    obtain ⟨es, zs, hes, hzs, rfl⟩ := (mapOfString_ok_iff hload cast empty insert m).mp hm
    rw [hinsert, isFirst_iff_firstEntry hes hzs]

/-- **WHICH TEXTS DECODE AS A MAP, AND TO WHICH ONE.**  For `std::map` the pairs are
the whole value, for `std::unordered_map` all but the order of iteration. -/
theorem map_decodes_iff (y : YamlCpp P K) (cast : LexicalCast Str T) {s : Str} {root : Node P}
    (hload : y.load s = .ok root) :
    DecodesFirstEntries y cast root SortedBy.toList (stringToMap y cast s) ∧
      DecodesFirstEntries y cast root DistinctBy.toList (stringToUnorderedMap y cast s) ∧
      ∀ m : StdMap T, stringToMap y cast s = .ok m ↔
        Readable y cast root ∧ ∀ key x, (key, x) ∈ m.toList ↔ FirstEntry y cast root key x := by
  have hmap : DecodesFirstEntries y cast root SortedBy.toList (stringToMap y cast s) :=
    decodesFirstEntries hload cast .empty .insert SortedBy.toList SortedBy.mem_foldl_insert_iff
  refine ⟨hmap, ?_, fun m => ?_⟩
  · exact decodesFirstEntries hload cast .empty .insert DistinctBy.toList
      DistinctBy.mem_foldl_insert_iff
  · constructor
    · intro h
      exact ⟨hmap.1.mp ⟨m, h⟩, hmap.2 m h⟩
    · intro h
      obtain ⟨hreadable, hpairs⟩ := h
      obtain ⟨m', hm'⟩ := hmap.1.mpr hreadable
      have heq : m' = m := by
        apply SortedBy.ext_mem
        intro z
        rw [hpairs z.1 z.2, hmap.2 m' hm' z.1 z.2]
      rw [← heq]
      exact hm'

/-- Of two entries with one key the first stays. -/
theorem map_decodes_iff_twice :
    DecodesFirstEntries blockYaml lexicalCastInt
      (.map () [(.scalar () ['a'], .scalar () ['1']), (.scalar () ['a'], .scalar () ['2'])])
      SortedBy.toList (stringToMap blockYaml lexicalCastInt "a: 1\na: 2".toList) :=
  (map_decodes_iff blockYaml lexicalCastInt (by rfl)).1

end SylarCot.Config
