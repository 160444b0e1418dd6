/-
  SylarCot.Config.LexicalCast.LexicalCast
  ───────────────────────────────────────
  **`LexicalCast` AND ITS TWELVE SPECIALISATIONS**, for yaml-cpp and
  `boost::lexical_cast` as parameters.

  A specialisation for a container takes the cast of its elements as an
  argument, as the template does.  The decoders of the four sequences and of the
  two maps differ only in the container they insert into; the encoders of the
  sequences differ in how an element becomes a node: `std::vector` pushes the
  text of the element as a scalar, the others load it first.

    • `sequenceOfString_ok` — the index loop of the decoders, as a traversal of
      the elements `node[0]`, ..., `node[size - 1]`;
    • `sequenceOfString_items` — for the text of a sequence, of its items.
-/
import SylarCot.Config.Yaml.Node
import SylarCot.Library.KeyedList
import SylarCot.Library.Traverse
import Mathlib.Data.List.Lex
import Mathlib.Data.Char

namespace SylarCot.Config

open SylarCot.Log (Str intText)
open SylarCot.Library

/-! ## §1. Casts and containers. -/

/-- `LexicalCast<From, To>`: a conversion that may throw. -/
abbrev LexicalCast (From To : Type) := From → Except Thrown To

/-- The two casts between a type and `std::string`. -/
structure Casts (T : Type) where
  toStr : LexicalCast T Str
  fromStr : LexicalCast Str T

/-- `std::set<T>` -/
abbrev StdSet (T : Type) [LinearOrder T] := SortedBy (id : T → T)

/-- `std::unordered_set<T>`, in its order of iteration. -/
abbrev UnorderedSet (T : Type) := DistinctBy (id : T → T)

/-- `std::map<std::string, T>` -/
abbrev StdMap (T : Type) := SortedBy (Prod.fst : Str × T → Str)

/-- `std::unordered_map<std::string, T>`, in its order of iteration. -/
abbrev UnorderedMap (T : Type) := DistinctBy (Prod.fst : Str × T → Str)

/-! ## §2. Decoders. -/

section Decoders

variable {P K T C : Type} (y : YamlCpp P K)

/-- The loop of the sequence decoders; `insert` is `push_back` or `insert`. -/
def sequenceOfString (cast : LexicalCast Str T) (empty : C) (insert : C → T → C) :
    LexicalCast Str C := fun v => do
  let node ← y.load v
  -- for (size_t i = 0; i < node.size(); ++i): the kind of the node is never asked
  (List.range node.size).foldlM
    (fun vec i => do
      -- ss.str(""); ss << node[i]
      let x ← cast (y.emit (y.index node i))
      pure (insert vec x))
    empty

/-- `LexicalCast<std::string, std::vector<T>>` -/
def stringToVector (cast : LexicalCast Str T) : LexicalCast Str (List T) :=
  sequenceOfString y cast [] fun vec x => vec ++ [x]

/-- `LexicalCast<std::string, std::list<T>>` -/
def stringToList (cast : LexicalCast Str T) : LexicalCast Str (List T) :=
  sequenceOfString y cast [] fun vec x => vec ++ [x]

/-- `LexicalCast<std::string, std::set<T>>` -/
def stringToSet [LinearOrder T] (cast : LexicalCast Str T) : LexicalCast Str (StdSet T) :=
  sequenceOfString y cast .empty .insert

/-- `LexicalCast<std::string, std::unordered_set<T>>` -/
def stringToUnorderedSet [DecidableEq T] (cast : LexicalCast Str T) :
    LexicalCast Str (UnorderedSet T) :=
  sequenceOfString y cast .empty .insert

/-- The loop of the map decoders. -/
def mapOfString (cast : LexicalCast Str T) (empty : C) (insert : C → Str × T → C) :
    LexicalCast Str C := fun v => do
  let node ← y.load v
  let its ← YamlCpp.entries node
  its.foldlM
    (fun vec it => do
      -- the key is taken as its scalar text, the value as what it is written as
      let x ← (cast (y.emit it.2)).map fun value => (YamlCpp.scalarOf it.1, value)
      pure (insert vec x))
    empty

/-- `LexicalCast<std::string, std::map<std::string, T>>` -/
def stringToMap (cast : LexicalCast Str T) : LexicalCast Str (StdMap T) :=
  mapOfString y cast .empty .insert

/-- `LexicalCast<std::string, std::unordered_map<std::string, T>>` -/
def stringToUnorderedMap (cast : LexicalCast Str T) : LexicalCast Str (UnorderedMap T) :=
  mapOfString y cast .empty .insert

end Decoders

/-! ## §3. Encoders. -/

section Encoders

variable {P K T : Type} (y : YamlCpp P K)

/-- The loop of the sequence encoders: `node.push_back` what an element becomes. -/
def sequenceToString (element : T → Except Thrown (Node P)) : LexicalCast (List T) Str :=
  fun v => do
    let items ← v.mapM element
    pure (y.emit (.sequence y.fresh items))

/-- An element of a vector: its text, as a scalar. -/
def scalarElement (cast : LexicalCast T Str) (i : T) : Except Thrown (Node P) :=
  (cast i).map fun text => .scalar y.fresh text

/-- An element of the other containers: what its text loads as. -/
def loadedElement (cast : LexicalCast T Str) (i : T) : Except Thrown (Node P) :=
  (cast i).bind y.load

/-- `LexicalCast<std::vector<T>, std::string>` -/
def vectorToString (cast : LexicalCast T Str) : LexicalCast (List T) Str :=
  sequenceToString y (scalarElement y cast)

/-- `LexicalCast<std::list<T>, std::string>` -/
def listToString (cast : LexicalCast T Str) : LexicalCast (List T) Str :=
  sequenceToString y (loadedElement y cast)

/-- `LexicalCast<std::set<T>, std::string>` -/
def setToString [LinearOrder T] (cast : LexicalCast T Str) : LexicalCast (StdSet T) Str :=
  fun v => sequenceToString y (loadedElement y cast) v.toList

/-- `LexicalCast<std::unordered_set<T>, std::string>` -/
def unorderedSetToString (cast : LexicalCast T Str) : LexicalCast (UnorderedSet T) Str :=
  fun v => sequenceToString y (loadedElement y cast) v.toList

/-- The loop of the map encoders, over the pairs in order of iteration. -/
def pairsToString (cast : LexicalCast T Str) : LexicalCast (List (Str × T)) Str := fun v => do
  let node ← v.foldlM
    (fun node i => do
      let x ← (loadedElement y cast i.2).map fun value => (i.1, value)
      pure (y.setKey node x.1 x.2))
    []
  pure (y.emit (.map y.fresh node))

/-- `LexicalCast<std::map<std::string, T>, std::string>` -/
def mapToString (cast : LexicalCast T Str) : LexicalCast (StdMap T) Str :=
  fun v => pairsToString y cast v.toList

/-- `LexicalCast<std::unordered_map<std::string, T>, std::string>` -/
def unorderedMapToString (cast : LexicalCast T Str) : LexicalCast (UnorderedMap T) Str :=
  fun v => pairsToString y cast v.toList

end Encoders

/-! ## §4. Both directions. -/

section Casts

variable {P K T : Type}

/-- `int`, through `boost::lexical_cast`; `toInt` is its direction from text. -/
def intCasts (toInt : LexicalCast Str Int32) : Casts Int32 :=
  ⟨fun n => .ok (intText n.toInt), toInt⟩

/-- `std::string`: `boost::lexical_cast` returns it as it is. -/
def stringCasts : Casts Str := ⟨.ok, .ok⟩

variable (y : YamlCpp P K) (c : Casts T)

def vectorCasts : Casts (List T) := ⟨vectorToString y c.toStr, stringToVector y c.fromStr⟩

def listCasts : Casts (List T) := ⟨listToString y c.toStr, stringToList y c.fromStr⟩

def setCasts [LinearOrder T] : Casts (StdSet T) :=
  ⟨setToString y c.toStr, stringToSet y c.fromStr⟩

def unorderedSetCasts [DecidableEq T] : Casts (UnorderedSet T) :=
  ⟨unorderedSetToString y c.toStr, stringToUnorderedSet y c.fromStr⟩

def mapCasts : Casts (StdMap T) := ⟨mapToString y c.toStr, stringToMap y c.fromStr⟩

def unorderedMapCasts : Casts (UnorderedMap T) :=
  ⟨unorderedMapToString y c.toStr, stringToUnorderedMap y c.fromStr⟩

/-- Encode and decode. -/
def Casts.roundTrip (c : Casts T) (v : T) : Except Thrown T := (c.toStr v).bind c.fromStr

end Casts

/-! ## §5. The loops as traversals. -/

section Loops

variable {P K T C : Type} {y : YamlCpp P K}

/-- **The sequence decoders**: convert `node[0]` to `node[size - 1]`, then insert. -/
theorem sequenceOfString_ok {s : Str} {node : Node P} (hload : y.load s = .ok node)
    (cast : LexicalCast Str T) (empty : C) (insert : C → T → C) :
    sequenceOfString y cast empty insert s
      = ((List.range node.size).mapM fun i => cast (y.emit (y.index node i))).map
          fun xs => xs.foldl insert empty := by
  show (y.load s).bind _ = _
  rw [hload]
  exact foldlM_collect _ insert _ empty

/-- On a sequence node these are its items. -/
theorem sequenceOfString_items {s : Str} {p : P} {items : List (Node P)}
    (hload : y.load s = .ok (.sequence p items)) (cast : LexicalCast Str T) (empty : C)
    (insert : C → T → C) :
    sequenceOfString y cast empty insert s
      = (items.mapM fun n => cast (y.emit n)).map fun xs => xs.foldl insert empty := by
  rw [sequenceOfString_ok hload,
      show (List.range (Node.sequence p items).size).mapM
          (fun i => cast (y.emit (y.index (.sequence p items) i)))
        = items.mapM (fun n => cast (y.emit n)) from
        mapM_range (fun n => cast (y.emit n)) .undefined items]

/-- Pushing to the back of an empty list one after the other. -/
theorem foldl_push_back (xs : List T) : xs.foldl (fun vec x => vec ++ [x]) [] = xs := by
  rw [← List.flatMap_eq_foldl, List.flatMap_singleton']

/-- **The map decoders**: convert the values, keep the scalar texts of the keys. -/
theorem mapOfString_ok {s : Str} {node : Node P} (hload : y.load s = .ok node)
    (cast : LexicalCast Str T) (empty : C) (insert : C → Str × T → C) :
    mapOfString y cast empty insert s
      = (YamlCpp.entries node).bind fun es =>
          (es.mapM fun it => (cast (y.emit it.2)).map fun x => (YamlCpp.scalarOf it.1, x)).map
            fun xs => xs.foldl insert empty := by
  show (y.load s).bind _ = _
  rw [hload]
  show (YamlCpp.entries node).bind _ = _
  cases YamlCpp.entries node with
  | error e => rfl
  | ok es => exact foldlM_collect _ insert es empty

/-- On a map node these are its entries. -/
theorem mapOfString_entries {s : Str} {p : P} {entries : List (Node P × Node P)}
    (hload : y.load s = .ok (.map p entries)) (cast : LexicalCast Str T) (empty : C)
    (insert : C → Str × T → C) :
    mapOfString y cast empty insert s
      = (entries.mapM fun it => (cast (y.emit it.2)).map fun x => (YamlCpp.scalarOf it.1, x)).map
          fun xs => xs.foldl insert empty := by
  show (y.load s).bind _ = _
  rw [hload]
  exact foldlM_collect _ insert _ empty

end Loops

end SylarCot.Config
