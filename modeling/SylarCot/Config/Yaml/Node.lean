/-
  SylarCot.Config.Yaml.Node
  ─────────────────────────
  What `lexicalcast.hpp` uses of yaml-cpp: `YAML::Node`, and the library as a
  parameter.

  A node carries, besides its content, whatever else yaml-cpp remembers about
  it (tag, style, mark): its `props`, of any type.  `Load` and the emitter are
  the fields of a `YamlCpp`; `keeps` is the part of the props that survives
  being written and read again, and `Node.data` a node with that part only.

    • `Built` — the nodes a program gets from `Load`, from its own scalars, from
      `push_back` and `operator[]`, and by taking such nodes apart;
    • `YamlCpp.Faithful` — what the documentation promises for them: a node that
      is written and read again has the same data, and integers are plain.
-/
import SylarCot.Log.OStream
import SylarCot.Config.ConfigVar

namespace SylarCot.Config

open SylarCot.Log (Str intText)

/-! ## §1. Nodes. -/

/-- `YAML::Node`, one constructor for each `YAML::NodeType`. -/
inductive Node (P : Type) where
  | undefined
  | null (props : P)
  | scalar (props : P) (text : Str)
  | sequence (props : P) (items : List (Node P))
  | map (props : P) (entries : List (Node P × Node P))
  deriving Repr

namespace Node

variable {P K : Type}

mutual

/-- The same content with other props. -/
def relabel (f : P → K) : Node P → Node K
  | .undefined => .undefined
  | .null p => .null (f p)
  | .scalar p text => .scalar (f p) text
  | .sequence p items => .sequence (f p) (relabelItems f items)
  | .map p entries => .map (f p) (relabelEntries f entries)

def relabelItems (f : P → K) : List (Node P) → List (Node K)
  | [] => []
  | n :: ns => relabel f n :: relabelItems f ns

def relabelEntries (f : P → K) : List (Node P × Node P) → List (Node K × Node K)
  | [] => []
  | (k, v) :: es => (relabel f k, relabel f v) :: relabelEntries f es

end

theorem relabelItems_eq (f : P → K) (ns : List (Node P)) :
    relabelItems f ns = ns.map (relabel f) := by
  induction ns with
  | nil => rfl
  | cons n ns ih => rw [relabelItems, ih]; rfl

theorem relabelEntries_eq (f : P → K) (es : List (Node P × Node P)) :
    relabelEntries f es = es.map (Prod.map (relabel f) (relabel f)) := by
  induction es with
  | nil => rfl
  | cons e es ih => rw [relabelEntries, ih]; rfl

/-- `Node::size`: 0 for undefined, null and scalar nodes. -/
def size : Node P → Nat
  | .sequence _ items => items.length
  | .map _ entries => entries.length
  | _ => 0

end Node

/-! ## §2. The library. -/

/-- yaml-cpp, for nodes with props `P` of which `K` survive a round trip. -/
structure YamlCpp (P K : Type) where
  /-- `YAML::Load` -/
  load : Str → Except Thrown (Node P)
  /-- `ss << node` -/
  emit : Node P → Str
  /-- The props of a node the program makes itself. -/
  fresh : P
  keeps : P → K
  /-- `convert<size_t>` reads this number from a map's key. -/
  keyIs : Node P → Nat → Bool

namespace YamlCpp

variable {P K : Type} (y : YamlCpp P K)

/-- `node[i]`: the element of a sequence, the value of a map's key `i`.  Where
there is none yaml-cpp makes an undefined node (`size` does not count it). -/
def index (node : Node P) (i : Nat) : Node P :=
  match node with
  | .sequence _ items => items[i]?.getD .undefined
  | .map _ entries => ((entries.find? fun e => y.keyIs e.1 i).map Prod.snd).getD .undefined
  | _ => .undefined

/-- `for (it = node.begin(); it != node.end(); ++it)` with `it->first` and
`it->second`: a sequence has iterators, but what they give as `first` and
`second` is invalid and throws when it is used. -/
def entries : Node P → Except Thrown (List (Node P × Node P))
  | .map _ entries => .ok entries
  | .sequence _ (_ :: _) => .error .stdException
  | _ => .ok []

/-- `Node::Scalar`: the text of a scalar, empty for the other kinds. -/
def scalarOf : Node P → Str
  | .scalar _ text => text
  | _ => []

@[simp] theorem scalarOf_scalar (p : P) (text : Str) : scalarOf (.scalar p text) = text := rfl

/-- `node[key] = value` on a map node: replace the value of the key, or append. -/
def setKey (es : List (Node P × Node P)) (key : Str) (value : Node P) :
    List (Node P × Node P) :=
  match es with
  | [] => [(.scalar y.fresh key, value)]
  | (.scalar p k, v) :: es =>
      if k = key then (.scalar p k, value) :: es else (.scalar p k, v) :: setKey es key value
  | e :: es => e :: setKey es key value

/-- A key that is not there yet is appended. -/
theorem setKey_append {es : List (Node P × Node P)} {key : Str}
    (h : ∀ e ∈ es, ∀ p, e.1 ≠ .scalar p key) (value : Node P) :
    y.setKey es key value = es ++ [(.scalar y.fresh key, value)] := by
  induction es with
  | nil => rfl
  | cons e es ih =>
      have htail := ih fun e' he' => h e' (List.mem_cons_of_mem e he')
      obtain ⟨k, v⟩ := e
      cases k with
      | scalar p text =>
          have hne : text ≠ key := by
            rintro rfl
            exact h _ List.mem_cons_self p rfl
          unfold setKey
          rw [if_neg hne, htail]
          rfl
      | _ =>
          unfold setKey
          rw [htail]
          rfl

/-- What is left of a node after it has been written and read again. -/
def data (node : Node P) : Node K := node.relabel y.keeps

@[simp] theorem data_scalar (p : P) (text : Str) :
    y.data (.scalar p text) = .scalar (y.keeps p) text := rfl

@[simp] theorem data_sequence (p : P) (items : List (Node P)) :
    y.data (.sequence p items) = .sequence (y.keeps p) (items.map y.data) := by
  show Node.sequence (y.keeps p) (Node.relabelItems y.keeps items) = _
  rw [Node.relabelItems_eq]
  rfl

@[simp] theorem data_map (p : P) (entries : List (Node P × Node P)) :
    y.data (.map p entries) = .map (y.keeps p) (entries.map (Prod.map y.data y.data)) := by
  show Node.map (y.keeps p) (Node.relabelEntries y.keeps entries) = _
  rw [Node.relabelEntries_eq]
  rfl

/-- The text of a scalar is part of its data. -/
theorem scalarOf_data (n : Node P) : scalarOf (y.data n) = scalarOf n := by
  cases n with
  | _ => rfl

variable {y}

theorem data_eq_scalar {m : Node P} {k : K} {text : Str} (h : y.data m = .scalar k text) :
    ∃ p, m = .scalar p text := by
  cases m with
  | scalar p text' =>
      cases h
      exact ⟨p, rfl⟩
  | _ => cases h

theorem data_eq_sequence {m : Node P} {k : K} {ns : List (Node K)}
    (h : y.data m = .sequence k ns) : ∃ p items, m = .sequence p items ∧ items.map y.data = ns := by
  cases m with
  | sequence p items =>
      rw [data_sequence] at h
      cases h
      exact ⟨p, items, rfl, rfl⟩
  | _ => cases h

theorem data_eq_map {m : Node P} {k : K} {es : List (Node K × Node K)}
    (h : y.data m = .map k es) :
    ∃ p entries, m = .map p entries ∧ entries.map (Prod.map y.data y.data) = es := by
  cases m with
  | map p entries =>
      rw [data_map] at h
      cases h
      exact ⟨p, entries, rfl, rfl⟩
  | _ => cases h

variable (y)

/-- The nodes a program can get hold of. -/
inductive Built : Node P → Prop where
  | load {s : Str} {n : Node P} (h : y.load s = .ok n) : Built n
  | scalar (text : Str) : Built (.scalar y.fresh text)
  | sequence {items : List (Node P)} (h : ∀ n ∈ items, Built n) : Built (.sequence y.fresh items)
  | map {entries : List (Node P × Node P)} (hk : ∀ e ∈ entries, ∃ key, e.1 = .scalar y.fresh key)
      (hv : ∀ e ∈ entries, Built e.2) : Built (.map y.fresh entries)
  | item {p : P} {items : List (Node P)} {n : Node P} (h : Built (.sequence p items))
      (hn : n ∈ items) : Built n
  | value {p : P} {entries : List (Node P × Node P)} {e : Node P × Node P}
      (h : Built (.map p entries)) (he : e ∈ entries) : Built e.2

/-- What is relied on: a node that is written and read again keeps its data, and
the scalar of an integer is written as the integer's decimal text. -/
structure Faithful : Prop where
  load_emit : ∀ n, y.Built n → ∃ m, y.load (y.emit n) = .ok m ∧ y.data m = y.data n
  emit_int : ∀ (m : Node P) (k : Int), y.Built m →
    y.data m = y.data (.scalar y.fresh (intText k)) → y.emit m = intText k

end YamlCpp

end SylarCot.Config
