/-
  SylarCot.Config.Yaml.BlockYaml
  ──────────────────────────────
  **A YAML LIBRARY**: the block style yaml-cpp writes by default, for documents
  without tags, anchors and complex keys, and a loader for it.

  A scalar is written as it is when it is a word (letters and digits, or a
  negative integer, and no null word) and in double quotes otherwise.  Items of
  a sequence hang on "- ", values of a map on "key: " or, when they take several
  lines, in the lines below "key:".

    • `load_emit` — whatever is written is read back as the same node;
    • `storable_load` — what is read is among the nodes that can be written;
    • `faithful` — so `blockYaml` keeps what `YamlCpp.Faithful` asks for.
-/
import SylarCot.Config.Yaml.Node
import SylarCot.Library.Traverse

namespace SylarCot.Config.BlockYaml

open SylarCot.Log (Str intText)
open SylarCot.Library

/-! ## §1. Words. -/

def isWordChar (c : Char) : Bool := c.isAlphanum || c == '-'

/-- The texts that load as null. -/
def nullWords : List Str := ["~".toList, "null".toList, "Null".toList, "NULL".toList, []]

def isNullWord (text : Str) : Bool := nullWords.contains text

/-- The scalars that are written without quotes. -/
def isPlain : Str → Bool
  | [] => false
  | c :: cs =>
      if c = '-' then cs ≠ [] && cs.all Char.isDigit
      else (c :: cs).all Char.isAlphanum && !isNullWord (c :: cs)

/-- Escape quotes, backslashes and line breaks. -/
def escape : Str → Str
  | [] => []
  | c :: cs =>
      if c = '\n' then '\\' :: 'n' :: escape cs
      else if c = '"' ∨ c = '\\' then '\\' :: c :: escape cs
      else c :: escape cs

/-- Read up to the closing quote: the text and what follows the quote. -/
def unquote : Str → Option (Str × Str)
  | [] => none
  | [c] => if c = '"' then some ([], []) else none
  | c :: d :: cs =>
      if c = '"' then some ([], d :: cs)
      else if c = '\\' then
        (unquote cs).map fun (text, rest) => ((if d = 'n' then '\n' else d) :: text, rest)
      else (unquote (d :: cs)).map fun (text, rest) => (c :: text, rest)

/-- How a scalar is written. -/
def scalarText (text : Str) : Str :=
  if isPlain text then text else '"' :: (escape text ++ ['"'])

/-- A null node or a scalar: the nodes that may be keys. -/
inductive IsWord : Node Unit → Prop where
  | null : IsWord (.null ())
  | scalar (text : Str) : IsWord (.scalar () text)

/-- How a key is written. -/
def wordText : Node Unit → Str
  | .scalar _ text => scalarText text
  | _ => ['~']

/-- Read a null or a scalar at the start of a line. -/
def readWord : Str → Option (Node Unit × Str)
  | [] => none
  | c :: cs =>
      if c = '"' then (unquote cs).map fun (text, rest) => (.scalar () text, rest)
      else if c = '~' then some (.null (), cs)
      else
        let word := (c :: cs).takeWhile isWordChar
        if isPlain word then some (.scalar () word, (c :: cs).dropWhile isWordChar) else none

theorem unquote_escape (text rest : Str) :
    unquote (escape text ++ '"' :: rest) = some (text, rest) := by
  induction text with
  | nil => cases rest <;> rfl
  | cons c cs ih =>
      have hcons : ∀ s : Str, ∃ d ds, s ++ '"' :: rest = d :: ds := by
        intro s
        cases s with
        | nil => exact ⟨'"', rest, rfl⟩
        | cons d ds => exact ⟨d, ds ++ '"' :: rest, rfl⟩
      unfold escape
      by_cases hn : c = '\n'
      · subst hn
        show (unquote (escape cs ++ '"' :: rest)).map _ = _
        rw [ih]
        rfl
      rw [if_neg hn]
      by_cases hq : c = '"' ∨ c = '\\'
      · rw [if_pos hq]
        show (unquote (escape cs ++ '"' :: rest)).map _ = _
        rw [ih]
        rcases hq with rfl | rfl
        · rfl
        · rfl
      · rw [if_neg hq, List.cons_append]
        obtain ⟨d, ds, hs⟩ := hcons (escape cs)
        rw [hs] at ih ⊢
        unfold unquote
        rw [if_neg fun h => hq (.inl h), if_neg fun h => hq (.inr h), ih]
        rfl

/-- A plain word consists of word chars and does not start like anything else. -/
theorem isPlain_cases {text : Str} (h : isPlain text = true) :
    (∀ c ∈ text, isWordChar c = true) ∧ ∃ c cs, text = c :: cs ∧ c ≠ '"' ∧ c ≠ '~' ∧ c ≠ ' ' ∧
      (c = '-' → ∃ d ds, cs = d :: ds ∧ d ≠ ' ') := by
  cases text with
  | nil => cases h
  | cons c cs =>
      rw [isPlain] at h
      by_cases hc : c = '-'
      · subst hc
        rw [if_pos rfl, Bool.and_eq_true, List.all_eq_true, decide_eq_true_eq] at h
        obtain ⟨hne, hdigits⟩ := h
        refine ⟨?_, '-', cs, rfl, by decide, by decide, by decide, fun _ => ?_⟩
        · intro d hd
          rcases List.mem_cons.mp hd with rfl | hd
          · rfl
          · have hdigit := hdigits d hd
            unfold isWordChar Char.isAlphanum
            rw [hdigit]
            simp
        · obtain ⟨d, ds, rfl⟩ := List.exists_cons_of_ne_nil hne
          refine ⟨d, ds, rfl, ?_⟩
          rintro rfl
          exact absurd (hdigits ' ' List.mem_cons_self) (by decide)
      · rw [if_neg hc, Bool.and_eq_true, List.all_eq_true] at h
        have hhead := h.1 c List.mem_cons_self
        refine ⟨?_, c, cs, rfl, ?_, ?_, ?_, fun h => absurd h hc⟩
        · intro d hd
          unfold isWordChar
          rw [h.1 d hd]
          rfl
        · rintro rfl
          exact absurd hhead (by decide)
        · rintro rfl
          exact absurd hhead (by decide)
        · rintro rfl
          exact absurd hhead (by decide)

/-- **Words are read back**, in front of anything that does not go on with a word. -/
theorem readWord_wordText {k : Node Unit} (hk : IsWord k) (rest : Str)
    (hrest : ∀ c ∈ rest.head?, isWordChar c = false) :
    readWord (wordText k ++ rest) = some (k, rest) := by
  cases hk with
  | null => rfl
  | scalar text =>
      show readWord (scalarText text ++ rest) = _
      unfold scalarText
      by_cases hplain : isPlain text = true
      · rw [if_pos hplain]
        obtain ⟨hchars, c, cs, rfl, hquote, htilde, -, -⟩ := isPlain_cases hplain
        have htake : ((c :: cs) ++ rest).takeWhile isWordChar = c :: cs := by
          rw [List.takeWhile_append_of_pos hchars]
          cases rest with
          | nil => simp
          | cons d ds => rw [List.takeWhile_cons, hrest d rfl]; simp
        have hdrop : ((c :: cs) ++ rest).dropWhile isWordChar = rest := by
          rw [List.dropWhile_append_of_pos hchars]
          cases rest with
          | nil => rfl
          | cons d ds => rw [List.dropWhile_cons, hrest d rfl]; simp
        rw [List.cons_append] at htake hdrop ⊢
        rw [readWord, if_neg hquote, if_neg htilde]
        simp only
        rw [htake, hdrop, if_pos hplain]
      · rw [if_neg hplain, List.cons_append, List.append_assoc]
        show (unquote (escape text ++ '"' :: rest)).map _ = _
        rw [unquote_escape]
        rfl

/-- A key is read up to its colon. -/
theorem readWord_key {k : Node Unit} (hk : IsWord k) (rest : Str) :
    readWord (wordText k ++ ':' :: rest) = some (k, ':' :: rest) := by
  apply readWord_wordText hk
  intro c hc
  cases hc
  rfl

/-- A written word starts neither an item nor an indented line, and is not
empty, whatever follows it. -/
theorem wordText_cases {k : Node Unit} (hk : IsWord k) :
    ∃ c cs, wordText k = c :: cs ∧ c ≠ ' ' ∧ (c = '-' → ∃ d ds, cs = d :: ds ∧ d ≠ ' ') := by
  cases hk with
  | null => exact ⟨'~', [], rfl, by decide, fun h => absurd h (by decide)⟩
  | scalar text =>
      show ∃ c cs, scalarText text = c :: cs ∧ _
      unfold scalarText
      by_cases hplain : isPlain text = true
      · rw [if_pos hplain]
        obtain ⟨-, c, cs, rfl, -, -, hblank, hdash⟩ := isPlain_cases hplain
        exact ⟨c, cs, rfl, hblank, hdash⟩
      · rw [if_neg hplain]
        exact ⟨'"', _, rfl, by decide, fun h => absurd h (by decide)⟩

theorem not_mem_escape (text : Str) : '\n' ∉ escape text := by
  induction text with
  | nil => exact List.not_mem_nil
  | cons c cs ih =>
      unfold escape
      by_cases hn : c = '\n'
      · rw [if_pos hn]
        simp [ih]
      rw [if_neg hn]
      by_cases hq : c = '"' ∨ c = '\\'
      · rw [if_pos hq]
        simp [ih, Ne.symm hn]
      · rw [if_neg hq]
        simp [ih, Ne.symm hn]

/-- A written word stays on its line. -/
theorem not_mem_wordText {k : Node Unit} (hk : IsWord k) : '\n' ∉ wordText k := by
  cases hk with
  | null => decide
  | scalar text =>
      show '\n' ∉ scalarText text
      unfold scalarText
      by_cases hplain : isPlain text = true
      · rw [if_pos hplain]
        intro h
        exact absurd ((isPlain_cases hplain).1 _ h) (by decide)
      · rw [if_neg hplain]
        simp [not_mem_escape text]

/-! ## §2. Writing. -/

/-- A line two blanks further in. -/
def indent (l : Str) : Str := ' ' :: ' ' :: l

/-- Some lines behind a marker, the further ones indented. -/
def hang (marker : Str) : List Str → List Str
  | [] => [marker]
  | l :: ls => (marker ++ l) :: ls.map indent

/-- The value of a key stands in the lines below it. -/
def isBlock : Node Unit → Bool
  | .sequence _ (_ :: _) => true
  | .map _ (_ :: _) => true
  | _ => false

/-- The marker of a key, and the lines of the value. -/
def keyLines (key : Str) (block : Bool) (value : List Str) : List Str :=
  if block then (key ++ [':']) :: value.map indent else hang (key ++ [':', ' ']) value

mutual

/-- The lines of a node. -/
def lines : Node Unit → List Str
  | .undefined => [[]]
  | .null _ => [['~']]
  | .scalar _ text => [scalarText text]
  | .sequence _ items =>
      match items with
      | [] => [['[', ']']]
      | _ => itemLines items
  | .map _ entries =>
      match entries with
      | [] => [['{', '}']]
      | _ => entryLines entries

def itemLines : List (Node Unit) → List Str
  | [] => []
  | n :: ns => hang ['-', ' '] (lines n) ++ itemLines ns

def entryLines : List (Node Unit × Node Unit) → List Str
  | [] => []
  | (k, v) :: es => keyLines (wordText k) (isBlock v) (lines v) ++ entryLines es

end

/-- `ss << node` -/
def emit (n : Node Unit) : Str := ['\n'].intercalate (lines n)

/-! ## §3. Reading. -/

/-- Lines by their heads: each line that is not indented, with the indented lines
below it; first the indented lines without a head. -/
def groups : List Str → List Str × List (Str × List Str)
  | [] => ([], [])
  | l :: ls =>
      match l with
      | ' ' :: ' ' :: t => (t :: (groups ls).1, (groups ls).2)
      | l => ([], (l, (groups ls).1) :: (groups ls).2)

/-- An item of a sequence. -/
def readItem (value : List Str → Except Thrown (Node Unit)) :
    Str × List Str → Except Thrown (Node Unit)
  | ('-' :: ' ' :: l, below) => value (l :: below)
  | _ => .error .stdException

/-- A key with its value on the same line or below. -/
def readEntry (value : List Str → Except Thrown (Node Unit)) :
    Str × List Str → Except Thrown (Node Unit × Node Unit)
  | (head, below) =>
      match readWord head with
      | some (k, [':']) => (value below).map fun v => (k, v)
      | some (k, ':' :: ' ' :: l) => (value (l :: below)).map fun v => (k, v)
      | _ => .error .stdException

/-- A node on a single line. -/
def readLine (l : Str) : Except Thrown (Node Unit) :=
  match readWord l with
  | some (n, []) => .ok n
  | _ =>
      if isNullWord l then .ok (.null ())
      else if l = ['[', ']'] then .ok (.sequence () [])
      else if l = ['{', '}'] then .ok (.map () [])
      else .error .stdException

def isItem : Str → Bool
  | '-' :: ' ' :: _ => true
  | _ => false

def isEntry (l : Str) : Bool :=
  match readWord l with
  | some (_, ':' :: _) => true
  | _ => false

/-- Read a node from its lines; every level uses up at least one char of them. -/
def parse : Nat → List Str → Except Thrown (Node Unit)
  | 0, _ => .error .stdException
  | fuel + 1, ls =>
      match groups ls with
      | ([], []) => .ok (.null ())
      | ([], g :: gs) =>
          if isItem g.1 then ((g :: gs).mapM (readItem (parse fuel))).map (.sequence ())
          else if isEntry g.1 then ((g :: gs).mapM (readEntry (parse fuel))).map (.map ())
          else if g.2 = [] ∧ gs = [] then readLine g.1
          else .error .stdException
      | _ => .error .stdException

/-- `YAML::Load` -/
def load (s : Str) : Except Thrown (Node Unit) :=
  parse ((s.splitOn '\n').flatten.length + 1) (s.splitOn '\n')

/-! ## §4. The groups of written lines. -/

/-- The nodes that are written faithfully: nothing undefined, and words as keys. -/
inductive Storable : Node Unit → Prop where
  | word {n : Node Unit} (h : IsWord n) : Storable n
  | sequence {items : List (Node Unit)} (h : ∀ n ∈ items, Storable n) :
      Storable (.sequence () items)
  | map {entries : List (Node Unit × Node Unit)} (hk : ∀ e ∈ entries, IsWord e.1)
      (hv : ∀ e ∈ entries, Storable e.2) : Storable (.map () entries)

theorem hang_eq (marker : Str) (ls : List Str) :
    hang marker ls = (marker ++ ls.headD []) :: ls.tail.map indent := by
  cases ls with
  | nil => exact congrArg (· :: []) (List.append_nil marker).symm
  | cons l ls => rfl

theorem lines_ne_nil (n : Node Unit) : lines n ≠ [] := by
  cases n with
  | sequence p items =>
      cases items with
      | nil => exact List.cons_ne_nil _ _
      | cons n ns =>
          show hang ['-', ' '] (lines n) ++ itemLines ns ≠ []
          rw [hang_eq]
          exact List.cons_ne_nil _ _
  | map p entries =>
      cases entries with
      | nil => exact List.cons_ne_nil _ _
      | cons e es =>
          show keyLines (wordText e.1) (isBlock e.2) (lines e.2) ++ entryLines es ≠ []
          unfold keyLines
          rw [hang_eq]
          split
          · exact List.cons_ne_nil _ _
          · exact List.cons_ne_nil _ _
  | _ => exact List.cons_ne_nil _ _

theorem headD_cons_tail (n : Node Unit) : (lines n).headD [] :: (lines n).tail = lines n := by
  obtain ⟨l, ls, h⟩ := List.exists_cons_of_ne_nil (lines_ne_nil n)
  rw [h]
  rfl

theorem groups_cons_indent (l : Str) (ls : List Str) :
    groups (indent l :: ls) = (l :: (groups ls).1, (groups ls).2) := rfl

theorem groups_indent (below rest : List Str) :
    groups (below.map indent ++ rest) = (below ++ (groups rest).1, (groups rest).2) := by
  induction below with
  | nil => rfl
  | cons l ls ih =>
      rw [List.map_cons, List.cons_append, groups_cons_indent, ih]
      rfl

/-- A head and the indented lines below it make a group. -/
theorem groups_head {c : Char} {cs : Str} (h : c ≠ ' ') (below : List Str) {rest : List Str}
    (hrest : (groups rest).1 = []) :
    groups ((c :: cs) :: (below.map indent ++ rest))
      = ([], (c :: cs, below) :: (groups rest).2) := by
  have hhead : ∀ t, c :: cs = ' ' :: ' ' :: t → False := by
    intro t heq
    injection heq with hc _
    exact h hc
  rw [groups, groups_indent, hrest, List.append_nil]
  exact hhead

/-- The group of an item. -/
def itemGroup (n : Node Unit) : Str × List Str :=
  ('-' :: ' ' :: (lines n).headD [], (lines n).tail)

/-- The group of an entry. -/
def entryGroup (e : Node Unit × Node Unit) : Str × List Str :=
  if isBlock e.2 then (wordText e.1 ++ [':'], lines e.2)
  else (wordText e.1 ++ ':' :: ' ' :: (lines e.2).headD [], (lines e.2).tail)

theorem groups_itemLines (ns : List (Node Unit)) :
    groups (itemLines ns) = ([], ns.map itemGroup) := by
  induction ns with
  | nil => rfl
  | cons n ns ih =>
      rw [itemLines, hang_eq, List.cons_append]
      rw [show (['-', ' '] ++ (lines n).headD []) = '-' :: ' ' :: (lines n).headD [] from rfl,
          groups_head (by decide) _ (by rw [ih]), ih]
      rfl

/-- The lines of an entry are its group, with the lines below indented. -/
theorem keyLines_entryGroup (e : Node Unit × Node Unit) :
    keyLines (wordText e.1) (isBlock e.2) (lines e.2)
      = (entryGroup e).1 :: (entryGroup e).2.map indent := by
  unfold keyLines entryGroup
  by_cases hblock : isBlock e.2 = true
  · rw [if_pos hblock, if_pos hblock]
  · rw [if_neg hblock, if_neg hblock, hang_eq, List.append_assoc]
    rfl

/-- An entry starts with its key and a colon. -/
theorem entryGroup_head (e : Node Unit × Node Unit) :
    ∃ rest, (entryGroup e).1 = wordText e.1 ++ ':' :: rest := by
  unfold entryGroup
  by_cases hblock : isBlock e.2 = true
  · rw [if_pos hblock]
    exact ⟨[], rfl⟩
  · rw [if_neg hblock]
    exact ⟨_, rfl⟩

theorem groups_entryLines (es : List (Node Unit × Node Unit)) (hk : ∀ e ∈ es, IsWord e.1) :
    groups (entryLines es) = ([], es.map entryGroup) := by
  induction es with
  | nil => rfl
  | cons e es ih =>
      have htail := ih fun e' he' => hk e' (List.mem_cons_of_mem e he')
      obtain ⟨c, cs, hword, hblank, -⟩ := wordText_cases (hk e List.mem_cons_self)
      obtain ⟨rest, hhead⟩ := entryGroup_head e
      rw [hword, List.cons_append] at hhead
      have hgroup : entryGroup e = (c :: (cs ++ ':' :: rest), (entryGroup e).2) := by
        rw [← hhead]
      rw [entryLines, keyLines_entryGroup, hhead, List.cons_append,
          groups_head hblank _ (by rw [htail]), htail, List.map_cons, ← hgroup]

/-! ## §5. Written lines are read back. -/

theorem readItem_itemGroup (value : List Str → Except Thrown (Node Unit)) (n : Node Unit) :
    readItem value (itemGroup n) = value (lines n) := by
  show value ((lines n).headD [] :: (lines n).tail) = _
  rw [headD_cons_tail]

theorem readEntry_entryGroup (value : List Str → Except Thrown (Node Unit))
    {e : Node Unit × Node Unit} (hk : IsWord e.1) :
    readEntry value (entryGroup e) = (value (lines e.2)).map fun v => (e.1, v) := by
  unfold entryGroup
  by_cases hblock : isBlock e.2 = true
  · have hword := readWord_key hk []
    rw [if_pos hblock]
    simp only [readEntry, hword]
  · have hword := readWord_key hk (' ' :: (lines e.2).headD [])
    rw [if_neg hblock]
    simp only [readEntry, hword]
    rw [headD_cons_tail]

/-- What starts with a word is no item. -/
theorem isItem_wordText {k : Node Unit} (hk : IsWord k) (rest : Str) :
    isItem (wordText k ++ rest) = false := by
  obtain ⟨c, cs, hword, -, hdash⟩ := wordText_cases hk
  rw [hword, List.cons_append]
  by_cases hc : c = '-'
  · obtain ⟨d, ds, rfl, hd⟩ := hdash hc
    have hno : ∀ t, c :: (d :: ds ++ rest) = '-' :: ' ' :: t → False := by
      intro t heq
      injection heq with _ heq
      injection heq with heq _
      exact hd heq
    rw [isItem]
    exact hno
  · have hno : ∀ t, c :: (cs ++ rest) = '-' :: ' ' :: t → False := by
      intro t heq
      injection heq with heq _
      exact hc heq
    rw [isItem]
    exact hno

/-- What decides between an entry and an item. -/
theorem entryGroup_cases {e : Node Unit × Node Unit} (hk : IsWord e.1) :
    isItem (entryGroup e).1 = false ∧ isEntry (entryGroup e).1 = true := by
  obtain ⟨rest, hhead⟩ := entryGroup_head e
  rw [hhead]
  refine ⟨isItem_wordText hk _, ?_⟩
  unfold isEntry
  rw [readWord_key hk rest]
  rfl

theorem length_indent (ls : List Str) :
    ls.flatten.length ≤ (ls.map indent).flatten.length := by
  induction ls with
  | nil => exact Nat.le_refl 0
  | cons l ls ih =>
      simp only [List.map_cons, List.flatten_cons, List.length_append, indent, List.length_cons]
      omega

theorem length_hang (marker : Str) (ls : List Str) :
    marker.length + ls.flatten.length ≤ (hang marker ls).flatten.length := by
  cases ls with
  | nil =>
      simp only [hang, List.flatten_cons, List.flatten_nil, List.append_nil, List.length_nil]
      omega
  | cons l ls =>
      have := length_indent ls
      simp only [hang, List.flatten_cons, List.length_append]
      omega

/-- An item has fewer chars than the sequence. -/
theorem length_itemLines {ns : List (Node Unit)} {n : Node Unit} (hn : n ∈ ns) :
    (lines n).flatten.length < (itemLines ns).flatten.length := by
  induction ns with
  | nil => cases hn
  | cons m ns ih =>
      rw [itemLines, List.flatten_append, List.length_append]
      rcases List.mem_cons.mp hn with rfl | hn
      · have := length_hang ['-', ' '] (lines n)
        simp only [List.length_cons] at this
        omega
      · have := ih hn
        omega

/-- A value has fewer chars than the map. -/
theorem length_entryLines {es : List (Node Unit × Node Unit)} {e : Node Unit × Node Unit}
    (he : e ∈ es) : (lines e.2).flatten.length < (entryLines es).flatten.length := by
  induction es with
  | nil => cases he
  | cons f es ih =>
      rw [entryLines, List.flatten_append, List.length_append]
      rcases List.mem_cons.mp he with rfl | he
      · have hkey : (lines e.2).flatten.length
            < (keyLines (wordText e.1) (isBlock e.2) (lines e.2)).flatten.length := by
          unfold keyLines
          split
          · have := length_indent (lines e.2)
            simp only [List.flatten_cons, List.length_append, List.length_cons]
            omega
          · have := length_hang (wordText e.1 ++ [':', ' ']) (lines e.2)
            simp only [List.length_append, List.length_cons] at this
            omega
        omega
      · have := ih he
        omega

/-- A node on a line of its own. -/
theorem parse_line {l : Str} {n : Node Unit} (fuel : Nat) (hgroups : groups [l] = ([], [(l, [])]))
    (hitem : isItem l = false) (hentry : isEntry l = false) (hline : readLine l = .ok n) :
    parse (fuel + 1) [l] = .ok n := by
  rw [parse, hgroups]
  simp only [hitem, hentry, Bool.false_eq_true, ↓reduceIte, and_self]
  exact hline

theorem parse_word {n : Node Unit} (hn : IsWord n) (fuel : Nat) :
    parse (fuel + 1) [wordText n] = .ok n := by
  obtain ⟨c, cs, hword, hblank, -⟩ := wordText_cases hn
  have hread : readWord (wordText n) = some (n, []) := by
    have := readWord_wordText hn [] (by intro c hc; cases hc)
    rwa [List.append_nil] at this
  apply parse_line
  · rw [hword]
    exact groups_head hblank [] rfl
  · have := isItem_wordText hn []
    rwa [List.append_nil] at this
  · unfold isEntry
    rw [hread]
  · unfold readLine
    rw [hread]

theorem lines_word {n : Node Unit} (hn : IsWord n) : lines n = [wordText n] := by
  cases hn with
  | null => rfl
  | scalar text => rfl

/-- **Written lines are read back.** -/
theorem parse_lines : ∀ (fuel : Nat) {n : Node Unit}, Storable n →
    (lines n).flatten.length < fuel → parse fuel (lines n) = .ok n := by
  intro fuel
  induction fuel with
  | zero => intro n _ h; exact absurd h (Nat.not_lt_zero _)
  | succ fuel ih =>
      intro n hn hfuel
      cases hn with
      | word h =>
          rw [lines_word h]
          exact parse_word h fuel
      | @sequence items h =>
          cases items with
          | nil => rfl
          | cons m ms =>
              have hread : ((m :: ms).map itemGroup).mapM (readItem (parse fuel))
                  = .ok (m :: ms) := by
                rw [List.mapM_map, mapM_eq_map (g := id), List.map_id]
                intro k hk
                show readItem (parse fuel) (itemGroup k) = _
                rw [readItem_itemGroup]
                have hlt : (lines k).flatten.length < (itemLines (m :: ms)).flatten.length :=
                  length_itemLines hk
                exact ih (h k hk) (Nat.lt_of_lt_of_le hlt (Nat.le_of_lt_succ hfuel))
              show parse (fuel + 1) (itemLines (m :: ms)) = _
              rw [parse, groups_itemLines, List.map_cons]
              simp only
              rw [if_pos (show isItem (itemGroup m).1 = true from rfl), ← List.map_cons, hread]
              rfl
      | @map entries hk hv =>
          cases entries with
          | nil => rfl
          | cons e es =>
              have hread : ((e :: es).map entryGroup).mapM (readEntry (parse fuel))
                  = .ok (e :: es) := by
                rw [List.mapM_map, mapM_eq_map (g := id), List.map_id]
                intro f hf
                show readEntry (parse fuel) (entryGroup f) = _
                have hlt : (lines f.2).flatten.length < (entryLines (e :: es)).flatten.length :=
                  length_entryLines hf
                rw [readEntry_entryGroup _ (hk f hf),
                    ih (hv f hf) (Nat.lt_of_lt_of_le hlt (Nat.le_of_lt_succ hfuel))]
                rfl
              obtain ⟨hitem, hentry⟩ := entryGroup_cases (hk e List.mem_cons_self)
              show parse (fuel + 1) (entryLines (e :: es)) = _
              rw [parse, groups_entryLines _ hk, List.map_cons]
              simp only
              rw [if_neg (by rw [hitem]; exact Bool.false_ne_true), if_pos hentry,
                  ← List.map_cons, hread]
              rfl

theorem not_mem_headD {ls : List Str} (h : ∀ l ∈ ls, '\n' ∉ l) : '\n' ∉ ls.headD [] := by
  cases ls with
  | nil => exact List.not_mem_nil
  | cons l ls => exact h l List.mem_cons_self

/-- A group without line breaks gives lines without line breaks. -/
theorem not_mem_group {head : Str} {below : List Str} (hhead : '\n' ∉ head)
    (hbelow : ∀ l ∈ below, '\n' ∉ l) : ∀ l ∈ head :: below.map indent, '\n' ∉ l := by
  intro l hl
  rcases List.mem_cons.mp hl with rfl | hl
  · exact hhead
  · obtain ⟨b, hb, rfl⟩ := List.mem_map.mp hl
    simp [indent, hbelow b hb]

theorem not_mem_itemLines {ns : List (Node Unit)} (h : ∀ n ∈ ns, ∀ l ∈ lines n, '\n' ∉ l) :
    ∀ l ∈ itemLines ns, '\n' ∉ l := by
  induction ns with
  | nil => intro l hl; cases hl
  | cons n ns ih =>
      have hn := h n List.mem_cons_self
      have hmarker : '\n' ∉ ['-', ' '] ++ (lines n).headD [] := by
        rw [List.mem_append, not_or]
        exact ⟨by decide, not_mem_headD hn⟩
      rw [itemLines, hang_eq]
      intro l hl
      rcases List.mem_append.mp hl with hl | hl
      · exact not_mem_group hmarker (fun l hl => hn l (List.mem_of_mem_tail hl)) l hl
      · exact ih (fun k hk => h k (List.mem_cons_of_mem n hk)) l hl

theorem not_mem_entryGroup {e : Node Unit × Node Unit} (hk : IsWord e.1)
    (hv : ∀ l ∈ lines e.2, '\n' ∉ l) :
    '\n' ∉ (entryGroup e).1 ∧ ∀ l ∈ (entryGroup e).2, '\n' ∉ l := by
  have hword := not_mem_wordText hk
  unfold entryGroup
  by_cases hblock : isBlock e.2 = true
  · rw [if_pos hblock]
    refine ⟨?_, hv⟩
    simp [hword]
  · rw [if_neg hblock]
    refine ⟨?_, fun l hl => hv l (List.mem_of_mem_tail hl)⟩
    have hhead := not_mem_headD hv
    simp only [List.mem_append, List.mem_cons, not_or]
    exact ⟨hword, by decide, by decide, hhead⟩

theorem not_mem_entryLines {es : List (Node Unit × Node Unit)} (hk : ∀ e ∈ es, IsWord e.1)
    (hv : ∀ e ∈ es, ∀ l ∈ lines e.2, '\n' ∉ l) : ∀ l ∈ entryLines es, '\n' ∉ l := by
  induction es with
  | nil => intro l hl; cases hl
  | cons e es ih =>
      obtain ⟨hhead, hbelow⟩ :=
        not_mem_entryGroup (hk e List.mem_cons_self) (hv e List.mem_cons_self)
      rw [entryLines, keyLines_entryGroup]
      intro l hl
      rcases List.mem_append.mp hl with hl | hl
      · exact not_mem_group hhead hbelow l hl
      · exact ih (fun f hf => hk f (List.mem_cons_of_mem e hf))
          (fun f hf => hv f (List.mem_cons_of_mem e hf)) l hl

/-- The lines of a node have no line breaks in them. -/
theorem not_mem_lines {n : Node Unit} (hn : Storable n) : ∀ l ∈ lines n, '\n' ∉ l := by
  induction hn with
  | word h =>
      rw [lines_word h]
      intro l hl
      obtain rfl := List.mem_singleton.mp hl
      exact not_mem_wordText h
  | @sequence items _ ih =>
      cases items with
      | nil => decide
      | cons m ms => exact not_mem_itemLines ih
  | @map entries hk _ ih =>
      cases entries with
      | nil => decide
      | cons e es => exact not_mem_entryLines hk ih

/-- **Whatever is written is read back.** -/
theorem load_emit {n : Node Unit} (hn : Storable n) : load (emit n) = .ok n := by
  unfold load emit
  rw [List.splitOn_intercalate '\n' (not_mem_lines hn) (lines_ne_nil n)]
  exact parse_lines _ hn (Nat.lt_succ_self _)

/-! ## §6. What is read can be written. -/

theorem isWord_of_readWord {s rest : Str} {n : Node Unit} (h : readWord s = some (n, rest)) :
    IsWord n := by
  cases s with
  | nil => cases h
  | cons c cs =>
      rw [readWord] at h
      by_cases hq : c = '"'
      · rw [if_pos hq, Option.map_eq_some_iff] at h
        obtain ⟨⟨text, t⟩, -, heq⟩ := h
        cases heq
        exact .scalar text
      rw [if_neg hq] at h
      by_cases ht : c = '~'
      · rw [if_pos ht] at h
        cases h
        exact .null
      · rw [if_neg ht] at h
        simp only at h
        split at h
        · cases h
          exact .scalar _
        · cases h

theorem storable_readLine {l : Str} {n : Node Unit} (h : readLine l = .ok n) : Storable n := by
  unfold readLine at h
  split at h
  · next hread =>
      cases h
      exact .word (isWord_of_readWord hread)
  · split at h
    · cases h
      exact .word .null
    split at h
    · cases h
      exact .sequence fun _ hn => by cases hn
    split at h
    · cases h
      exact .map (fun _ he => by cases he) fun _ he => by cases he
    · cases h

theorem storable_readItem {value : List Str → Except Thrown (Node Unit)}
    (hvalue : ∀ ls n, value ls = .ok n → Storable n) {g : Str × List Str} {n : Node Unit}
    (h : readItem value g = .ok n) : Storable n := by
  unfold readItem at h
  split at h
  · exact hvalue _ n h
  · cases h

theorem storable_readEntry {value : List Str → Except Thrown (Node Unit)}
    (hvalue : ∀ ls n, value ls = .ok n → Storable n) {g : Str × List Str}
    {e : Node Unit × Node Unit} (h : readEntry value g = .ok e) : IsWord e.1 ∧ Storable e.2 := by
  have hmap : ∀ (k : Node Unit) (ls : List Str), IsWord k →
      ((value ls).map fun v => (k, v)) = .ok e → IsWord e.1 ∧ Storable e.2 := by
    intro k ls hk hmap
    obtain ⟨v, hv, rfl⟩ := map_eq_ok_iff.mp hmap
    exact ⟨hk, hvalue ls v hv⟩
  obtain ⟨head, below⟩ := g
  rw [readEntry] at h
  split at h
  · next hread => exact hmap _ _ (isWord_of_readWord hread) h
  · next hread => exact hmap _ _ (isWord_of_readWord hread) h
  · cases h

theorem storable_parse : ∀ (fuel : Nat) (ls : List Str) (n : Node Unit),
    parse fuel ls = .ok n → Storable n := by
  intro fuel
  induction fuel with
  | zero => intro ls n h; cases h
  | succ fuel ih =>
      intro ls n h
      rw [parse] at h
      split at h
      · cases h
        exact .word .null
      · next g gs _ =>
          split at h
          · obtain ⟨items, hitems, rfl⟩ := map_eq_ok_iff.mp h
            refine .sequence fun m hm => ?_
            obtain ⟨g', -, hg'⟩ := mapM_ok_mem_right hitems hm
            exact storable_readItem ih hg'
          split at h
          · obtain ⟨es, hes, rfl⟩ := map_eq_ok_iff.mp h
            have hread : ∀ e ∈ es, IsWord e.1 ∧ Storable e.2 := by
              intro e he
              obtain ⟨g', -, hg'⟩ := mapM_ok_mem_right hes he
              exact storable_readEntry ih hg'
            exact .map (fun e he => (hread e he).1) fun e he => (hread e he).2
          split at h
          · exact storable_readLine h
          · cases h
      · cases h

theorem storable_load {s : Str} {n : Node Unit} (h : load s = .ok n) : Storable n :=
  storable_parse _ _ n h

/-! ## §7. The library. -/

/-- A key that reads as the number `i`. -/
def keyIs (k : Node Unit) (i : Nat) : Bool :=
  match k with
  | .scalar _ text => text = Nat.toDigits 10 i
  | _ => false

/-- yaml-cpp without props: everything about a node survives. -/
def blockYaml : YamlCpp Unit Unit := ⟨load, emit, (), id, keyIs⟩

theorem storable_of_built {n : Node Unit} (h : blockYaml.Built n) : Storable n := by
  induction h with
  | load h => exact storable_load h
  | scalar text => exact .word (.scalar text)
  | sequence _ ih => exact .sequence ih
  | map hk _ ih =>
      refine .map (fun e he => ?_) ih
      obtain ⟨key, hkey⟩ := hk e he
      rw [hkey]
      exact .scalar key
  | item _ hn ih =>
      cases ih with
      | word h => cases h
      | sequence h => exact h _ hn
  | value _ he ih =>
      cases ih with
      | word h => cases h
      | map _ h => exact h _ he

/-- The digits of a number make a plain scalar, with a sign or without one. -/
theorem isPlain_intText (k : Int) : isPlain (intText k) = true := by
  have hdigits : ∀ c ∈ Nat.toDigits 10 k.natAbs, c.isDigit = true := fun c hc =>
    Nat.isDigit_of_mem_toDigits (by decide) (by decide) hc
  have hne : Nat.toDigits 10 k.natAbs ≠ [] := Nat.toDigits_ne_nil
  unfold intText
  by_cases hk : k < 0
  · rw [if_pos hk]
    show (decide (Nat.toDigits 10 k.natAbs ≠ []) && (Nat.toDigits 10 k.natAbs).all Char.isDigit)
      = true
    rw [decide_eq_true hne, List.all_eq_true.mpr hdigits]
    rfl
  · rw [if_neg hk, List.nil_append]
    obtain ⟨c, cs, hcons⟩ := List.exists_cons_of_ne_nil hne
    rw [hcons] at hdigits ⊢
    have hhead := hdigits c List.mem_cons_self
    have hdash : c ≠ '-' := by
      rintro rfl
      exact absurd hhead (by decide)
    have hnull : isNullWord (c :: cs) = false := by
      rw [Bool.eq_false_iff]
      intro hmem
      have hletter : c = '~' ∨ c = 'n' ∨ c = 'N' := by
        simp [isNullWord, nullWords] at hmem
        tauto
      rcases hletter with rfl | rfl | rfl
      · exact absurd hhead (by decide)
      · exact absurd hhead (by decide)
      · exact absurd hhead (by decide)
    rw [isPlain, if_neg hdash, hnull, Bool.not_false, Bool.and_true, List.all_eq_true]
    intro d hd
    unfold Char.isAlphanum
    rw [hdigits d hd, Bool.or_true]

/-- **`blockYaml` keeps what is relied on.** -/
theorem faithful : blockYaml.Faithful where
  load_emit n hn := ⟨n, load_emit (storable_of_built hn), rfl⟩
  emit_int m k _ hdata := by
    obtain ⟨p, rfl⟩ := YamlCpp.data_eq_scalar hdata
    show ['\n'].intercalate [scalarText (intText k)] = _
    unfold scalarText
    rw [if_pos (isPlain_intText k), List.intercalate_singleton]

end SylarCot.Config.BlockYaml
