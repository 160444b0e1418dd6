/-
  SylarCot.Log.LogFormatter.SameOutput
  ────────────────────────────────────
  **WHEN TWO FORMATTERS PRINT THE SAME.**

  Different patterns may print alike: a tab and `%T`, `a%nb` and the same text with a
  line feed.  `word` reads an item list as letters and fields, a date being a field of
  its own for each format.

    • `sameOutput_iff` — two formatters print the same for every event, under every
      `strftime`, exactly if they have the same word;
    • so it can be decided whether two patterns print the same, from either copy of the
      formatter and whether they are well formed or not.
-/
import SylarCot.Library.Words
import SylarCot.Log.LogFormatter.LogFormatter

namespace SylarCot.Log

open Library

/-! ## §1. The word of an item list. -/

/-- What an event, and the library's dates, put into a line. -/
inductive Field where
  | content
  | level
  | elapse
  | loggerName
  | threadId
  | fiberId
  | threadName
  | date (fmt : Str)
  | file
  | line
  deriving Repr, DecidableEq

/-- An item is a field or a text of its own. -/
def FormatItem.word : FormatItem → List (Atom Char Field)
  | .MessageFormatItem => [.var .content]
  | .LevelFormatItem => [.var .level]
  | .ElapseFormatItem => [.var .elapse]
  | .NameFormatItem => [.var .loggerName]
  | .ThreadIdFormatItem => [.var .threadId]
  | .FiberIdFormatItem => [.var .fiberId]
  | .ThreadNameFormatItem => [.var .threadName]
  -- `strftime` reads its format up to the first zero byte
  | .DateTimeFormatItem m_format => [.var (.date (cStr m_format))]
  | .NewLineFormatItem => [.letter '\n']
  | .FilenameFormatItem => [.var .file]
  | .LineFormatItem => [.var .line]
  | .TabFormatItem => [.letter '\t']
  | .StringFormatItem m_string => m_string.map .letter
  | .PercentSignFormatItem => [.letter '%']

/-- The word of an item list. -/
def word (items : List FormatItem) : List (Atom Char Field) := items.flatMap FormatItem.word

/-- What `strftime` leaves in the formatter's buffer, for a format without zero bytes. -/
def dateField (lib : Libc) (event : LogEvent) (fmt : Str) : Str :=
  let tm := lib.localtime_r event.getTime.toInt64
  let e := lib.expansion fmt tm
  if e.length + 1 ≤ FormatItem.bufSize then e else lib.leftover fmt tm

/-- The text of a field. -/
def fieldText (lib : Libc) (event : LogEvent) : Field → Str
  | .content => event.getContent
  | .level => event.getLevel.toString
  | .elapse => natText event.getElapse.toNat
  | .loggerName => event.getLoggerName
  | .threadId => natText event.getThreadId.toNat
  | .fiberId => natText event.getFiberId.toNat
  | .threadName => event.getThreadName
  | .date fmt => dateField lib event fmt
  | .file => event.getFile.getD []
  | .line => intText event.getLine.toInt

/-- The text of an item is that of its word. -/
theorem text_eq_substWord (lib : Libc) (event : LogEvent) (item : FormatItem) :
    item.text lib event = substWord (fieldText lib event) item.word := by
  cases item with
  | StringFormatItem m_string => exact (substWord_letters _ m_string).symm
  | NewLineFormatItem => rfl
  | TabFormatItem => rfl
  | PercentSignFormatItem => rfl
  | _ =>
      unfold FormatItem.word
      rw [substWord_cons]
      exact (List.append_nil _).symm

theorem itemsText_eq_substWord (lib : Libc) (event : LogEvent) (items : List FormatItem) :
    itemsText lib event items = substWord (fieldText lib event) (word items) := by
  induction items with
  | nil => rfl
  | cons item items ih =>
      show item.text lib event ++ itemsText lib event items
        = substWord (fieldText lib event) (item.word ++ word items)
      rw [substWord_append, text_eq_substWord, ih]

/-! ## §2. Events that tell fields apart. -/

/-- A library whose dates print `d`, and in the format of the marked field `e`. -/
def markedLibc (marked : Field) : Libc where
  Tm := Unit
  localtime_r _ := ()
  expansion fmt _ := if Field.date fmt = marked then ['e'] else ['d']
  leftover _ _ := []

/-- An event whose marked field differs from that of any other such event. -/
def markedEvent (marked : Field) : LogEvent where
  m_loggername := if marked = .loggerName then ['y'] else ['x']
  m_level := if marked = .level then .INFO else .DEBUG
  m_filename := some (if marked = .file then ['y'] else ['x'])
  m_line := if marked = .line then 1 else 0
  m_elapse := if marked = .elapse then 1 else 0
  m_threadid := if marked = .threadId then 1 else 0
  m_fiberid := if marked = .fiberId then 1 else 0
  m_time := 0
  m_threadname := if marked = .threadName then ['y'] else ['x']
  m_ss := if marked = .content then ['y'] else ['x']

/-- The texts in the marked event. -/
def markedText (marked : Field) : Field → Str := fieldText (markedLibc marked) (markedEvent marked)

/-- How an unmarked and a marked field begin. -/
def heads : Field → Char × Char
  | .content => ('x', 'y')
  | .level => ('D', 'I')
  | .elapse => ('0', '1')
  | .loggerName => ('x', 'y')
  | .threadId => ('0', '1')
  | .fiberId => ('0', '1')
  | .threadName => ('x', 'y')
  | .date _ => ('d', 'e')
  | .file => ('x', 'y')
  | .line => ('0', '1')

theorem dateField_char {lib : Libc} {event : LogEvent} {fmt : Str} {c : Char}
    (h : ∀ tm, lib.expansion fmt tm = [c]) : dateField lib event fmt = [c] := by
  unfold dateField
  simp only [h]
  rfl

theorem head_markedText (marked v : Field) :
    (markedText marked v).head? = some (if v = marked then (heads v).2 else (heads v).1) := by
  by_cases h : v = marked
  · subst h
    rw [if_pos rfl]
    cases v with
    | date fmt =>
        have htext : markedText (.date fmt) (.date fmt) = ['e'] := dateField_char fun _ => if_pos rfl
        rw [htext]
        rfl
    | _ => rfl
  · rw [if_neg h]
    have hne : ¬ marked = v := Ne.symm h
    cases v with
    | date fmt =>
        have htext : markedText marked (.date fmt) = ['d'] := dateField_char fun _ => if_neg h
        rw [htext]
        rfl
    | elapse =>
        show (natText (UInt32.toNat (if marked = .elapse then 1 else 0))).head? = some '0'
        rw [if_neg hne]
        decide
    | threadId =>
        show (natText (UInt32.toNat (if marked = .threadId then 1 else 0))).head? = some '0'
        rw [if_neg hne]
        decide
    | fiberId =>
        show (natText (UInt32.toNat (if marked = .fiberId then 1 else 0))).head? = some '0'
        rw [if_neg hne]
        decide
    | line =>
        show (intText (Int32.toInt (if marked = .line then 1 else 0))).head? = some '0'
        rw [if_neg hne]
        decide
    | _ =>
        unfold markedText markedEvent
        simp only [hne, if_false]
        rfl

theorem heads_mem (v : Field) :
    (heads v).1 ∈ ['x', 'D', '0', 'd'] ∧ (heads v).2 ∈ ['y', 'I', '1', 'e'] := by
  cases v <;> simp [heads]

/-- No marked field begins like an unmarked one. -/
theorem heads_ne (v w : Field) : (heads v).2 ≠ (heads w).1 := by
  intro heq
  have hdisjoint : ∀ c ∈ ['y', 'I', '1', 'e'], c ∉ ['x', 'D', '0', 'd'] := by simp
  have hmarked := hdisjoint _ (heads_mem v).2
  rw [heq] at hmarked
  exact hmarked (heads_mem w).1

/-- The texts of all events with a file name, under all libraries. -/
def FieldTexts (σ : Field → Str) : Prop :=
  ∃ (lib : Libc) (event : LogEvent), event.getFile ≠ none ∧ σ = fieldText lib event

theorem fieldTexts_marked (marked : Field) : FieldTexts (markedText marked) :=
  ⟨markedLibc marked, markedEvent marked, by simp [LogEvent.getFile, markedEvent], rfl⟩

/-- **The events tell all fields apart.** -/
theorem separating_fieldTexts : Separating FieldTexts where
  some_allowed := ⟨_, fieldTexts_marked .content⟩
  from_letter v a := by
    by_cases ha : (heads v).2 = a
    · -- marked it begins like `a`, so it is not marked
      obtain ⟨marked, hne⟩ : ∃ marked, v ≠ marked := by
        by_cases hv : v = .content
        · exact ⟨.level, by rw [hv]; decide⟩
        · exact ⟨.content, hv⟩
      refine ⟨_, fieldTexts_marked marked, (heads v).1, ?_, ?_⟩
      · rw [head_markedText, if_neg hne]
      · rw [← ha]
        exact (heads_ne v v).symm
    · refine ⟨_, fieldTexts_marked v, (heads v).2, ?_, ha⟩
      rw [head_markedText, if_pos rfl]
  from_var v w hvw := by
    refine ⟨_, fieldTexts_marked v, (heads v).2, (heads w).1, ?_, ?_, heads_ne v w⟩
    · rw [head_markedText, if_pos rfl]
    · rw [head_markedText, if_neg (Ne.symm hvw)]

/-! ## §3. The result. -/

namespace LogFormatter

/-- The formatters print the same for every event with a file name, under every library. -/
def SameOutput (f g : LogFormatter) : Prop :=
  ∀ (lib : Libc) (event : LogEvent), event.getFile ≠ none → SameText lib event f g

/-- All dates of a word fit their buffers. -/
def WordFits (lib : Libc) (event : LogEvent) (w : List (Atom Char Field)) : Prop :=
  ∀ fmt, .var (.date fmt) ∈ w →
    (lib.expansion fmt (lib.localtime_r event.getTime.toInt64)).length < FormatItem.bufSize

theorem fits_iff_wordFits (lib : Libc) (event : LogEvent) (item : FormatItem) :
    item.Fits lib event ↔ WordFits lib event item.word := by
  cases item <;> simp [FormatItem.Fits, WordFits, FormatItem.word]

/-- Whether the dates fit can be read off the word. -/
theorem datesFit_iff_wordFits (lib : Libc) (event : LogEvent) (f : LogFormatter) :
    f.DatesFit lib event ↔ WordFits lib event (word f.m_items) := by
  unfold DatesFit
  simp only [fits_iff_wordFits]
  unfold WordFits word
  constructor
  · intro h fmt hmem
    obtain ⟨i, hi, hvar⟩ := List.mem_flatMap.mp hmem
    exact h i hi fmt hvar
  · intro h i hi fmt hvar
    exact h fmt (List.mem_flatMap.mpr ⟨i, hi, hvar⟩)

theorem format_eq_substWord (lib : Libc) (event : LogEvent) (hfile : event.getFile ≠ none)
    (f : LogFormatter) : f.format lib event = substWord (fieldText lib event) (word f.m_items) := by
  show (formatAll lib {} event f.m_items).text = _
  rw [formatAll_isPlain lib event f.m_items (fun _ => hfile) _ .fresh, itemsText_eq_substWord]
  rfl

/-- **TWO FORMATTERS PRINT THE SAME** for every event, under every `strftime`, if and only
if their items spell the same sequence of letters and fields. -/
theorem sameOutput_iff (f g : LogFormatter) :
    f.SameOutput g ↔ word f.m_items = word g.m_items := by
  constructor
  · intro h
    rw [← words_eq_iff separating_fieldTexts]
    intro σ hσ
    obtain ⟨lib, event, hfile, rfl⟩ := hσ
    rw [← format_eq_substWord lib event hfile, ← format_eq_substWord lib event hfile]
    exact (h lib event hfile).format_eq
  · intro h lib event hfile
    apply sameText_of_eq
    · rw [format_eq_substWord lib event hfile, format_eq_substWord lib event hfile, h]
    · rw [datesFit_iff_wordFits, datesFit_iff_wordFits, h]
      exact id

end LogFormatter

/-- A tab is as good as `%T`, and two dates share their formats. -/
example :
    word (LogFormatter.new xxSrcs "%p%T%d{%Y}%d{%m}".toList).m_items
      = word (LogFormatter.new xxSrcs "%p\t%d%d{%Y%m}".toList).m_items := by decide

end SylarCot.Log
