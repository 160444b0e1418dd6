/-
  SylarCot.Log.LogFormatter.Meaning
  ─────────────────────────────────
  **THE DOCUMENTED PATTERN LANGUAGE AND ITS MEANING.**

  A `Directive` is what the header's documentation speaks of: literal text, the
  escape `%%`, a conversion, a date with or without a format of its own.
  `render` is the documented meaning, with the text of a date as a parameter;
  `headerFormat` gives a date without a format the default one.

    • `format_table` — with any table, a formatter prints of every well-formed
      pattern what its table has, ALL dates by the one format `init` has collected;
    • `format_pattern` — for the table of `srcs/` these are the documented fields;
    • `format_meaning` — so a pattern with at most one date means exactly what
      the header says.
-/
import SylarCot.Log.LogFormatter.InitCorrect

namespace SylarCot.Log

/-! ## §1. Directives and well-formed patterns. -/

/-- One directive of the documented pattern language. -/
inductive Directive where
  | text (s : Str)
  | percent
  | conv (c : Char)
  | date
  | dateFmt (fmt : Str)
  deriving Repr, DecidableEq

namespace Directive

/-- How the directive is written. -/
def src : Directive → Str
  | .text s => s
  | .percent => ['%', '%']
  | .conv c => ['%', c]
  | .date => ['%', 'd']
  | .dateFmt fmt => '%' :: 'd' :: '{' :: (fmt ++ ['}'])

/-- Text without '%', conversions of the table, formats without '}'. -/
def Ok : Directive → Prop
  | .text s => '%' ∉ s
  | .conv c => c ≠ 'd' ∧ [c] ∈ itemtype.map Prod.fst
  | .dateFmt fmt => '}' ∉ fmt
  | .percent => True
  | .date => True

/-- A bare `%d` is not directly followed by a '{'. -/
def Before (rest : Str) (d : Directive) : Prop := d = .date → rest.head? ≠ some '{'

instance : ∀ d : Directive, Decidable d.Ok
  | .text s => inferInstanceAs (Decidable ('%' ∉ s))
  | .percent => inferInstanceAs (Decidable True)
  | .conv c => inferInstanceAs (Decidable (c ≠ 'd' ∧ [c] ∈ itemtype.map Prod.fst))
  | .date => inferInstanceAs (Decidable True)
  | .dateFmt fmt => inferInstanceAs (Decidable ('}' ∉ fmt))

instance (rest : Str) (d : Directive) : Decidable (d.Before rest) :=
  inferInstanceAs (Decidable (d = .date → rest.head? ≠ some '{'))

/-- The format a date directive asks for; a bare `%d` asks for the empty one. -/
def dateFormats : Directive → List Str
  | .date => [[]]
  | .dateFmt fmt => [fmt]
  | _ => []

end Directive

/-- The pattern a directive sequence is written as. -/
def pattern (ds : List Directive) : Str := ds.flatMap Directive.src

theorem pattern_append (ds es : List Directive) : pattern (ds ++ es) = pattern ds ++ pattern es :=
  List.flatMap_append

/-- A well-formed pattern. -/
def WellFormed : List Directive → Prop
  | [] => True
  | d :: ds => d.Ok ∧ d.Before (pattern ds) ∧ WellFormed ds

instance : ∀ ds : List Directive, Decidable (WellFormed ds)
  | [] => .isTrue trivial
  | d :: ds =>
      have : Decidable (WellFormed ds) := instDecidableWellFormed ds
      inferInstanceAs (Decidable (d.Ok ∧ d.Before (pattern ds) ∧ WellFormed ds))

theorem WellFormed.ok : ∀ {ds : List Directive}, WellFormed ds → ∀ {d : Directive}, d ∈ ds → d.Ok
  | _ :: _, ⟨hok, _, hds⟩, _, hmem => by
      rcases List.mem_cons.mp hmem with rfl | hmem
      · exact hok
      · exact hds.ok hmem

/-- The formats of the date directives, in order. -/
def dateFormats (ds : List Directive) : List Str := ds.flatMap Directive.dateFormats

/-- The pattern has at most one date directive. -/
def AtMostOneDate (ds : List Directive) : Prop := (dateFormats ds).length ≤ 1

instance (ds : List Directive) : Decidable (AtMostOneDate ds) :=
  inferInstanceAs (Decidable ((dateFormats ds).length ≤ 1))

/-! ## §2. The documented meaning. -/

/-- The event field the header documents for a conversion. -/
def headerField (event : LogEvent) : Char → Str
  | 'm' => event.getContent
  | 'p' => event.getLevel.toString
  | 'c' => event.getLoggerName
  | 'r' => natText event.getElapse.toNat
  | 'f' => event.getFile.getD []
  | 'l' => intText event.getLine.toInt
  | 't' => natText event.getThreadId.toNat
  | 'F' => natText event.getFiberId.toNat
  | 'N' => event.getThreadName
  | 'T' => ['\t']
  | 'n' => ['\n']
  | _ => []

/-- The format a date stands for: its own, or the default one where that is empty. -/
def headerFormat : Str → Str
  | [] => "%Y-%m-%d %H:%M:%S".toList
  | fmt => fmt

/-- What a directive prints, given the texts of the conversions and of a date by its
own format. -/
def Directive.renderWith (field : Char → Str) (dateText : Str → Str) : Directive → Str
  | .text s => s
  | .percent => ['%']
  | .conv c => field c
  | .date => dateText []
  | .dateFmt fmt => dateText fmt

/-- What a pattern prints, given these texts. -/
def renderWith (field : Char → Str) (dateText : Str → Str) (ds : List Directive) : Str :=
  ds.flatMap (Directive.renderWith field dateText)

/-- The documented meaning of a pattern. -/
def render (event : LogEvent) (dateText : Str → Str) (ds : List Directive) : Str :=
  renderWith (headerField event) dateText ds

theorem renderWith_append (field : Char → Str) (dateText : Str → Str) (ds es : List Directive) :
    renderWith field dateText (ds ++ es)
      = renderWith field dateText ds ++ renderWith field dateText es :=
  List.flatMap_append

/-- What a pattern prints depends on the texts of its own conversions and dates only. -/
theorem renderWith_congr {field field' : Char → Str} {dateText dateText' : Str → Str}
    {ds : List Directive} (hfield : ∀ c, .conv c ∈ ds → field c = field' c)
    (hdate : ∀ fmt ∈ dateFormats ds, dateText fmt = dateText' fmt) :
    renderWith field dateText ds = renderWith field' dateText' ds := by
  unfold renderWith
  refine List.flatMap_congr (fun d hd => ?_)
  have hfmt : ∀ fmt ∈ d.dateFormats, dateText fmt = dateText' fmt := fun fmt hf =>
    hdate fmt (List.mem_flatMap.mpr ⟨d, hd, hf⟩)
  match d with
  | .text _ => rfl
  | .percent => rfl
  | .conv c => exact hfield c hd
  | .date => exact hfmt [] (List.mem_singleton.mpr rfl)
  | .dateFmt fmt => exact hfmt fmt (List.mem_singleton.mpr rfl)

theorem renderWith_dates {field : Char → Str} {dateText dateText' : Str → Str}
    {ds : List Directive} (h : ∀ fmt ∈ dateFormats ds, dateText fmt = dateText' fmt) :
    renderWith field dateText ds = renderWith field dateText' ds :=
  renderWith_congr (fun _ _ => rfl) h

section DateText

variable (lib : Libc) (event : LogEvent)

/-- The broken-down time of the event. -/
def eventTm : lib.Tm := lib.localtime_r event.getTime.toInt64

/-- What `strftime` leaves in the formatter's buffer for a date format. -/
def dateBuffer (fmt : Str) : Str :=
  lib.strftime FormatItem.bufSize (headerFormat fmt) (eventTm lib event)

/-- The complete expansion of a date format; the default one where it is empty. -/
def dateExpansion (fmt : Str) : Str :=
  lib.expansion (cStr (headerFormat fmt)) (eventTm lib event)

theorem dateBuffer_fits {fmt : Str}
    (h : (dateExpansion lib event fmt).length < FormatItem.bufSize) :
    dateBuffer lib event fmt = dateExpansion lib event fmt :=
  lib.strftime_fits _ _ _ h

/-- The constructor of the date item settles on the documented format. -/
theorem dateTimeFormat_eq (fmt : Str) : dateTimeFormat fmt = headerFormat fmt := by
  cases fmt with
  | nil => rfl
  | cons c fmt => exact if_neg (List.cons_ne_nil c fmt)

/-- **A date item prints the date its format documents.** -/
theorem text_dateTime (fmt : Str) :
    FormatItem.text lib event (.dateTime fmt) = dateBuffer lib event fmt := by
  unfold dateBuffer
  rw [← dateTimeFormat_eq]
  rfl

end DateText

/-! ## §3. Directives as lexemes. -/

/-- The lexemes of a directive. -/
def Directive.lexemes : Directive → List Lexeme
  | .text s => s.map .chr
  | .percent => [.percent]
  | .conv c => [.conv c]
  | .date => [.date none]
  | .dateFmt fmt => [.date (some fmt)]

/-- The lexemes of a directive sequence. -/
def lexemes (ds : List Directive) : List Lexeme := ds.flatMap Directive.lexemes

theorem src_text (s : Str) : src (s.map .chr) = s := by
  induction s with
  | nil => rfl
  | cons c s ih =>
      show c :: src (s.map .chr) = c :: s
      rw [ih]

theorem src_lexemes (ds : List Directive) : src (lexemes ds) = pattern ds := by
  induction ds with
  | nil => rfl
  | cons d ds ih =>
      show src (d.lexemes ++ lexemes ds) = d.src ++ pattern ds
      rw [src_append, ih]
      match d with
      | .text s => rw [show Directive.lexemes (.text s) = s.map .chr from rfl, src_text]; rfl
      | .percent => rfl
      | .conv _ => rfl
      | .date => rfl
      | .dateFmt _ => simp [Directive.lexemes, Directive.src, Lexeme.src]

theorem mem_itemtype {c : Char} (h : [c] ∈ itemtype.map Prod.fst) :
    ∃ item, ([c], item) ∈ itemtype := by
  obtain ⟨⟨key, item⟩, hmem, rfl⟩ := List.mem_map.mp h
  exact ⟨item, hmem⟩

theorem itemtype_ne_percent {c : Char} {item : FormatItem} (h : ([c], item) ∈ itemtype) :
    c ≠ '%' := by
  rintro rfl
  simp [itemtype] at h

theorem lexed_text {s : Str} {rest : Str} {ls : List Lexeme} (hs : '%' ∉ s)
    (hls : Lexed rest ls) : Lexed rest (s.map .chr ++ ls) := by
  induction s with
  | nil => exact hls
  | cons c s ih =>
      simp only [List.mem_cons, not_or] at hs
      exact ⟨Ne.symm hs.1, trivial, ih hs.2⟩

/-- A well-formed pattern is lexed as its directives. -/
theorem lexed_lexemes : ∀ ds : List Directive, WellFormed ds → Lexed [] (lexemes ds)
  | [], _ => trivial
  | d :: ds, ⟨hok, hbefore, hds⟩ => by
      have hls := lexed_lexemes ds hds
      show Lexed [] (d.lexemes ++ lexemes ds)
      match d with
      | .text s => exact lexed_text hok hls
      | .percent => exact ⟨trivial, trivial, hls⟩
      | .conv c =>
          obtain ⟨item, hmem⟩ := mem_itemtype hok.2
          exact ⟨⟨itemtype_ne_percent hmem, hok.1⟩, trivial, hls⟩
      | .date =>
          refine ⟨trivial, ?_, hls⟩
          rw [List.append_nil]
          show Lexeme.Before (src (lexemes ds)) _
          rw [src_lexemes]
          exact hbefore rfl
      | .dateFmt _ => exact ⟨hok, trivial, hls⟩

/-! ## §4. The table prints the documented fields. -/

/-- To show something of every row of the table, show it of the twelve rows. -/
theorem itemtype_cases {motive : Char → FormatItem → Prop}
    (m : motive 'm' .MessageFormatItem) (p : motive 'p' .LevelFormatItem)
    (c : motive 'c' .NameFormatItem) (d : motive 'd' FormatItem.dateTime)
    (r : motive 'r' .ElapseFormatItem) (f : motive 'f' .FilenameFormatItem)
    (l : motive 'l' .LineFormatItem) (t : motive 't' .ThreadIdFormatItem)
    (F : motive 'F' .FiberIdFormatItem) (N : motive 'N' .ThreadNameFormatItem)
    (T : motive 'T' .TabFormatItem) (n : motive 'n' .NewLineFormatItem)
    {key : Char} {item : FormatItem} (h : ([key], item) ∈ itemtype) : motive key item := by
  simp only [itemtype, List.mem_cons, Prod.mk.injEq, List.cons.injEq, and_true,
    List.not_mem_nil, or_false] at h
  rcases h with ⟨rfl, rfl⟩ | ⟨rfl, rfl⟩ | ⟨rfl, rfl⟩ | ⟨rfl, rfl⟩ | ⟨rfl, rfl⟩ | ⟨rfl, rfl⟩ |
    ⟨rfl, rfl⟩ | ⟨rfl, rfl⟩ | ⟨rfl, rfl⟩ | ⟨rfl, rfl⟩ | ⟨rfl, rfl⟩ | ⟨rfl, rfl⟩ <;> assumption

/-- The table finds the item listed for a conversion. -/
theorem lookup_itemtype (xx : FormatItem → FormatItem) {c : Char} {item : FormatItem}
    (h : ([c], item) ∈ itemtype) : (sItemFuncs xx).lookup [c] = some (xx item) :=
  itemtype_cases (motive := fun c item => (sItemFuncs xx).lookup [c] = some (xx item))
    rfl rfl rfl rfl rfl rfl rfl rfl rfl rfl rfl rfl h

/-- What the table's item for a conversion prints. -/
def tableField (xx : FormatItem → FormatItem) (lib : Libc) (event : LogEvent) (c : Char) : Str :=
  match (sItemFuncs xx).lookup [c] with
  | some item => item.text lib event
  | none => []

theorem tableField_itemtype (xx : FormatItem → FormatItem) (lib : Libc) (event : LogEvent) {c : Char}
    {item : FormatItem} (h : ([c], item) ∈ itemtype) :
    tableField xx lib event c = (xx item).text lib event := by
  unfold tableField
  rw [lookup_itemtype xx h]

/-- **Every conversion but the date prints the field the header documents.** -/
theorem text_itemtype (lib : Libc) (event : LogEvent) {c : Char} {item : FormatItem}
    (h : ([c], item) ∈ itemtype) (hd : c ≠ 'd') : item.text lib event = headerField event c := by
  revert hd
  refine itemtype_cases (motive := fun c item => c ≠ 'd' → item.text lib event
    = headerField event c) ?_ ?_ ?_ ?_ ?_ ?_ ?_ ?_ ?_ ?_ ?_ ?_ h
  case refine_4 =>
    intro hd
    exact absurd rfl hd
  all_goals
    intro _
    rfl

/-- The texts of literal chars. -/
theorem itemsText_text (lib : Libc) (event : LogEvent) (xx : FormatItem → FormatItem) (D s : Str)
    (ls : List Lexeme) :
    itemsText lib event (installed (lexemeItem xx D) (s.map .chr ++ ls))
      = s ++ itemsText lib event (installed (lexemeItem xx D) ls) := by
  induction s with
  | nil => rfl
  | cons c s ih =>
      show c :: itemsText lib event (installed (lexemeItem xx D) (s.map .chr ++ ls)) = _
      rw [ih]
      rfl

/-- The items of a well-formed pattern print the table's fields, and every date with
the format `D`. -/
theorem itemsText_lexemes (xx : FormatItem → FormatItem) (lib : Libc) (event : LogEvent) (D : Str) :
    ∀ ds : List Directive, WellFormed ds →
      itemsText lib event (installed (lexemeItem xx D) (lexemes ds))
        = renderWith (tableField xx lib event) (fun _ => dateBuffer lib event D) ds
  | [], _ => rfl
  | d :: ds, ⟨hok, _, hds⟩ => by
      have ih := itemsText_lexemes xx lib event D ds hds
      show itemsText lib event (installed (lexemeItem xx D) (d.lexemes ++ lexemes ds)) = _
      match d with
      | .text s =>
          show itemsText lib event (installed (lexemeItem xx D) (s.map .chr ++ lexemes ds)) = _
          rw [itemsText_text, ih]
          rfl
      | .percent =>
          show '%' :: itemsText lib event (installed (lexemeItem xx D) (lexemes ds)) = _
          rw [ih]
          rfl
      | .conv c =>
          obtain ⟨hd, htable⟩ := hok
          obtain ⟨item, hmem⟩ := mem_itemtype htable
          have hitem : lexemeItem xx D (.conv c) = some (xx item) := by
            have := lookup_itemtype xx hmem
            simpa [lexemeItem, tokenItem, hd] using this
          show itemsText lib event (installed (lexemeItem xx D) (.conv c :: lexemes ds)) = _
          rw [installed_cons_some _ hitem]
          show (xx item).text lib event
            ++ itemsText lib event (installed (lexemeItem xx D) (lexemes ds)) = _
          rw [ih, ← tableField_itemtype xx lib event hmem]
          rfl
      | .date =>
          show FormatItem.text lib event (.dateTime D)
            ++ itemsText lib event (installed (lexemeItem xx D) (lexemes ds)) = _
          rw [ih, text_dateTime]
          rfl
      | .dateFmt _ =>
          show FormatItem.text lib event (.dateTime D)
            ++ itemsText lib event (installed (lexemeItem xx D) (lexemes ds)) = _
          rw [ih, text_dateTime]
          rfl

/-- The table of `srcs/` has the documented fields. -/
theorem renderWith_xxSrcs (lib : Libc) (event : LogEvent) (dateText : Str → Str)
    {ds : List Directive} (hds : WellFormed ds) :
    renderWith (tableField xxSrcs lib event) dateText ds = render event dateText ds := by
  refine renderWith_congr (fun c hc => ?_) (fun _ _ => rfl)
  obtain ⟨hd, htable⟩ : c ≠ 'd' ∧ [c] ∈ itemtype.map Prod.fst := hds.ok hc
  obtain ⟨item, hmem⟩ := mem_itemtype htable
  rw [tableField_itemtype xxSrcs lib event hmem]
  exact text_itemtype lib event hmem hd

/-! ## §5. What a well-formed pattern prints. -/

/-- The formats of all dates of a pattern, one after the other. -/
def sharedFormat (ds : List Directive) : Str := (dateFormats ds).flatten

theorem groups_append (ls ms : List Lexeme) : groups (ls ++ ms) = groups ls ++ groups ms :=
  List.flatMap_append

theorem groups_text (s : Str) : groups (s.map .chr) = [] := by
  induction s with
  | nil => rfl
  | cons c s ih => exact ih

/-- `init` collects the shared format. -/
theorem groups_lexemes (ds : List Directive) : groups (lexemes ds) = sharedFormat ds := by
  induction ds with
  | nil => rfl
  | cons d ds ih =>
      show groups (d.lexemes ++ lexemes ds) = (d.dateFormats ++ dateFormats ds).flatten
      rw [groups_append, List.flatten_append, ih]
      match d with
      | .text s =>
          rw [show Directive.lexemes (.text s) = s.map .chr from rfl, groups_text]
          rfl
      | .percent => rfl
      | .conv _ => rfl
      | .date => rfl
      | .dateFmt _ => rfl

/-- **A well-formed pattern prints the fields of its table, every date with the
shared format.** -/
theorem format_table (xx : FormatItem → FormatItem) (lib : Libc) (event : LogEvent)
    (hfile : event.getFile ≠ none) {ds : List Directive} (hds : WellFormed ds) :
    (LogFormatter.new xx (pattern ds)).format lib event
      = renderWith (tableField xx lib event) (fun _ => dateBuffer lib event (sharedFormat ds)) ds := by
  rw [← src_lexemes, format_new lib xx event hfile (lexed_lexemes ds hds), groups_lexemes]
  exact itemsText_lexemes xx lib event (sharedFormat ds) ds hds

/-- The copy under `srcs/` prints the documented meaning, every date with the shared
format. -/
theorem format_pattern (lib : Libc) (event : LogEvent) (hfile : event.getFile ≠ none)
    {ds : List Directive} (hds : WellFormed ds) :
    (LogFormatter.new xxSrcs (pattern ds)).format lib event
      = render event (fun _ => dateBuffer lib event (sharedFormat ds)) ds := by
  rw [format_table xxSrcs lib event hfile hds, renderWith_xxSrcs lib event _ hds]

/-- With one date the shared format is its own. -/
theorem sharedFormat_own {ds : List Directive} (hone : AtMostOneDate ds) {fmt : Str}
    (hfmt : fmt ∈ dateFormats ds) : sharedFormat ds = fmt := by
  unfold sharedFormat
  unfold AtMostOneDate at hone
  match hds : dateFormats ds with
  | [] => rw [hds] at hfmt; cases hfmt
  | [own] =>
      rw [hds] at hfmt
      rw [List.mem_singleton.mp hfmt]
      simp
  | _ :: _ :: _ => rw [hds] at hone; simp at hone

/-- **THE MEANING OF THE PATTERN LANGUAGE.**  A well-formed pattern with at most
one date prints exactly its documented meaning, the date being what `strftime`
writes for its own format; where the expansion fits the formatter's buffer that
is the complete expansion. -/
theorem format_meaning (lib : Libc) (event : LogEvent) (hfile : event.getFile ≠ none)
    (ds : List Directive) (hds : WellFormed ds) (hone : AtMostOneDate ds) :
    (LogFormatter.new xxSrcs (pattern ds)).format lib event
        = render event (dateBuffer lib event) ds ∧
      ((∀ fmt ∈ dateFormats ds, (dateExpansion lib event fmt).length < FormatItem.bufSize) →
        (LogFormatter.new xxSrcs (pattern ds)).format lib event
          = render event (dateExpansion lib event) ds) := by
  have hown : (LogFormatter.new xxSrcs (pattern ds)).format lib event
      = render event (dateBuffer lib event) ds := by
    rw [format_pattern lib event hfile hds]
    exact renderWith_dates (fun fmt hfmt => by rw [sharedFormat_own hone hfmt])
  refine ⟨hown, fun hfits => ?_⟩
  rw [hown]
  exact renderWith_dates (fun fmt hfmt => dateBuffer_fits lib event (hfits fmt hfmt))

/-! ## §6. A concrete library and event. -/

/-- `strftime` at the epoch, for the fields the default format uses. -/
def expandEpoch : Str → Str
  | '%' :: 'Y' :: fmt => "1970".toList ++ expandEpoch fmt
  | '%' :: 'm' :: fmt => "01".toList ++ expandEpoch fmt
  | '%' :: 'd' :: fmt => "01".toList ++ expandEpoch fmt
  | '%' :: 'H' :: fmt => "00".toList ++ expandEpoch fmt
  | '%' :: 'M' :: fmt => "00".toList ++ expandEpoch fmt
  | '%' :: 'S' :: fmt => "00".toList ++ expandEpoch fmt
  | c :: fmt => c :: expandEpoch fmt
  | [] => []

/-- The C library in UTC, as far as an event at the epoch sees it. -/
def epochLibc : Libc where
  Tm := Int64
  localtime_r time := time
  expansion fmt _ := expandEpoch fmt
  leftover _ _ := []

/-- An event at the epoch. -/
def sampleEvent : LogEvent where
  m_loggername := "root".toList
  m_level := .INFO
  m_filename := some "a.cpp".toList
  m_line := 7
  m_elapse := 12
  m_threadid := 3
  m_fiberid := 777
  m_time := 0
  m_threadname := "main".toList
  m_ss := "hello".toList

/-- A bare `%d` prints the default format. -/
theorem format_meaning_sample :
    (LogFormatter.new xxSrcs "%d %f:%l%T%m%%".toList).format epochLibc sampleEvent
      = "1970-01-01 00:00:00 a.cpp:7\thello%".toList :=
  (format_meaning epochLibc sampleEvent (by decide)
    [.date, .text [' '], .conv 'f', .text [':'], .conv 'l', .conv 'T', .conv 'm', .percent]
    (by decide) (by decide)).1.trans (by decide)

end SylarCot.Log
