/-
  SylarCot.Log.LogFormatter.LogFormatter
  ──────────────────────────────────────
  `LogFormatter`: its members, `init`, the constructor and `format`, in both
  versions of the source.

  The two copies of `logformatter.cpp` differ in one place, the macro `XX` that
  turns `itemtype.inl` into the conversion table: the copy under `srcs/` uses
  its argument `item`, the copy under `src/` (the one CMake compiles) ignores
  it.  `init` therefore takes what `XX` makes of `item` as a parameter, and the
  two copies are `xxSrcs` and `xxSrc`.

  Two calls are compared by `SameText`: where all dates fit, whatever the buffers
  of the two calls hold.
-/
import SylarCot.Log.LogFormatter.Scan
import SylarCot.Log.LogFormatter.FormatItem

namespace SylarCot.Log

/-! ## §1. The conversion table. -/

/-- `itemtype.inl`. -/
def itemtype : List (Str × FormatItem) :=
  [ (['m'], .MessageFormatItem),
    (['p'], .LevelFormatItem),
    (['c'], .NameFormatItem),
    (['d'], FormatItem.dateTime),
    (['r'], .ElapseFormatItem),
    (['f'], .FilenameFormatItem),
    (['l'], .LineFormatItem),
    (['t'], .ThreadIdFormatItem),
    (['F'], .FiberIdFormatItem),
    (['N'], .ThreadNameFormatItem),
    (['T'], .TabFormatItem),
    (['n'], .NewLineFormatItem) ]

/-- The item `XX(p, item)` creates, in `srcs/logformatter.cpp`. -/
def xxSrcs (item : FormatItem) : FormatItem := item

/-- The item `XX(p, item)` creates, in `src/logformatter.cpp`. -/
def xxSrc (_ : FormatItem) : FormatItem := .MessageFormatItem

/-- `sItemFuncs`. -/
def sItemFuncs (xx : FormatItem → FormatItem) : List (Str × FormatItem) :=
  itemtype.map fun (p, item) => (p, xx item)

/-! ## §2. `init` -/

/-- The line `init` prints to `std::cout` for an unknown conversion. -/
def unknownItemMessage (m_pattern second : Str) : Str :=
  "[ERROR] LogFormatter::init() ".toList ++ "pattern: [".toList ++ m_pattern ++ "] ".toList
    ++ "unknown format item: ".toList ++ second ++ ['\n']

/-- The item loop of `init`: the items pushed to `m_items`, and the text that
went to `std::cout`. -/
def itemLoop (xx : FormatItem → FormatItem) (m_pattern dateformat : Str) :
    List (Bool × Str) → List FormatItem → List FormatItem × Str
  | [], m_items => (m_items, [])
  | (first, second) :: ps, m_items =>
      -- p.first == 0: a normal string
      if first = false then
        itemLoop xx m_pattern dateformat ps (m_items ++ [.StringFormatItem second])
      -- a date never asks the table: it takes what the whole scan has collected
      else if second = ['d'] then
        itemLoop xx m_pattern dateformat ps (m_items ++ [.dateTime dateformat])
      else
        match (sItemFuncs xx).lookup second with
        -- it == sItemFuncs.end(): report and leave `init`; m_error stays false
        | none => (m_items, unknownItemMessage m_pattern second)
        | some item => itemLoop xx m_pattern dateformat ps (m_items ++ [item])

/-- `LogFormatter` -/
structure LogFormatter where
  m_pattern : Str
  m_items : List FormatItem := []
  m_error : Bool := false
  deriving Repr, DecidableEq

namespace LogFormatter

/-- `LogFormatter::init`: the object after the call, and what the call printed
to `std::cout`. -/
def init (xx : FormatItem → FormatItem) (f : LogFormatter) : LogFormatter × Str :=
  match scan f.m_pattern with
  | .finished s =>
      -- the text behind the last directive
      let s := s.flush
      let (m_items, out) := itemLoop xx f.m_pattern s.dateformat s.patterns f.m_items
      ({ f with m_items := m_items }, out)
  -- a `return` inside the scan comes before the item loop
  | .returned => (f, [])
  | .fault _ => (f, [])

/-- `LogFormatter::LogFormatter`. -/
def new (xx : FormatItem → FormatItem) (pattern : Str) : LogFormatter :=
  (init xx { m_pattern := pattern }).1

/-- `LogFormatter::isError`. -/
def isError (f : LogFormatter) : Bool := f.m_error

/-- `LogFormatter::format(ofs, event)`, on any stream but the event's own. -/
def formatTo (lib : Libc) (f : LogFormatter) (ofs : OStream) (event : LogEvent) : OStream :=
  formatAll lib ofs event f.m_items

/-- `LogFormatter::format(event->getSS(), event)`: the stream is the event's own, and an
item that asks for the content reads what the stream holds by then. -/
def formatOwn (lib : Libc) (f : LogFormatter) (os : OStream) (event : LogEvent) : OStream :=
  f.m_items.foldl (fun os i => i.format lib os { event with m_ss := os.text }) os

/-- `LogFormatter::format(event)`. -/
def format (lib : Libc) (f : LogFormatter) (event : LogEvent) : Str :=
  (f.formatTo lib {} event).text

/-! ## §3. The buffers of two calls. -/

/-- All dates of the formatter fit their buffers. -/
def DatesFit (lib : Libc) (event : LogEvent) (f : LogFormatter) : Prop :=
  ∀ i ∈ f.m_items, i.Fits lib event

instance (lib : Libc) (event : LogEvent) (f : LogFormatter) : Decidable (f.DatesFit lib event) :=
  inferInstanceAs (Decidable (∀ i ∈ f.m_items, i.Fits lib event))

theorem format_withLeftover {lib : Libc} {event : LogEvent} {f : LogFormatter}
    (h : f.DatesFit lib event) (leftover : Str → lib.Tm → Str) :
    f.format (lib.withLeftover leftover) event = f.format lib event :=
  congrArg OStream.text (formatAll_withLeftover h leftover {})

/-- The formatters print the same for the event.  Each call has a buffer of its own;
only where a date does not fit are the two compared on equal buffers. -/
def SameText (lib : Libc) (event : LogEvent) (f g : LogFormatter) : Prop :=
  ∀ leftover, leftover = lib.leftover ∨ f.DatesFit lib event →
    f.format lib event = g.format (lib.withLeftover leftover) event

theorem SameText.format_eq {lib : Libc} {event : LogEvent} {f g : LogFormatter}
    (h : SameText lib event f g) : f.format lib event = g.format lib event :=
  h lib.leftover (.inl rfl)

theorem sameText_of_eq {lib : Libc} {event : LogEvent} {f g : LogFormatter}
    (hformat : f.format lib event = g.format lib event)
    (hfit : f.DatesFit lib event → g.DatesFit lib event) : SameText lib event f g := by
  rintro leftover (rfl | h)
  · exact hformat
  · rw [hformat, format_withLeftover (hfit h)]

end LogFormatter

end SylarCot.Log
