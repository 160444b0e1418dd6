/-
  SylarCot.Log.LogFormatter.FormatItem
  ────────────────────────────────────
  The format items of `logformatter.cpp` and what each of them writes.

  The C library's date functions are a parameter (`Libc`).  `localtime_r` is
  what `tm` holds after the call, `expansion` the complete `strftime` expansion
  of a format, `leftover` whatever the caller's buffer reads as when `strftime`
  gives up because the expansion does not fit.  Every call has a buffer of its
  own: statements about two calls give the second one another `leftover`.

    • `FormatItem.format_isPlain` — on a plain stream every item appends its
      `text` and leaves a plain stream, provided a `FilenameFormatItem` is not
      handed a null file name;
    • `formatAll_isPlain` — the same for a whole item list;
    • `FormatItem.format_withLeftover` — where its date fits, an item does not
      depend on what the buffer holds.
-/
import SylarCot.Log.LogEvent

namespace SylarCot.Log

/-! ## §1. The C library's date functions. -/

/-- `localtime_r` and `strftime`. -/
structure Libc where
  /-- `struct tm` -/
  Tm : Type
  localtime_r : Int64 → Tm
  expansion : Str → Tm → Str
  leftover : Str → Tm → Str

/-- A `const char*` into a `std::string` is read up to the first zero byte. -/
def cStr (s : Str) : Str := s.takeWhile (· ≠ '\x00')

/-- What `buf` reads as after `strftime(buf, max, fmt, tm)`. -/
def Libc.strftime (lib : Libc) (max : Nat) (fmt : Str) (tm : lib.Tm) : Str :=
  let e := lib.expansion (cStr fmt) tm
  if e.length + 1 ≤ max then e else lib.leftover (cStr fmt) tm

theorem Libc.strftime_fits (lib : Libc) (max : Nat) (fmt : Str) (tm : lib.Tm)
    (h : (lib.expansion (cStr fmt) tm).length < max) :
    lib.strftime max fmt tm = lib.expansion (cStr fmt) tm := by
  unfold Libc.strftime
  exact if_pos h

/-- The same library, with other contents of the buffer where `strftime` gives up. -/
def Libc.withLeftover (lib : Libc) (leftover : Str → lib.Tm → Str) : Libc :=
  { lib with leftover := leftover }

/-! ## §2. The items. -/

/-- The format item classes, with the members of those that have any. -/
inductive FormatItem where
  | MessageFormatItem
  | LevelFormatItem
  | ElapseFormatItem
  | NameFormatItem
  | ThreadIdFormatItem
  | FiberIdFormatItem
  | ThreadNameFormatItem
  | DateTimeFormatItem (m_format : Str)
  | NewLineFormatItem
  | FilenameFormatItem
  | LineFormatItem
  | TabFormatItem
  | StringFormatItem (m_string : Str)
  | PercentSignFormatItem
  deriving Repr, DecidableEq

/-- The default date format. -/
def defaultDateFormat : Str := "%Y-%m-%d %H:%M:%S".toList

/-- The format `DateTimeFormatItem`'s constructor settles on. -/
def dateTimeFormat (dateformat : Str) : Str :=
  if dateformat = [] then defaultDateFormat else dateformat

namespace FormatItem

/-- `DateTimeFormatItem::DateTimeFormatItem`. -/
def dateTime (dateformat : Str := defaultDateFormat) : FormatItem :=
  .DateTimeFormatItem (dateTimeFormat dateformat)

/-- `sizeof(buf)` in `DateTimeFormatItem::format`. -/
def bufSize : Nat := 64

/-- `format(os, event)` of each item class. -/
def format (lib : Libc) (os : OStream) (event : LogEvent) : FormatItem → OStream
  | .MessageFormatItem => os.putStr event.getContent
  | .LevelFormatItem => os.putStr event.getLevel.toString
  | .ElapseFormatItem => os.putUnsigned event.getElapse
  | .NameFormatItem => os.putStr event.getLoggerName
  | .ThreadIdFormatItem => os.putUnsigned event.getThreadId
  | .FiberIdFormatItem => os.putUnsigned event.getFiberId
  | .ThreadNameFormatItem => os.putStr event.getThreadName
  | .DateTimeFormatItem m_format =>
      let tm := lib.localtime_r event.getTime.toInt64
      os.putStr (lib.strftime bufSize m_format tm)
  | .NewLineFormatItem => os.putStr ['\n']
  | .FilenameFormatItem => os.putCStr event.getFile
  | .LineFormatItem => os.putInt event.getLine
  | .TabFormatItem => os.putStr ['\t']
  | .StringFormatItem m_string => os.putStr m_string
  | .PercentSignFormatItem => os.putStr ['%']

/-- What an item contributes to a plain stream. -/
def text (lib : Libc) (event : LogEvent) : FormatItem → Str
  | .MessageFormatItem => event.getContent
  | .LevelFormatItem => event.getLevel.toString
  | .ElapseFormatItem => natText event.getElapse.toNat
  | .NameFormatItem => event.getLoggerName
  | .ThreadIdFormatItem => natText event.getThreadId.toNat
  | .FiberIdFormatItem => natText event.getFiberId.toNat
  | .ThreadNameFormatItem => event.getThreadName
  | .DateTimeFormatItem m_format =>
      lib.strftime bufSize m_format (lib.localtime_r event.getTime.toInt64)
  | .NewLineFormatItem => ['\n']
  | .FilenameFormatItem => event.getFile.getD []
  | .LineFormatItem => intText event.getLine.toInt
  | .TabFormatItem => ['\t']
  | .StringFormatItem m_string => m_string
  | .PercentSignFormatItem => ['%']

/-- **On a plain stream an item appends its text.** -/
theorem format_isPlain (lib : Libc) {os : OStream} (event : LogEvent)
    (item : FormatItem) (hos : os.IsPlain)
    (hfile : item = .FilenameFormatItem → event.getFile ≠ none) :
    item.format lib os event = os.append (item.text lib event) := by
  cases item with
  | ElapseFormatItem => exact hos.putUnsigned _
  | ThreadIdFormatItem => exact hos.putUnsigned _
  | FiberIdFormatItem => exact hos.putUnsigned _
  | LineFormatItem => exact hos.putInt _
  | FilenameFormatItem =>
      obtain ⟨f, hf⟩ := Option.ne_none_iff_exists'.mp (hfile rfl)
      simp only [format, text, hf, OStream.putCStr, Option.getD_some]
      exact hos.putStr f
  | _ => exact hos.putStr _

/-- The date of the item fits the buffer; the other items have no date. -/
def Fits (lib : Libc) (event : LogEvent) : FormatItem → Prop
  | .DateTimeFormatItem m_format =>
      (lib.expansion (cStr m_format) (lib.localtime_r event.getTime.toInt64)).length < bufSize
  | _ => True

instance (lib : Libc) (event : LogEvent) : ∀ item : FormatItem, Decidable (item.Fits lib event)
  | .DateTimeFormatItem _ => inferInstanceAs (Decidable (_ < _))
  | .MessageFormatItem | .LevelFormatItem | .ElapseFormatItem | .NameFormatItem
  | .ThreadIdFormatItem | .FiberIdFormatItem | .ThreadNameFormatItem | .NewLineFormatItem
  | .FilenameFormatItem | .LineFormatItem | .TabFormatItem | .StringFormatItem _
  | .PercentSignFormatItem => .isTrue trivial

/-- **A date that fits does not depend on the buffer.** -/
theorem format_withLeftover {lib : Libc} {event : LogEvent} {item : FormatItem}
    (h : item.Fits lib event) (leftover : Str → lib.Tm → Str) (os : OStream) :
    item.format (lib.withLeftover leftover) os event = item.format lib os event := by
  cases item with
  | DateTimeFormatItem m_format =>
      have hown := lib.strftime_fits bufSize m_format _ h
      have hother := (lib.withLeftover leftover).strftime_fits bufSize m_format _ h
      exact congrArg os.putStr (hother.trans hown.symm)
  | _ => rfl

/-- A date that does not fit prints what the buffer holds. -/
theorem text_leftover {lib : Libc} {event : LogEvent} {item : FormatItem}
    (h : ¬ item.Fits lib event) (s : Str) :
    item.text (lib.withLeftover fun _ _ => s) event = s := by
  cases item with
  | DateTimeFormatItem m_format => exact if_neg h
  | _ => exact absurd trivial h

end FormatItem

/-! ## §3. Item lists. -/

/-- The loop of both `LogFormatter::format` overloads. -/
def formatAll (lib : Libc) (os : OStream) (event : LogEvent) (m_items : List FormatItem) :
    OStream :=
  m_items.foldl (fun os i => i.format lib os event) os

/-- The texts of an item list, one after the other. -/
def itemsText (lib : Libc) (event : LogEvent) (items : List FormatItem) : Str :=
  items.flatMap (FormatItem.text lib event)

theorem itemsText_append (lib : Libc) (event : LogEvent) (is js : List FormatItem) :
    itemsText lib event (is ++ js) = itemsText lib event is ++ itemsText lib event js :=
  List.flatMap_append

/-- **Where all dates fit, the buffer plays no part.** -/
theorem formatAll_withLeftover {lib : Libc} {event : LogEvent} {items : List FormatItem}
    (h : ∀ i ∈ items, i.Fits lib event) (leftover : Str → lib.Tm → Str) :
    ∀ os : OStream, formatAll (lib.withLeftover leftover) os event items
      = formatAll lib os event items := by
  induction items with
  | nil =>
      intro os
      rfl
  | cons i items ih =>
      intro os
      show formatAll (lib.withLeftover leftover) (i.format (lib.withLeftover leftover) os event)
        event items = formatAll lib (i.format lib os event) event items
      rw [FormatItem.format_withLeftover (h i List.mem_cons_self),
          ih fun j hj => h j (List.mem_cons_of_mem i hj)]

/-- Under every buffer the texts stay short only if all dates fit. -/
theorem fits_of_bounded {lib : Libc} {event : LogEvent} {items : List FormatItem} {n : Nat}
    (h : ∀ leftover, (itemsText (lib.withLeftover leftover) event items).length ≤ n) :
    ∀ i ∈ items, i.Fits lib event := by
  intro i hi
  by_contra hfits
  -- a buffer that holds more than `n` chars
  have htext := FormatItem.text_leftover hfits (List.replicate (n + 1) 'x')
  have hlong := h fun _ _ => List.replicate (n + 1) 'x'
  generalize (lib.withLeftover fun _ _ => List.replicate (n + 1) 'x') = full at htext hlong
  have hitem : (i.text full event).length ≤ (itemsText full event items).length :=
    (List.sublist_flatten_of_mem (List.mem_map_of_mem hi)).length_le
  rw [htext, List.length_replicate] at hitem
  omega

/-- **On a plain stream an item list appends its texts in order.** -/
theorem formatAll_isPlain (lib : Libc) (event : LogEvent) (items : List FormatItem)
    (hfile : .FilenameFormatItem ∈ items → event.getFile ≠ none) :
    ∀ os : OStream, os.IsPlain →
      formatAll lib os event items = os.append (itemsText lib event items) := by
  induction items with
  | nil =>
      intro os _
      simp [formatAll, itemsText, OStream.append]
  | cons i items ih =>
      intro os hos
      have hi : i.format lib os event = os.append (i.text lib event) :=
        i.format_isPlain lib event hos (fun h => hfile (by simp [h]))
      show formatAll lib (i.format lib os event) event items = _
      rw [hi, ih (fun h => hfile (List.mem_cons_of_mem i h)) _ (hos.append _),
          OStream.append_append]
      rfl

end SylarCot.Log
