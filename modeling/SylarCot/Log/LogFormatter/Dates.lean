/-
  SylarCot.Log.LogFormatter.Dates
  ───────────────────────────────
  **THE TEXT OF A DATE**.  `DateTimeFormatItem::format` expands its format into a
  buffer of 64 bytes and ignores whether `strftime` could: where the expansion does
  not fit, it prints whatever the buffer holds.

    • `dateItems_only` — a pattern with one date has one date item, with the text of
      its group as format, unless an error stops `init` before it;
    • `dateComplete_iff` — so the date is complete, whatever the buffer holds,
      exactly when its expansion fits.
-/
import SylarCot.Log.LogFormatter.Errors

namespace SylarCot.Log

/-! ## §1. Date items and date tokens. -/

/-- The item prints a date. -/
def FormatItem.isDate : FormatItem → Bool
  | .DateTimeFormatItem _ => true
  | _ => false

/-- What the dates of a formatter contribute to its output. -/
def dateText (lib : Libc) (event : LogEvent) (f : LogFormatter) : Str :=
  itemsText lib event (f.m_items.filter FormatItem.isDate)

def Lexeme.isDate : Lexeme → Bool
  | .date _ => true
  | _ => false

/-- The token of a date. -/
def isDateToken (p : Bool × Str) : Bool := p = (true, ['d'])

/-- The tables of both copies of the source map to items that print no date. -/
def PlainTable (xx : FormatItem → FormatItem) : Prop :=
  ∀ key ∈ itemtype.map Prod.fst, key ≠ ['d'] →
    ∀ item, (sItemFuncs xx).lookup key = some item → item.isDate = false

theorem plainTable_xxSrc : PlainTable xxSrc := by
  unfold PlainTable
  decide

theorem plainTable_xxSrcs : PlainTable xxSrcs := by
  unfold PlainTable
  decide

theorem countP_flushed (t : Tokens) :
    t.flushed.countP isDateToken = t.patterns.countP isDateToken := by
  unfold Tokens.flushed
  split
  · rw [List.countP_append]
    rfl
  · rfl

/-- The tokens carry the dates of the lexemes. -/
theorem countP_feed {rest : Str} : ∀ (ls : List Lexeme) (t : Tokens), Lexed rest ls →
    (ls.foldl Tokens.feed t).flushed.countP isDateToken
      = t.patterns.countP isDateToken + ls.countP Lexeme.isDate
  | [], t, _ => countP_flushed t
  | l :: ls, t, ⟨hok, _, hls⟩ => by
      show (ls.foldl Tokens.feed (t.feed l)).flushed.countP isDateToken = _
      rw [countP_feed ls (t.feed l) hls, List.countP_cons]
      by_cases hl : ∀ c, l ≠ .chr c
      · have htoken : isDateToken l.token = l.isDate := by
          cases l with
          | conv c =>
              have hd : c ≠ 'd' := hok.2
              simp [isDateToken, Lexeme.token, Lexeme.isDate, hd]
          | _ => rfl
        rw [(feed_token t hl).2, List.countP_append, countP_flushed, List.countP_singleton, htoken]
        omega
      · push Not at hl
        obtain ⟨c, rfl⟩ := hl
        rfl

/-- The item of a token that is neither a literal nor a date. -/
theorem tokenItem_conv (xx : FormatItem → FormatItem) (D : Str) {first : Bool} {second : Str}
    (h : ¬ (first = false ∨ second = ['d'])) :
    tokenItem xx D (first, second) = (sItemFuncs xx).lookup second := by
  rw [not_or] at h
  rw [tokenItem, if_neg h.1, if_neg h.2]

theorem tokenItem_plain (xx : FormatItem → FormatItem) (D : Str) {first : Bool} {second : Str}
    (h : first = false ∨ second = ['d']) : tokenItem xx D (first, second) ≠ none := by
  by_cases hfirst : first = false
  · rw [tokenItem, if_pos hfirst]
    exact Option.some_ne_none _
  · rw [tokenItem, if_neg hfirst, if_pos (h.resolve_left hfirst)]
    exact Option.some_ne_none _

/-- All tokens have items exactly when the table knows all their conversions. -/
theorem tokensKnown_iff (xx : FormatItem → FormatItem) (D : Str) (ps : List (Bool × Str)) :
    (∀ p ∈ ps, tokenItem xx D p ≠ none) ↔ ∀ key ∈ tokenConversions ps, inTable key = true := by
  unfold tokenConversions
  constructor
  · intro h key hkey
    obtain ⟨⟨first, second⟩, hp, heq⟩ := List.mem_filterMap.mp hkey
    have heq : (if first = false ∨ second = ['d'] then none else some second) = some key := heq
    by_cases hplain : first = false ∨ second = ['d']
    · rw [if_pos hplain] at heq
      cases heq
    · rw [if_neg hplain] at heq
      cases heq
      have hitem := h _ hp
      rw [tokenItem_conv xx D hplain, Ne, lookup_eq_none_iff] at hitem
      exact eq_true_of_ne_false hitem
  · intro h p hp
    obtain ⟨first, second⟩ := p
    by_cases hplain : first = false ∨ second = ['d']
    · exact tokenItem_plain xx D hplain
    · have hknown := h second (List.mem_filterMap.mpr ⟨(first, second), hp, if_neg hplain⟩)
      rw [tokenItem_conv xx D hplain, Ne, lookup_eq_none_iff, hknown]
      exact Bool.noConfusion

/-- Only the token of a date has a date item. -/
theorem isDate_tokenItem {xx : FormatItem → FormatItem} (hxx : PlainTable xx) {D : Str}
    {p : Bool × Str} {item : FormatItem} (hp : isDateToken p = false)
    (hitem : tokenItem xx D p = some item) : item.isDate = false := by
  obtain ⟨first, second⟩ := p
  by_cases hplain : first = false ∨ second = ['d']
  · have hfirst : first = false := by
      by_contra hfirst
      have hd := hplain.resolve_left hfirst
      simp [isDateToken, hd, hfirst] at hp
    simp only [tokenItem, if_pos hfirst, Option.some.injEq] at hitem
    rw [← hitem]
    rfl
  · rw [tokenItem_conv xx D hplain] at hitem
    have hknown : inTable second = true := by
      by_contra hunknown
      rw [(lookup_eq_none_iff xx second).mpr (Bool.eq_false_iff.mpr hunknown)] at hitem
      cases hitem
    rw [not_or] at hplain
    exact hxx second ((inTable_iff second).mp hknown) hplain.2 item hitem

/-- Tokens without a date install no date item. -/
theorem dateItems_nil {xx : FormatItem → FormatItem} (hxx : PlainTable xx) (D : Str) :
    ∀ ps : List (Bool × Str), ps.countP isDateToken = 0 →
      (installed (tokenItem xx D) ps).filter FormatItem.isDate = []
  | [], _ => rfl
  | p :: ps, h => by
      rw [List.countP_eq_zero] at h
      have ih := dateItems_nil hxx D ps
        (List.countP_eq_zero.mpr fun q hq => h q (List.mem_cons_of_mem p hq))
      cases hi : tokenItem xx D p with
      | none =>
          rw [installed_cons_none ps hi]
          rfl
      | some item =>
          have hp := Bool.eq_false_iff.mpr (h p List.mem_cons_self)
          rw [installed_cons_some ps hi,
              List.filter_cons_of_neg (Bool.eq_false_iff.mp (isDate_tokenItem hxx hp hi))]
          exact ih

/-- The pattern has one date, `%d{fmt}`: the lexemes before and behind it have none. -/
structure OnlyDate (p fmt : Str) (before behind : List Lexeme) (t : Str) : Prop where
  ending : t = [] ∨ Broken t
  lexed : Lexed t (before ++ .date (some fmt) :: behind)
  src_eq : src (before ++ .date (some fmt) :: behind) ++ t = p
  before_dates : before.countP Lexeme.isDate = 0
  behind_dates : behind.countP Lexeme.isDate = 0

/-- Nothing stops `init` in front of the date. -/
def Reached (before : List Lexeme) (t : Str) : Prop :=
  t = [] ∧ ∀ key ∈ conversions before, inTable key = true

theorem groups_noDate : ∀ ls : List Lexeme, ls.countP Lexeme.isDate = 0 → groups ls = []
  | [], _ => rfl
  | l :: ls, h => by
      rw [List.countP_cons] at h
      have ih := groups_noDate ls (by omega)
      cases l with
      | date _ => simp [Lexeme.isDate] at h
      | _ => exact ih

/-- The only group is collected as it is. -/
theorem groups_only {before behind : List Lexeme} (hbefore : before.countP Lexeme.isDate = 0)
    (hbehind : behind.countP Lexeme.isDate = 0) (fmt : Str) :
    groups (before ++ .date (some fmt) :: behind) = fmt := by
  rw [groups_append, groups_noDate before hbefore]
  show fmt ++ groups behind = fmt
  rw [groups_noDate behind hbehind, List.append_nil]

theorem Lexed.of_append {rest : Str} : ∀ {ls ms : List Lexeme}, Lexed rest (ls ++ ms) →
    Lexed (src ms ++ rest) ls
  | [], _, _ => trivial
  | l :: ls, ms, ⟨hok, hbefore, hls⟩ => by
      refine ⟨hok, ?_, Lexed.of_append hls⟩
      show Lexeme.Before (src ls ++ (src ms ++ rest)) l
      rw [← List.append_assoc, ← src_append]
      exact hbefore

/-- The tokens of a pattern with one date: the one of the date, and tokens before and
behind it that are no dates. -/
theorem tokens_only {before behind : List Lexeme} {fmt : Str}
    (hlexed : Lexed [] (before ++ .date (some fmt) :: behind))
    (hbefore : before.countP Lexeme.isDate = 0) (hbehind : behind.countP Lexeme.isDate = 0) :
    ∃ front ps, ((before ++ .date (some fmt) :: behind).foldl Tokens.feed {}).flushed
        = front ++ (true, ['d']) :: ps ∧
      tokenConversions front = conversions before ∧
      front.countP isDateToken = 0 ∧ ps.countP isDateToken = 0 := by
  have hfront := hlexed.of_append
  have hcount : (before.foldl Tokens.feed {}).flushed.countP isDateToken = 0 :=
    (countP_feed before {} hfront).trans ((Nat.zero_add _).trans hbefore)
  obtain ⟨ps, hps⟩ := feed_patterns behind
    ((before.foldl Tokens.feed {}).feed (.date (some fmt)))
  have hdate := (feed_token (before.foldl Tokens.feed {}) (l := .date (some fmt))
    (by intro c; exact Lexeme.noConfusion)).2
  have htokens : ((before ++ .date (some fmt) :: behind).foldl Tokens.feed {}).flushed
      = (before.foldl Tokens.feed {}).flushed ++ (true, ['d']) :: ps := by
    rw [List.foldl_append, List.foldl_cons, hps, hdate, List.append_assoc]
    rfl
  refine ⟨_, ps, htokens, tokenConversions_feed before {} hfront, hcount, ?_⟩
  -- the lexemes have one date, and so have the tokens
  have htotal := countP_feed _ {} hlexed
  have hone : (before ++ .date (some fmt) :: behind).countP Lexeme.isDate = 1 := by
    rw [List.countP_append, List.countP_cons, hbefore, hbehind]
    rfl
  have hempty : ({} : Tokens).patterns.countP isDateToken = 0 := rfl
  rw [htokens, hone, hempty, List.countP_append, hcount, List.countP_cons_of_pos rfl] at htotal
  omega

/-- The date items of tokens with one date. -/
theorem dateItems_tokens {xx : FormatItem → FormatItem} (hxx : PlainTable xx) (fmt : Str)
    {front ps : List (Bool × Str)} (hfront : front.countP isDateToken = 0)
    (hps : ps.countP isDateToken = 0) :
    ((∀ key ∈ tokenConversions front, inTable key = true) →
        (installed (tokenItem xx fmt) (front ++ (true, ['d']) :: ps)).filter FormatItem.isDate
          = [.dateTime fmt]) ∧
      ((¬ ∀ key ∈ tokenConversions front, inTable key = true) →
        (installed (tokenItem xx fmt) (front ++ (true, ['d']) :: ps)).filter FormatItem.isDate
          = []) := by
  rw [← tokensKnown_iff xx fmt]
  constructor
  · intro hknown
    have hdate : tokenItem xx fmt (true, ['d']) = some (.dateTime fmt) := rfl
    rw [installed_append_known hknown, List.filter_append, dateItems_nil hxx fmt front hfront,
        installed_cons_some ps hdate, List.nil_append, List.filter_cons_of_pos rfl,
        dateItems_nil hxx fmt ps hps]
  · intro hunknown
    push Not at hunknown
    rw [installed_append_unknown hunknown, dateItems_nil hxx fmt front hfront]

/-- **The date items of a pattern with one date**: one, with the date's own text, if
`init` gets that far. -/
theorem dateItems_only {xx : FormatItem → FormatItem} (hxx : PlainTable xx) {p fmt t : Str}
    {before behind : List Lexeme} (h : OnlyDate p fmt before behind t) :
    (Reached before t →
        (LogFormatter.new xx p).m_items.filter FormatItem.isDate = [.dateTime fmt]) ∧
      (¬ Reached before t → (LogFormatter.new xx p).m_items.filter FormatItem.isDate = []) := by
  obtain ⟨hending, hlexed, rfl, hbefore, hbehind⟩ := h
  rcases hending with rfl | hbroken
  · obtain ⟨front, ps, htokens, hconv, hfront, hps⟩ := tokens_only hlexed hbefore hbehind
    rw [List.append_nil, new_items xx hlexed, groups_only hbefore hbehind fmt, htokens]
    obtain ⟨hknown, hunknown⟩ := dateItems_tokens hxx fmt hfront hps
    rw [hconv] at hknown hunknown
    exact ⟨fun h => hknown h.2, fun h => hunknown fun hall => h ⟨rfl, hall⟩⟩
  · have hitems := new_broken xx hbroken hlexed
    have hnotReached : ¬ Reached before t := by
      intro h
      rw [h.1] at hbroken
      cases hbroken
    rw [hitems]
    exact ⟨fun h => absurd h hnotReached, fun _ => rfl⟩

theorem lexemesKnown (xx : FormatItem → FormatItem) (D : Str) {rest : Str} :
    ∀ ls : List Lexeme, Lexed rest ls → (∀ key ∈ conversions ls, inTable key = true) →
      ∀ l ∈ ls, lexemeItem xx D l ≠ none
  | [], _, _, l, hl => by cases hl
  | m :: ms, ⟨hok, _, hms⟩, hknown, l, hl => by
      rcases List.mem_cons.mp hl with rfl | hl
      · cases l with
        | conv c =>
            have hkey : inTable [c] = true := hknown [c] List.mem_cons_self
            rw [Ne, lexemeItem_conv xx D hok.2, hkey]
            exact Bool.noConfusion
        | _ => exact Option.some_ne_none _
      · have htail : ∀ key ∈ conversions ms, inTable key = true :=
          fun key hkey => hknown key (conversions_tail m ms hkey)
        exact lexemesKnown xx D ms hms htail l hl

/-- The date stands in the output between the texts of the lexemes in front of it
and behind it. -/
theorem format_dateText {xx : FormatItem → FormatItem} (hxx : PlainTable xx) {p fmt t : Str}
    {before behind : List Lexeme} (h : OnlyDate p fmt before behind t) (hreached : Reached before t)
    (lib : Libc) (event : LogEvent) (hfile : event.getFile ≠ none) :
    (LogFormatter.new xx p).format lib event
      = itemsText lib event (installed (lexemeItem xx fmt) before)
          ++ dateText lib event (LogFormatter.new xx p)
          ++ itemsText lib event (installed (lexemeItem xx fmt) behind) := by
  have hdate : dateText lib event (LogFormatter.new xx p)
      = FormatItem.text lib event (.dateTime fmt) := by
    unfold dateText
    rw [(dateItems_only hxx h).1 hreached]
    exact List.append_nil _
  obtain ⟨-, hlexed, hsrc, hbefore, hbehind⟩ := h
  obtain ⟨rfl, hknown⟩ := hreached
  have hD := groups_only hbefore hbehind fmt
  have hfront := lexemesKnown xx fmt before hlexed.of_append hknown
  rw [hdate, ← hsrc, List.append_nil, format_new lib xx event hfile hlexed, hD,
      installed_append_known hfront, itemsText_append, List.append_assoc,
      installed_cons_some (i := .dateTime fmt) behind rfl]
  rfl

/-! ## §2. Complete dates. -/

/-- Whatever the buffer holds, the dates of the pattern print the complete expansion
of `fmt`. -/
def DateComplete (xx : FormatItem → FormatItem) (p fmt : Str) (lib : Libc) (event : LogEvent) :
    Prop :=
  ∀ leftover, dateText (lib.withLeftover leftover) event (LogFormatter.new xx p)
    = lib.expansion (cStr fmt) (eventTm lib event)

/-- A buffer reads as the same text, whatever it held, exactly when the expansion
fits and is that text. -/
theorem strftime_eq_iff (lib : Libc) (max : Nat) (fmt : Str) (tm : lib.Tm) (target : Str) :
    (∀ leftover, (lib.withLeftover leftover).strftime max fmt tm = target)
      ↔ (lib.expansion (cStr fmt) tm).length < max ∧ lib.expansion (cStr fmt) tm = target := by
  unfold Libc.strftime Libc.withLeftover
  by_cases hfits : (lib.expansion (cStr fmt) tm).length + 1 ≤ max
  · simp only [hfits, ↓reduceIte, forall_const]
    exact ⟨fun h => ⟨hfits, h⟩, And.right⟩
  · simp only [hfits, ↓reduceIte]
    constructor
    · intro h
      -- some other text in the buffer
      exact absurd (h fun _ _ => 'x' :: target) (by simp)
    · intro h
      exact absurd h.1 hfits

/-- **A DATE IS COMPLETE** exactly when its expansion fits the buffer: 63 chars and
the zero byte.  An empty group means the default format; a date `init` does not
reach prints nothing. -/
theorem dateComplete_iff (lib : Libc) (event : LogEvent) {xx : FormatItem → FormatItem}
    (hxx : xx = xxSrc ∨ xx = xxSrcs) {p fmt t : Str} {before behind : List Lexeme}
    (h : OnlyDate p fmt before behind t) :
    DateComplete xx p fmt lib event ↔
      (Reached before t → (dateExpansion lib event fmt).length < FormatItem.bufSize ∧
        (fmt = [] → dateExpansion lib event [] = lib.expansion [] (eventTm lib event))) ∧
      (¬ Reached before t → lib.expansion (cStr fmt) (eventTm lib event) = []) := by
  have hplain : PlainTable xx := by
    rcases hxx with rfl | rfl
    · exact plainTable_xxSrc
    · exact plainTable_xxSrcs
  obtain ⟨hitem, hnone⟩ := dateItems_only hplain h
  unfold DateComplete dateText
  by_cases hreached : Reached before t
  · rw [hitem hreached]
    have htext : ∀ leftover, itemsText (lib.withLeftover leftover) event [.dateTime fmt]
        = (lib.withLeftover leftover).strftime FormatItem.bufSize (headerFormat fmt)
            (eventTm lib event) := fun leftover =>
      (List.append_nil _).trans (text_dateTime (lib.withLeftover leftover) event fmt)
    simp only [htext]
    rw [strftime_eq_iff]
    simp only [hreached, not_true_eq_false, forall_const, false_implies, and_true]
    show (dateExpansion lib event fmt).length < _ ∧ dateExpansion lib event fmt = _ ↔ _
    by_cases hfmt : fmt = []
    · subst hfmt
      simp only [forall_const]
      rfl
    · have hown : dateExpansion lib event fmt = lib.expansion (cStr fmt) (eventTm lib event) := by
        unfold dateExpansion
        rw [← dateTimeFormat_eq, dateTimeFormat, if_neg hfmt]
      simp only [hown, hfmt, and_true, false_implies]
  · rw [hnone hreached]
    simp only [hreached, not_false_eq_true, forall_const, false_implies, true_and]
    exact ⟨fun h => (h lib.leftover).symm, fun h _ => h.symm⟩

/-- The date of "%m %d{%Y}" is complete. -/
theorem dateComplete_iff_year :
    DateComplete xxSrc "%m %d{%Y}".toList "%Y".toList epochLibc sampleEvent := by
  have hdate : OnlyDate "%m %d{%Y}".toList "%Y".toList [.conv 'm', .chr ' '] [] [] := by
    refine ⟨.inl rfl, ?_, rfl, rfl, rfl⟩
    simp [Lexed, Lexeme.Ok, Lexeme.Before]
  refine (dateComplete_iff epochLibc sampleEvent (.inl rfl) hdate).mpr ⟨fun _ => ?_, fun h => ?_⟩
  · exact ⟨by decide, fun h => by cases h⟩
  · exact absurd ⟨rfl, by decide⟩ h

/-- A date of 64 chars prints what the buffer held. -/
theorem long_date_is_lost :
    (LogFormatter.new xxSrc ("%d\x7b".toList ++ List.replicate 64 'x' ++ ['}'])).format
        (epochLibc.withLeftover fun _ _ => "garbage".toList) sampleEvent = "garbage".toList ∧
      ¬ DateComplete xxSrc ("%d\x7b".toList ++ List.replicate 64 'x' ++ ['}'])
        (List.replicate 64 'x') epochLibc sampleEvent := by
  refine ⟨by decide +kernel, fun h => ?_⟩
  have hgarbage := h fun _ _ => "garbage".toList
  revert hgarbage
  decide +kernel

end SylarCot.Log
