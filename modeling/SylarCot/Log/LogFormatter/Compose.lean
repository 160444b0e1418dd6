/-
  SylarCot.Log.LogFormatter.Compose
  ─────────────────────────────────
  **WHEN PATTERNS COMPOSE.**

  `init` collects the groups of all dates in one `dateformat` and creates the
  date items after the scan, so a date prints with the formats of its
  neighbours.  Everything else a pattern prints composes:

    • `WellFormed.append` — well-formed patterns compose as patterns;
    • `composes_iff` — in both copies of the source, their outputs compose for every
      library and every event with a file name exactly when the dates of each part
      keep their format, and a pattern's dates all print by their own format exactly
      when all formats mean the same `strftime` call;
    • `dates_do_not_compose` — `%d{%Y}` and `%d{%m}` do not compose.
-/
import SylarCot.Log.LogFormatter.Meaning

namespace SylarCot.Log

/-! ## §1. Well-formed patterns compose. -/

/-- The two patterns may stand next to each other: a bare `%d` at the end of the
first does not meet a '{' at the start of the second. -/
def Joinable (P Q : List Directive) : Prop :=
  EndsInDate (lexemes P) → (pattern Q).head? ≠ some '{'

theorem lexemes_cons (d : Directive) (ds : List Directive) :
    lexemes (d :: ds) = d.lexemes ++ lexemes ds := rfl

theorem Joinable.tail {d : Directive} {P Q : List Directive} (h : Joinable (d :: P) Q) :
    Joinable P Q := by
  intro hends
  apply h
  unfold EndsInDate at hends ⊢
  rw [lexemes_cons, List.getLast?_append, hends]
  rfl

/-- **Well-formed patterns compose as patterns.** -/
theorem WellFormed.append {Q : List Directive} (hQ : WellFormed Q) :
    ∀ P : List Directive, WellFormed P → Joinable P Q → WellFormed (P ++ Q)
  | [], _, _ => hQ
  | d :: P, ⟨hok, hbefore, hP⟩, hjoin => by
      refine ⟨hok, ?_, hQ.append P hP hjoin.tail⟩
      show d.Before (pattern (P ++ Q))
      rw [pattern_append]
      rintro rfl
      cases hsrc : pattern P with
      | cons c s =>
          have := hbefore rfl
          rw [hsrc] at this
          exact this
      | nil =>
          -- nothing is written between the bare date and `Q`
          apply hjoin
          have hnil : lexemes P = [] := src_eq_nil ((src_lexemes P).trans hsrc)
          unfold EndsInDate
          rw [lexemes_cons, hnil]
          rfl

/-! ## §2. The lengths of the date texts. -/

/-- The dates add their texts to what the rest of a pattern prints. -/
theorem length_renderWith (field : Char → Str) (dateText : Str → Str) (ds : List Directive) :
    (renderWith field dateText ds).length
      = (renderWith field (fun _ => []) ds).length + ((dateFormats ds).flatMap dateText).length := by
  induction ds with
  | nil => rfl
  | cons d ds ih =>
      have hd : (d.renderWith field dateText).length
          = (d.renderWith field (fun _ => [])).length + (d.dateFormats.flatMap dateText).length := by
        cases d <;> simp [Directive.renderWith, Directive.dateFormats]
      simp only [renderWith, dateFormats, List.flatMap_cons, List.flatMap_append,
        List.length_append] at ih ⊢
      omega

/-! ## §3. Which formats mean the same. -/

/-- The two date formats make the same `strftime` call. -/
def SameDate (fmt fmt' : Str) : Prop := cStr (headerFormat fmt) = cStr (headerFormat fmt')

instance (fmt fmt' : Str) : Decidable (SameDate fmt fmt') :=
  inferInstanceAs (Decidable (cStr (headerFormat fmt) = cStr (headerFormat fmt')))

theorem SameDate.dateBuffer {fmt fmt' : Str} (h : SameDate fmt fmt') (lib : Libc)
    (event : LogEvent) : dateBuffer lib event fmt = dateBuffer lib event fmt' := by
  unfold SylarCot.Log.dateBuffer Libc.strftime
  rw [show cStr (headerFormat fmt) = cStr (headerFormat fmt') from h]

/-- A library that prints nothing for one format and a char for every other. -/
def markLibc (marked : Str) : Libc where
  Tm := Int64
  localtime_r time := time
  expansion fmt _ := if fmt = cStr (headerFormat marked) then [] else ['x']
  leftover _ _ := []

theorem dateBuffer_markLibc (marked fmt : Str) (event : LogEvent) :
    dateBuffer (markLibc marked) event fmt = if SameDate fmt marked then [] else ['x'] := by
  by_cases h : SameDate fmt marked
  · have hexpansion : ∀ tm, (markLibc marked).expansion (cStr (headerFormat fmt)) tm = [] :=
      fun _ => if_pos h
    rw [if_pos h, dateBuffer, Libc.strftime_fits _ _ _ _ (by rw [hexpansion]; decide),
        hexpansion]
  · have hexpansion : ∀ tm, (markLibc marked).expansion (cStr (headerFormat fmt)) tm = ['x'] :=
      fun _ => if_neg h
    rw [if_neg h, dateBuffer, Libc.strftime_fits _ _ _ _ (by rw [hexpansion]; decide),
        hexpansion]

/-- The marking library prints no date in the marked format. -/
theorem renderWith_marked (field : Char → Str) (marked : Str) (event : LogEvent)
    (ds : List Directive) :
    renderWith field (fun _ => dateBuffer (markLibc marked) event marked) ds
      = renderWith field (fun _ => []) ds := by
  rw [dateBuffer_markLibc, if_pos (show SameDate marked marked from rfl)]

/-- In any other format it prints something for every date. -/
theorem renderWith_unmarked (field : Char → Str) {marked fmt : Str} (h : ¬ SameDate fmt marked)
    (event : LogEvent) {ds : List Directive} (hds : dateFormats ds ≠ []) :
    (renderWith field (fun _ => []) ds).length
      < (renderWith field (fun _ => dateBuffer (markLibc marked) event fmt) ds).length := by
  rw [dateBuffer_markLibc, if_neg h, length_renderWith field (fun _ => ['x'])]
  obtain ⟨own, owns, hcons⟩ := List.exists_cons_of_ne_nil hds
  rw [hcons, List.flatMap_cons, List.length_append, List.length_singleton]
  omega

/-- And it never prints less than nothing. -/
theorem renderWith_le (field : Char → Str) (dateText : Str → Str) (ds : List Directive) :
    (renderWith field (fun _ => []) ds).length ≤ (renderWith field dateText ds).length := by
  rw [length_renderWith field dateText]
  omega

/-! ## §4. The exact conditions. -/

section Conditions

variable (xx : FormatItem → FormatItem)

/-- The formatter of the two patterns in a row prints what the formatters of the
patterns print, for every library and every event with a file name: each call with a
buffer of its own where the dates fit, and on equal buffers where they do not. -/
def Composes (P Q : List Directive) : Prop :=
  ∀ (lib : Libc) (event : LogEvent) (bufP bufQ : Str → lib.Tm → Str), event.getFile ≠ none →
    (bufP = lib.leftover ∧ bufQ = lib.leftover) ∨
        (LogFormatter.new xx (pattern P ++ pattern Q)).DatesFit lib event →
      (LogFormatter.new xx (pattern P ++ pattern Q)).format lib event
        = (LogFormatter.new xx (pattern P)).format (lib.withLeftover bufP) event
            ++ (LogFormatter.new xx (pattern Q)).format (lib.withLeftover bufQ) event

/-- Every date of the pattern prints by its own format. -/
def PrintsOwnDates (ds : List Directive) : Prop :=
  ∀ (lib : Libc) (event : LogEvent), event.getFile ≠ none →
    (LogFormatter.new xx (pattern ds)).format lib event
      = renderWith (tableField xx lib event) (dateBuffer lib event) ds

/-- The dates of both parts mean the same in the composition. -/
def DatesCompose (P Q : List Directive) : Prop :=
  (dateFormats P ≠ [] → SameDate (sharedFormat P) (sharedFormat (P ++ Q))) ∧
    (dateFormats Q ≠ [] → SameDate (sharedFormat Q) (sharedFormat (P ++ Q)))

/-- All dates of the pattern mean the same. -/
def DatesAgree (ds : List Directive) : Prop :=
  ∀ fmt ∈ dateFormats ds, SameDate fmt (sharedFormat ds)

/-- The output of a pattern with its dates printed by another format of the same
meaning. -/
theorem renderWith_sameDate (field : Char → Str) (lib : Libc) (event : LogEvent)
    {ds : List Directive} {fmt fmt' : Str} (h : dateFormats ds ≠ [] → SameDate fmt fmt') :
    renderWith field (fun _ => dateBuffer lib event fmt) ds
      = renderWith field (fun _ => dateBuffer lib event fmt') ds :=
  renderWith_dates (fun _ hmem => (h (List.ne_nil_of_mem hmem)).dateBuffer lib event)

variable {xx} {P Q : List Directive} (hP : WellFormed P) (hQ : WellFormed Q)
  (hjoin : Joinable P Q)

include hP hQ hjoin

/-- On equal buffers the outputs compose. -/
theorem format_append (h : DatesCompose P Q) (lib : Libc) {event : LogEvent}
    (hfile : event.getFile ≠ none) :
    (LogFormatter.new xx (pattern P ++ pattern Q)).format lib event
      = (LogFormatter.new xx (pattern P)).format lib event
          ++ (LogFormatter.new xx (pattern Q)).format lib event := by
  rw [← pattern_append, format_table xx lib event hfile (hQ.append P hP hjoin),
      format_table xx lib event hfile hP, format_table xx lib event hfile hQ, renderWith_append,
      renderWith_sameDate _ lib event h.1, renderWith_sameDate _ lib event h.2]

/-- Where the dates of the composition fit, so do those of its parts. -/
theorem datesFit_of_append (h : DatesCompose P Q) {lib : Libc} {event : LogEvent}
    (hfile : event.getFile ≠ none)
    (hfits : (LogFormatter.new xx (pattern P ++ pattern Q)).DatesFit lib event) :
    (LogFormatter.new xx (pattern P)).DatesFit lib event ∧
      (LogFormatter.new xx (pattern Q)).DatesFit lib event := by
  -- whatever the buffer holds, the parts print no more than the composition
  have hlength : ∀ buf, ((LogFormatter.new xx (pattern P ++ pattern Q)).format lib event).length
      = (itemsText (lib.withLeftover buf) event (LogFormatter.new xx (pattern P)).m_items).length
        + (itemsText (lib.withLeftover buf) event
            (LogFormatter.new xx (pattern Q)).m_items).length := by
    intro buf
    rw [← LogFormatter.format_withLeftover hfits buf, format_append hP hQ hjoin h _ hfile,
        List.length_append, format_eq_itemsText _ _ event hfile,
        format_eq_itemsText _ _ event hfile]
  constructor
  · exact fits_of_bounded fun buf => (hlength buf).symm ▸ Nat.le_add_right _ _
  · exact fits_of_bounded fun buf => (hlength buf).symm ▸ Nat.le_add_left _ _

theorem composes_of_datesCompose (h : DatesCompose P Q) : Composes xx P Q := by
  intro lib event bufP bufQ hfile hbuf
  rcases hbuf with ⟨rfl, rfl⟩ | hfits
  · exact format_append hP hQ hjoin h lib hfile
  · obtain ⟨hfitsP, hfitsQ⟩ := datesFit_of_append hP hQ hjoin h hfile hfits
    rw [LogFormatter.format_withLeftover hfitsP, LogFormatter.format_withLeftover hfitsQ]
    exact format_append hP hQ hjoin h lib hfile

/-- Where a date of a part changes its meaning, the marking library sees it. -/
theorem datesCompose_of_composes (h : Composes xx P Q) : DatesCompose P Q := by
  have hfile : sampleEvent.getFile ≠ none := by decide
  obtain ⟨lib, hlib⟩ : ∃ lib, lib = markLibc (sharedFormat (P ++ Q)) := ⟨_, rfl⟩
  have heq := congrArg List.length (h lib sampleEvent lib.leftover lib.leftover hfile
    (.inl ⟨rfl, rfl⟩))
  change _ = ((LogFormatter.new xx (pattern P)).format lib sampleEvent
    ++ (LogFormatter.new xx (pattern Q)).format lib sampleEvent).length at heq
  rw [← pattern_append, format_table xx lib _ hfile (hQ.append P hP hjoin),
      format_table xx lib _ hfile hP, format_table xx lib _ hfile hQ] at heq
  generalize tableField xx lib sampleEvent = field at heq
  subst hlib
  rw [renderWith_marked, renderWith_append, List.length_append, List.length_append] at heq
  -- neither part can print more than the composition leaves for it
  have hleP := renderWith_le field
    (fun _ => dateBuffer (markLibc (sharedFormat (P ++ Q))) sampleEvent (sharedFormat P)) P
  have hleQ := renderWith_le field
    (fun _ => dateBuffer (markLibc (sharedFormat (P ++ Q))) sampleEvent (sharedFormat Q)) Q
  constructor
  · intro hdates
    by_contra hsame
    have hlt := renderWith_unmarked field hsame sampleEvent hdates
    omega
  · intro hdates
    by_contra hsame
    have hlt := renderWith_unmarked field hsame sampleEvent hdates
    omega

omit hP hQ hjoin in
theorem printsOwnDates_iff {ds : List Directive} (hds : WellFormed ds) :
    PrintsOwnDates xx ds ↔ DatesAgree ds := by
  constructor
  · intro h fmt hfmt
    have hfile : sampleEvent.getFile ≠ none := by decide
    have heq := congrArg List.length (h (markLibc (sharedFormat ds)) sampleEvent hfile)
    rw [format_table xx _ _ hfile hds, renderWith_marked,
        length_renderWith _ (dateBuffer _ _)] at heq
    -- the own formats print nothing either, so each is the marked one
    have hnil : (dateFormats ds).flatMap (dateBuffer (markLibc (sharedFormat ds)) sampleEvent)
        = [] := by
      apply List.eq_nil_of_length_eq_zero
      omega
    have hown := List.flatMap_eq_nil_iff.mp hnil fmt hfmt
    rw [dateBuffer_markLibc] at hown
    by_contra hsame
    rw [if_neg hsame] at hown
    cases hown
  · intro h lib event hfile
    rw [format_table xx lib event hfile hds]
    exact renderWith_dates (fun fmt hfmt => ((h fmt hfmt).dateBuffer lib event).symm)

end Conditions

/-- **PATTERNS COMPOSE EXACTLY WHEN** the dates of both parts mean the same in
the composition; the dates of a pattern print by their own formats exactly when
all of them mean the same.  Both hold for any conversion table. -/
theorem composes_iff (xx : FormatItem → FormatItem) (P Q : List Directive) (hP : WellFormed P)
    (hQ : WellFormed Q) (hjoin : Joinable P Q) :
    (Composes xx P Q ↔ DatesCompose P Q) ∧ (PrintsOwnDates xx P ↔ DatesAgree P) :=
  ⟨⟨datesCompose_of_composes hP hQ hjoin, composes_of_datesCompose hP hQ hjoin⟩,
    printsOwnDates_iff hP⟩

theorem composes_iff_sample :
    Composes xxSrcs [.dateFmt "%Y".toList] [.text "{}".toList] ∧
      PrintsOwnDates xxSrc [.date, .conv 'm', .date] :=
  ⟨(composes_iff xxSrcs _ _ (by decide) (by decide) (by intro h; cases h)).1.mpr
      ⟨fun _ => by decide, fun h => absurd rfl h⟩,
    (composes_iff xxSrc _ [] (by decide) (by decide) (by intro _ h; cases h)).2.mpr
      (by unfold DatesAgree; decide)⟩

/-- In `%d{%Y}%d{%m}` both dates print year and month, in either copy. -/
theorem dates_do_not_compose :
    (¬ ∀ P Q : List Directive, WellFormed P → WellFormed Q → Joinable P Q →
        Composes xxSrcs P Q) ∧
      ¬ ∀ P Q : List Directive, WellFormed P → WellFormed Q → Joinable P Q →
        Composes xxSrc P Q := by
  constructor
  all_goals
    intro h
    have heq := h [.dateFmt "%Y".toList] [.dateFmt "%m".toList] (by decide) (by decide)
      (by intro h; cases h) epochLibc sampleEvent _ _ (by decide) (.inl ⟨rfl, rfl⟩)
    revert heq
    decide

end SylarCot.Log
