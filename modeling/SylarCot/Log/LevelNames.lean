/-
  SylarCot.Log.LevelNames
  ───────────────────────
  **LEVELS BY NAME**: what `logger.setLevel(LogLevel::fromString(s))` does to the
  events of a run.

  The table of `fromString` gives most names another level than their own, and
  lists three of them twice, so that the second entry is never reached.

    • `configured_sinks` — the events that come through are those the level
      `fromString` gives lets through, in order;
    • `fromString_eq_iff` — for which strings that is the level they name;
    • `configuredByName_iff` — so exactly these configure a logger as they say,
      and a less severe name lets no fewer events through in few cases only.
-/
import SylarCot.Log.Delivery
import SylarCot.Log.LogFormatter.Meaning
import Mathlib.Data.List.Flatten

namespace SylarCot.Log

/-! ## §1. Names. -/

namespace Level

/-- The enumerator's name. -/
def name : Level → Str
  | .FATAL => "FATAL".toList
  | .ALERT => "ALERT".toList
  | .CRIT => "CRIT".toList
  | .ERROR => "ERROR".toList
  | .WARN => "WARN".toList
  | .NOTICE => "NOTICE".toList
  | .INFO => "INFO".toList
  | .DEBUG => "DEBUG".toList
  | .NOTSET => "NOTSET".toList

/-- All enumerators. -/
def all : List Level := [.FATAL, .ALERT, .CRIT, .ERROR, .WARN, .NOTICE, .INFO, .DEBUG, .NOTSET]

/-- The string is the level's name, all upper or all lower case. -/
def Named (s : Str) (level : Level) : Prop := s = level.name ∨ s = level.name.map Char.toLower

instance (s : Str) (level : Level) : Decidable (Named s level) :=
  inferInstanceAs (Decidable (_ ∨ _))

/-- The threshold a string asks for. -/
def threshold (s : Str) : Level := (all.find? fun level => Named s level).getD .NOTSET

/-- The levels `fromString` gives another level for. -/
def misnamed : List Level := [.FATAL, .ALERT, .CRIT, .WARN, .NOTICE, .INFO, .DEBUG]

theorem fromString_name (level : Level) :
    fromString level.name = fromString (level.name.map Char.toLower) := by
  cases level <;> decide

/-- What the table makes of the two names of a level. -/
theorem fromString_of_named {s : Str} {level : Level} (h : Named s level) :
    fromString s = fromString level.name := by
  rcases h with rfl | rfl
  · rfl
  · exact (fromString_name level).symm

theorem threshold_of_named {s : Str} {level : Level} (h : Named s level) : threshold s = level := by
  rcases h with rfl | rfl
  · cases level <;> decide
  · cases level <;> decide

/-- A string that names no level is in no entry of the table. -/
theorem fromString_of_not_named {s : Str} (h : ∀ level, ¬ Named s level) :
    fromString s = .NOTSET ∧ threshold s = .NOTSET := by
  have hkeys : ∀ e ∈ fromStringTable, ∃ level ∈ all, Named e.1 level := by decide
  constructor
  · have hlookup : fromStringTable.lookup s = none := by
      rw [List.lookup_eq_none_iff]
      intro e he
      obtain ⟨level, -, hlevel⟩ := hkeys e he
      rw [bne_iff_ne]
      rintro rfl
      exact h level hlevel
    unfold fromString
    rw [hlookup]
    rfl
  · have hfind : all.find? (fun level => Named s level) = none := by
      rw [List.find?_eq_none]
      intro level _
      simp [h level]
    unfold threshold
    rw [hfind]
    rfl

/-- **The table is right** for the strings that do not name a misnamed level. -/
theorem fromString_eq_iff (s : Str) :
    fromString s = threshold s ↔ ∀ level ∈ misnamed, ¬ Named s level := by
  by_cases h : ∃ level, Named s level
  · obtain ⟨level, hlevel⟩ := h
    rw [fromString_of_named hlevel, threshold_of_named hlevel]
    have hunique : ∀ other, Named s other ↔ other = level := by
      intro other
      constructor
      · intro hother
        rw [← threshold_of_named hother, threshold_of_named hlevel]
      · rintro rfl
        exact hlevel
    simp only [hunique]
    cases level <;> decide
  · rw [not_exists] at h
    obtain ⟨hfrom, hthreshold⟩ := fromString_of_not_named h
    rw [hfrom, hthreshold]
    exact iff_of_true rfl fun level _ => h level

theorem value_injective {a b : Level} (h : a.value = b.value) : a = b := by
  revert h
  cases a <;> cases b <;> decide

end Level

/-! ## §2. Runs of a configured logger. -/

namespace LogSystem

variable {LoggerId AppenderId Sink : Type*}
variable [DecidableEq LoggerId] [DecidableEq AppenderId] [DecidableEq Sink]

/-- The calls of a program that configures a logger by name and then logs. -/
def configured (l : LoggerId) (s : Str) (events : List LogEvent) :
    List (Call LoggerId AppenderId) :=
  .setLevel l (.fromString s) :: events.map (.log l)

/-- A logger whose level stays lets through the events up to that level. -/
theorem run_logs (lib : Libc) (l : LoggerId) (k : Sink) (events : List LogEvent) :
    ∀ system : LogSystem LoggerId AppenderId Sink,
      (system.run lib (events.map (.log l))).sinks k
        = system.sinks k ++ (events.filter fun event =>
            event.getLevel ≤ (system.loggers l).m_level).flatMap
              fun event => system.attachedText lib l event k := by
  induction events with
  | nil => intro system; exact (List.append_nil _).symm
  | cons event events ih =>
      intro system
      show ((system.call lib (.log l event)).run lib (events.map (.log l))).sinks k = _
      rw [ih, log_sinks]
      unfold delivered
      by_cases h : event.getLevel ≤ (system.loggers l).m_level
      · rw [if_pos h, List.filter_cons_of_pos (by simpa using h), List.flatMap_cons,
            List.append_assoc]
        rfl
      · rw [if_neg h, List.filter_cons_of_neg (by simpa using h), List.append_nil]
        rfl

/-- **A configured logger** lets through the events up to the level `fromString`
gives, to every appender, in order. -/
theorem configured_sinks (lib : Libc) (system : LogSystem LoggerId AppenderId Sink) (l : LoggerId)
    (s : Str) (events : List LogEvent) (k : Sink) :
    (system.run lib (configured l s events)).sinks k
      = system.sinks k ++ (events.filter fun event =>
          event.getLevel ≤ Level.fromString s).flatMap
            fun event => system.attachedText lib l event k := by
  show ((system.call lib (.setLevel l (.fromString s))).run lib (events.map (.log l))).sinks k = _
  rw [run_logs]
  have hlogger : (system.call lib (.setLevel l (.fromString s))).loggers l
      = (system.loggers l).setLevel (.fromString s) := Function.update_self _ _ _
  have hattached : ∀ event,
      (system.call lib (.setLevel l (.fromString s))).attachedText lib l event k
        = system.attachedText lib l event k := by
    intro event
    unfold attachedText
    rw [hlogger]
    rfl
  simp only [hattached, hlogger]
  rfl

end LogSystem

/-- The string configures every logger as it says: after `setLevel` every sink gets
exactly the events that are at least as severe as the threshold it asks for. -/
def ConfiguresByName (s : Str) : Prop :=
  ∀ (LoggerId AppenderId Sink : Type) [DecidableEq LoggerId] [DecidableEq AppenderId]
    [DecidableEq Sink] (lib : Libc) (system : LogSystem LoggerId AppenderId Sink) (l : LoggerId)
    (events : List LogEvent) (k : Sink),
    (system.run lib (LogSystem.configured l s events)).sinks k
      = system.sinks k ++ (events.filter fun event =>
          event.getLevel ≤ Level.threshold s).flatMap
            fun event => system.attachedText lib l event k

/-- The second string never delivers less than the first. -/
def NeverFewer (s s' : Str) : Prop :=
  ∀ (LoggerId AppenderId Sink : Type) [DecidableEq LoggerId] [DecidableEq AppenderId]
    [DecidableEq Sink] (lib : Libc) (system : LogSystem LoggerId AppenderId Sink) (l : LoggerId)
    (events : List LogEvent) (k : Sink),
    ((system.run lib (LogSystem.configured l s events)).sinks k).length
      ≤ ((system.run lib (LogSystem.configured l s' events)).sinks k).length

/-! ## §3. One appender that prints a char an event. -/

/-- One logger with one appender whose pattern is "x". -/
def oneAppender : LogSystem Unit Unit Unit where
  loggers _ := { m_appenders := [()] }
  appenders _ := ⟨LogFormatter.new xxSrc ['x'], ()⟩
  sinks _ := []

/-- An event of the level. -/
def eventOf (level : Level) : LogEvent := { sampleEvent with m_level := level }

/-- It prints the char for an event up to a level, and nothing for another one. -/
theorem oneAppender_text (level bound : Level) :
    oneAppender.sinks () ++ ([eventOf level].filter fun event =>
        event.getLevel ≤ bound).flatMap
          (fun event => oneAppender.attachedText epochLibc () event ())
      = if level ≤ bound then ['x'] else [] := by
  have hlevel : (eventOf level).getLevel = level := rfl
  by_cases h : level ≤ bound
  · rw [if_pos h, List.filter_cons_of_pos (by rw [hlevel]; exact decide_eq_true h)]
    rfl
  · rw [if_neg h, List.filter_cons_of_neg (by rw [hlevel, decide_eq_true_iff]; exact h)]
    rfl

/-! ## §4. The exact conditions. -/

theorem configuresByName_iff (s : Str) :
    ConfiguresByName s ↔ ∀ level ∈ Level.misnamed, ¬ Level.Named s level := by
  rw [← Level.fromString_eq_iff]
  constructor
  · intro h
    -- the same events come through under both levels
    have hsame : ∀ level, level ≤ Level.fromString s ↔ level ≤ Level.threshold s := by
      intro level
      have hsinks := h Unit Unit Unit epochLibc oneAppender () [eventOf level] ()
      rw [LogSystem.configured_sinks, oneAppender_text, oneAppender_text] at hsinks
      by_cases hfrom : level ≤ Level.fromString s <;> by_cases hto : level ≤ Level.threshold s <;>
        simp [hfrom, hto] at hsinks ⊢
    have hle : Level.fromString s ≤ Level.threshold s :=
      (hsame _).mp (Nat.le_refl (Level.fromString s).value)
    have hge : Level.threshold s ≤ Level.fromString s :=
      (hsame _).mpr (Nat.le_refl (Level.threshold s).value)
    exact Level.value_injective (Nat.le_antisymm hle hge)
  · intro h LoggerId AppenderId Sink _ _ _ lib system l events k
    rw [LogSystem.configured_sinks, h]

/-- A string delivers no less than another exactly when `fromString` gives it no more
severe level. -/
theorem neverFewer_iff (s s' : Str) :
    NeverFewer s s' ↔ Level.fromString s ≤ Level.fromString s' := by
  constructor
  · intro h
    have hlength := h Unit Unit Unit epochLibc oneAppender ()
      [eventOf (Level.fromString s)] ()
    rw [LogSystem.configured_sinks, LogSystem.configured_sinks, oneAppender_text,
        oneAppender_text, if_pos (show Level.fromString s ≤ Level.fromString s from
          Nat.le_refl (Level.fromString s).value)] at hlength
    by_contra hfewer
    rw [if_neg hfewer] at hlength
    exact absurd hlength (by decide)
  · intro h LoggerId AppenderId Sink _ _ _ lib system l events k
    rw [LogSystem.configured_sinks, LogSystem.configured_sinks, List.length_append,
        List.length_append]
    have hsublist : (events.filter fun event => event.getLevel ≤ Level.fromString s).Sublist
        (events.filter fun event => event.getLevel ≤ Level.fromString s') := by
      apply List.monotone_filter_right
      intro event hevent
      rw [decide_eq_true_iff] at hevent ⊢
      exact Nat.le_trans hevent h
    have hlength := (hsublist.flatMap fun event =>
      system.attachedText lib l event k).length_le
    omega

/-- **LEVELS BY NAME.**  A string configures a logger as it says exactly when it names
none of the misnamed levels; and of two names the less severe one never delivers
fewer events exactly when it names the same level, or one of the four that
`fromString` gives `NOTSET`. -/
theorem configuredByName_iff (s s' : Str) :
    (ConfiguresByName s ↔ ∀ level ∈ Level.misnamed, ¬ Level.Named s level) ∧
      ∀ level level' : Level, Level.Named s level → Level.Named s' level' → level ≤ level' →
        (NeverFewer s s' ↔ level = level' ∨ level' ∈ [.ALERT, .CRIT, .NOTICE, .NOTSET]) := by
  refine ⟨configuresByName_iff s, fun level level' hs hs' hle => ?_⟩
  rw [neverFewer_iff, Level.fromString_of_named hs, Level.fromString_of_named hs']
  revert hle
  cases level <;> cases level' <;> decide

theorem configuredByName_iff_error :
    ConfiguresByName "ERROR".toList ∧ NeverFewer "ERROR".toList "notset".toList := by
  obtain ⟨hname, hpair⟩ := configuredByName_iff "ERROR".toList "notset".toList
  exact ⟨hname.mpr (by decide),
    (hpair .ERROR .NOTSET (by decide) (by decide) (by decide)).mpr (by decide)⟩

/-- "debug" lets nothing through but fatal events. -/
theorem debug_means_fatal :
    Level.fromString "debug".toList = .FATAL ∧ ¬ ConfiguresByName "debug".toList := by
  refine ⟨by decide, fun h => ?_⟩
  rw [configuresByName_iff] at h
  exact absurd h (by decide)

end SylarCot.Log
