/-
  SylarCot.Log.LogMacro
  ─────────────────────
  **THE LEVEL TEST OF `COT_LOG_LEVEL` AGAINST THE ONE OF `Logger::log`.**

  The macro builds its event if `logger->getLevel() <= level`; the destructor of
  the temporary then calls `Logger::log`, which delivers if `level <= m_level`.
  Smaller levels are more severe, so the macro drops what is STRICTLY MORE
  severe than the logger's level, and `Logger::log` what is strictly less.

    • `statement_eq_iff` — on one statement the macro makes no difference
      exactly when it suppresses nothing that would have been printed;
    • `macro_iff` — over a run, the sinks end up equal exactly when that holds at
      every statement: a suppressed text is never made up for.
-/
import SylarCot.Library.Execution
import SylarCot.Log.Logger

namespace SylarCot.Log

variable {LoggerId AppenderId Sink : Type*}

/-! ## §1. The macro. -/

/-- What a `COT_LOG_LEVEL` statement takes from where and when it is executed. -/
structure Site where
  file : Str
  line : Int32
  threadId : UInt32
  time : UInt64

/-- `Sylar::getFiberId`. -/
def getFiberId : UInt32 := 777

/-- The event the macro builds. -/
def macroEvent (level : Level) (site : Site) : LogEvent where
  m_loggername := "nihao".toList
  m_level := level
  m_filename := some site.file
  m_line := site.line
  m_elapse := 0
  m_threadid := site.threadId
  m_fiberid := getFiberId
  m_time := site.time
  m_threadname := "hhh".toList

/-- The statements of a program that logs through the macro. -/
inductive Statement (LoggerId AppenderId : Type*) where
  | call (c : Call LoggerId AppenderId)
  | COT_LOG_LEVEL (l : LoggerId) (level : Level) (site : Site)

namespace LogSystem

variable [DecidableEq LoggerId] [DecidableEq AppenderId] [DecidableEq Sink]

/-- Build the event and hand it to `Logger::log` unconditionally. -/
def unguarded (lib : Libc) (s : LogSystem LoggerId AppenderId Sink) :
    Statement LoggerId AppenderId → LogSystem LoggerId AppenderId Sink
  | .call c => s.call lib c
  | .COT_LOG_LEVEL l level site => s.call lib (.log l (macroEvent level site))

/-- One statement: the macro's event reaches `Logger::log` through
`LogEventWrap::~LogEventWrap`, if the macro's own test passes. -/
def statement (lib : Libc) (s : LogSystem LoggerId AppenderId Sink) :
    Statement LoggerId AppenderId → LogSystem LoggerId AppenderId Sink
  | .call c => s.call lib c
  | .COT_LOG_LEVEL l level site =>
      -- if (logger->getLevel() <= level)
      if (s.loggers l).getLevel ≤ level then s.call lib (.log l (macroEvent level site)) else s

/-- The run as written. -/
def runMacro (lib : Libc) (s : LogSystem LoggerId AppenderId Sink)
    (stmts : List (Statement LoggerId AppenderId)) : LogSystem LoggerId AppenderId Sink :=
  stmts.foldl (statement lib) s

/-- The run with every macro replaced. -/
def runUnguarded (lib : Libc) (s : LogSystem LoggerId AppenderId Sink)
    (stmts : List (Statement LoggerId AppenderId)) : LogSystem LoggerId AppenderId Sink :=
  stmts.foldl (unguarded lib) s

/-- The statement is no macro whose level is strictly more severe than the
logger's, unless no attached appender would print anything for it. -/
def SuppressesNothing (lib : Libc) (s : LogSystem LoggerId AppenderId Sink) :
    Statement LoggerId AppenderId → Prop
  | .call _ => True
  | .COT_LOG_LEVEL l level site =>
      ¬ (s.loggers l).m_level ≤ level →
        ∀ a ∈ (s.loggers l).m_appenders, s.textOf lib (macroEvent level site) a = []

/-! ## §2. One statement. -/

theorem le_of_not_ge {a b : Level} (h : ¬ a ≤ b) : b ≤ a := by
  rw [Level.le_def] at h ⊢
  omega

omit [DecidableEq LoggerId] [DecidableEq AppenderId] in
/-- Appenders that print nothing leave nothing in any sink. -/
theorem attachedText_eq_nil_iff (lib : Libc) (s : LogSystem LoggerId AppenderId Sink)
    (l : LoggerId) (event : LogEvent) :
    (∀ k, s.attachedText lib l event k = []) ↔
      ∀ a ∈ (s.loggers l).m_appenders, s.textOf lib event a = [] := by
  constructor
  · intro h a ha
    have hmem : a ∈ (s.loggers l).m_appenders.filter (fun b => s.sinkOf b = s.sinkOf a) :=
      List.mem_filter.mpr ⟨ha, by simp⟩
    exact List.flatMap_eq_nil_iff.mp (h (s.sinkOf a)) a hmem
  · intro h k
    refine List.flatMap_eq_nil_iff.mpr ?_
    intro a ha
    exact h a (List.mem_filter.mp ha).1

/-- Where the macro's test fails, the unguarded event passes the logger's. -/
theorem unguarded_sinks (lib : Libc) {s : LogSystem LoggerId AppenderId Sink} {l : LoggerId}
    {level : Level} (site : Site) (h : ¬ (s.loggers l).m_level ≤ level) (k : Sink) :
    (s.unguarded lib (.COT_LOG_LEVEL l level site)).sinks k
      = s.sinks k ++ s.attachedText lib l (macroEvent level site) k := by
  show (s.call lib (.log l (macroEvent level site))).sinks k = _
  rw [log_sinks]
  unfold delivered
  have hpass : (macroEvent level site).getLevel ≤ (s.loggers l).m_level := le_of_not_ge h
  rw [if_pos hpass]

/-- **One statement**: the macro makes no difference exactly when it suppresses
nothing. -/
theorem statement_eq_iff (lib : Libc) (s : LogSystem LoggerId AppenderId Sink)
    (st : Statement LoggerId AppenderId) :
    s.statement lib st = s.unguarded lib st ↔ s.SuppressesNothing lib st := by
  cases st with
  | call c => exact ⟨fun _ => trivial, fun _ => rfl⟩
  | COT_LOG_LEVEL l level site =>
      by_cases h : (s.loggers l).m_level ≤ level
      · have hsame : s.statement lib (.COT_LOG_LEVEL l level site)
            = s.unguarded lib (.COT_LOG_LEVEL l level site) := if_pos h
        exact ⟨fun _ hneg => absurd h hneg, fun _ => hsame⟩
      · -- the macro drops the event
        have hdropped : s.statement lib (.COT_LOG_LEVEL l level site) = s := if_neg h
        have hiff := attachedText_eq_nil_iff lib s l (macroEvent level site)
        rw [hdropped]
        constructor
        · intro heq _
          refine hiff.mp (fun k => ?_)
          have hk := unguarded_sinks lib site h k
          rw [← heq] at hk
          exact List.self_eq_append_right.mp hk
        · intro hsilent
          have hsinks : s.sinks = (s.unguarded lib (.COT_LOG_LEVEL l level site)).sinks := by
            funext k
            rw [unguarded_sinks lib site h k, hiff.mpr (hsilent h) k, List.append_nil]
          show s = { s with sinks := (s.unguarded lib (.COT_LOG_LEVEL l level site)).sinks }
          rw [← hsinks]

/-! ## §3. Runs. -/

/-- The two systems have the same loggers and appenders. -/
def SameConfig (s u : LogSystem LoggerId AppenderId Sink) : Prop :=
  s.loggers = u.loggers ∧ s.appenders = u.appenders

theorem SameConfig.call {s u : LogSystem LoggerId AppenderId Sink} (h : SameConfig s u)
    (lib : Libc) (c : Call LoggerId AppenderId) : SameConfig (s.call lib c) (u.call lib c) := by
  cases s
  cases u
  obtain ⟨rfl, rfl⟩ := h
  cases c with
  | _ => exact ⟨rfl, rfl⟩

/-- Suppressing an event changes no logger and no appender. -/
theorem SameConfig.statement {s u : LogSystem LoggerId AppenderId Sink} (h : SameConfig s u)
    (lib : Libc) (st : Statement LoggerId AppenderId) :
    SameConfig (s.statement lib st) (u.unguarded lib st) := by
  cases st with
  | call c => exact h.call lib c
  | COT_LOG_LEVEL l level site =>
      show SameConfig (if _ then _ else _) _
      split
      · exact h.call lib _
      · exact h

omit [DecidableEq LoggerId] [DecidableEq AppenderId] in
theorem SameConfig.delivered {s u : LogSystem LoggerId AppenderId Sink} (h : SameConfig s u)
    (lib : Libc) (l : LoggerId) (event : LogEvent) (k : Sink) :
    s.delivered lib l event k = u.delivered lib l event k := by
  cases s
  cases u
  obtain ⟨rfl, rfl⟩ := h
  rfl

/-- Only `log` writes to sinks. -/
theorem call_sinks_length {s u : LogSystem LoggerId AppenderId Sink} (h : SameConfig s u)
    (lib : Libc) (c : Call LoggerId AppenderId) {k : Sink} {d : Nat}
    (hk : (s.sinks k).length + d ≤ (u.sinks k).length) :
    ((s.call lib c).sinks k).length + d ≤ ((u.call lib c).sinks k).length := by
  cases c with
  | log l event =>
      rw [log_sinks, log_sinks, h.delivered lib l event k, List.length_append,
          List.length_append]
      omega
  | _ => exact hk

/-- **A lead is kept**: what the unguarded run is ahead in a sink it stays ahead. -/
theorem run_lead (lib : Libc) {k : Sink} {d : Nat} (stmts : List (Statement LoggerId AppenderId)) :
    ∀ {s u : LogSystem LoggerId AppenderId Sink}, SameConfig s u →
      (s.sinks k).length + d ≤ (u.sinks k).length →
      ((s.runMacro lib stmts).sinks k).length + d ≤ ((u.runUnguarded lib stmts).sinks k).length := by
  induction stmts with
  | nil => intro s u _ hk; exact hk
  | cons st stmts ih =>
      intro s u h hk
      refine ih (h.statement lib st) ?_
      cases st with
      | call c => exact call_sinks_length h lib c hk
      | COT_LOG_LEVEL l level site =>
          have hlog := call_sinks_length h lib (.log l (macroEvent level site)) hk
          show ((if _ then _ else _ : LogSystem LoggerId AppenderId Sink).sinks k).length + d ≤ _
          split
          · exact hlog
          · -- the macro writes nothing, the unguarded event at most something
            show (s.sinks k).length + d
              ≤ ((u.call lib (.log l (macroEvent level site))).sinks k).length
            rw [log_sinks, List.length_append]
            omega

/-- A statement that suppresses something puts the unguarded run ahead. -/
theorem lead_of_suppressed {lib : Libc} {s : LogSystem LoggerId AppenderId Sink}
    {st : Statement LoggerId AppenderId} (h : ¬ s.SuppressesNothing lib st) :
    ∃ k, ((s.statement lib st).sinks k).length + 1 ≤ ((s.unguarded lib st).sinks k).length := by
  cases st with
  | call c => exact absurd trivial h
  | COT_LOG_LEVEL l level site =>
      unfold SuppressesNothing at h
      push Not at h
      obtain ⟨hsevere, a, ha, htext⟩ := h
      have hdropped : s.statement lib (.COT_LOG_LEVEL l level site) = s := if_neg hsevere
      have hsome : ¬ ∀ k, s.attachedText lib l (macroEvent level site) k = [] := fun hnil =>
        htext ((attachedText_eq_nil_iff lib s l _).mp hnil a ha)
      push Not at hsome
      obtain ⟨k, hk⟩ := hsome
      have hpos := List.length_pos_iff.mpr hk
      refine ⟨k, ?_⟩
      rw [hdropped, unguarded_sinks lib site hsevere k, List.length_append]
      omega

/-- **THE MACRO'S TEST IS A MERE SHORTCUT EXACTLY WHEN** no statement of the run
suppresses a text: wherever a macro's level is strictly more severe than its
logger's, no attached appender would print anything. -/
theorem macro_iff (lib : Libc) (s : LogSystem LoggerId AppenderId Sink)
    (stmts : List (Statement LoggerId AppenderId)) :
    (∀ k, (s.runMacro lib stmts).sinks k = (s.runUnguarded lib stmts).sinks k) ↔
      Library.Guarded (fun s st => some (s.statement lib st))
        (fun s st => s.SuppressesNothing lib st) s stmts := by
  induction stmts generalizing s with
  | nil => exact ⟨fun _ => trivial, fun _ _ => rfl⟩
  | cons st stmts ih =>
      constructor
      · intro hsinks
        -- a text suppressed here would leave the run behind for good
        have hst : s.SuppressesNothing lib st := by
          by_contra h
          obtain ⟨k, hlead⟩ := lead_of_suppressed h
          have hend := run_lead lib stmts (SameConfig.statement ⟨rfl, rfl⟩ lib st) hlead
          have heq := congrArg List.length (hsinks k)
          unfold runMacro runUnguarded at hend heq
          rw [List.foldl_cons, List.foldl_cons] at heq
          omega
        refine ⟨hst, ?_⟩
        intro s' hs'
        obtain rfl := Option.some.inj hs'
        refine (ih (s.statement lib st)).mp (fun k => ?_)
        have hk := hsinks k
        unfold runMacro runUnguarded at hk ⊢
        rw [List.foldl_cons, List.foldl_cons, ← (statement_eq_iff lib s st).mpr hst] at hk
        exact hk
      · rintro ⟨hst, hrest⟩ k
        have htail := (ih (s.statement lib st)).mpr (hrest _ rfl) k
        unfold runMacro runUnguarded at htail ⊢
        rw [List.foldl_cons, List.foldl_cons, ← (statement_eq_iff lib s st).mpr hst]
        exact htail

end LogSystem

/-! ## §4. A suppressed event. -/

/-- A constructed logger and an appender that is not attached yet. -/
def constructedSystem : LogSystem Unit Unit Unit where
  loggers _ := {}
  appenders _ := { m_formatter := LogFormatter.new xxSrc "event".toList, m_appender := () }
  sinks _ := []

/-- A C library whose date functions are not used. -/
def noLibc : Libc where
  Tm := Unit
  localtime_r _ := ()
  expansion _ _ := []
  leftover _ _ := []

/-- `INFO` is more severe than the level `DEBUG` of a constructed logger. -/
theorem macro_suppresses :
    ¬ ∀ (stmts : List (Statement Unit Unit)) (k : Unit),
      (constructedSystem.runMacro noLibc stmts).sinks k
        = (constructedSystem.runUnguarded noLibc stmts).sinks k := by
  intro h
  have := h [.call (.addAppender () ()),
    .COT_LOG_LEVEL () .INFO { file := "a.cpp".toList, line := 1, threadId := 1, time := 0 }] ()
  revert this
  decide

end SylarCot.Log
