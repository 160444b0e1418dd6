/-
  SylarCot.Log.Logger
  ───────────────────
  `Logger`, its appenders and their sinks.

  A `LogAppenderImpl` is its formatter and the sink its `m_appender` writes to
  (`std::cout` for every `StdoutLogAppender`, the file for a `FileLogAppender`);
  a sink only grows.  Loggers, appenders and sinks are named by arbitrary types,
  so appenders may be shared by loggers and sinks by appenders.

    • `log_sinks` — the specification of one `Logger::log`: each sink gets the
      texts of the attached appenders that write to it, in list order, if the
      event passes the level test, and nothing otherwise;
    • `call_sinkOf` — no call moves an appender to another sink.
-/
import Mathlib.Logic.Function.Basic
import SylarCot.Log.LogFormatter.LogFormatter

namespace SylarCot.Log

variable {LoggerId AppenderId Sink : Type*}

/-! ## §1. Appenders. -/

/-- `LogAppenderImpl`: the formatter of its base and the sink of its `m_appender`. -/
structure LogAppender (Sink : Type*) where
  m_formatter : LogFormatter
  m_appender : Sink

namespace LogAppender

/-- `LogAppenderBase::setFormatter`. -/
def setFormatter (a : LogAppender Sink) (formatter : LogFormatter) : LogAppender Sink :=
  { a with m_formatter := formatter }

/-- `LogAppenderImpl::log` down to `m_appender.log(m_formatter, event)`, which
writes `fmter->format(event)` to the sink. -/
def log [DecidableEq Sink] (lib : Libc) (a : LogAppender Sink) (event : LogEvent)
    (sinks : Sink → Str) : Sink → Str :=
  Function.update sinks a.m_appender
    (sinks a.m_appender ++ a.m_formatter.format lib event)

end LogAppender

/-! ## §2. Loggers. -/

/-- `Logger`; the defaults are what its constructor sets. -/
structure Logger (AppenderId : Type*) where
  m_level : Level := .DEBUG
  m_appenders : List AppenderId := []

namespace Logger

def getLevel (logger : Logger AppenderId) : Level := logger.m_level

def setLevel (logger : Logger AppenderId) (level : Level) : Logger AppenderId :=
  { logger with m_level := level }

def addAppender (logger : Logger AppenderId) (appender : AppenderId) : Logger AppenderId :=
  { logger with m_appenders := logger.m_appenders ++ [appender] }

/-- The loop of `Logger::delAppender`: erase the first match and leave the loop. -/
def delLoop [DecidableEq AppenderId] (appender : AppenderId) :
    List AppenderId → List AppenderId
  | [] => []
  | it :: rest => if it = appender then rest else it :: delLoop appender rest

def delAppender [DecidableEq AppenderId] (logger : Logger AppenderId)
    (appender : AppenderId) : Logger AppenderId :=
  { logger with m_appenders := delLoop appender logger.m_appenders }

def clearAppender (logger : Logger AppenderId) : Logger AppenderId :=
  { logger with m_appenders := [] }

/-- `Logger::log`: what is in the sinks afterwards. -/
def log [DecidableEq Sink] (lib : Libc) (logger : Logger AppenderId)
    (appenders : AppenderId → LogAppender Sink) (event : LogEvent) (sinks : Sink → Str) :
    Sink → Str :=
  -- smaller levels are more severe
  if event.getLevel ≤ logger.m_level then
    logger.m_appenders.foldl (fun sinks i => (appenders i).log lib event sinks) sinks
  else sinks

/-- `delAppender` is the library's `erase`. -/
theorem delLoop_eq_erase [DecidableEq AppenderId] (appender : AppenderId)
    (as : List AppenderId) : delLoop appender as = as.erase appender := by
  induction as with
  | nil => rfl
  | cons it rest ih =>
      show (if it = appender then rest else it :: delLoop appender rest) = _
      by_cases h : it = appender
      · rw [if_pos h, h, List.erase_cons_head]
      · rw [if_neg h, List.erase_cons_tail (by simpa using h), ih]

end Logger

/-! ## §3. The whole logging system. -/

/-- All loggers, appenders and sinks of a program. -/
structure LogSystem (LoggerId AppenderId Sink : Type*) where
  loggers : LoggerId → Logger AppenderId
  appenders : AppenderId → LogAppender Sink
  sinks : Sink → Str

/-- The calls a program makes on loggers and appenders. -/
inductive Call (LoggerId AppenderId : Type*) where
  | addAppender (l : LoggerId) (a : AppenderId)
  | delAppender (l : LoggerId) (a : AppenderId)
  | clearAppender (l : LoggerId)
  | setLevel (l : LoggerId) (level : Level)
  | setFormatter (a : AppenderId) (formatter : LogFormatter)
  | log (l : LoggerId) (event : LogEvent)

namespace LogSystem

variable [DecidableEq LoggerId] [DecidableEq AppenderId] [DecidableEq Sink]

/-- Replace one logger. -/
def setLogger (s : LogSystem LoggerId AppenderId Sink) (l : LoggerId)
    (logger : Logger AppenderId) : LogSystem LoggerId AppenderId Sink :=
  { s with loggers := Function.update s.loggers l logger }

/-- One call. -/
def call (lib : Libc) (s : LogSystem LoggerId AppenderId Sink) :
    Call LoggerId AppenderId → LogSystem LoggerId AppenderId Sink
  | .addAppender l a => s.setLogger l ((s.loggers l).addAppender a)
  | .delAppender l a => s.setLogger l ((s.loggers l).delAppender a)
  | .clearAppender l => s.setLogger l (s.loggers l).clearAppender
  | .setLevel l level => s.setLogger l ((s.loggers l).setLevel level)
  | .setFormatter a formatter =>
      { s with appenders := Function.update s.appenders a ((s.appenders a).setFormatter formatter) }
  | .log l event => { s with sinks := (s.loggers l).log lib s.appenders event s.sinks }

/-- Calls one after another. -/
def run (lib : Libc) (s : LogSystem LoggerId AppenderId Sink)
    (calls : List (Call LoggerId AppenderId)) : LogSystem LoggerId AppenderId Sink :=
  calls.foldl (call lib) s

/-! ## §4. What one `log` delivers. -/

/-- The text one appender gives for an event, by its formatter of the moment. -/
def textOf (lib : Libc) (s : LogSystem LoggerId AppenderId Sink) (event : LogEvent)
    (a : AppenderId) : Str :=
  (s.appenders a).m_formatter.format lib event

/-- The sink an appender writes to. -/
def sinkOf (s : LogSystem LoggerId AppenderId Sink) (a : AppenderId) : Sink :=
  (s.appenders a).m_appender

/-- What the attached appenders of a logger write to a sink, in list order. -/
def attachedText (lib : Libc) (s : LogSystem LoggerId AppenderId Sink) (l : LoggerId)
    (event : LogEvent) (k : Sink) : Str :=
  ((s.loggers l).m_appenders.filter (fun a => s.sinkOf a = k)).flatMap (s.textOf lib event)

/-- What `log(event)` on a logger adds to a sink. -/
def delivered (lib : Libc) (s : LogSystem LoggerId AppenderId Sink) (l : LoggerId)
    (event : LogEvent) (k : Sink) : Str :=
  if event.getLevel ≤ (s.loggers l).m_level then s.attachedText lib l event k else []

omit [DecidableEq AppenderId] in
/-- The appender loop adds to each sink the texts written to it. -/
theorem appenderLoop_sinks (lib : Libc) (appenders : AppenderId → LogAppender Sink)
    (event : LogEvent) (k : Sink) (as : List AppenderId) :
    ∀ sinks : Sink → Str,
      as.foldl (fun sinks i => (appenders i).log lib event sinks) sinks k
        = sinks k ++ (as.filter (fun a => (appenders a).m_appender = k)).flatMap
            (fun a => (appenders a).m_formatter.format lib event) := by
  -- over the sinks at the start of the loop, which every round replaces
  induction as with
  | nil => intro sinks; simp
  | cons a as ih =>
      intro sinks
      rw [List.foldl_cons, ih]
      by_cases hk : (appenders a).m_appender = k
      · -- the appender writes to `k`
        have hlog : (appenders a).log lib event sinks k
            = sinks k ++ (appenders a).m_formatter.format lib event := by
          unfold LogAppender.log
          rw [hk, Function.update_self]
        rw [hlog, List.filter_cons_of_pos (by simpa using hk), List.flatMap_cons,
            List.append_assoc]
      · -- it writes to another sink
        have hlog : (appenders a).log lib event sinks k = sinks k := by
          unfold LogAppender.log
          rw [Function.update_of_ne (Ne.symm hk)]
        rw [hlog, List.filter_cons_of_neg (by simpa using hk)]

/-- **The specification of `Logger::log`.** -/
theorem log_sinks (lib : Libc) (s : LogSystem LoggerId AppenderId Sink) (l : LoggerId)
    (event : LogEvent) (k : Sink) :
    (s.call lib (.log l event)).sinks k = s.sinks k ++ s.delivered lib l event k := by
  show (s.loggers l).log lib s.appenders event s.sinks k = _
  unfold Logger.log delivered
  by_cases h : event.getLevel ≤ (s.loggers l).m_level
  · rw [if_pos h, if_pos h]
    exact appenderLoop_sinks lib s.appenders event k _ s.sinks
  · rw [if_neg h, if_neg h, List.append_nil]

/-- No call moves an appender to another sink. -/
theorem call_sinkOf (lib : Libc) (s : LogSystem LoggerId AppenderId Sink)
    (c : Call LoggerId AppenderId) (a : AppenderId) : (s.call lib c).sinkOf a = s.sinkOf a := by
  cases c with
  | setFormatter b formatter =>
      show (Function.update s.appenders b ((s.appenders b).setFormatter formatter) a).m_appender
        = (s.appenders a).m_appender
      by_cases h : a = b
      · rw [h, Function.update_self]
        rfl
      · rw [Function.update_of_ne h]
  | _ => rfl

end LogSystem

end SylarCot.Log
