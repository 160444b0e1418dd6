/-
  SylarCot.Log.FileDelivery
  ─────────────────────────
  **FROM `Logger::log` TO THE FILES.**

  The sinks of a `LogSystem` only grow.  A program whose appenders are
  `LogAppenderImpl<FileLogAppender>` has streams, buffers and offsets instead.

    • `simulates_call` — with a file for each appender and no I/O errors, every call on
      the program is the call on the `LogSystem` whose sinks are the files with what the
      streams have yet to write;
    • `file_delivery` — so each file holds, once its appender is destroyed, exactly what
      the ledger says its appender has received.
-/
import SylarCot.Log.Delivery
import SylarCot.Log.FileLogAppender.Streams

namespace SylarCot.Log

variable {LoggerId AppenderId : Type*}

/-! ## §1. The program. -/

/-- Loggers, and `LogAppenderImpl<FileLogAppender>`s with their formatters. -/
structure FileLogSystem (LoggerId AppenderId : Type*) where
  loggers : LoggerId → Logger AppenderId
  formatter : AppenderId → LogFormatter
  fileSystem : FileSystem AppenderId

namespace FileLogSystem

variable [DecidableEq LoggerId] [DecidableEq AppenderId]

/-- The appender loop of `Logger::log`: `i->log(event)`, which is
`m_appender.log(m_formatter, event)`. -/
def logLoop (spills : Str → Str → Bool) (lib : Libc) (formatter : AppenderId → LogFormatter)
    (event : LogEvent) (fileSystem : FileSystem AppenderId) (m_appenders : List AppenderId) :
    FileSystem AppenderId :=
  m_appenders.foldl (fun fs i => fs.log spills i lib (formatter i) event .written) fileSystem

/-- `Logger::log` -/
def log (spills : Str → Str → Bool) (lib : Libc) (s : FileLogSystem LoggerId AppenderId)
    (l : LoggerId) (event : LogEvent) : FileLogSystem LoggerId AppenderId :=
  if event.getLevel ≤ (s.loggers l).m_level then
    { s with fileSystem :=
        logLoop spills lib s.formatter event s.fileSystem (s.loggers l).m_appenders }
  else s

/-- Replace one logger. -/
def setLogger (s : FileLogSystem LoggerId AppenderId) (l : LoggerId) (logger : Logger AppenderId) :
    FileLogSystem LoggerId AppenderId :=
  { s with loggers := Function.update s.loggers l logger }

/-- One call, during which the system reports no error. -/
def call (spills : Str → Str → Bool) (lib : Libc) (s : FileLogSystem LoggerId AppenderId) :
    Call LoggerId AppenderId → FileLogSystem LoggerId AppenderId
  | .addAppender l a => s.setLogger l ((s.loggers l).addAppender a)
  | .delAppender l a => s.setLogger l ((s.loggers l).delAppender a)
  | .clearAppender l => s.setLogger l (s.loggers l).clearAppender
  | .setLevel l level => s.setLogger l ((s.loggers l).setLevel level)
  | .setFormatter a formatter =>
      { s with formatter := Function.update s.formatter a formatter }
  | .log l event => s.log spills lib l event

/-- Calls one after another. -/
def run (spills : Str → Str → Bool) (lib : Libc) (s : FileLogSystem LoggerId AppenderId)
    (calls : List (Call LoggerId AppenderId)) : FileLogSystem LoggerId AppenderId :=
  calls.foldl (call spills lib) s

/-! ## §2. The abstract system. -/

/-- The appenders as the `LogSystem` has them, each with a sink of its own. -/
def appenders (s : FileLogSystem LoggerId AppenderId) (a : AppenderId) : LogAppender AppenderId where
  m_formatter := s.formatter a
  m_appender := a

/-- The system with sinks that only grow. -/
def toLogSystem (s : FileLogSystem LoggerId AppenderId) :
    LogSystem LoggerId AppenderId AppenderId where
  loggers := s.loggers
  appenders := s.appenders
  sinks := s.fileSystem.flushed

end FileLogSystem

/-- Every appender has a file of its own, open at its end. -/
structure FileSystem.Ready (fs : FileSystem AppenderId) : Prop where
  own : ∀ a b, fs.m_filename b = fs.m_filename a → b = a
  working : ∀ a, (fs.m_filestream a).is_open = true ∧ (fs.m_filestream a).ok = true
  atEnd : ∀ a, FileSystem.AtEnd (fs.m_filestream a, fs.content a)

variable [DecidableEq AppenderId]

namespace FileSystem

variable (spills : Str → Str → Bool) {fs : FileSystem AppenderId}

/-! ## §3. One text. -/

omit [DecidableEq AppenderId] in
/-- A stream that works takes the whole text. -/
theorem Ready.insert (h : fs.Ready) (a : AppenderId) (text : Str) :
    AtEnd ((fs.m_filestream a).insert spills .written text (fs.content a)) ∧
      atOnce ((fs.m_filestream a).insert spills .written text (fs.content a))
        = ((fs.m_filestream a).toOFStream, fs.flushed a ++ text) := by
  obtain ⟨hopen, hok⟩ := h.working a
  obtain ⟨hend, hinsert⟩ := (h.atEnd a).insert spills text
  refine ⟨hend, hinsert.trans ?_⟩
  show (fs.m_filestream a).toOFStream.insert .written text (fs.flushed a) = _
  unfold OFStream.insert
  rw [if_pos hok, if_pos hopen]
  rfl

/-- **A text is appended** to what its appender has written. -/
theorem Ready.log_flushed (h : fs.Ready) (lib : Libc) (a : AppenderId) (fmter : LogFormatter)
    (event : LogEvent) :
    (fs.log spills a lib fmter event .written).flushed
      = Function.update fs.flushed a (fs.flushed a ++ fmter.format lib event) := by
  obtain ⟨-, hinsert⟩ := h.insert spills a (fmter.format lib event)
  funext b
  show (fs.put a _).content b ++ ((fs.put a _).m_filestream b).buffer = _
  by_cases hba : b = a
  · rw [hba, Function.update_self, content_put, m_filestream_put]
    exact congrArg Prod.snd hinsert
  · obtain ⟨hstream, hcontent⟩ := put_of_ne (s := fs) hba (fun hfile => hba (h.own a b hfile))
      ((fs.m_filestream a).insert spills .written (fmter.format lib event) (fs.content a))
    rw [hstream, hcontent, Function.update_of_ne hba]
    rfl

/-- It stays so. -/
theorem Ready.log (h : fs.Ready) (lib : Libc) (a : AppenderId) (fmter : LogFormatter)
    (event : LogEvent) : (fs.log spills a lib fmter event .written).Ready := by
  obtain ⟨hend, hinsert⟩ := h.insert spills a (fmter.format lib event)
  have hsame := congrArg Prod.fst hinsert
  refine ⟨h.own, ?_, ?_⟩
  · exact forall_put (fun _ o => o.is_open = true ∧ o.ok = true)
      ⟨(congrArg OFStream.is_open hsame).trans (h.working a).1,
        (congrArg OFStream.ok hsame).trans (h.working a).2⟩ fun b _ => h.working b
  · intro b
    show AtEnd ((fs.put a _).m_filestream b, (fs.put a _).content b)
    by_cases hba : b = a
    · rw [hba, m_filestream_put, content_put]
      exact hend
    · obtain ⟨hstream, hcontent⟩ := put_of_ne (s := fs) hba (fun hfile => hba (h.own a b hfile))
        ((fs.m_filestream a).insert spills .written (fmter.format lib event) (fs.content a))
      rw [hstream, hcontent]
      exact h.atEnd b

/-- **The destructor** puts into the file what is left. -/
theorem Ready.destroy_content (h : fs.Ready) (a : AppenderId) :
    (fs.destroy a .written).content a = fs.flushed a := by
  obtain ⟨hend, hclose⟩ := (h.atEnd a).close true
  have hclosed : (((fs.m_filestream a).close .written true (fs.content a)).1).is_open = false :=
    congrArg (OFStream.is_open ∘ Prod.fst) hclose
  have hflushed := congrArg Prod.snd hclose
  change _ ++ FileStream.buffer _ = fs.flushed a at hflushed
  rw [hend.kept hclosed, List.append_nil] at hflushed
  exact (content_put _).trans hflushed

end FileSystem

/-! ## §4. The simulation. -/

namespace FileLogSystem

open FileSystem

variable (spills : Str → Str → Bool)

/-- **The appender loop** is that of the abstract logger. -/
theorem logLoop_files (lib : Libc) (formatter : AppenderId → LogFormatter) (event : LogEvent)
    (appenders : AppenderId → LogAppender AppenderId) (happ : ∀ a, appenders a = ⟨formatter a, a⟩)
    (m_appenders : List AppenderId) :
    ∀ fs : FileSystem AppenderId, fs.Ready →
      (logLoop spills lib formatter event fs m_appenders).Ready ∧
        (logLoop spills lib formatter event fs m_appenders).flushed
          = m_appenders.foldl (fun sinks i => (appenders i).log lib event sinks) fs.flushed := by
  -- the streams change in every round, the sinks with them; `Ready` carries over
  induction m_appenders with
  | nil => exact fun fs h => ⟨h, rfl⟩
  | cons i rest ih =>
      intro fs h
      have hfiles : (fs.log spills i lib (formatter i) event .written).flushed
          = (appenders i).log lib event fs.flushed := by
        rw [h.log_flushed, happ i]
        rfl
      obtain ⟨hready, hsinks⟩ := ih (fs.log spills i lib (formatter i) event .written)
        (h.log spills lib i (formatter i) event)
      refine ⟨hready, ?_⟩
      rw [List.foldl_cons, ← hfiles]
      exact hsinks

variable [DecidableEq LoggerId] {s : FileLogSystem LoggerId AppenderId}

/-- **Every call on the program** is the call on the abstract system. -/
theorem simulates_call (lib : Libc) (h : s.fileSystem.Ready) (c : Call LoggerId AppenderId) :
    (s.call spills lib c).fileSystem.Ready ∧
      (s.call spills lib c).toLogSystem = s.toLogSystem.call lib c := by
  cases c with
  | setFormatter a formatter =>
      refine ⟨h, ?_⟩
      show LogSystem.mk s.loggers _ s.fileSystem.flushed = LogSystem.mk s.loggers _ s.fileSystem.flushed
      congr 1
      funext b
      show LogAppender.mk (Function.update s.formatter a formatter b) b
        = Function.update s.appenders a ((s.appenders a).setFormatter formatter) b
      by_cases hba : b = a
      · rw [hba, Function.update_self, Function.update_self]
        rfl
      · rw [Function.update_of_ne hba, Function.update_of_ne hba]
        rfl
  | log l event =>
      obtain ⟨hready, hsinks⟩ := logLoop_files spills lib s.formatter event s.appenders
        (fun _ => rfl) (s.loggers l).m_appenders s.fileSystem h
      show (s.log spills lib l event).fileSystem.Ready ∧ (s.log spills lib l event).toLogSystem
        = { s.toLogSystem with
            sinks := (s.loggers l).log lib s.appenders event s.fileSystem.flushed }
      unfold log Logger.log
      by_cases hlevel : event.getLevel ≤ (s.loggers l).m_level
      · rw [if_pos hlevel, if_pos hlevel, ← hsinks]
        exact ⟨hready, rfl⟩
      · rw [if_neg hlevel, if_neg hlevel]
        exact ⟨h, rfl⟩
  | _ => exact ⟨h, rfl⟩

theorem simulates_run (lib : Libc) (calls : List (Call LoggerId AppenderId)) :
    ∀ {s : FileLogSystem LoggerId AppenderId}, s.fileSystem.Ready →
      (s.run spills lib calls).fileSystem.Ready ∧
        (s.run spills lib calls).toLogSystem = s.toLogSystem.run lib calls := by
  induction calls with
  | nil => exact fun h => ⟨h, rfl⟩
  | cons c calls ih =>
      intro s h
      obtain ⟨hready, hcall⟩ := simulates_call spills lib h c
      obtain ⟨hrest, hrun⟩ := ih hready
      refine ⟨hrest, hrun.trans ?_⟩
      rw [hcall]
      rfl

/-- **EXACT DELIVERY TO FILES.**  From appenders that are open on files of their own, any
run of calls without I/O errors makes each file, with what its stream has yet to write,
exactly what the ledger says that its appender has received; and this is what the file holds
once the appender is destroyed. -/
theorem file_delivery (spills : Str → Str → Bool) (lib : Libc)
    (s : FileLogSystem LoggerId AppenderId) (h : s.fileSystem.Ready)
    (calls : List (Call LoggerId AppenderId)) (a : AppenderId) :
    (s.run spills lib calls).fileSystem.flushed a
        = (s.toLogSystem.openLedger.run lib calls).received a ∧
      ((s.run spills lib calls).fileSystem.destroy a .written).content a
        = (s.toLogSystem.openLedger.run lib calls).received a := by
  obtain ⟨hready, hrun⟩ := simulates_run spills lib calls h
  have hown : (s.run spills lib calls).toLogSystem.OwnSink a := fun b hb => hb
  rw [hrun] at hown
  have hreceived := (LogSystem.accounts_run lib calls s.toLogSystem.accounts_open).received a hown
  rw [← hrun] at hreceived
  exact ⟨hreceived, (hready.destroy_content a).trans hreceived⟩

/-- Two appenders on two empty files, attached to nothing. -/
def twoFiles : FileLogSystem Bool Bool where
  loggers _ := {}
  formatter a := LogFormatter.new xxSrcs [if a then 'y' else 'x']
  fileSystem :=
    { m_filename := fun a => [if a then 'b' else 'a']
      m_filestream := fun _ => { is_open := true }
      files := fun _ => [] }

theorem twoFiles_ready : twoFiles.fileSystem.Ready :=
  ⟨by decide, by decide, fun _ => ⟨fun _ => rfl, fun _ => rfl⟩⟩

theorem file_delivery_twoFiles :
    ((twoFiles.run (fillsUp 8191) epochLibc [.addAppender true false, .addAppender true true,
        .addAppender true false, .log true sampleEvent, .log false sampleEvent]).fileSystem.destroy
      false .written).content false = ['x', 'x'] :=
  (file_delivery (fillsUp 8191) epochLibc twoFiles twoFiles_ready _ false).2.trans (by decide)

end FileLogSystem

end SylarCot.Log
