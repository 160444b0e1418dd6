/-
  SylarCot.Log.LogEvent
  ─────────────────────
  `LogEvent`: the record of one logging call, and its getters.
-/
import SylarCot.Log.LogLevel

namespace SylarCot.Log

/-- `LogEvent`.  `m_filename` is a `const char*` (`none` is the null pointer);
`m_ss` is the text of the content stream. -/
structure LogEvent where
  m_loggername : Str
  m_level : Level
  m_filename : Option Str
  m_line : Int32
  m_elapse : UInt32
  m_threadid : UInt32
  m_fiberid : UInt32
  m_time : UInt64
  m_threadname : Str
  m_ss : Str := []
  deriving Repr, DecidableEq

namespace LogEvent

def getFile (e : LogEvent) : Option Str := e.m_filename
def getLine (e : LogEvent) : Int32 := e.m_line
def getElapse (e : LogEvent) : UInt32 := e.m_elapse
def getThreadId (e : LogEvent) : UInt32 := e.m_threadid
def getFiberId (e : LogEvent) : UInt32 := e.m_fiberid
def getTime (e : LogEvent) : UInt64 := e.m_time
def getThreadName (e : LogEvent) : Str := e.m_threadname
def getLoggerName (e : LogEvent) : Str := e.m_loggername
def getContent (e : LogEvent) : Str := e.m_ss
def getLevel (e : LogEvent) : Level := e.m_level

end LogEvent

end SylarCot.Log
