/-
  SylarCot.Log.FileLogAppender.FileLogAppender
  ────────────────────────────────────────────
  `FileLogAppender` on a `std::ofstream`.

  A stream is whether its file is open and its two error bits, which are
  independent of each other.  What the operating system does (whether a file can
  be opened, closed, written) comes with every call, so that a list of calls is a
  history with any pattern of failures.  Files are texts by name; a text written is
  in the file at once.

    • `log_working`, `log_failed` — `log` on a working stream and on a failed one;
    • `reopen_opens`, `reopen_fails`, `reopen_stuck` — `reopen`, which opens every
      stream but one that has failed with its file open.
-/
import SylarCot.Library.Execution
import SylarCot.Log.LogFormatter.LogFormatter

namespace SylarCot.Log

open SylarCot.Library

/-! ## §1. `std::ofstream` -/

/-- `std::ofstream`: `is_open()` and the error state. -/
structure OFStream where
  is_open : Bool := false
  failbit : Bool := false
  badbit : Bool := false
  deriving Repr, DecidableEq

/-- How a write ends; if it fails, so many chars have reached the file. -/
inductive Outcome where
  | written
  | fails (n : Nat)
  deriving Repr, DecidableEq

namespace OFStream

/-- `operator bool`: neither `failbit` nor `badbit`. -/
def ok (s : OFStream) : Bool := !s.failbit && !s.badbit

/-- `close()`: the file is closed afterwards; `failbit` if it was not open or the
system reports an error. -/
def close (s : OFStream) (closes : Bool) : OFStream :=
  { s with is_open := false, failbit := s.failbit || !(s.is_open && closes) }

/-- `open(name)`, mode `out`: truncates the file and clears the error state; `failbit`
if a file is open already or the system cannot open it. -/
def openFile (s : OFStream) (opens : Bool) (content : Str) : OFStream × Str :=
  if s.is_open = false ∧ opens = true then ({ is_open := true }, [])
  else ({ s with failbit := true }, content)

/-- What becomes of a text that is written to the open file. -/
def write (s : OFStream) (text content : Str) : Outcome → OFStream × Str
  | .written => (s, content ++ text)
  | .fails n => ({ s with badbit := true }, content ++ text.take n)

/-- `<< text`: the stream and the file's content afterwards. -/
def insert (s : OFStream) (outcome : Outcome) (text content : Str) : OFStream × Str :=
  if s.ok = true then
    if s.is_open = true then s.write text content outcome
    else ({ s with badbit := true }, content)
  -- the sentry fails
  else ({ s with failbit := true }, content)

end OFStream

/-! ## §2. The appender and its file. -/

/-- `FileLogAppender` -/
structure FileLogAppender where
  m_filename : Str
  m_filestream : OFStream := {}

/-- An appender and the files by name. -/
structure FileLog where
  appender : FileLogAppender
  files : Str → Str

namespace FileLog

def stream (s : FileLog) : OFStream := s.appender.m_filestream

/-- What is in the appender's file. -/
def content (s : FileLog) : Str := s.files s.appender.m_filename

/-- Replace the stream and the content of the file. -/
def put (s : FileLog) (r : OFStream × Str) : FileLog where
  appender := { s.appender with m_filestream := r.1 }
  files := Function.update s.files s.appender.m_filename r.2

@[simp] theorem stream_put (s : FileLog) (r : OFStream × Str) : (s.put r).stream = r.1 := rfl

@[simp] theorem content_put (s : FileLog) (r : OFStream × Str) : (s.put r).content = r.2 :=
  Function.update_self _ _ _

/-- `FileLogAppender::log` -/
def log (lib : Libc) (s : FileLog) (fmter : LogFormatter) (event : LogEvent) (outcome : Outcome) :
    FileLog :=
  s.put (s.stream.insert outcome (fmter.format lib event) s.content)

/-- `FileLogAppender::reopen`, with the bool it returns. -/
def reopen (s : FileLog) (closes opens : Bool) : FileLog × Bool :=
  -- only a stream that tests true is closed
  let m_filestream := if s.stream.ok = true then s.stream.close closes else s.stream
  let r := m_filestream.openFile opens s.content
  (s.put r, r.1.ok)

/-- `FileLogAppender::FileLogAppender`: reopen a stream that was never open. -/
def new (filename : Str) (files : Str → Str) (closes opens : Bool) : FileLog :=
  (reopen ⟨{ m_filename := filename }, files⟩ closes opens).1

end FileLog

/-- A call, with what the system does during it. -/
inductive FileCall where
  | log (fmter : LogFormatter) (event : LogEvent) (outcome : Outcome)
  | reopen (closes opens : Bool)

namespace FileLog

/-- One call. -/
def call (lib : Libc) (s : FileLog) : FileCall → FileLog
  | .log fmter event outcome => s.log lib fmter event outcome
  | .reopen closes opens => (s.reopen closes opens).1

/-- A history of calls. -/
def run (lib : Libc) (s : FileLog) (calls : List FileCall) : FileLog := calls.foldl (call lib) s

/-! ## §3. The kinds of streams. -/

/-- The stream works. -/
def Working (s : FileLog) : Prop := s.stream.is_open = true ∧ s.stream.ok = true

/-- The stream has failed with its file open. -/
def Stuck (s : FileLog) : Prop := s.stream.is_open = true ∧ s.stream.ok = false

theorem Working.not_stuck {s : FileLog} (h : s.Working) : ¬ s.Stuck := by
  intro hstuck
  have hok := hstuck.2
  rw [h.2] at hok
  cases hok

theorem log_ok (lib : Libc) {s : FileLog} (h : s.Working) (fmter : LogFormatter)
    (event : LogEvent) (outcome : Outcome) :
    s.log lib fmter event outcome
      = s.put (s.stream.write (fmter.format lib event) s.content outcome) := by
  unfold log OFStream.insert
  rw [if_pos h.2, if_pos h.1]

/-- **A working stream writes the text.** -/
theorem log_working (lib : Libc) {s : FileLog} (h : s.Working) (fmter : LogFormatter)
    (event : LogEvent) :
    (s.log lib fmter event .written).Working ∧
      (s.log lib fmter event .written).content = s.content ++ fmter.format lib event := by
  rw [log_ok lib h]
  exact ⟨h, content_put _ _⟩

/-- A write that fails leaves the file open. -/
theorem log_fails (lib : Libc) {s : FileLog} (h : s.Working) (fmter : LogFormatter)
    (event : LogEvent) (n : Nat) : (s.log lib fmter event (.fails n)).Stuck := by
  rw [log_ok lib h]
  exact ⟨h.1, Bool.and_false _⟩

/-- **A failed stream** writes nothing and stays as it is, open or closed. -/
theorem log_failed (lib : Libc) {s : FileLog} (h : s.stream.ok = false) (fmter : LogFormatter)
    (event : LogEvent) (outcome : Outcome) :
    (s.log lib fmter event outcome).stream.is_open = s.stream.is_open ∧
      (s.log lib fmter event outcome).stream.ok = false := by
  unfold log OFStream.insert
  rw [if_neg (by rw [h]; exact Bool.false_ne_true)]
  exact ⟨rfl, rfl⟩

/-- What `reopen` calls `open` on: it has closed the stream unless it is stuck. -/
theorem closed_before_open {s : FileLog} (h : ¬ s.Stuck) (closes : Bool) :
    (if s.stream.ok = true then s.stream.close closes else s.stream).is_open = false := by
  by_cases hok : s.stream.ok = true
  · rw [if_pos hok]
    rfl
  · rw [if_neg hok, Bool.eq_false_iff]
    intro hopen
    exact h ⟨hopen, Bool.eq_false_iff.mpr hok⟩

/-- **`reopen` truncates the file** of every stream that is not stuck. -/
theorem reopen_opens {s : FileLog} (h : ¬ s.Stuck) (closes : Bool) :
    (s.reopen closes true).1.Working ∧ (s.reopen closes true).1.content = [] ∧
      (s.reopen closes true).2 = true := by
  unfold reopen OFStream.openFile
  simp only
  rw [if_pos ⟨closed_before_open h closes, trivial⟩]
  exact ⟨⟨rfl, rfl⟩, content_put _ _, rfl⟩

/-- If the system cannot open the file, the stream is closed and has failed. -/
theorem reopen_fails {s : FileLog} (h : ¬ s.Stuck) (closes : Bool) :
    (s.reopen closes false).1.stream.is_open = false ∧
      (s.reopen closes false).1.stream.ok = false := by
  unfold reopen OFStream.openFile
  simp only
  rw [if_neg (by simp)]
  exact ⟨closed_before_open h closes, rfl⟩

/-- **A stuck stream is not closed**, so it cannot be opened. -/
theorem reopen_stuck {s : FileLog} (h : s.Stuck) (closes opens : Bool) :
    (s.reopen closes opens).1.Stuck ∧ (s.reopen closes opens).2 = false := by
  obtain ⟨hopen, hok⟩ := h
  unfold reopen OFStream.openFile
  simp only
  rw [if_neg (show ¬ s.stream.ok = true by rw [hok]; exact Bool.false_ne_true),
      if_neg (by rw [hopen]; simp)]
  exact ⟨⟨hopen, rfl⟩, rfl⟩

/-- The constructor's stream was never open. -/
theorem fresh_not_stuck (filename : Str) (files : Str → Str) :
    ¬ Stuck ⟨{ m_filename := filename }, files⟩ := by
  intro h
  cases h.1

end FileLog

end SylarCot.Log
