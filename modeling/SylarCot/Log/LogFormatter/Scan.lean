/-
  SylarCot.Log.LogFormatter.Scan
  ──────────────────────────────
  **THE SCAN LOOP OF `LogFormatter::init`**, index by index.

  The scanner is a two-state machine over `m_pattern[i]`.  Its body advances
  and pulls back the loop index itself, reads ahead after `%d`, and leaves the
  function from two places.  Every access `m_pattern[i]` is checked here: an
  access outside the pattern, a decrement of the unsigned index below zero and
  a loop that does not end are outcomes of their own (`Fault`), so that their
  absence is something to prove.

  The two copies of the source (`src/` and `srcs/`) have this loop in common.
-/
import SylarCot.Library.WhileLoop
import SylarCot.Log.OStream

namespace SylarCot.Log

open SylarCot.Library

/-! ## §1. The locals of `init`. -/

/-- `ParseState`. -/
inductive ParseState where
  | NORMAL | PATTERN
  deriving Repr, DecidableEq

/-- The locals of `init` that the scan loop works on.  In `patterns`, `true`
marks a pattern character and `false` a normal string. -/
structure ScanState where
  i : Nat := 0
  state : ParseState := .NORMAL
  normal_str : Str := []
  patterns : List (Bool × Str) := []
  dateformat : Str := []
  deriving Repr, DecidableEq

/-- What C++ leaves undefined, and a loop that is still running. -/
inductive Fault where
  | outOfRange | indexWrap | diverges
  deriving Repr, DecidableEq

/-- How the scan ends: the loop condition fails, the body executes `return`, or
something goes wrong. -/
inductive ScanExit where
  | finished (s : ScanState)
  | returned
  | fault (f : Fault)
  deriving Repr, DecidableEq

/-- `if (not normal_str.empty()) patterns.push_back(make_pair(0, move(normal_str)))`;
a moved-from string is empty. -/
def ScanState.flush (s : ScanState) : ScanState :=
  if s.normal_str ≠ [] then
    { s with patterns := s.patterns ++ [(false, s.normal_str)], normal_str := [] }
  else s

/-! ## §2. The loop that collects the text of `%d{...}`. -/

/-- `while (i < m_pattern.size() and m_pattern[i] != '}')`, one round. -/
def braceBody (m_pattern : Str) (s : ScanState) : LoopStep ScanState ScanExit :=
  if s.i < m_pattern.length then
    match m_pattern[s.i]? with
    | none => .exit (.fault .outOfRange)
    | some b =>
        -- dateformat.push_back(m_pattern[i]); i++
        if b ≠ '}' then .next { s with dateformat := s.dateformat ++ [b], i := s.i + 1 }
        else .exit (.finished s)
  else .exit (.finished s)

/-- The whole loop; the pattern's length bounds its rounds. -/
def braceLoop (m_pattern : Str) (s : ScanState) : ScanExit :=
  (loop (braceBody m_pattern) (m_pattern.length + 1) s).getD (.fault .diverges)

/-! ## §3. The switch and the scan loop. -/

/-- `case ParseState::NORMAL`.  `finished` is the `break` out of the switch. -/
def normalCase (m_pattern : Str) (c : Char) (s : ScanState) : ScanExit :=
  if c = '%' then
    let s := s.flush
    -- a lone trailing '%'; the line that sets m_error is commented out
    if s.i + 1 ≥ m_pattern.length then .returned
    else .finished { s with normal_str := [], state := .PATTERN }
  else .finished { s with normal_str := s.normal_str ++ [c], state := .NORMAL }

/-- The `c == "d"` branch, from `i++` on. -/
def dateCase (m_pattern : Str) (s : ScanState) : ScanExit :=
  let s := { s with i := s.i + 1 }
  -- the state stays PATTERN here; the loop ends right after
  if s.i ≥ m_pattern.length then .finished s
  else
    match m_pattern[s.i]? with
    | none => .fault .outOfRange
    | some b =>
        -- a bare %d: i-- and look at this char again in the next round
        if b ≠ '{' then
          match s.i with
          | 0 => .fault .indexWrap
          | i + 1 => .finished { s with state := .NORMAL, i := i }
        else
          match braceLoop m_pattern { s with i := s.i + 1 } with
          | .finished s =>
              -- no '}' up to the end; the line that sets m_error is commented out
              if s.i ≥ m_pattern.length then .returned
              else .finished { s with state := .NORMAL }
          | e => e

/-- `case ParseState::PATTERN`. -/
def patternCase (m_pattern : Str) (c : Char) (s : ScanState) : ScanExit :=
  if c = '%' then
    -- normal_str is empty here, so the token is a single '%'
    .finished { s with
      patterns := s.patterns ++ [(false, s.normal_str ++ ['%'])]
      normal_str := []
      state := .NORMAL }
  else if c = 'd' then
    dateCase m_pattern { s with patterns := s.patterns ++ [(true, [c])] }
  else
    .finished { s with patterns := s.patterns ++ [(true, [c])], state := .NORMAL }

/-- One execution of the switch. -/
def switchBody (m_pattern : Str) (s : ScanState) : ScanExit :=
  match m_pattern[s.i]? with
  | none => .fault .outOfRange
  | some c =>
      match s.state with
      | .NORMAL => normalCase m_pattern c s
      | .PATTERN => patternCase m_pattern c s

/-- `for (; i < m_pattern.size(); i++) switch (state) ...`, one round. -/
def scanBody (m_pattern : Str) (s : ScanState) : LoopStep ScanState ScanExit :=
  if s.i < m_pattern.length then
    match switchBody m_pattern s with
    | .finished s => .next { s with i := s.i + 1 }
    | e => .exit e
  else .exit (.finished s)

/-- The scan loop of `init`; the pattern's length bounds its rounds. -/
def scan (m_pattern : Str) : ScanExit :=
  (loop (scanBody m_pattern) (m_pattern.length + 1) {}).getD (.fault .diverges)

end SylarCot.Log
