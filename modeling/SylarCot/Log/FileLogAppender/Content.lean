/-
  SylarCot.Log.FileLogAppender.Content
  ────────────────────────────────────
  **WHAT A FILE LOG KEEPS**, when the system reports no error at all.

  `log` appends, but `reopen` opens the file with mode `out`, which truncates it.
  The account of a program is the appender with its file, and the texts of all
  events logged so far.

    • `keepsAll_iff` — the file holds all of them after every step exactly when
      nothing had been written by the time of each `reopen`.
-/
import SylarCot.Log.FileLogAppender.FileLogAppender
import SylarCot.Log.LogFormatter.Meaning

namespace SylarCot.Log

open SylarCot.Library

/-! ## §1. Calls without errors. -/

/-- A call during which the system reports no error. -/
inductive Request where
  | log (fmter : LogFormatter) (event : LogEvent)
  | reopen

namespace Request

def call : Request → FileCall
  | .log fmter event => .log fmter event .written
  | .reopen => .reopen true true

/-- The text the call logs. -/
def text (lib : Libc) : Request → Str
  | .log fmter event => fmter.format lib event
  | .reopen => []

end Request

/-- The appender, and the texts of all events logged so far. -/
abbrev FileAccount := FileLog × Str

namespace FileAccount

/-- One call on the account. -/
def step (lib : Libc) (s : FileAccount) (r : Request) : Option FileAccount :=
  some (s.1.call lib r.call, s.2 ++ r.text lib)

/-- The file holds what it held at first, and then everything that was logged. -/
def Kept (start : Str) (s : FileAccount) : Prop := s.1.content = start ++ s.2

/-- A `reopen` comes before anything has been written. -/
def NothingToLose (s : FileAccount) (r : Request) : Prop :=
  match r with
  | .reopen => s.2 = []
  | .log _ _ => True

instance (s : FileAccount) : ∀ r, Decidable (NothingToLose s r)
  | .reopen => inferInstanceAs (Decidable (s.2 = []))
  | .log _ _ => inferInstanceAs (Decidable True)

/-! ## §2. One step. -/

/-- The stream works, and the file holds everything that was logged. -/
def Intact (s : FileAccount) : Prop := s.1.Working ∧ Kept [] s

/-- **A step with nothing to lose keeps everything.** -/
theorem intact_step {lib : Libc} {s s' : FileAccount} {r : Request} (h : Intact s)
    (hr : NothingToLose s r) (hstep : step lib s r = some s') : Intact s' := by
  obtain ⟨hworking, hkept⟩ := h
  obtain rfl := Option.some.inj hstep
  cases r with
  | log fmter event =>
      obtain ⟨hworks, hcontent⟩ := FileLog.log_working lib hworking fmter event
      refine ⟨hworks, ?_⟩
      show (s.1.log lib fmter event .written).content = [] ++ (s.2 ++ fmter.format lib event)
      rw [hcontent, show s.1.content = [] ++ s.2 from hkept, List.append_assoc]
  | reopen =>
      obtain ⟨hworks, hcontent, -⟩ := FileLog.reopen_opens hworking.not_stuck true
      refine ⟨hworks, ?_⟩
      show (s.1.reopen true true).1.content = [] ++ (s.2 ++ [])
      rw [hcontent, show s.2 = [] from hr]
      rfl

/-- **A `reopen` with something to lose loses it.** -/
theorem lost_step {lib : Libc} {s s' : FileAccount} {r : Request} (h : Intact s)
    (hr : ¬ NothingToLose s r) (hstep : step lib s r = some s') : ¬ Kept [] s' := by
  obtain ⟨hworking, -⟩ := h
  obtain rfl := Option.some.inj hstep
  cases r with
  | log fmter event => exact absurd trivial hr
  | reopen =>
      obtain ⟨-, hcontent, -⟩ := FileLog.reopen_opens hworking.not_stuck true
      intro hkept
      have hkept : (s.1.reopen true true).1.content = [] ++ (s.2 ++ []) := hkept
      rw [hcontent, List.append_nil] at hkept
      exact hr hkept.symm

/-! ## §3. Whole runs. -/

/-- **A FILE LOG KEEPS EVERYTHING** exactly as long as no `reopen` comes after a text
has been written. -/
theorem keepsAll_iff (lib : Libc) (filename : Str) (files : Str → Str) (requests : List Request) :
    Always (step lib) (Kept (FileLog.new filename files true true).content)
        (FileLog.new filename files true true, []) requests
      ↔ Guarded (step lib) NothingToLose (FileLog.new filename files true true, []) requests := by
  obtain ⟨hworks, hcontent, -⟩ :=
    FileLog.reopen_opens (FileLog.fresh_not_stuck filename files) true
  have hstart : Intact (FileLog.new filename files true true, []) := ⟨hworks, hcontent⟩
  rw [show (FileLog.new filename files true true).content = [] from hcontent]
  have hrun := exec_total (fun (s : FileAccount) (r : Request) =>
    (s.1.call lib r.call, s.2 ++ r.text lib)) requests (FileLog.new filename files true true, [])
  constructor
  · exact guarded_of_always (step lib) Intact (fun _ _ _ => intact_step)
      (fun _ _ _ => lost_step) requests _ _ hstart hrun
  · exact always_of_guarded (step lib) Intact (fun _ _ _ => intact_step)
      (fun _ h => h.2) requests _ hstart

/-- One event and a `reopen`: the file is empty again. -/
theorem reopen_loses :
    ¬ Always (step epochLibc) (Kept (FileLog.new "a.log".toList (fun _ => []) true true).content)
      (FileLog.new "a.log".toList (fun _ => []) true true, [])
      [.log (LogFormatter.new xxSrc "%m".toList) sampleEvent, .reopen] := by
  intro h
  have hkept := (h.2 _ rfl).2 _ rfl
  revert hkept
  show ¬ (_ : Str) = _
  decide

end FileAccount

end SylarCot.Log
