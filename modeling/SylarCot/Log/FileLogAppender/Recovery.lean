/-
  SylarCot.Log.FileLogAppender.Recovery
  ─────────────────────────────────────
  **WHETHER A FILE LOG RECOVERS** from errors, over histories with any pattern of
  failing opens, closes and writes.

  `reopen` asks the stream whether it has failed to decide whether it is open.  The
  two differ after a write that failed: the file stays open, is not closed, and
  cannot be opened again.

    • `stuck_call_iff` — a stream gets stuck by a write that fails, and stays so;
    • `recovers_iff` — so `reopen` brings it back exactly as long as none has.
-/
import SylarCot.Log.FileLogAppender.FileLogAppender
import SylarCot.Log.LogFormatter.Meaning

namespace SylarCot.Log

open SylarCot.Library

namespace FileLog

/-! ## §1. Recovery. -/

/-- Events that are logged without an error. -/
def logs (events : List (LogFormatter × LogEvent)) : List FileCall :=
  events.map fun (fmter, event) => .log fmter event .written

/-- The texts of the events. -/
def texts (lib : Libc) (events : List (LogFormatter × LogEvent)) : Str :=
  events.flatMap fun (fmter, event) => fmter.format lib event

/-- A `reopen` for which the system can open the file returns true, and the events
logged after it reach the file. -/
def Recovers (lib : Libc) (s : FileLog) : Prop :=
  ∀ closes, (s.reopen closes true).2 = true ∧
    ∀ events, ((s.reopen closes true).1.run lib (logs events)).content
      = (s.reopen closes true).1.content ++ texts lib events

/-- A working stream takes every event. -/
theorem run_logs_working (lib : Libc) (events : List (LogFormatter × LogEvent)) :
    ∀ s : FileLog, s.Working → (s.run lib (logs events)).content = s.content ++ texts lib events := by
  induction events with
  | nil => intro s _; exact (List.append_nil _).symm
  | cons e events ih =>
      intro s hs
      obtain ⟨hworks, hcontent⟩ := log_working lib hs e.1 e.2
      show ((s.log lib e.1 e.2 .written).run lib (logs events)).content = _
      rw [ih _ hworks, hcontent, List.append_assoc]
      rfl

/-- **A stream recovers unless it is stuck.** -/
theorem recovers_iff_not_stuck (lib : Libc) (s : FileLog) : s.Recovers lib ↔ ¬ s.Stuck := by
  constructor
  · intro h hstuck
    have htrue := (h true).1
    rw [(reopen_stuck hstuck true true).2] at htrue
    cases htrue
  · intro h closes
    obtain ⟨hworks, -, htrue⟩ := reopen_opens h closes
    exact ⟨htrue, fun events => run_logs_working lib events _ hworks⟩

/-! ## §2. How a stream gets stuck. -/

/-- A stream that tests true is open. -/
def Sound (s : FileLog) : Prop := s.stream.ok = true → s.stream.is_open = true

/-- The call writes to a stream that works, and the write fails. -/
def WriteFails (s : FileLog) : FileCall → Prop
  | .log _ _ (.fails _) => s.stream.ok = true
  | _ => False

instance (s : FileLog) : ∀ c, Decidable (s.WriteFails c)
  | .log _ _ (.fails _) => inferInstanceAs (Decidable (s.stream.ok = true))
  | .log _ _ .written => inferInstanceAs (Decidable False)
  | .reopen _ _ => inferInstanceAs (Decidable False)

/-- `reopen` makes no stream stuck. -/
theorem stuck_reopen_iff (s : FileLog) (closes opens : Bool) :
    (s.reopen closes opens).1.Stuck ↔ s.Stuck := by
  by_cases h : s.Stuck
  · exact iff_of_true (reopen_stuck h closes opens).1 h
  refine iff_of_false (fun hstuck => ?_) h
  cases opens with
  | true => exact (reopen_opens h closes).1.not_stuck hstuck
  | false =>
      have hopen := hstuck.1
      rw [(reopen_fails h closes).1] at hopen
      cases hopen

theorem sound_of_not_ok {s : FileLog} (h : s.stream.ok = false) : s.Sound := by
  intro hok
  rw [h] at hok
  cases hok

theorem sound_reopen (s : FileLog) (closes opens : Bool) : (s.reopen closes opens).1.Sound := by
  by_cases h : s.Stuck
  · exact sound_of_not_ok (reopen_stuck h closes opens).1.2
  cases opens with
  | true => exact fun _ => (reopen_opens h closes).1.1
  | false => exact sound_of_not_ok (reopen_fails h closes).2

theorem sound_call (lib : Libc) {s : FileLog} (h : s.Sound) (c : FileCall) :
    (s.call lib c).Sound := by
  cases c with
  | reopen closes opens => exact sound_reopen s closes opens
  | log fmter event outcome =>
      by_cases hok : s.stream.ok = true
      · have hworks : s.Working := ⟨h hok, hok⟩
        cases outcome with
        | written => exact fun _ => (log_working lib hworks fmter event).1.1
        | fails n => exact sound_of_not_ok (log_fails lib hworks fmter event n).2
      · exact sound_of_not_ok (log_failed lib (Bool.eq_false_iff.mpr hok) fmter event outcome).2

/-- **A stream gets stuck** by a write that fails, and by nothing else; and it stays so. -/
theorem stuck_call_iff (lib : Libc) {s : FileLog} (h : s.Sound) (c : FileCall) :
    (s.call lib c).Stuck ↔ s.Stuck ∨ s.WriteFails c := by
  cases c with
  | reopen closes opens =>
      show (s.reopen closes opens).1.Stuck ↔ s.Stuck ∨ False
      rw [stuck_reopen_iff, or_false]
  | log fmter event outcome =>
      show (s.log lib fmter event outcome).Stuck ↔ _
      by_cases hok : s.stream.ok = true
      · have hworks : s.Working := ⟨h hok, hok⟩
        cases outcome with
        | written =>
            refine iff_of_false (log_working lib hworks fmter event).1.not_stuck ?_
            rw [not_or]
            exact ⟨hworks.not_stuck, id⟩
        | fails n => exact iff_of_true (log_fails lib hworks fmter event n) (.inr hok)
      · -- the sentry fails, whatever the outcome would have been
        have hfailed := Bool.eq_false_iff.mpr hok
        obtain ⟨hopen, hstill⟩ := log_failed lib hfailed fmter event outcome
        have hwrites : ¬ s.WriteFails (.log fmter event outcome) := by
          cases outcome with
          | written => exact id
          | fails n => exact hok
        unfold Stuck
        rw [hopen, hstill, hfailed]
        simp [hwrites]

/-! ## §3. Whole histories. -/

/-- One call, always enabled. -/
def step (lib : Libc) (s : FileLog) (c : FileCall) : Option FileLog := some (s.call lib c)

/-- A history ends stuck exactly when it began so or one of its writes failed. -/
theorem stuck_run_iff (lib : Libc) (history : List FileCall) : ∀ {s : FileLog}, s.Sound →
    ((s.run lib history).Stuck
      ↔ s.Stuck ∨ ¬ Guarded (step lib) (fun s c => ¬ s.WriteFails c) s history) := by
  induction history with
  | nil =>
      intro s _
      show s.Stuck ↔ s.Stuck ∨ ¬ True
      simp
  | cons c history ih =>
      intro s hs
      show ((s.call lib c).run lib history).Stuck ↔ _
      rw [ih (sound_call lib hs c), stuck_call_iff lib hs, guarded_cons_some (step lib) history rfl]
      tauto

/-- **A FILE LOG RECOVERS** after a history exactly when no write of the history has
failed, whatever opens and closes did. -/
theorem recovers_iff (lib : Libc) (filename : Str) (files : Str → Str) (closes opens : Bool)
    (history : List FileCall) :
    ((new filename files closes opens).run lib history).Recovers lib
      ↔ Guarded (step lib) (fun s c => ¬ s.WriteFails c) (new filename files closes opens)
          history := by
  have hsound : (new filename files closes opens).Sound := sound_reopen _ closes opens
  have hstart : ¬ (new filename files closes opens).Stuck := by
    unfold new
    rw [stuck_reopen_iff]
    exact fresh_not_stuck filename files
  rw [recovers_iff_not_stuck, stuck_run_iff lib history hsound]
  simp [hstart]

/-- After one write that fails, `reopen` returns false although the file can be opened. -/
theorem no_recovery :
    (((new "a.log".toList (fun _ => []) true true).run epochLibc
        [.log (LogFormatter.new xxSrc "%m".toList) sampleEvent (.fails 0)]).reopen true true).2
        = false ∧
      ¬ ((new "a.log".toList (fun _ => []) true true).run epochLibc
        [.log (LogFormatter.new xxSrc "%m".toList) sampleEvent (.fails 0)]).Recovers epochLibc := by
  refine ⟨by decide, fun h => ?_⟩
  exact absurd (h true).1 (by decide)

end FileLog

end SylarCot.Log
