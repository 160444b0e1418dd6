/-
  SylarCot.Log.Delivery
  ─────────────────────
  **EXACT DELIVERY OVER WHOLE RUNS.**

  The `Ledger` says what logging is for, without lists: per logger a threshold
  and a multiplicity for every appender, per appender a formatter and the text
  it has received.  The code keeps the accounts:

    • `accounts_call` — one call keeps the system and the ledger in step;
    • `exact_delivery` — so after any run the text in an appender's own sink, and
      all multiplicities, are those of the ledger; on a shared sink the texts
      stand in list order; and neither `addAppender` nor `delAppender` touches
      the order of the other appenders.
-/
import SylarCot.Log.LogFormatter.Meaning
import SylarCot.Log.Logger

namespace SylarCot.Log

variable {LoggerId AppenderId Sink : Type*}

/-! ## §1. The ledger. -/

/-- What every appender is owed. -/
structure Ledger (LoggerId AppenderId : Type*) where
  level : LoggerId → Level
  attached : LoggerId → AppenderId → Nat
  formatter : AppenderId → LogFormatter
  received : AppenderId → Str

namespace Ledger

variable [DecidableEq LoggerId] [DecidableEq AppenderId]

/-- Change the multiplicity of one appender at one logger. -/
def attach (g : Ledger LoggerId AppenderId) (l : LoggerId) (a : AppenderId) (n : Nat) :
    LoggerId → AppenderId → Nat :=
  Function.update g.attached l (Function.update (g.attached l) a n)

/-- What one call is worth. -/
def record (lib : Libc) (g : Ledger LoggerId AppenderId) :
    Call LoggerId AppenderId → Ledger LoggerId AppenderId
  -- attaching again counts again
  | .addAppender l a => { g with attached := g.attach l a (g.attached l a + 1) }
  -- one attachment less, if there is one
  | .delAppender l a => { g with attached := g.attach l a (g.attached l a - 1) }
  | .clearAppender l => { g with attached := Function.update g.attached l (fun _ => 0) }
  | .setLevel l level => { g with level := Function.update g.level l level }
  | .setFormatter a formatter => { g with formatter := Function.update g.formatter a formatter }
  -- every appender is owed its text once for each time it is attached
  | .log l event =>
      { g with
        received := fun a =>
          g.received a ++
            if event.getLevel ≤ g.level l then
              (List.replicate (g.attached l a) ((g.formatter a).format lib event)).flatten
            else [] }

/-- The ledger after a run. -/
def run (lib : Libc) (g : Ledger LoggerId AppenderId) (calls : List (Call LoggerId AppenderId)) :
    Ledger LoggerId AppenderId :=
  calls.foldl (record lib) g

end Ledger

/-! ## §2. The appender list of one logger. -/

namespace Logger

variable [DecidableEq AppenderId]

/-- How often an appender is attached. -/
def multiplicity (logger : Logger AppenderId) (a : AppenderId) : Nat :=
  logger.m_appenders.count a

/-- The other appenders, in order. -/
def others (logger : Logger AppenderId) (a : AppenderId) : List AppenderId :=
  logger.m_appenders.filter (· ≠ a)

theorem multiplicity_addAppender (logger : Logger AppenderId) (a : AppenderId) :
    (logger.addAppender a).multiplicity
      = Function.update logger.multiplicity a (logger.multiplicity a + 1) := by
  funext b
  show (logger.m_appenders ++ [a]).count b = _
  rw [List.count_append]
  by_cases h : b = a
  · subst h
    rw [Function.update_self, List.count_singleton_self]
    rfl
  · rw [Function.update_of_ne h, List.count_singleton, if_neg (by simpa using Ne.symm h)]
    rfl

theorem multiplicity_delAppender (logger : Logger AppenderId) (a : AppenderId) :
    (logger.delAppender a).multiplicity
      = Function.update logger.multiplicity a (logger.multiplicity a - 1) := by
  funext b
  show (delLoop a logger.m_appenders).count b = _
  rw [delLoop_eq_erase]
  by_cases h : b = a
  · subst h
    rw [Function.update_self, List.count_erase_self]
    rfl
  · rw [Function.update_of_ne h, List.count_erase_of_ne h]
    rfl

theorem others_addAppender (logger : Logger AppenderId) (a : AppenderId) :
    (logger.addAppender a).others a = logger.others a := by
  show (logger.m_appenders ++ [a]).filter (· ≠ a) = _
  rw [List.filter_append, List.filter_cons_of_neg (by simp)]
  exact List.append_nil _

theorem others_delLoop (a : AppenderId) (as : List AppenderId) :
    (delLoop a as).filter (· ≠ a) = as.filter (· ≠ a) := by
  induction as with
  | nil => rfl
  | cons it rest ih =>
      show (if it = a then rest else it :: delLoop a rest).filter (· ≠ a) = _
      by_cases h : it = a
      · -- the loop erases an `a` and stops; the filter drops it on the other side
        rw [if_pos h, List.filter_cons_of_neg (by simpa using h)]
      · rw [if_neg h, List.filter_cons_of_pos (by simpa using h),
            List.filter_cons_of_pos (by simpa using h), ih]

theorem others_delAppender (logger : Logger AppenderId) (a : AppenderId) :
    (logger.delAppender a).others a = logger.others a :=
  others_delLoop a logger.m_appenders

end Logger

/-! ## §3. Keeping the accounts. -/

namespace LogSystem

variable [DecidableEq LoggerId] [DecidableEq AppenderId] [DecidableEq Sink]

/-- No other appender writes to the sink of `a`. -/
def OwnSink (s : LogSystem LoggerId AppenderId Sink) (a : AppenderId) : Prop :=
  ∀ b, s.sinkOf b = s.sinkOf a → b = a

/-- The system and a ledger agree. -/
structure Accounts (s : LogSystem LoggerId AppenderId Sink)
    (g : Ledger LoggerId AppenderId) : Prop where
  level : ∀ l, (s.loggers l).m_level = g.level l
  attached : ∀ l, (s.loggers l).multiplicity = g.attached l
  formatter : ∀ a, (s.appenders a).m_formatter = g.formatter a
  received : ∀ a, s.OwnSink a → s.sinks (s.sinkOf a) = g.received a

/-- The ledger a system starts with. -/
def openLedger (s : LogSystem LoggerId AppenderId Sink) : Ledger LoggerId AppenderId where
  level l := (s.loggers l).m_level
  attached l := (s.loggers l).multiplicity
  formatter a := (s.appenders a).m_formatter
  received a := s.sinks (s.sinkOf a)

omit [DecidableEq LoggerId] [DecidableEq Sink] in
theorem accounts_open (s : LogSystem LoggerId AppenderId Sink) : s.Accounts s.openLedger :=
  ⟨fun _ => rfl, fun _ => rfl, fun _ => rfl, fun _ _ => rfl⟩

theorem ownSink_call {lib : Libc} {s : LogSystem LoggerId AppenderId Sink}
    {c : Call LoggerId AppenderId} {a : AppenderId} (h : (s.call lib c).OwnSink a) :
    s.OwnSink a := by
  intro b hb
  apply h
  rw [call_sinkOf, call_sinkOf]
  exact hb

omit [DecidableEq LoggerId] in
/-- In its own sink an appender's text stands once for each time it is attached. -/
theorem attachedText_own (lib : Libc) (s : LogSystem LoggerId AppenderId Sink) (l : LoggerId)
    (event : LogEvent) {a : AppenderId} (hown : s.OwnSink a) :
    s.attachedText lib l event (s.sinkOf a)
      = (List.replicate ((s.loggers l).multiplicity a) (s.textOf lib event a)).flatten := by
  have hfilter : (s.loggers l).m_appenders.filter (fun b => s.sinkOf b = s.sinkOf a)
      = List.replicate ((s.loggers l).multiplicity a) a := by
    refine Eq.trans ?_ (List.filter_eq a)
    apply List.filter_congr
    intro b _
    have : s.sinkOf b = s.sinkOf a ↔ b = a := ⟨hown b, fun h => by rw [h]⟩
    simp only [this]
  unfold attachedText
  rw [hfilter, List.flatMap_def, List.map_replicate]

omit [DecidableEq Sink] in
/-- A logger call keeps the accounts if the one logger it replaces does. -/
theorem Accounts.setLogger {s : LogSystem LoggerId AppenderId Sink}
    {g : Ledger LoggerId AppenderId} (h : s.Accounts g) {l : LoggerId}
    {logger : Logger AppenderId} (level : LoggerId → Level)
    (attached : LoggerId → AppenderId → Nat)
    (hlevel : level = Function.update g.level l logger.m_level)
    (hattached : attached = Function.update g.attached l logger.multiplicity) :
    (s.setLogger l logger).Accounts { g with level := level, attached := attached } := by
  subst hlevel hattached
  refine ⟨?_, ?_, h.formatter, h.received⟩
  · intro l'
    show (Function.update s.loggers l logger l').m_level = Function.update g.level l _ l'
    by_cases hl : l' = l
    · rw [hl, Function.update_self, Function.update_self]
    · rw [Function.update_of_ne hl, Function.update_of_ne hl]
      exact h.level l'
  · intro l'
    show (Function.update s.loggers l logger l').multiplicity = Function.update g.attached l _ l'
    by_cases hl : l' = l
    · rw [hl, Function.update_self, Function.update_self]
    · rw [Function.update_of_ne hl, Function.update_of_ne hl]
      exact h.attached l'

/-- **One call keeps the accounts.** -/
theorem accounts_call (lib : Libc) {s : LogSystem LoggerId AppenderId Sink}
    {g : Ledger LoggerId AppenderId} (h : s.Accounts g) (c : Call LoggerId AppenderId) :
    (s.call lib c).Accounts (g.record lib c) := by
  cases c with
  | addAppender l a =>
      refine h.setLogger g.level _ ?_ ?_
      · rw [show ((s.loggers l).addAppender a).m_level = g.level l from h.level l,
            Function.update_eq_self]
      · rw [Logger.multiplicity_addAppender, h.attached]
        rfl
  | delAppender l a =>
      refine h.setLogger g.level _ ?_ ?_
      · rw [show ((s.loggers l).delAppender a).m_level = g.level l from h.level l,
            Function.update_eq_self]
      · rw [Logger.multiplicity_delAppender, h.attached]
        rfl
  | clearAppender l =>
      refine h.setLogger g.level _ ?_ rfl
      rw [show (s.loggers l).clearAppender.m_level = g.level l from h.level l,
          Function.update_eq_self]
  | setLevel l level =>
      refine h.setLogger _ g.attached rfl ?_
      rw [show ((s.loggers l).setLevel level).multiplicity = g.attached l from h.attached l,
          Function.update_eq_self]
  | setFormatter a formatter =>
      refine ⟨h.level, h.attached, ?_, ?_⟩
      · intro b
        show (Function.update s.appenders a _ b).m_formatter = Function.update g.formatter a _ b
        by_cases hb : b = a
        · rw [hb, Function.update_self, Function.update_self]
          rfl
        · rw [Function.update_of_ne hb, Function.update_of_ne hb]
          exact h.formatter b
      · intro b hown
        have hsink := call_sinkOf lib s (.setFormatter a formatter) b
        rw [hsink]
        exact h.received b (ownSink_call hown)
  | log l event =>
      -- only the sinks change; an own sink gets what the ledger records
      refine ⟨h.level, h.attached, h.formatter, ?_⟩
      intro a hown
      have hsink := call_sinkOf lib s (.log l event) a
      have hbefore := ownSink_call hown
      rw [hsink, log_sinks, h.received a hbefore]
      show _ = g.received a ++ _
      unfold delivered
      rw [attachedText_own lib s l event hbefore, h.level l, h.attached l]
      unfold textOf
      rw [h.formatter a]

theorem accounts_run (lib : Libc) (calls : List (Call LoggerId AppenderId)) :
    ∀ {s : LogSystem LoggerId AppenderId Sink} {g : Ledger LoggerId AppenderId},
      s.Accounts g → (s.run lib calls).Accounts (g.run lib calls) := by
  induction calls with
  | nil => intro s g h; exact h
  | cons c calls ih => intro s g h; exact ih (accounts_call lib h c)

/-! ## §4. Shared sinks. -/

/-- The log calls of a run, each with the system of the moment. -/
def logCalls (lib : Libc) : LogSystem LoggerId AppenderId Sink →
    List (Call LoggerId AppenderId) →
    List (LogSystem LoggerId AppenderId Sink × LoggerId × LogEvent)
  | _, [] => []
  | s, .log l event :: calls => (s, l, event) :: logCalls lib (s.call lib (.log l event)) calls
  | s, c :: calls => logCalls lib (s.call lib c) calls

/-- **Every sink holds the deliveries of the log calls, in call order.** -/
theorem run_sinks (lib : Libc) (k : Sink) (calls : List (Call LoggerId AppenderId)) :
    ∀ s : LogSystem LoggerId AppenderId Sink,
      (s.run lib calls).sinks k
        = s.sinks k ++ (s.logCalls lib calls).flatMap
            (fun (t, l, event) => t.delivered lib l event k) := by
  induction calls with
  | nil =>
      intro s
      exact (List.append_nil _).symm
  | cons c calls ih =>
      intro s
      show ((s.call lib c).run lib calls).sinks k = _
      rw [ih]
      cases c with
      | log l event =>
          rw [log_sinks, List.append_assoc]
          rfl
      | _ => rfl

/-! ## §5. Exact delivery. -/

theorem run_sinkOf (lib : Libc) (a : AppenderId) (calls : List (Call LoggerId AppenderId)) :
    ∀ s : LogSystem LoggerId AppenderId Sink, (s.run lib calls).sinkOf a = s.sinkOf a := by
  induction calls with
  | nil => intro s; rfl
  | cons c calls ih =>
      intro s
      show ((s.call lib c).run lib calls).sinkOf a = _
      rw [ih, call_sinkOf]

/-- **EXACT DELIVERY.**  After any run of calls, on any loggers and appenders:
the sink of an appender that shares it with no other holds exactly what the
ledger says it received; the multiplicities are the ledger's; every sink, shared
or not, holds the deliveries of the log calls in call order; and no `addAppender`
or `delAppender` of `a` changes the order of the other appenders. -/
theorem exact_delivery (lib : Libc) (s : LogSystem LoggerId AppenderId Sink)
    (calls : List (Call LoggerId AppenderId)) :
    (∀ a, s.OwnSink a →
        (s.run lib calls).sinks (s.sinkOf a) = (s.openLedger.run lib calls).received a) ∧
      (∀ l a, ((s.run lib calls).loggers l).m_appenders.count a
        = (s.openLedger.run lib calls).attached l a) ∧
      (∀ k, (s.run lib calls).sinks k
        = s.sinks k ++ (s.logCalls lib calls).flatMap
            (fun (t, l, event) => t.delivered lib l event k)) ∧
      (∀ l a, (((s.run lib calls).loggers l).addAppender a).others a
          = ((s.run lib calls).loggers l).others a ∧
        (((s.run lib calls).loggers l).delAppender a).others a
          = ((s.run lib calls).loggers l).others a) := by
  have h := accounts_run lib calls s.accounts_open
  refine ⟨?_, ?_, fun k => run_sinks lib k calls s, ?_⟩
  · intro a hown
    have hend : (s.run lib calls).OwnSink a := by
      intro b hb
      rw [run_sinkOf, run_sinkOf] at hb
      exact hown b hb
    have := h.received a hend
    rwa [run_sinkOf] at this
  · intro l a
    exact congrFun (h.attached l) a
  · intro l a
    exact ⟨Logger.others_addAppender _ a, Logger.others_delAppender _ a⟩

/-- Two appenders with a sink each, attached to nothing. -/
def twoSinks : LogSystem Unit Bool Bool where
  loggers _ := {}
  appenders a := { m_formatter := LogFormatter.new xxSrcs "%m".toList, m_appender := a }
  sinks _ := []

/-- Only the second `INFO` event passes the level of its moment. -/
def droppedAndLogged : List (Call Unit Bool) :=
  [.addAppender () false, .addAppender () true, .addAppender () true, .setLevel () .ERROR,
    .log () sampleEvent, .setLevel () .INFO, .log () sampleEvent]

theorem exact_delivery_twoSinks :
    (twoSinks.run epochLibc droppedAndLogged).sinks true = "hellohello".toList :=
  ((exact_delivery epochLibc twoSinks droppedAndLogged).1 true (by unfold OwnSink; decide)).trans
    (by decide)

end LogSystem

end SylarCot.Log
