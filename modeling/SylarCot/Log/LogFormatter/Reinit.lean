/-
  SylarCot.Log.LogFormatter.Reinit
  ────────────────────────────────
  **CALLS ON A CONSTRUCTED FORMATTER**, `init` among them, which is public.

  `init` pushes to `m_items` and never clears it, on none of its exits.  A run of
  calls therefore leaves the items of the constructor followed by one more copy of
  them for every `init` in it:

    • `init_eq` — what one more `init` does to the object;
    • `run_eq` — what a whole run of calls does;
    • `reinit_iff` — the items are still those of the pattern exactly if `init` was
      not called again, or a pattern leaves no items to begin with.
-/
import SylarCot.Log.LogFormatter.Errors

namespace SylarCot.Log

/-! ## §1. The calls. -/

/-- The public operations of a `LogFormatter` that the loggers and appenders have. -/
inductive FormatterCall where
  | init
  | format (event : LogEvent)
  | formatTo (ofs : OStream) (event : LogEvent)
  deriving DecidableEq

namespace LogFormatter

variable (xx : FormatItem → FormatItem) (lib : Libc)

/-- One call: the object after it, and what it prints or returns. -/
def call (f : LogFormatter) : FormatterCall → LogFormatter × Str
  | .init => f.init xx
  | .format event => (f, f.format lib event)
  | .formatTo ofs event => (f, (f.formatTo lib ofs event).text)

/-- The object after a sequence of calls. -/
def run (f : LogFormatter) (calls : List FormatterCall) : LogFormatter :=
  calls.foldl (fun f c => (f.call xx lib c).1) f

/-! ## §2. What a run leaves. -/

/-- **The step**: one `init` appends the items a new formatter of the pattern has. -/
theorem init_eq (f : LogFormatter) :
    (f.init xx).1 = { f with m_items := f.m_items ++ (new xx f.m_pattern).m_items } := by
  unfold new LogFormatter.init
  -- `init` pushes to the items it finds, or leaves them alone; it never clears them
  cases scan f.m_pattern with
  | finished s =>
      simp only
      rw [itemLoop_fst, itemLoop_fst]
      rfl
  | returned => simp
  | fault e => simp

/-- The items of `n` runs of `init` on one pattern. -/
def copies (n : Nat) (p : Str) : List FormatItem := (List.replicate n (new xx p).m_items).flatten

/-- **The run**: every `init` in it appends the items of the pattern once more. -/
theorem run_eq (calls : List FormatterCall) :
    ∀ f : LogFormatter, f.run xx lib calls
      = { f with m_items := f.m_items ++ copies xx (calls.count .init) f.m_pattern } := by
  -- on the calls still to come, for any items collected so far
  induction calls with
  | nil =>
      intro f
      show f = _
      simp [copies]
  | cons c calls ih =>
      intro f
      show (f.call xx lib c).1.run xx lib calls = _
      rw [ih]
      cases c with
      | init =>
          show LogFormatter.mk _ _ _ = _
          unfold call
          rw [init_eq, List.count_cons_self]
          unfold copies
          rw [List.replicate_succ, List.flatten_cons, ← List.append_assoc]
      | format event =>
          rw [List.count_cons_of_ne (by simp)]
          rfl
      | formatTo ofs event =>
          rw [List.count_cons_of_ne (by simp)]
          rfl

/-- No copies are left exactly if `init` did not run, or a run leaves nothing. -/
theorem copies_eq_nil_iff (n : Nat) (p : Str) :
    copies xx n p = [] ↔ n = 0 ∨ (new xx p).m_items = [] := by
  unfold copies
  rw [List.flatten_eq_nil_iff, List.forall_mem_replicate]

theorem new_m_pattern (p : Str) : (new xx p).m_pattern = p := by
  unfold new
  rw [init_eq]

end LogFormatter

/-! ## §3. A function of the pattern. -/

/-- The formatter has the items of a new one for the pattern, and formats every event
as a new one does. -/
def SameAsNew (xx : FormatItem → FormatItem) (p : Str) (f : LogFormatter) : Prop :=
  f.m_items = (LogFormatter.new xx p).m_items ∧
    ∀ (lib : Libc) (event : LogEvent),
      LogFormatter.SameText lib event f (LogFormatter.new xx p)

/-- The text depends on the items only. -/
theorem sameAsNew_iff (xx : FormatItem → FormatItem) (p : Str) (f : LogFormatter) :
    SameAsNew xx p f ↔ f.m_items = (LogFormatter.new xx p).m_items := by
  constructor
  · intro h
    exact h.1
  · intro h
    exact ⟨h, sameText_of_items h⟩

/-- **THE ITEM LIST IS A FUNCTION OF THE PATTERN** after a run of calls exactly if
`init` is not among them, or parsing the pattern leaves no items: it is empty, ends in a
lone '%' or an open group, or starts with a conversion the table does not know. -/
theorem reinit_iff (xx : FormatItem → FormatItem) (lib : Libc) (p : Str)
    (calls : List FormatterCall) :
    SameAsNew xx p ((LogFormatter.new xx p).run xx lib calls)
      ↔ FormatterCall.init ∉ calls ∨ p = [] ∨ EndsBroken p ∨ StartsUnknown p := by
  rw [sameAsNew_iff, ← new_items_eq_nil_iff xx p, LogFormatter.run_eq,
      LogFormatter.new_m_pattern]
  show (LogFormatter.new xx p).m_items ++ LogFormatter.copies xx _ p = _ ↔ _
  rw [List.append_right_eq_self, LogFormatter.copies_eq_nil_iff, List.count_eq_zero]

/-- One more `init` on "%m", and every message is printed twice. -/
theorem reinit_twice :
    ¬ SameAsNew xxSrc "%m".toList
        ((LogFormatter.new xxSrc "%m".toList).run xxSrc epochLibc [.init]) ∧
      ((LogFormatter.new xxSrc "%m".toList).run xxSrc epochLibc [.init]).format epochLibc
        sampleEvent = "hellohello".toList ∧
      ((LogFormatter.new xxSrcs "%m".toList).run xxSrcs epochLibc [.init]).format epochLibc
        sampleEvent = "hellohello".toList := by
  refine ⟨fun h => ?_, by decide, by decide⟩
  exact absurd h.1 (by decide)

end SylarCot.Log
