/-
  SylarCot.Log.LogLevel
  ─────────────────────
  `LogLevel::Level`, `LogLevel::toString` and `LogLevel::fromString`.  The
  numeric order is the reverse of severity: `FATAL` is 0 and the most severe.
-/
import SylarCot.Log.OStream

namespace SylarCot.Log

/-- `LogLevel::Level`. -/
inductive Level where
  | FATAL | ALERT | CRIT | ERROR | WARN | NOTICE | INFO | DEBUG | NOTSET
  deriving Repr, DecidableEq

namespace Level

/-- The enumerators' values. -/
def value : Level → Nat
  | .FATAL => 0
  | .ALERT => 100
  | .CRIT => 200
  | .ERROR => 300
  | .WARN => 400
  | .NOTICE => 500
  | .INFO => 600
  | .DEBUG => 700
  | .NOTSET => 800

/-- Unscoped enumerators compare by value. -/
instance : LE Level := ⟨fun a b => a.value ≤ b.value⟩

instance (a b : Level) : Decidable (a ≤ b) := inferInstanceAs (Decidable (a.value ≤ b.value))

theorem le_def (a b : Level) : a ≤ b ↔ a.value ≤ b.value := Iff.rfl

/-- `LogLevel::toString`; the levels its switch does not list print as NOTSET. -/
def toString : Level → Str
  | .DEBUG => "DEBUG".toList
  | .INFO => "INFO".toList
  | .WARN => "WARN".toList
  | .ERROR => "ERROR".toList
  | .FATAL => "FATAL".toList
  | _ => "NOTSET".toList

/-- The comparisons of `LogLevel::fromString`, `XX(level, v)` each, in order. -/
def fromStringTable : List (Str × Level) :=
  [ ("debug".toList, .FATAL),
    ("info".toList, .ALERT),
    ("warn".toList, .CRIT),
    ("error".toList, .ERROR),
    ("fatal".toList, .WARN),
    ("debug".toList, .NOTICE),
    ("info".toList, .INFO),
    ("warn".toList, .DEBUG),
    ("DEBUG".toList, .FATAL),
    ("INFO".toList, .ALERT),
    ("WARN".toList, .CRIT),
    ("ERROR".toList, .ERROR),
    ("FATAL".toList, .WARN),
    ("DEBUG".toList, .NOTICE),
    ("INFO".toList, .INFO),
    ("WARN".toList, .DEBUG) ]

/-- `LogLevel::fromString`: the first comparison that holds returns. -/
def fromString (str : Str) : Level := (fromStringTable.lookup str).getD .NOTSET

end Level

end SylarCot.Log
