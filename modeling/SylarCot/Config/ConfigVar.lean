/-
  SylarCot.Config.ConfigVar
  ─────────────────────────
  **`ConfigVar` AS A REGISTER WITH A DEFAULT.**

  The bodies of the template's members as they are written, for calls made one
  after another.  The constructor initialises `m_val` from itself, so the value
  an object starts with is whatever its storage gives (`self`); `fromString`
  returns the parsed value, converted to `bool`, and stores nothing.  An
  exception derived from `std::exception` is caught, any other goes through.

    • `call_register_iff` — when one call does what a register does;
    • `configVar_register_iff` — when a whole history does.
-/
import SylarCot.Library.Execution

namespace SylarCot.Config

/-! ## §1. The template's members. -/

/-- What a conversion throws. -/
inductive Thrown where
  | stdException
  | other
  deriving Repr, DecidableEq

/-- The conversions of a `ConfigVar`: `FromStr`, `ToStr`, and the implicit
conversion of a `T` to `bool`. -/
structure Conversions (T : Type*) where
  fromStr : String → Except Thrown T
  toStr : T → Except Thrown String
  toBool : T → Bool

/-- `ConfigVar<T, FromStr, ToStr>` without its name and description. -/
structure ConfigVar (T : Type*) where
  m_val : T
  deriving Repr, DecidableEq

/-- The calls on a `ConfigVar`. -/
inductive Call (T : Type*) where
  | getValue
  | setValue (val : T)
  | fromString (val : String)
  | toString
  deriving Repr, DecidableEq

/-- What a call returns or throws. -/
inductive Result (T : Type*) where
  | value (v : T)
  | done
  | bool (b : Bool)
  | text (s : String)
  | threw (e : Thrown)
  deriving Repr, DecidableEq

namespace ConfigVar

variable {T : Type*}

/-- `ConfigVar::ConfigVar`: the member initialiser is `m_val(m_val)`. -/
def new (self : T) (_default_value : T) : ConfigVar T := { m_val := self }

def getValue (x : ConfigVar T) : T := x.m_val

/-- `setValue`, with no callback registered. -/
def setValue [DecidableEq T] (x : ConfigVar T) (val : T) : ConfigVar T :=
  if val = x.m_val then x else { x with m_val := val }

/-- `fromString`: `return FromStr()(val);` in a function that returns `bool`. -/
def fromString (cv : Conversions T) (_x : ConfigVar T) (val : String) : Result T :=
  match cv.fromStr val with
  -- the parsed value is returned, not stored
  | .ok v => .bool (cv.toBool v)
  | .error .stdException => .bool false
  | .error .other => .threw .other

/-- `toString`. -/
def toString (cv : Conversions T) (x : ConfigVar T) : Result T :=
  match cv.toStr x.m_val with
  | .ok s => .text s
  | .error .stdException => .text ""
  | .error .other => .threw .other

/-- One call: the object afterwards, and the result. -/
def call [DecidableEq T] (cv : Conversions T) (x : ConfigVar T) :
    Call T → ConfigVar T × Result T
  | .getValue => (x, .value x.getValue)
  | .setValue val => (x.setValue val, .done)
  | .fromString val => (x, x.fromString cv val)
  | .toString => (x, x.toString cv)

/-- Whatever it does on the way, `setValue` ends with the new value stored. -/
theorem setValue_m_val [DecidableEq T] (x : ConfigVar T) (val : T) :
    (x.setValue val).m_val = val := by
  unfold setValue
  by_cases h : val = x.m_val
  · rw [if_pos h, h]
  · rw [if_neg h]

end ConfigVar

/-! ## §2. A register with a default. -/

namespace Register

variable {T : Type*}

/-- The value a register holds after a call. -/
def next (cv : Conversions T) (v : T) : Call T → T
  | .getValue => v
  | .setValue val => val
  | .fromString val => (cv.fromStr val).toOption.getD v
  | .toString => v

/-- The results a register may give; a `toString` whose `ToStr` throws is left
open. -/
def Allows (cv : Conversions T) (v : T) : Call T → Result T → Prop
  | .getValue, r => r = .value v
  | .setValue _, r => r = .done
  | .fromString val, r => r = .bool (cv.fromStr val).toOption.isSome
  | .toString, r => ∀ s, cv.toStr v = .ok s → r = .text s

end Register

/-! ## §3. When the code is one. -/

namespace ConfigVar

variable {T : Type*} [DecidableEq T]

/-- From here on the object does what a register holding `v` does: `getValue`
gives its value in every state, and every call one of its results. -/
def IsRegister (cv : Conversions T) : ConfigVar T → T → List (Call T) → Prop
  | x, v, [] => x.getValue = v
  | x, v, c :: cs =>
      x.getValue = v ∧ Register.Allows cv v c (x.call cv c).2 ∧
        IsRegister cv (x.call cv c).1 (Register.next cv v c) cs

/-- A `fromString` call throws a `std::exception`, or parses to the value already
stored and that value converts to `true`. -/
def StoresNothingNew (cv : Conversions T) (x : ConfigVar T) : Call T → Prop
  | .fromString val =>
      cv.fromStr val = .error .stdException ∨
        (cv.fromStr val = .ok x.m_val ∧ cv.toBool x.m_val = true)
  | _ => True

omit [DecidableEq T] in
/-- `fromString` is a register's exactly when it has nothing to store. -/
theorem fromString_register_iff (cv : Conversions T) (x : ConfigVar T) (val : String) :
    (Register.Allows cv x.m_val (.fromString val) (x.fromString cv val) ∧
        x.m_val = Register.next cv x.m_val (.fromString val)) ↔
      x.StoresNothingNew cv (.fromString val) := by
  cases h : cv.fromStr val with
  | ok v =>
      simp only [Register.Allows, Register.next, fromString, StoresNothingNew, h]
      constructor
      · intro hall
        obtain ⟨hbool, hval⟩ := hall
        obtain rfl : x.m_val = v := hval
        injection hbool with hbool
        exact .inr ⟨rfl, hbool⟩
      · intro hall
        rcases hall with herr | ⟨hok, hbool⟩
        · cases herr
        · obtain rfl : v = x.m_val := by
            injection hok
          exact ⟨by rw [hbool]; rfl, rfl⟩
  | error e =>
      simp only [Register.Allows, Register.next, fromString, StoresNothingNew, h]
      cases e with
      | stdException => exact ⟨fun _ => .inl rfl, fun _ => ⟨rfl, rfl⟩⟩
      | other =>
          constructor
          · intro hall
            obtain ⟨hthrew, -⟩ := hall
            cases hthrew
          · intro hall
            rcases hall with herr | ⟨hok, -⟩
            · cases herr
            · cases hok

/-- **One call** on an object that holds the register's value. -/
theorem call_register_iff (cv : Conversions T) (x : ConfigVar T) (c : Call T) :
    (Register.Allows cv x.m_val c (x.call cv c).2 ∧
        (x.call cv c).1.m_val = Register.next cv x.m_val c) ↔ x.StoresNothingNew cv c := by
  cases c with
  | getValue => exact ⟨fun _ => trivial, fun _ => ⟨rfl, rfl⟩⟩
  | setValue val => exact ⟨fun _ => trivial, fun _ => ⟨rfl, x.setValue_m_val val⟩⟩
  | fromString val => exact fromString_register_iff cv x val
  | toString =>
      refine ⟨fun _ => trivial, fun _ => ⟨?_, rfl⟩⟩
      intro s hs
      show x.toString cv = .text s
      unfold toString
      rw [hs]

theorem isRegister_head {cv : Conversions T} {x : ConfigVar T} {v : T} {cs : List (Call T)}
    (h : IsRegister cv x v cs) : x.m_val = v := by
  cases cs with
  | nil => exact h
  | cons c cs => exact h.1

/-- One call of a run, as a step. -/
def callStep (cv : Conversions T) (x : ConfigVar T) (c : Call T) : Option (ConfigVar T) :=
  some (x.call cv c).1

/-- **Runs** from an object that holds `x.m_val`. -/
theorem isRegister_iff (cv : Conversions T) (cs : List (Call T)) :
    ∀ x : ConfigVar T, IsRegister cv x x.m_val cs ↔
      Library.Guarded (callStep cv) (StoresNothingNew cv) x cs := by
  induction cs with
  | nil => intro x; exact ⟨fun _ => trivial, fun _ => rfl⟩
  | cons c cs ih =>
      intro x
      rw [Library.guarded_cons_some (callStep cv) (t := (x.call cv c).1) cs rfl, ← ih,
          ← call_register_iff]
      constructor
      · intro hall
        obtain ⟨-, hallows, hrest⟩ := hall
        have hnext := isRegister_head hrest
        rw [← hnext] at hrest
        exact ⟨⟨hallows, hnext⟩, hrest⟩
      · intro hall
        obtain ⟨⟨hallows, hnext⟩, hrest⟩ := hall
        rw [hnext] at hrest
        exact ⟨rfl, hallows, hrest⟩

/-- **A `ConfigVar` IS A REGISTER WITH A DEFAULT EXACTLY WHEN** its storage happens
to give the default value, and no `fromString` of the history has anything to
store. -/
theorem configVar_register_iff (cv : Conversions T) (self default_value : T)
    (cs : List (Call T)) :
    IsRegister cv (new self default_value) default_value cs ↔
      self = default_value ∧
        Library.Guarded (callStep cv) (StoresNothingNew cv) (new self default_value) cs := by
  rw [← isRegister_iff]
  constructor
  · intro h
    obtain rfl : self = default_value := isRegister_head h
    exact ⟨rfl, h⟩
  · intro hall
    obtain ⟨rfl, h⟩ := hall
    exact h

end ConfigVar

/-! ## §4. A value that is parsed and lost. -/

/-- One digit, as an integer. -/
def digitConversions : Conversions Int where
  fromStr s :=
    match s.toList with
    | [c] => if c.isDigit then .ok (c.toNat - '0'.toNat) else .error .stdException
    | _ => .error .stdException
  toStr v := .ok (ToString.toString v)
  toBool v := v ≠ 0

/-- `setValue(7)`, then `fromString("5")`: it returns `true`, and `getValue` gives 7. -/
theorem fromString_loses_value :
    ¬ ∀ (self default_value : Int) (cs : List (Call Int)),
      ConfigVar.IsRegister digitConversions (ConfigVar.new self default_value) default_value cs := by
  intro h
  have hrun := h 7 7 [.setValue 7, .fromString "5", .getValue]
  obtain ⟨-, -, -, -, hlast, -⟩ := hrun
  revert hlast
  decide

end SylarCot.Config
