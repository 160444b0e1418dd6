/-
  SylarCot.Log.OStream
  ────────────────────
  The part of the C++ library the formatter prints through: `std::string` and
  the formatted inserters of `std::ostream`.

  A `char` is a `Char` and a `std::string` the list of its chars.  A stream is
  the text written so far together with the formatting state the inserters
  read: base, sign and base flags, and the pending width with its fill
  character, which every inserter uses once and resets to 0.

  `OStream.IsPlain` is the state of a freshly constructed stream.  From it every
  inserter just appends (`IsPlain.putStr`, `IsPlain.putUnsigned`,
  `IsPlain.putInt`) and leaves a plain stream behind.
-/
import Mathlib.Data.List.Basic

namespace SylarCot.Log

/-- `std::string`. -/
abbrev Str := List Char

/-! ## §1. Streams and their inserters. -/

/-- `std::ios_base::basefield`. -/
inductive Base where
  | dec | oct | hex
  deriving Repr, DecidableEq

/-- `std::ios_base::adjustfield`. -/
inductive Adjust where
  | right | left | internal
  deriving Repr, DecidableEq

/-- `std::ostream`: the text written and the state the inserters read. -/
structure OStream where
  text : Str := []
  /-- `badbit`: once set, inserters write nothing. -/
  bad : Bool := false
  base : Base := .dec
  adjust : Adjust := .right
  showbase : Bool := false
  showpos : Bool := false
  uppercase : Bool := false
  width : Nat := 0
  fill : Char := ' '
  deriving Repr, DecidableEq

namespace OStream

/-- Fill `sign ++ body` up to the pending width; `internal` pads between. -/
def padded (os : OStream) (sign body : Str) : Str :=
  let pad := List.replicate (os.width - (sign ++ body).length) os.fill
  match os.adjust with
  | .right => pad ++ sign ++ body
  | .left => sign ++ body ++ pad
  | .internal => sign ++ pad ++ body

/-- Write an item that consists of a sign or base prefix and a body. -/
def put (os : OStream) (sign body : Str) : OStream :=
  if os.bad then os
  else { os with text := os.text ++ os.padded sign body, width := 0 }

/-- `os << s` for a `std::string` or a `std::string_view`. -/
def putStr (os : OStream) (s : Str) : OStream := os.put [] s

/-- `os << p` for a `const char*`; a null pointer sets `badbit` (libstdc++). -/
def putCStr (os : OStream) : Option Str → OStream
  | some s => os.putStr s
  | none => { os with bad := true }

/-- The digits of `n` in the stream's base; `showbase` puts a 0 before octal
ones, which `internal` does not split off. -/
def digits (os : OStream) (n : Nat) : Str :=
  match os.base with
  | .dec => Nat.toDigits 10 n
  | .oct => (if os.showbase && n != 0 then ['0'] else []) ++ Nat.toDigits 8 n
  | .hex =>
      let ds := Nat.toDigits 16 n
      if os.uppercase then ds.map Char.toUpper else ds

/-- The hexadecimal prefix `showbase` asks for; 0 has none. -/
def basePrefix (os : OStream) (n : Nat) : Str :=
  if os.base = .hex ∧ os.showbase ∧ n ≠ 0 then
    if os.uppercase then ['0', 'X'] else ['0', 'x']
  else []

/-- `os << n` for an `uint32_t`; `showpos` does not apply to it. -/
def putUnsigned (os : OStream) (n : UInt32) : OStream :=
  os.put (os.basePrefix n.toNat) (os.digits n.toNat)

/-- `os << n` for an `int32_t`; in base 8 or 16 its bits print as unsigned. -/
def putInt (os : OStream) (n : Int32) : OStream :=
  match os.base with
  | .dec =>
      os.put (if n.toInt < 0 then ['-'] else if os.showpos then ['+'] else [])
        (Nat.toDigits 10 n.toInt.natAbs)
  | _ => os.put (os.basePrefix n.toUInt32.toNat) (os.digits n.toUInt32.toNat)

end OStream

/-! ## §2. Plain streams. -/

/-- The decimal text of an unsigned number. -/
def natText (n : Nat) : Str := Nat.toDigits 10 n

/-- The decimal text of a signed number. -/
def intText (n : Int) : Str :=
  (if n < 0 then ['-'] else []) ++ Nat.toDigits 10 n.natAbs

namespace OStream

/-- The formatting state of a freshly constructed stream, still good. -/
structure IsPlain (os : OStream) : Prop where
  bad : os.bad = false
  base : os.base = .dec
  showbase : os.showbase = false
  showpos : os.showpos = false
  width : os.width = 0

/-- A plain stream with `s` appended to its text. -/
def append (os : OStream) (s : Str) : OStream := { os with text := os.text ++ s }

theorem append_append (os : OStream) (s t : Str) :
    (os.append s).append t = os.append (s ++ t) := by
  simp [append]

namespace IsPlain

theorem fresh : IsPlain ({} : OStream) := ⟨rfl, rfl, rfl, rfl, rfl⟩

variable {os : OStream}

theorem append (h : os.IsPlain) (s : Str) : (os.append s).IsPlain :=
  ⟨h.bad, h.base, h.showbase, h.showpos, h.width⟩

/-- With no pending width an item is appended as it is. -/
theorem put (h : os.IsPlain) (sign body : Str) :
    os.put sign body = os.append (sign ++ body) := by
  obtain ⟨hbad, -, -, -, hwidth⟩ := h
  unfold OStream.put OStream.append padded
  cases os.adjust <;> simp [hbad, hwidth]

theorem putStr (h : os.IsPlain) (s : Str) : os.putStr s = os.append s :=
  h.put [] s

theorem putUnsigned (h : os.IsPlain) (n : UInt32) :
    os.putUnsigned n = os.append (natText n.toNat) := by
  unfold OStream.putUnsigned
  rw [h.put]
  simp [basePrefix, digits, h.base, natText]

theorem putInt (h : os.IsPlain) (n : Int32) :
    os.putInt n = os.append (intText n.toInt) := by
  unfold OStream.putInt
  rw [h.base]
  simp only [h.put, h.showpos, intText]
  split <;> rfl

end IsPlain

end OStream

end SylarCot.Log
