/-
  SylarCot.Config.LexicalCast.LexicalCastInt
  ──────────────────────────────────────────
  `boost::lexical_cast<int>` of a string: an optional sign, then nothing but
  digits, and a value in the range of `int`; anything else throws.

    • `lexicalCastInt_intText` — it undoes the decimal text of an `int`.
-/
import SylarCot.Log.OStream
import SylarCot.Config.ConfigVar

namespace SylarCot.Config

open SylarCot.Log (Str intText)

/-- The text after the sign. -/
def unsignedPart : Str → Str
  | '-' :: ds => ds
  | '+' :: ds => ds
  | ds => ds

/-- `boost::lexical_cast<int>(s)` -/
def lexicalCastInt (s : Str) : Except Thrown Int32 :=
  let digits := unsignedPart s
  let magnitude : Int := Nat.ofDigitChars 10 digits 0
  let n := if s.head? = some '-' then -magnitude else magnitude
  if digits ≠ [] ∧ digits.all Char.isDigit ∧ -2147483648 ≤ n ∧ n < 2147483648 then .ok (.ofInt n)
  else .error .stdException

/-- A text without a sign is its own digits. -/
theorem unsignedPart_digits {ds : Str} (h : ∀ c ∈ ds, c.isDigit = true) :
    unsignedPart ds = ds ∧ ds.head? ≠ some '-' := by
  cases ds with
  | nil => exact ⟨rfl, by simp⟩
  | cons c cs =>
      have hc := h c List.mem_cons_self
      have hminus : c ≠ '-' := by
        rintro rfl
        exact absurd hc (by decide)
      have hplus : c ≠ '+' := by
        rintro rfl
        exact absurd hc (by decide)
      refine ⟨?_, by simp [hminus]⟩
      unfold unsignedPart
      split
      · next heq => exact absurd (List.cons.inj heq).1 hminus
      · next heq => exact absurd (List.cons.inj heq).1 hplus
      · rfl

/-- The decimal text of a number: its digits, and a minus sign in front of them
exactly when it is negative. -/
theorem intText_parts (k : Int) :
    unsignedPart (intText k) = Nat.toDigits 10 k.natAbs ∧
      ((intText k).head? = some '-' ↔ k < 0) := by
  have hdigits : ∀ c ∈ Nat.toDigits 10 k.natAbs, c.isDigit = true := fun c hc =>
    Nat.isDigit_of_mem_toDigits (by decide) (by decide) hc
  unfold intText
  by_cases hk : k < 0
  · rw [if_pos hk]
    exact ⟨rfl, fun _ => hk, fun _ => rfl⟩
  · rw [if_neg hk, List.nil_append]
    obtain ⟨hpart, hhead⟩ := unsignedPart_digits hdigits
    exact ⟨hpart, fun h => absurd h hhead, fun h => absurd h hk⟩

/-- **The cast undoes the decimal text.** -/
theorem lexicalCastInt_intText (n : Int32) : lexicalCastInt (intText n.toInt) = .ok n := by
  obtain ⟨hpart, hsign⟩ := intText_parts n.toInt
  have hdigits : (Nat.toDigits 10 n.toInt.natAbs).all Char.isDigit = true :=
    List.all_eq_true.mpr fun c hc => Nat.isDigit_of_mem_toDigits (by decide) (by decide) hc
  have hlower : -2147483648 ≤ n.toInt := n.le_toInt
  have hupper : n.toInt < 2147483648 := n.toInt_lt
  have hvalue : (if (intText n.toInt).head? = some '-' then -(n.toInt.natAbs : Int)
      else (n.toInt.natAbs : Int)) = n.toInt := by
    by_cases hneg : n.toInt < 0
    · rw [if_pos (hsign.mpr hneg)]
      omega
    · rw [if_neg (mt hsign.mp hneg)]
      omega
  unfold lexicalCastInt
  simp only
  rw [hpart, Nat.ofDigitChars_ten_toDigits, hvalue,
      if_pos ⟨Nat.toDigits_ne_nil, hdigits, hlower, hupper⟩, Int32.ofInt_toInt]

end SylarCot.Config
