/-
  SylarCot.Library.Digits
  ───────────────────────
  **NUMERALS IN TWO BASES, AND TEXTS COMPARED PIECE BY PIECE.**

  A number has at most as many digits in the larger of two bases, and the same
  digits in both only if it has one digit (`toDigits_eq_iff`).

  Two concatenations over one list are compared through an additive measure of
  texts (their length, the number of some char in them):

    • `measure_flatMap_le` — pieces that are no larger give no larger a whole;
    • `measure_flatMap_tight` — and if the wholes are as large, so is every piece;
    • `flatMap_eq_of_length` — equal wholes of no longer pieces have equal pieces.
-/
import Mathlib.Data.List.Basic

namespace SylarCot.Library

/-! ## §1. Numerals. -/

theorem digitChar_inj {m n : Nat} (hm : m < 16) (hn : n < 16) (h : m.digitChar = n.digitChar) :
    m = n := by
  have hall : ∀ m < 16, ∀ n < 16, m.digitChar = n.digitChar → m = n := by decide
  exact hall m hm n hn h

/-- The chars of a numeral are digits. -/
theorem exists_digitChar {b : Nat} (hb : 1 < b) {c : Char} :
    ∀ {n : Nat}, c ∈ Nat.toDigits b n → ∃ d < b, c = d.digitChar := by
  intro n
  induction n using Nat.strongRecOn with
  | ind n ih =>
      intro hc
      by_cases hn : n < b
      · rw [Nat.toDigits_of_lt_base hn] at hc
        exact ⟨n, hn, List.mem_singleton.mp hc⟩
      · rw [Nat.toDigits_of_base_le hb (by omega)] at hc
        rcases List.mem_append.mp hc with hc | hc
        · exact ih (n / b) (Nat.div_lt_self (by omega) hb) hc
        · exact ⟨n % b, Nat.mod_lt n (by omega), List.mem_singleton.mp hc⟩

/-- A larger base needs no more digits. -/
theorem length_toDigits_anti {b b' : Nat} (hb : 1 < b) (hbb : b ≤ b') (n : Nat) :
    (Nat.toDigits b' n).length ≤ (Nat.toDigits b n).length := by
  rw [Nat.length_toDigits_le_iff (by omega) Nat.length_toDigits_pos]
  have hn : n < b ^ (Nat.toDigits b n).length :=
    (Nat.length_toDigits_le_iff hb Nat.length_toDigits_pos).mp (Nat.le_refl _)
  exact Nat.lt_of_lt_of_le hn (Nat.pow_le_pow_left hbb _)

/-- Below the base a number has one digit. -/
theorem length_toDigits_le_one {b : Nat} (hb : 1 < b) (n : Nat) :
    (Nat.toDigits b n).length ≤ 1 ↔ n < b := by
  rw [Nat.length_toDigits_le_iff hb Nat.one_pos, Nat.pow_one]

/-- Read in a larger base a numeral stands for no smaller a number, and for a larger
one if it has two digits or more. -/
theorem toDigits_lt {b b' : Nat} (hb : 1 < b) (hbb : b < b') (hb' : b' ≤ 16) :
    ∀ {n m : Nat}, Nat.toDigits b n = Nat.toDigits b' m → n ≤ m ∧ (b ≤ n → n < m) := by
  intro n
  -- the last digits are equal; the digits before them are the induction's
  induction n using Nat.strongRecOn with
  | ind n ih =>
      intro m h
      have hone : n < b ↔ m < b' := by
        rw [← length_toDigits_le_one hb, ← length_toDigits_le_one (by omega), h]
      by_cases hn : n < b
      · rw [Nat.toDigits_of_lt_base hn, Nat.toDigits_of_lt_base (hone.mp hn)] at h
        have hm := hone.mp hn
        have heq := digitChar_inj (by omega) (by omega) (List.singleton_inj.mp h)
        exact ⟨by omega, by omega⟩
      · have hm := mt hone.mpr hn
        rw [Nat.toDigits_of_base_le (n := n) hb (by omega),
            Nat.toDigits_of_base_le (n := m) (by omega) (by omega)] at h
        obtain ⟨hinit, hlast⟩ := List.append_inj' h rfl
        have hmod : n % b = m % b' :=
          digitChar_inj (Nat.lt_of_lt_of_le (Nat.mod_lt n (by omega)) (by omega))
            (Nat.lt_of_lt_of_le (Nat.mod_lt m (by omega)) hb') (List.singleton_inj.mp hlast)
        have hdiv := (ih (n / b) (Nat.div_lt_self (by omega) hb) hinit).1
        have hpos : 0 < n / b := Nat.div_pos (by omega) (by omega)
        have hlt : n < m := by
          calc n = b * (n / b) + n % b := (Nat.div_add_mod n b).symm
            _ ≤ b * (m / b') + n % b := Nat.add_le_add_right (Nat.mul_le_mul_left b hdiv) _
            _ < b' * (m / b') + n % b :=
                Nat.add_lt_add_right (Nat.mul_lt_mul_of_pos_right hbb (by omega)) _
            _ = m := by rw [hmod, Nat.div_add_mod]
        exact ⟨by omega, fun _ => hlt⟩

/-- **A number has the same digits in two bases** exactly if it has one digit. -/
theorem toDigits_eq_iff {b b' : Nat} (hb : 1 < b) (hbb : b < b') (hb' : b' ≤ 16) (n : Nat) :
    Nat.toDigits b n = Nat.toDigits b' n ↔ n < b := by
  constructor
  · intro h
    by_contra hn
    exact Nat.lt_irrefl n ((toDigits_lt hb hbb hb' h).2 (by omega))
  · intro h
    rw [Nat.toDigits_of_lt_base h, Nat.toDigits_of_lt_base (by omega)]

/-! ## §2. Concatenations piece by piece. -/

section Pieces

variable {α β : Type*} {f g : α → List β} (μ : List β → Nat)

theorem measure_flatMap_le (hadd : ∀ s t, μ (s ++ t) = μ s + μ t) :
    ∀ as : List α, (∀ a ∈ as, μ (f a) ≤ μ (g a)) → μ (as.flatMap f) ≤ μ (as.flatMap g)
  | [], _ => Nat.le_refl _
  | a :: as, h => by
      rw [List.flatMap_cons, List.flatMap_cons, hadd, hadd]
      exact Nat.add_le_add (h a List.mem_cons_self)
        (measure_flatMap_le hadd as fun b hb => h b (List.mem_cons_of_mem a hb))

theorem measure_flatMap_tight (hadd : ∀ s t, μ (s ++ t) = μ s + μ t) :
    ∀ as : List α, (∀ a ∈ as, μ (f a) ≤ μ (g a)) → μ (as.flatMap f) = μ (as.flatMap g) →
      ∀ a ∈ as, μ (f a) = μ (g a)
  | [], _, _ => fun a ha => by cases ha
  | a :: as, h, heq => by
      rw [List.flatMap_cons, List.flatMap_cons, hadd, hadd] at heq
      have htail : ∀ b ∈ as, μ (f b) ≤ μ (g b) := fun b hb => h b (List.mem_cons_of_mem a hb)
      have hhead := h a List.mem_cons_self
      have hle := measure_flatMap_le μ hadd as htail
      intro b hb
      rcases List.mem_cons.mp hb with rfl | hb
      · omega
      · exact measure_flatMap_tight hadd as htail (by omega) b hb

/-- **Equal wholes** of no longer pieces have equal pieces. -/
theorem flatMap_eq_of_length :
    ∀ as : List α, (∀ a ∈ as, (f a).length ≤ (g a).length) → as.flatMap f = as.flatMap g →
      ∀ a ∈ as, f a = g a
  | [], _, _ => fun a ha => by cases ha
  | a :: as, h, heq => by
      have hlen := measure_flatMap_tight List.length (fun _ _ => List.length_append) (a :: as) h
        (congrArg List.length heq) a List.mem_cons_self
      rw [List.flatMap_cons, List.flatMap_cons] at heq
      obtain ⟨hhead, htail⟩ := List.append_inj heq hlen
      intro b hb
      rcases List.mem_cons.mp hb with rfl | hb
      · exact hhead
      · exact flatMap_eq_of_length as (fun c hc => h c (List.mem_cons_of_mem a hc)) htail b hb

end Pieces

end SylarCot.Library
