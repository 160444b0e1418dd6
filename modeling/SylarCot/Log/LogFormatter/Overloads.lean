/-
  SylarCot.Log.LogFormatter.Overloads
  ───────────────────────────────────
  **THE TWO `format` OVERLOADS AGAINST EACH OTHER.**

  `format(event)` writes to a fresh stream, `format(ofs, event)` to the caller's,
  and the items insert with whatever flags and pending width they find there.

    • `formatTo_text` — on a good stream the items write their texts under its flags,
      with the fill of the pending width somewhere in the first of them;
    • `unsignedIn_eq_iff`, `intIn_eq_iff` — when a number prints as on a fresh stream;
    • `overloads_agree_iff` — the overloads agree exactly if every date fits its buffer, the
      first item takes up the pending width and the flags change no number of any item.

  Equality of the two texts says little about their pieces: in base 16 numbers get
  shorter, and fill chars that are digits can make up for the difference.  That is
  the one case the equivalence leaves out (`MayMakeUp`), and it depends on the fill.

  The stream may be the event's own, `event->getSS()`: there `%m` prints what has been
  written before it as well, and the overloads agree only if that is nothing
  (`ReadsFirst`).
-/
import Mathlib.Data.List.Induction
import SylarCot.Library.Digits
import SylarCot.Log.LogFormatter.Meaning

namespace SylarCot.Log

open SylarCot.Library

/-! ## §1. What an inserter writes. -/

namespace OStream

/-- An unsigned number under the stream's flags. -/
def unsignedIn (os : OStream) (n : Nat) : Str := os.basePrefix n ++ os.digits n

/-- An `int32_t` under the stream's flags. -/
def intIn (os : OStream) (n : Int32) : Str :=
  match os.base with
  | .dec =>
      (if n.toInt < 0 then ['-'] else if os.showpos then ['+'] else [])
        ++ Nat.toDigits 10 n.toInt.natAbs
  | _ => os.unsignedIn n.toUInt32.toNat

/-- `os.fill(c)`. -/
def withFill (os : OStream) (c : Char) : OStream := { os with fill := c }

/-- The fill an item of length `n` gets. -/
def fillFor (os : OStream) (n : Nat) : Str := List.replicate (os.width - n) os.fill

/-- **What `put` writes**: the item with the fill somewhere in it. -/
theorem put_eq {os : OStream} (hgood : os.bad = false) (sign body : Str) :
    ∃ u v, u ++ v = sign ++ body ∧ os.put sign body
      = { os with
          text := os.text ++ (u ++ os.fillFor (sign ++ body).length ++ v)
          width := 0 } := by
  have hput : os.put sign body
      = { os with text := os.text ++ os.padded sign body, width := 0 } := by
    unfold put
    rw [hgood]
    rfl
  rw [hput]
  unfold padded
  cases os.adjust with
  | right => exact ⟨[], sign ++ body, rfl, by simp [fillFor]⟩
  | left => exact ⟨sign ++ body, [], List.append_nil _, by simp [fillFor]⟩
  | internal => exact ⟨sign, body, rfl, by simp [fillFor]⟩

/-- An `int32_t` is inserted as a prefix and a body of `intIn`. -/
theorem putInt_eq (os : OStream) (n : Int32) :
    ∃ sign body, sign ++ body = os.intIn n ∧ os.putInt n = os.put sign body := by
  unfold putInt intIn
  cases os.base with
  | dec => exact ⟨_, _, rfl, rfl⟩
  | oct => exact ⟨_, _, rfl, rfl⟩
  | hex => exact ⟨_, _, rfl, rfl⟩

end OStream

/-! ## §2. What the items write. -/

/-- What an item contributes to a stream with these flags, fill apart. -/
def FormatItem.textIn (lib : Libc) (event : LogEvent) (os : OStream) : FormatItem → Str
  | .ElapseFormatItem => os.unsignedIn event.getElapse.toNat
  | .ThreadIdFormatItem => os.unsignedIn event.getThreadId.toNat
  | .FiberIdFormatItem => os.unsignedIn event.getFiberId.toNat
  | .LineFormatItem => os.intIn event.getLine
  | item => item.text lib event

section Write

variable (lib : Libc) {event : LogEvent} (hfile : event.getFile ≠ none) {os : OStream}
  (hgood : os.bad = false)

include hfile hgood

/-- **One item** on a good stream. -/
theorem format_eq (item : FormatItem) :
    ∃ u v, u ++ v = item.textIn lib event os ∧ item.format lib os event
      = { os with
          text := os.text ++ (u ++ os.fillFor (item.textIn lib event os).length ++ v)
          width := 0 } := by
  cases item with
  | ElapseFormatItem => exact OStream.put_eq hgood _ _
  | ThreadIdFormatItem => exact OStream.put_eq hgood _ _
  | FiberIdFormatItem => exact OStream.put_eq hgood _ _
  | LineFormatItem =>
      obtain ⟨sign, body, hint, hput⟩ := os.putInt_eq event.getLine
      show ∃ u v, u ++ v = os.intIn event.getLine ∧ os.putInt event.getLine = _
      rw [hput]
      show ∃ u v, _ ∧ _ = { os with
          text := os.text ++ (u ++ os.fillFor (os.intIn event.getLine).length ++ v), width := 0 }
      rw [← hint]
      exact OStream.put_eq hgood sign body
  | FilenameFormatItem =>
      obtain ⟨f, hf⟩ := Option.ne_none_iff_exists'.mp hfile
      simp only [FormatItem.textIn, FormatItem.format, FormatItem.text, hf, OStream.putCStr,
        Option.getD_some]
      exact OStream.put_eq hgood [] f
  | _ => exact OStream.put_eq hgood [] _

/-- **Behind the first item** there is no width pending, and nothing is filled. -/
theorem formatAll_eq (items : List FormatItem) :
    ∀ os' : OStream, os' = { os with text := os'.text, width := 0 } →
      (formatAll lib os' event items).text
        = os'.text ++ items.flatMap (FormatItem.textIn lib event os) := by
  induction items with
  | nil =>
      intro os' _
      exact (List.append_nil _).symm
  | cons i items ih =>
      intro os' hos'
      have hgood' : os'.bad = false := by
        rw [hos']
        exact hgood
      have htext : i.textIn lib event os' = i.textIn lib event os := by
        rw [hos']
        cases i <;> rfl
      obtain ⟨u, v, huv, hformat⟩ := format_eq lib hfile hgood' i
      -- the first item has used the width up
      have hfill : os'.fillFor (i.textIn lib event os').length = [] := by
        unfold OStream.fillFor
        rw [show os'.width = 0 by rw [hos']]
        simp
      rw [hfill, List.append_nil, huv, htext] at hformat
      show (formatAll lib (i.format lib os' event) event items).text = _
      rw [hformat, ih]
      · show (os'.text ++ _) ++ _ = _
        rw [List.append_assoc]
        rfl
      · rw [hos']

end Write

/-! ## §3. Numbers that print as on a fresh stream. -/

/-- The number a base is named after. -/
def Base.radix : Base → Nat
  | .dec => 10
  | .oct => 8
  | .hex => 16

namespace OStream

/-- The number prints in the stream's base as it does in base 10. -/
def PrintsDecimal (os : OStream) (n : Nat) : Prop :=
  os.base = .dec ∨ (n < min os.base.radix 10 ∧ (os.showbase = true → n = 0))

/-- The signed number prints on the stream as on a fresh one: `showpos` applies in base 10
only, and the other bases have no negative numbers. -/
def PrintsSigned (os : OStream) (n : Int) : Prop :=
  (os.base = .dec ∧ (os.showpos = true → n < 0)) ∨
    (os.base ≠ .dec ∧ 0 ≤ n ∧ os.PrintsDecimal n.toNat)

instance (os : OStream) (n : Nat) : Decidable (os.PrintsDecimal n) :=
  inferInstanceAs (Decidable (_ ∨ _))

instance (os : OStream) (n : Int) : Decidable (os.PrintsSigned n) :=
  inferInstanceAs (Decidable (_ ∨ _))

/-- A digit above 9 in the case the stream asks for. -/
def inCase (os : OStream) (c : Char) : Char := if os.uppercase then c.toUpper else c

variable {os : OStream} {n : Nat}

theorem unsignedIn_dec (h : os.base = .dec) (n : Nat) : os.unsignedIn n = natText n := by
  unfold unsignedIn basePrefix digits
  rw [h]
  rfl

theorem unsignedIn_oct (h : os.base = .oct) (n : Nat) :
    os.unsignedIn n
      = (if os.showbase && n != 0 then ['0'] else []) ++ Nat.toDigits 8 n := by
  unfold unsignedIn basePrefix digits
  rw [h]
  rfl

theorem unsignedIn_hex (h : os.base = .hex) (n : Nat) :
    os.unsignedIn n = os.basePrefix n ++ (Nat.toDigits 16 n).map os.inCase := by
  unfold unsignedIn digits inCase
  rw [h]
  cases os.uppercase with
  | true => rfl
  | false => simp

/-- The chars of a hexadecimal numeral under the stream's flags. -/
theorem inCase_digitChar (os : OStream) {d : Nat} (hd : d < 16) :
    os.inCase d.digitChar ≠ '-' ∧
      ((os.inCase d.digitChar).isDigit = true → os.inCase d.digitChar = d.digitChar) := by
  unfold inCase
  have hall : ∀ b : Bool, ∀ d < 16,
      (if b then d.digitChar.toUpper else d.digitChar) ≠ '-' ∧
        ((if b then d.digitChar.toUpper else d.digitChar).isDigit = true →
          (if b then d.digitChar.toUpper else d.digitChar) = d.digitChar) := by decide
  exact hall os.uppercase d hd

theorem isDigit_natText {n : Nat} {c : Char} (h : c ∈ natText n) : c.isDigit = true :=
  Nat.isDigit_of_mem_toDigits (by decide) (by decide) h

/-- What `showbase` puts in front of hexadecimal numbers. -/
theorem basePrefix_cases (os : OStream) (n : Nat) :
    os.basePrefix n = [] ∨ os.basePrefix n = ['0', 'x'] ∨ os.basePrefix n = ['0', 'X'] := by
  unfold basePrefix
  split
  · split
    · exact .inr (.inr rfl)
    · exact .inr (.inl rfl)
  · exact .inl rfl

/-- **A hexadecimal numeral is a decimal one** only for one digit below 10. -/
theorem hex_eq_iff (os : OStream) (n : Nat) :
    (Nat.toDigits 16 n).map os.inCase = natText n ↔ n < 10 := by
  constructor
  · intro h
    -- all its chars are digits below 10, which have no case
    have hsame : (Nat.toDigits 16 n).map os.inCase = Nat.toDigits 16 n := by
      conv_rhs => rw [← List.map_id (Nat.toDigits 16 n)]
      refine List.map_congr_left fun c hc => ?_
      obtain ⟨d, hd, rfl⟩ := exists_digitChar (by decide) hc
      have hmem : os.inCase d.digitChar ∈ natText n := by
        rw [← h]
        exact List.mem_map.mpr ⟨_, hc, rfl⟩
      exact (os.inCase_digitChar hd).2 (isDigit_natText hmem)
    rw [hsame] at h
    exact (toDigits_eq_iff (by decide) (by decide) (by decide) n).mp h.symm
  · intro h
    have hdigit : os.inCase n.digitChar = n.digitChar := by
      have hall : ∀ b : Bool, ∀ d < 10,
          (if b then d.digitChar.toUpper else d.digitChar) = d.digitChar := by decide
      exact hall os.uppercase n h
    rw [Nat.toDigits_of_lt_base (by omega), natText, Nat.toDigits_of_lt_base h, List.map_singleton,
        hdigit]

/-- A prefix never belongs to a decimal number. -/
theorem prefix_ne (h : os.basePrefix n ≠ []) (t s : Str) (hs : ∀ c ∈ s, c.isDigit = true) :
    os.basePrefix n ++ t ≠ s := by
  intro heq
  rcases os.basePrefix_cases n with hp | hp | hp
  · exact h hp
  · rw [hp] at heq
    exact absurd (hs 'x' (by rw [← heq]; simp)) (by decide)
  · rw [hp] at heq
    exact absurd (hs 'X' (by rw [← heq]; simp)) (by decide)

theorem basePrefix_eq_nil_iff (h : os.base = .hex) (n : Nat) :
    os.basePrefix n = [] ↔ (os.showbase = true → n = 0) := by
  unfold basePrefix
  by_cases hshow : os.showbase = true ∧ n ≠ 0
  · rw [if_pos ⟨h, hshow⟩]
    refine iff_of_false ?_ (fun himp => hshow.2 (himp hshow.1))
    cases os.uppercase <;> simp
  · rw [if_neg (fun hall => hshow hall.2)]
    refine iff_of_true rfl (fun htrue => ?_)
    by_contra hn
    exact hshow ⟨htrue, hn⟩

/-- **When an unsigned number prints as on a fresh stream.** -/
theorem unsignedIn_eq_iff (os : OStream) (n : Nat) :
    os.unsignedIn n = natText n ↔ os.PrintsDecimal n := by
  unfold PrintsDecimal
  cases hb : os.base with
  | dec => exact iff_of_true (unsignedIn_dec hb n) (.inl rfl)
  | oct =>
      rw [unsignedIn_oct hb, or_iff_right (by simp)]
      show _ ↔ n < min 8 10 ∧ _
      by_cases hshow : os.showbase = true ∧ n ≠ 0
      · -- with its 0 in front the octal numeral is longer than the decimal one
        refine iff_of_false (fun h => ?_) (fun h => hshow.2 (h.2 hshow.1))
        rw [if_pos (by simp [hshow.1, hshow.2])] at h
        have hlen := congrArg List.length h
        have hle := @length_toDigits_anti 8 10 (by decide) (by decide) n
        simp only [List.length_append, List.length_singleton, natText] at hlen
        omega
      · have himp : os.showbase = true → n = 0 := by
          intro htrue
          by_contra hn
          exact hshow ⟨htrue, hn⟩
        rw [if_neg (by simpa using himp), List.nil_append, and_iff_left himp]
        exact toDigits_eq_iff (by decide) (by decide) (by decide) n
  | hex =>
      rw [unsignedIn_hex hb, or_iff_right (by simp), ← basePrefix_eq_nil_iff hb]
      show _ ↔ n < min 16 10 ∧ _
      by_cases hp : os.basePrefix n = []
      · rw [and_iff_left hp, hp, List.nil_append]
        exact os.hex_eq_iff n
      · exact iff_of_false (prefix_ne hp _ _ fun _ => isDigit_natText) (fun h => hp h.2)

/-- Outside base 10 an `int32_t` prints as the `uint32_t` with its bits. -/
theorem intIn_of_not_dec (h : os.base ≠ .dec) (n : Int32) :
    os.intIn n = os.unsignedIn n.toUInt32.toNat := by
  unfold intIn
  cases hb : os.base with
  | dec => exact absurd hb h
  | oct => rfl
  | hex => rfl

theorem toUInt32_cases (n : Int32) :
    (0 ≤ n.toInt ∧ n.toUInt32.toNat = n.toInt.toNat) ∨
      (n.toInt < 0 ∧ n.toInt.natAbs ≤ 2147483648 ∧ 2147483648 ≤ n.toUInt32.toNat) := by
  have hint : n.toInt = n.toBitVec.toInt := rfl
  have hnat : n.toUInt32.toNat = n.toBitVec.toNat := rfl
  have hlt := n.toBitVec.isLt
  rw [hint, hnat, BitVec.toInt_eq_toNat_cond]
  split <;> omega

theorem intText_of_nonneg {n : Int} (h : 0 ≤ n) : intText n = natText n.toNat := by
  unfold intText
  rw [if_neg (by omega), show n.natAbs = n.toNat by omega]
  rfl

/-- No number has a sign outside base 10. -/
theorem minus_not_mem (h : os.base ≠ .dec) (n : Nat) : '-' ∉ os.unsignedIn n := by
  cases hb : os.base with
  | dec => exact absurd hb h
  | oct =>
      rw [unsignedIn_oct hb]
      intro hmem
      rcases List.mem_append.mp hmem with hmem | hmem
      · split at hmem
        · cases List.mem_singleton.mp hmem
        · cases hmem
      · exact absurd (Nat.isDigit_of_mem_toDigits (by decide) (by decide) hmem) (by decide)
  | hex =>
      rw [unsignedIn_hex hb]
      intro hmem
      rcases List.mem_append.mp hmem with hmem | hmem
      · rcases os.basePrefix_cases n with hp | hp | hp <;> rw [hp] at hmem <;> simp at hmem
      · obtain ⟨c, hc, hminus⟩ := List.mem_map.mp hmem
        obtain ⟨d, hd, rfl⟩ := exists_digitChar (by decide) hc
        exact (os.inCase_digitChar hd).1 hminus

/-- **When a signed number prints as on a fresh stream.** -/
theorem intIn_eq_iff (os : OStream) (n : Int32) :
    os.intIn n = intText n.toInt ↔ os.PrintsSigned n.toInt := by
  unfold PrintsSigned
  by_cases hb : os.base = .dec
  · rw [or_iff_left (fun h => h.1 hb), and_iff_right hb]
    unfold intIn intText
    rw [hb]
    show _ ++ _ = _ ++ _ ↔ _
    rw [List.append_cancel_right_eq]
    by_cases hneg : n.toInt < 0
    · simp [hneg]
    · simp [hneg]
  · rw [or_iff_right (fun h => hb h.1), and_iff_right hb, intIn_of_not_dec hb]
    rcases toUInt32_cases n with ⟨hpos, hnat⟩ | ⟨hneg, -, -⟩
    · rw [intText_of_nonneg hpos, hnat, and_iff_right hpos]
      exact os.unsignedIn_eq_iff _
    · -- a negative number loses its sign
      refine iff_of_false (fun h => minus_not_mem hb n.toUInt32.toNat ?_) (fun h => by omega)
      rw [h]
      unfold intText
      rw [if_pos hneg]
      simp

end OStream

/-! ## §4. Items that print as on a fresh stream. -/

/-- The stream's flags do not change what the item prints of the event. -/
def FormatItem.Undisturbed (event : LogEvent) (os : OStream) : FormatItem → Prop
  | .ElapseFormatItem => os.PrintsDecimal event.getElapse.toNat
  | .ThreadIdFormatItem => os.PrintsDecimal event.getThreadId.toNat
  | .FiberIdFormatItem => os.PrintsDecimal event.getFiberId.toNat
  | .LineFormatItem => os.PrintsSigned event.getLine.toInt
  | _ => True

instance (event : LogEvent) (os : OStream) :
    ∀ item : FormatItem, Decidable (item.Undisturbed event os)
  | .ElapseFormatItem => inferInstanceAs (Decidable (os.PrintsDecimal _))
  | .ThreadIdFormatItem => inferInstanceAs (Decidable (os.PrintsDecimal _))
  | .FiberIdFormatItem => inferInstanceAs (Decidable (os.PrintsDecimal _))
  | .LineFormatItem => inferInstanceAs (Decidable (os.PrintsSigned _))
  | .MessageFormatItem | .LevelFormatItem | .NameFormatItem | .ThreadNameFormatItem
  | .DateTimeFormatItem _ | .NewLineFormatItem | .FilenameFormatItem | .TabFormatItem
  | .StringFormatItem _ | .PercentSignFormatItem => .isTrue trivial

section Items

variable (lib : Libc) (event : LogEvent) {os : OStream}

theorem textIn_eq_iff (os : OStream) (item : FormatItem) :
    item.textIn lib event os = item.text lib event ↔ item.Undisturbed event os := by
  cases item with
  | ElapseFormatItem => exact os.unsignedIn_eq_iff _
  | ThreadIdFormatItem => exact os.unsignedIn_eq_iff _
  | FiberIdFormatItem => exact os.unsignedIn_eq_iff _
  | LineFormatItem => exact os.intIn_eq_iff _
  | _ => exact iff_of_true rfl trivial

/-- An item prints an unsigned number, a signed one, or a text. -/
theorem textIn_cases (os : OStream) (item : FormatItem) :
    (∃ n, item.textIn lib event os = os.unsignedIn n ∧ item.text lib event = natText n) ∨
      (∃ n : Int32, item.textIn lib event os = os.intIn n ∧
        item.text lib event = intText n.toInt) ∨
      item.textIn lib event os = item.text lib event := by
  cases item with
  | ElapseFormatItem => exact .inl ⟨_, rfl, rfl⟩
  | ThreadIdFormatItem => exact .inl ⟨_, rfl, rfl⟩
  | FiberIdFormatItem => exact .inl ⟨_, rfl, rfl⟩
  | LineFormatItem => exact .inr (.inl ⟨_, rfl, rfl⟩)
  | _ => exact .inr (.inr rfl)

/-- Outside base 10 signed numbers print as unsigned ones, negative ones as large ones. -/
theorem textIn_cases_of_not_dec (hb : os.base ≠ .dec) (item : FormatItem) :
    (∃ n, item.textIn lib event os = os.unsignedIn n ∧ item.text lib event = natText n) ∨
      (∃ n k, item.textIn lib event os = os.unsignedIn n ∧ item.text lib event = '-' :: natText k ∧
        k ≤ 2147483648 ∧ 2147483648 ≤ n) ∨
      item.textIn lib event os = item.text lib event := by
  rcases textIn_cases lib event os item with h | ⟨n, hin, htext⟩ | h
  · exact .inl h
  · rw [OStream.intIn_of_not_dec hb] at hin
    rcases OStream.toUInt32_cases n with ⟨hpos, hnat⟩ | ⟨hneg, habs, hlarge⟩
    · rw [OStream.intText_of_nonneg hpos, ← hnat] at htext
      exact .inl ⟨_, hin, htext⟩
    · refine .inr (.inl ⟨_, n.toInt.natAbs, hin, ?_, habs, hlarge⟩)
      rw [htext]
      unfold intText
      rw [if_pos hneg]
      rfl
  · exact .inr (.inr h)

/-- In bases 10 and 8 no item gets shorter. -/
theorem length_text_le (hb : os.base ≠ .hex) (item : FormatItem) :
    (item.text lib event).length ≤ (item.textIn lib event os).length := by
  by_cases hdec : os.base = .dec
  · rcases textIn_cases lib event os item with ⟨n, hin, htext⟩ | ⟨n, hin, htext⟩ | h
    · exact Nat.le_of_eq (by rw [hin, htext, OStream.unsignedIn_dec hdec])
    · rw [hin, htext]
      unfold intText OStream.intIn
      rw [hdec]
      simp only [List.length_append]
      split
      · exact Nat.le_refl _
      · exact Nat.add_le_add_right (Nat.zero_le _) _
    · exact Nat.le_of_eq (congrArg List.length h.symm)
  · have hoct : os.base = .oct := by
      cases hb' : os.base with
      | dec => exact absurd hb' hdec
      | oct => rfl
      | hex => exact absurd hb' hb
    rcases textIn_cases_of_not_dec lib event hdec item with
      ⟨n, hin, htext⟩ | ⟨n, k, hin, htext, hk, hn⟩ | h
    · rw [hin, htext, OStream.unsignedIn_oct hoct, List.length_append]
      have hle := @length_toDigits_anti 8 10 (by decide) (by decide) n
      exact Nat.le_trans hle (Nat.le_add_left _ _)
    · -- "-2147483648" has 11 chars, and so has the least octal number with bit 31 set
      rw [hin, htext, OStream.unsignedIn_oct hoct, List.length_append, List.length_cons]
      have hdecimal : (natText k).length ≤ 10 :=
        (Nat.length_toDigits_le_iff (by decide) (by decide)).mpr (by omega)
      have hoctal : ¬ (Nat.toDigits 8 n).length ≤ 10 := by
        rw [Nat.length_toDigits_le_iff (by decide) (by decide)]
        omega
      omega
    · exact Nat.le_of_eq (congrArg List.length h.symm)

/-- A char that is in no decimal number. -/
def Foreign (c : Char) : Prop := c.isDigit = false ∧ c ≠ '-'

instance (c : Char) : Decidable (Foreign c) := inferInstanceAs (Decidable (_ ∧ _))

theorem count_natText {c : Char} (hc : c.isDigit = false) (n : Nat) : (natText n).count c = 0 := by
  rw [List.count_eq_zero]
  intro hmem
  rw [OStream.isDigit_natText hmem] at hc
  cases hc

/-- Outside base 10 no item loses a char that decimal numbers do not have. -/
theorem count_text_le (hb : os.base ≠ .dec) {c : Char} (hc : Foreign c) (item : FormatItem) :
    (item.text lib event).count c ≤ (item.textIn lib event os).count c := by
  rcases textIn_cases_of_not_dec lib event hb item with ⟨n, -, htext⟩ | ⟨n, k, -, htext, -⟩ | h
  · rw [htext, count_natText hc.1]
    exact Nat.zero_le _
  · rw [htext, List.count_cons_of_ne hc.2.symm, count_natText hc.1]
    exact Nat.zero_le _
  · exact Nat.le_of_eq (congrArg (List.count c) h.symm)

/-- Outside base 10 no item gains a sign. -/
theorem count_minus_le (hb : os.base ≠ .dec) (item : FormatItem) :
    (item.textIn lib event os).count '-' ≤ (item.text lib event).count '-' := by
  have hzero : ∀ n, (os.unsignedIn n).count '-' = 0 := fun n =>
    List.count_eq_zero.mpr (OStream.minus_not_mem hb n)
  rcases textIn_cases_of_not_dec lib event hb item with ⟨n, hin, -⟩ | ⟨n, k, hin, -⟩ | h
  · rw [hin, hzero]
    exact Nat.zero_le _
  · rw [hin, hzero]
    exact Nat.zero_le _
  · exact Nat.le_of_eq (congrArg (List.count '-') h)

/-- In base 16 an item that gains no prefix and loses no sign gets no longer. -/
theorem length_textIn_le (hb : os.base = .hex) {item : FormatItem}
    (hminus : (item.textIn lib event os).count '-' = (item.text lib event).count '-')
    (hx : (item.text lib event).count 'x' = (item.textIn lib event os).count 'x')
    (hX : (item.text lib event).count 'X' = (item.textIn lib event os).count 'X') :
    (item.textIn lib event os).length ≤ (item.text lib event).length := by
  have hdec : os.base ≠ .dec := by
    rw [hb]
    decide
  rcases textIn_cases_of_not_dec lib event hdec item with
    ⟨n, hin, htext⟩ | ⟨n, k, hin, htext, -⟩ | h
  · rw [hin, htext] at hx hX
    rw [count_natText (by decide)] at hx hX
    rw [hin, htext, OStream.unsignedIn_hex hb]
    have hnone : os.basePrefix n = [] := by
      rcases os.basePrefix_cases n with hp | hp | hp
      · exact hp
      · rw [OStream.unsignedIn_hex hb, hp] at hx
        simp at hx
      · rw [OStream.unsignedIn_hex hb, hp] at hX
        simp at hX
    rw [hnone, List.nil_append, List.length_map]
    exact length_toDigits_anti (by decide) (by decide) n
  · rw [hin, htext, List.count_eq_zero.mpr (OStream.minus_not_mem hdec n),
        List.count_cons_self] at hminus
    omega
  · exact Nat.le_of_eq (congrArg List.length h)

end Items

/-! ## §5. The overloads. -/

section Agree

variable (lib : Libc) (event : LogEvent) (os : OStream)

/-- The fill the first item gets. -/
def firstFill : List FormatItem → Str
  | [] => []
  | i :: _ => os.fillFor (i.textIn lib event os).length

/-- The first item takes up the pending width. -/
def FitsWidth : List FormatItem → Prop
  | [] => True
  | i :: _ => os.width ≤ (i.text lib event).length

instance : ∀ items : List FormatItem, Decidable (FitsWidth lib event os items)
  | [] => .isTrue trivial
  | i :: _ => inferInstanceAs (Decidable (os.width ≤ (i.text lib event).length))

/-- `format(ofs, event)` appends what `format(event)` returns, whatever the buffers of the
latter hold. -/
def AppendsText (f : LogFormatter) : Prop :=
  ∀ leftover, (f.formatTo lib os event).text
    = os.text ++ f.format (lib.withLeftover leftover) event

/-- And so does `format(event->getSS(), event)`. -/
def AppendsOwn (f : LogFormatter) : Prop :=
  ∀ leftover, (f.formatOwn lib os event).text
    = os.text ++ f.format (lib.withLeftover leftover) event

/-- The dates fit their buffers, the first item takes up the width, and the stream's flags
change no number. -/
structure PrintsAlike (f : LogFormatter) : Prop where
  dates : f.DatesFit lib event
  width : FitsWidth lib event os f.m_items
  numbers : ∀ i ∈ f.m_items, i.Undisturbed event os

/-- Nothing is written in front of the content. -/
def ReadsFirst (items : List FormatItem) : Prop :=
  ∀ before after, items = before ++ .MessageFormatItem :: after → itemsText lib event before = []

/-- In base 16, where numbers get shorter, the fill is a char that numbers have. -/
def MayMakeUp : Prop :=
  os.base = .hex ∧ 0 < os.width ∧ ¬ Foreign os.fill

variable {os} (hfile : event.getFile ≠ none) (hgood : os.bad = false)

include hfile hgood

/-- **What `format(ofs, event)` writes**: the items under the stream's flags, with the
fill of the first somewhere in between. -/
theorem formatTo_text (f : LogFormatter) :
    ∃ u v, u ++ v = f.m_items.flatMap (FormatItem.textIn lib event os) ∧
      (f.formatTo lib os event).text = os.text ++ (u ++ firstFill lib event os f.m_items ++ v) := by
  unfold LogFormatter.formatTo
  cases f.m_items with
  | nil => exact ⟨[], [], rfl, (List.append_nil _).symm⟩
  | cons i items =>
      obtain ⟨u, v, huv, hformat⟩ := format_eq lib hfile hgood i
      refine ⟨u, v ++ items.flatMap (FormatItem.textIn lib event os), ?_, ?_⟩
      · rw [← List.append_assoc, huv]
        rfl
      · show (formatAll lib (i.format lib os event) event items).text = _
        rw [hformat, formatAll_eq lib hfile hgood items _ rfl]
        simp [firstFill]

/-- Where the overloads agree, the items' texts are those under the stream's flags with
the fill put in. -/
theorem filled_eq {f : LogFormatter} (h : AppendsText lib event os f) :
    ∃ u v, u ++ v = f.m_items.flatMap (FormatItem.textIn lib event os) ∧
      u ++ firstFill lib event os f.m_items ++ v
        = f.m_items.flatMap (FormatItem.text lib event) := by
  obtain ⟨u, v, huv, htext⟩ := formatTo_text lib event hfile hgood f
  have heq := List.append_cancel_left (htext.symm.trans (h lib.leftover))
  change _ = f.format lib event at heq
  rw [format_eq_itemsText lib f event hfile] at heq
  exact ⟨u, v, huv, heq⟩

/-- The two differ by the fill under every additive measure. -/
theorem measure_of_appends {f : LogFormatter} (μ : Str → Nat)
    (hadd : ∀ s t, μ (s ++ t) = μ s + μ t) (h : AppendsText lib event os f) :
    μ (f.m_items.flatMap (FormatItem.textIn lib event os)) + μ (firstFill lib event os f.m_items)
      = μ (f.m_items.flatMap (FormatItem.text lib event)) := by
  obtain ⟨u, v, huv, heq⟩ := filled_eq lib event hfile hgood h
  rw [← huv, ← heq, hadd, hadd, hadd]
  omega

omit hfile hgood in
theorem firstFill_eq_replicate (items : List FormatItem) :
    ∃ k ≤ os.width, firstFill lib event os items = List.replicate k os.fill := by
  cases items with
  | nil => exact ⟨0, Nat.zero_le _, rfl⟩
  | cons i items => exact ⟨_, Nat.sub_le _ _, rfl⟩

/-- **No fill**: the overloads never agree by padding, unless the fill can make up for
shorter numbers. -/
theorem firstFill_eq_nil {f : LogFormatter} (hmake : ¬ MayMakeUp os)
    (h : AppendsText lib event os f) : firstFill lib event os f.m_items = [] := by
  have hmeasure := fun μ hadd => measure_of_appends lib event hfile hgood μ hadd h
  obtain ⟨k, hk, hfill⟩ := @firstFill_eq_replicate lib event os f.m_items
  rw [hfill] at hmeasure ⊢
  have hzero : k = 0 := by
    by_cases hhex : os.base = .hex
    · by_cases hwidth : os.width = 0
      · omega
      · have hforeign : Foreign os.fill := by
          by_contra hforeign
          exact hmake ⟨hhex, by omega, hforeign⟩
        -- the fill occurs in the items as often as in their texts, or more
        have hle : (f.m_items.flatMap (FormatItem.text lib event)).count os.fill
            ≤ (f.m_items.flatMap (FormatItem.textIn lib event os)).count os.fill :=
          measure_flatMap_le (List.count os.fill) (fun _ _ => List.count_append) f.m_items
            fun i _ => count_text_le lib event (by rw [hhex]; decide) hforeign i
        have hcount := hmeasure (List.count os.fill) (fun _ _ => List.count_append)
        rw [List.count_replicate_self] at hcount
        omega
    · -- the items under the flags are as long as their texts, or longer
      have hle : (f.m_items.flatMap (FormatItem.text lib event)).length
          ≤ (f.m_items.flatMap (FormatItem.textIn lib event os)).length :=
        measure_flatMap_le List.length (fun _ _ => List.length_append) f.m_items
          fun i _ => length_text_le lib event hhex i
      have hlen := hmeasure List.length (fun _ _ => List.length_append)
      rw [List.length_replicate] at hlen
      omega
  rw [hzero]
  rfl

/-- **Piece by piece**: without fill, equal texts come from equal items. -/
theorem items_eq {f : LogFormatter} (hfill : firstFill lib event os f.m_items = [])
    (h : AppendsText lib event os f) :
    ∀ i ∈ f.m_items, i.textIn lib event os = i.text lib event := by
  have hwhole : f.m_items.flatMap (FormatItem.textIn lib event os)
      = f.m_items.flatMap (FormatItem.text lib event) := by
    obtain ⟨u, v, huv, heq⟩ := filled_eq lib event hfile hgood h
    rw [hfill, List.append_nil] at heq
    exact huv.symm.trans heq
  by_cases hhex : os.base = .hex
  · have hdec : os.base ≠ .dec := by
      rw [hhex]
      decide
    -- no prefix is gained and no sign lost, so no item gets longer
    have hcount : ∀ c, (f.m_items.flatMap (FormatItem.textIn lib event os)).count c
        = (f.m_items.flatMap (FormatItem.text lib event)).count c := fun c =>
      congrArg (List.count c) hwhole
    have hminus := measure_flatMap_tight (List.count '-') (fun _ _ => List.count_append) f.m_items
      (fun i _ => count_minus_le lib event hdec i) (hcount '-')
    have hx := measure_flatMap_tight (List.count 'x') (fun _ _ => List.count_append) f.m_items
      (fun i _ => count_text_le lib event hdec (by decide) i) (hcount 'x').symm
    have hX := measure_flatMap_tight (List.count 'X') (fun _ _ => List.count_append) f.m_items
      (fun i _ => count_text_le lib event hdec (by decide) i) (hcount 'X').symm
    exact flatMap_eq_of_length f.m_items
      (fun i hi => length_textIn_le lib event hhex (hminus i hi) (hx i hi) (hX i hi)) hwhole
  · intro i hi
    exact (flatMap_eq_of_length f.m_items (fun i _ => length_text_le lib event hhex i)
      hwhole.symm i hi).symm

omit hfile hgood in
/-- Where the flags change no item, there is no fill exactly if the width is taken up. -/
theorem firstFill_eq_nil_iff {items : List FormatItem}
    (hitems : ∀ i ∈ items, i.textIn lib event os = i.text lib event) :
    firstFill lib event os items = [] ↔ FitsWidth lib event os items := by
  cases items with
  | nil => exact iff_of_true rfl trivial
  | cons i items =>
      show List.replicate (os.width - (i.textIn lib event os).length) os.fill = []
        ↔ os.width ≤ (i.text lib event).length
      rw [hitems i List.mem_cons_self, List.replicate_eq_nil_iff]
      exact Nat.sub_eq_zero_iff_le

/-- Where the width is taken up and no item is disturbed, the stream gets the items' texts. -/
theorem formatAll_of_fits {items : List FormatItem} (hfits : FitsWidth lib event os items)
    (hitems : ∀ i ∈ items, i.Undisturbed event os) :
    (formatAll lib os event items).text = os.text ++ itemsText lib event items := by
  have htextIn : ∀ i ∈ items, i.textIn lib event os = i.text lib event :=
    fun i hi => (textIn_eq_iff lib event os i).mpr (hitems i hi)
  obtain ⟨u, v, huv, htext⟩ := formatTo_text lib event hfile hgood { m_pattern := [], m_items := items }
  change (formatAll lib os event items).text = _ at htext
  rw [htext, (firstFill_eq_nil_iff lib event htextIn).mpr hfits, List.append_nil, huv]
  exact congrArg (os.text ++ ·) (List.flatMap_congr htextIn)

omit hgood in
/-- Under every buffer the texts are what the other overload has written, so all dates fit. -/
theorem datesFit_of_texts {f : LogFormatter} {s t : Str}
    (h : ∀ leftover, s = t ++ f.format (lib.withLeftover leftover) event) :
    f.DatesFit lib event := by
  refine fits_of_bounded (n := s.length) fun leftover => ?_
  rw [← format_eq_itemsText _ f event hfile, h leftover, List.length_append]
  exact Nat.le_add_left _ _

theorem appends_of_alike {f : LogFormatter} (h : PrintsAlike lib event os f) :
    AppendsText lib event os f := by
  intro leftover
  rw [LogFormatter.format_withLeftover h.dates, format_eq_itemsText lib f event hfile]
  exact formatAll_of_fits lib event hfile hgood h.width h.numbers

theorem appends_iff {f : LogFormatter} (hmake : ¬ MayMakeUp os) :
    AppendsText lib event os f ↔ PrintsAlike lib event os f := by
  constructor
  · intro h
    have hfill := firstFill_eq_nil lib event hfile hgood hmake h
    have hitems := items_eq lib event hfile hgood hfill h
    exact
      { dates := datesFit_of_texts lib event hfile h
        width := (firstFill_eq_nil_iff lib event hitems).mp hfill
        numbers := fun i hi => (textIn_eq_iff lib event os i).mp (hitems i hi) }
  · exact appends_of_alike lib event hfile hgood

omit hfile hgood in
theorem undisturbed_fill (c : Char) (item : FormatItem) :
    item.Undisturbed event (os.withFill c) ↔ item.Undisturbed event os := by
  cases item <;> exact Iff.rfl

omit hfile hgood in
theorem fitsWidth_fill (c : Char) (items : List FormatItem) :
    FitsWidth lib event (os.withFill c) items ↔ FitsWidth lib event os items := by
  cases items <;> exact Iff.rfl

omit hfile hgood in
theorem alike_fill (c : Char) (f : LogFormatter) :
    PrintsAlike lib event (os.withFill c) f ↔ PrintsAlike lib event os f := by
  constructor
  · rintro ⟨hdates, hwidth, hnumbers⟩
    exact ⟨hdates, (fitsWidth_fill lib event c _).mp hwidth,
      fun i hi => (undisturbed_fill event c i).mp (hnumbers i hi)⟩
  · rintro ⟨hdates, hwidth, hnumbers⟩
    exact ⟨hdates, (fitsWidth_fill lib event c _).mpr hwidth,
      fun i hi => (undisturbed_fill event c i).mpr (hnumbers i hi)⟩

/-! ## §6. The event's own stream. -/

omit hfile hgood in
/-- Only `%m` reads the content. -/
theorem format_content {item : FormatItem} (h : item ≠ .MessageFormatItem) (s : Str) :
    item.format lib os { event with m_ss := s } = item.format lib os event := by
  cases item with
  | MessageFormatItem => exact absurd rfl h
  | _ => rfl

/-- Where nothing is written in front of the content, it makes no difference whose stream
it is. -/
theorem formatOwn_eq (hown : event.getContent = os.text) {items : List FormatItem}
    (hfits : FitsWidth lib event os items) (hitems : ∀ i ∈ items, i.Undisturbed event os)
    (hreads : ReadsFirst lib event items) :
    items.foldl (fun os i => i.format lib os { event with m_ss := os.text }) os
      = formatAll lib os event items := by
  -- item by item, from the front
  induction items using List.reverseRecOn with
  | nil => rfl
  | append_singleton before i ih =>
      have hfits' : FitsWidth lib event os before := by
        cases before with
        | nil => trivial
        | cons j before => exact hfits
      have hitems' : ∀ j ∈ before, j.Undisturbed event os :=
        fun j hj => hitems j (List.mem_append_left _ hj)
      have hreads' : ReadsFirst lib event before := by
        intro before' after hsplit
        exact hreads before' (after ++ [i]) (by rw [hsplit]; simp)
      unfold formatAll
      rw [List.foldl_append, List.foldl_append, ih hfits' hitems' hreads']
      show i.format lib (formatAll lib os event before) _
        = i.format lib (formatAll lib os event before) event
      by_cases hi : i = .MessageFormatItem
      · -- the stream still holds the content and nothing else
        have htext := formatAll_of_fits lib event hfile hgood hfits' hitems'
        rw [hreads before [] (by rw [hi]), List.append_nil, ← hown] at htext
        rw [htext]
        rfl
      · exact format_content lib event hi _

theorem appendsOwn_of_alike (hown : event.getContent = os.text) {f : LogFormatter}
    (h : PrintsAlike lib event os f) (hreads : ReadsFirst lib event f.m_items) :
    AppendsOwn lib event os f := by
  intro leftover
  unfold LogFormatter.formatOwn
  rw [formatOwn_eq lib event hfile hgood hown h.width h.numbers hreads]
  exact appends_of_alike lib event hfile hgood h leftover

omit hgood in
/-- On a plain stream of its own that has got `w` behind the content, the event's items
write no less than their texts, and more if any of it is read. -/
theorem length_own (items : List FormatItem) : ∀ (os : OStream) (w : Str), os.IsPlain →
    os.text = event.getContent ++ w →
    let own := items.foldl (fun os i => i.format lib os { event with m_ss := os.text }) os
    os.text.length + (itemsText lib event items).length ≤ own.text.length ∧
      (own.text.length = os.text.length + (itemsText lib event items).length →
        ∀ before after, items = before ++ .MessageFormatItem :: after →
          w ++ itemsText lib event before = []) := by
  induction items with
  | nil =>
      intro os w _ _
      refine ⟨Nat.le_refl _, fun _ before after h => ?_⟩
      simp at h
  | cons i items ih =>
      intro os w hplain htext
      have hformat : i.format lib os { event with m_ss := os.text }
          = os.append (i.text lib { event with m_ss := os.text }) :=
        i.format_isPlain lib _ hplain fun _ => hfile
      have happended : ∀ u, (os.append u).text = event.getContent ++ (w ++ u) := by
        intro u
        show os.text ++ u = _
        rw [htext, List.append_assoc]
      have hitems : ∀ before, itemsText lib event (i :: before)
          = i.text lib event ++ itemsText lib event before := fun _ => rfl
      simp only [List.foldl_cons, hformat]
      by_cases hi : i = .MessageFormatItem
      · -- the content is read, and `w` with it
        subst hi
        have hcontent : FormatItem.text lib { event with m_ss := os.text } .MessageFormatItem
            = event.getContent ++ w := htext
        obtain ⟨hle, hreads⟩ := ih (os.append (event.getContent ++ w)) _ (hplain.append _)
          (happended _)
        have hown : FormatItem.text lib event .MessageFormatItem = event.getContent := rfl
        simp only [hcontent, hitems, hown, OStream.append, List.length_append] at hle hreads ⊢
        refine ⟨by omega, fun heq before after h => ?_⟩
        have hw : w = [] := List.eq_nil_of_length_eq_zero (by omega)
        subst hw
        rcases List.cons_eq_append_iff.mp h with ⟨rfl, -⟩ | ⟨before', rfl, htail⟩
        · rfl
        · have hnil := hreads (by simp only [List.length_nil] at heq ⊢; omega) before' after htail
          rw [hitems, hown]
          simpa using hnil
      · -- any other item prints its text
        have hother : i.text lib { event with m_ss := os.text } = i.text lib event := by
          cases i with
          | MessageFormatItem => exact absurd rfl hi
          | _ => rfl
        obtain ⟨hle, hreads⟩ := ih (os.append (i.text lib event)) _ (hplain.append _) (happended _)
        simp only [hother, hitems, OStream.append, List.length_append] at hle hreads ⊢
        refine ⟨by omega, fun heq before after h => ?_⟩
        rcases List.cons_eq_append_iff.mp h with ⟨-, hhead⟩ | ⟨before', rfl, htail⟩
        · exact absurd (List.cons.inj hhead).1.symm hi
        · rw [hitems, ← List.append_assoc]
          exact hreads (by omega) before' after htail

omit hgood in
/-- **The event's own stream**, in the state it is constructed in. -/
theorem appendsOwn_iff (hplain : os.IsPlain) (hown : event.getContent = os.text)
    {f : LogFormatter} :
    AppendsOwn lib event os f ↔ f.DatesFit lib event ∧ ReadsFirst lib event f.m_items := by
  constructor
  · intro h
    refine ⟨datesFit_of_texts lib event hfile h, fun before after hsplit => ?_⟩
    have hlength := congrArg List.length (h lib.leftover)
    change _ = (os.text ++ f.format lib event).length at hlength
    rw [format_eq_itemsText lib f event hfile, List.length_append] at hlength
    exact (length_own lib event hfile f.m_items os [] hplain
      (by rw [hown, List.append_nil])).2 hlength before after hsplit
  · rintro ⟨hdates, hreads⟩
    refine appendsOwn_of_alike lib event hfile hplain.bad hown ⟨hdates, ?_, fun i _ => ?_⟩ hreads
    · cases f.m_items with
      | nil => trivial
      | cons i items =>
          show os.width ≤ _
          rw [hplain.width]
          exact Nat.zero_le _
    · have hpos : os.showpos = true → event.getLine.toInt < 0 := by
        rw [hplain.showpos]
        exact Bool.noConfusion
      cases i with
      | ElapseFormatItem => exact .inl hplain.base
      | ThreadIdFormatItem => exact .inl hplain.base
      | FiberIdFormatItem => exact .inl hplain.base
      | LineFormatItem => exact .inl ⟨hplain.base, hpos⟩
      | _ => trivial

end Agree

/-! ## §7. The result. -/

/-- **THE OVERLOADS AGREE** exactly if all dates fit their buffers, the first item takes up
the pending width and the flags change no number of any item: on a stream whose fill cannot
make up for shorter numbers, and on any stream if they are to agree whatever the fill is.

On the event's own stream the same suffices if nothing is written in front of the content;
in the state it is constructed in, the stream has no width and no flags, and the rest is
necessary too. -/
theorem overloads_agree_iff (lib : Libc) (event : LogEvent) (os : OStream) (f : LogFormatter)
    (hfile : event.getFile ≠ none) (hgood : os.bad = false) :
    (¬ MayMakeUp os → (AppendsText lib event os f ↔ PrintsAlike lib event os f)) ∧
    ((∀ c, AppendsText lib event (os.withFill c) f) ↔ PrintsAlike lib event os f) ∧
    (event.getContent = os.text →
      (PrintsAlike lib event os f → ReadsFirst lib event f.m_items → AppendsOwn lib event os f) ∧
      (os.IsPlain →
        (AppendsOwn lib event os f
          ↔ f.DatesFit lib event ∧ ReadsFirst lib event f.m_items))) := by
  refine ⟨fun hmake => appends_iff lib event hfile hgood hmake, ?_, fun hown =>
    ⟨fun h hreads => appendsOwn_of_alike lib event hfile hgood hown h hreads,
      fun hplain => appendsOwn_iff lib event hfile hplain hown⟩⟩
  have hgoods : ∀ c, (os.withFill c).bad = false := fun _ => hgood
  constructor
  · intro h
    -- a blank is in no number
    have hmake : ¬ MayMakeUp (os.withFill ' ') := by
      intro hmake
      exact hmake.2.2 (show Foreign ' ' by decide)
    exact (alike_fill lib event ' ' f).mp
      ((appends_iff lib event hfile (hgoods ' ') hmake).mp (h ' '))
  · intro h c
    exact appends_of_alike lib event hfile (hgoods c) ((alike_fill lib event c f).mpr h)

/-- An octal stream with a width of 1 pending, and numbers below 8. -/
theorem overloads_agree_octal :
    AppendsText epochLibc sampleEvent { base := .oct, showpos := true, width := 1 }
      (LogFormatter.new xxSrcs "%l:%t %m".toList) :=
  ((overloads_agree_iff epochLibc sampleEvent { base := .oct, showpos := true, width := 1 }
    (LogFormatter.new xxSrcs "%l:%t %m".toList) (by decide) rfl).1 (by intro h; cases h.1)).mpr
    ⟨by decide, by decide, by decide⟩

/-- A pending width pads the message; `std::hex` changes the elapsed time; on its own stream
the content "hello" is read back. -/
theorem overloads_differ :
    ¬ AppendsText epochLibc sampleEvent { width := 8 } (LogFormatter.new xxSrc "%m".toList) ∧
      ¬ AppendsText epochLibc sampleEvent { base := .hex } (LogFormatter.new xxSrcs "%r".toList) ∧
      ¬ AppendsOwn epochLibc sampleEvent { text := "hello".toList }
        (LogFormatter.new xxSrc "%m%m".toList) := by
  refine ⟨fun h => ?_, fun h => ?_, fun h => ?_⟩
  all_goals
    have htext := h epochLibc.leftover
    revert htext
    decide

/-- A hexadecimal thread id, filled up with a 3, that reads as the decimal one. -/
example :
    ({ base := .hex, width := 6, fill := '3' } : OStream).text
        ++ (LogFormatter.new xxSrcs "%t".toList).format epochLibc
          { sampleEvent with m_threadid := 357440 }
      = ((LogFormatter.new xxSrcs "%t".toList).formatTo epochLibc
          { base := .hex, width := 6, fill := '3' }
          { sampleEvent with m_threadid := 357440 }).text := by decide

end SylarCot.Log
