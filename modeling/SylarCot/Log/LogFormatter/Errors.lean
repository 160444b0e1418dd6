/-
  SylarCot.Log.LogFormatter.Errors
  ────────────────────────────────
  **MALFORMED PATTERNS**: a lone '%' or an open `%d{` at the end, or a conversion
  the table does not know.  The comment above `init` says that parsing stops there
  and the error flag is set.

    • `not_malformed_iff` — every other pattern is one of the documented language;
    • `isError_exact_iff` — the flag is never set, so it is right exactly for these;
    • `leavesNothing_iff` — an error found by the scan leaves no items, an unknown
      conversion leaves those in front of it.
-/
import SylarCot.Log.LogFormatter.Versions

namespace SylarCot.Log

/-! ## §1. Well formed or malformed. -/

/-- The pattern ends in a lone '%' or in an open group. -/
def EndsBroken (p : Str) : Prop := ∃ ls t, Broken t ∧ Lexed t ls ∧ src ls ++ t = p

/-- The pattern has a conversion that is not in the table. -/
def HasUnknown (p : Str) : Prop :=
  ∃ ls t, (t = [] ∨ Broken t) ∧ Lexed t ls ∧ src ls ++ t = p ∧
    ∃ key ∈ conversions ls, inTable key = false

/-- What the comment above `init` calls a malformed pattern. -/
def Malformed (p : Str) : Prop := EndsBroken p ∨ HasUnknown p

/-- A lexeme as a directive of the documented language. -/
def Lexeme.directive : Lexeme → Directive
  | .chr c => .text [c]
  | .percent => .percent
  | .conv c => .conv c
  | .date none => .date
  | .date (some group) => .dateFmt group

theorem pattern_directives (ls : List Lexeme) : pattern (ls.map Lexeme.directive) = src ls := by
  induction ls with
  | nil => rfl
  | cons l ls ih =>
      show l.directive.src ++ pattern (ls.map Lexeme.directive) = l.src ++ src ls
      rw [ih]
      match l with
      | .chr _ => rfl
      | .percent => rfl
      | .conv _ => rfl
      | .date none => rfl
      | .date (some _) => rfl

theorem inTable_iff (key : Str) : inTable key = true ↔ key ∈ itemtype.map Prod.fst :=
  decide_eq_true_iff

theorem conversions_tail (l : Lexeme) (ls : List Lexeme) :
    conversions ls ⊆ conversions (l :: ls) := by
  cases l with
  | conv _ => exact List.subset_cons_self _ _
  | _ => exact List.Subset.refl _

/-- Lexemes whose conversions are in the table are directives. -/
theorem wellFormed_directives : ∀ ls : List Lexeme, Lexed [] ls →
    (∀ key ∈ conversions ls, inTable key = true) → WellFormed (ls.map Lexeme.directive)
  | [], _, _ => trivial
  | l :: ls, ⟨hok, hbefore, hls⟩, hknown => by
      have htail : ∀ key ∈ conversions ls, inTable key = true :=
        fun key hkey => hknown key (conversions_tail l ls hkey)
      refine ⟨?_, ?_, wellFormed_directives ls hls htail⟩
      · match l with
        | .chr c =>
            show '%' ∉ [c]
            simpa using Ne.symm hok
        | .percent => trivial
        | .conv c => exact ⟨hok.2, (inTable_iff [c]).mp (hknown [c] List.mem_cons_self)⟩
        | .date none => trivial
        | .date (some _) => exact hok
      · rw [pattern_directives]
        intro hdate
        match l with
        | .date none =>
            rw [List.append_nil] at hbefore
            exact hbefore

theorem conversions_append (ls ms : List Lexeme) :
    conversions (ls ++ ms) = conversions ls ++ conversions ms := by
  induction ls with
  | nil => rfl
  | cons l ls ih =>
      cases l with
      | conv c =>
          show [c] :: conversions (ls ++ ms) = _
          rw [ih]
          rfl
      | _ => exact ih

theorem conversions_text (s : Str) : conversions (s.map Lexeme.chr) = [] := by
  induction s with
  | nil => rfl
  | cons c s ih => exact ih

/-- The conversions of a well-formed pattern are in the table. -/
theorem conversions_known : ∀ ds : List Directive, WellFormed ds →
    ∀ key ∈ conversions (lexemes ds), inTable key = true
  | [], _, key, hkey => by cases hkey
  | d :: ds, ⟨hok, _, hds⟩, key, hkey => by
      have ih := conversions_known ds hds key
      have hkey : key ∈ conversions d.lexemes ++ conversions (lexemes ds) := by
        rw [← conversions_append]
        exact hkey
      rcases List.mem_append.mp hkey with hkey | hkey
      · match d with
        | .text s =>
            have hkey : key ∈ conversions (s.map Lexeme.chr) := hkey
            rw [conversions_text] at hkey
            cases hkey
        | .percent => cases hkey
        | .conv c =>
            obtain rfl := List.mem_singleton.mp hkey
            exact (inTable_iff _).mpr hok.2
        | .date => cases hkey
        | .dateFmt _ => cases hkey
      · exact ih hkey

/-- **Malformed or documented**: there is no third kind of pattern. -/
theorem not_malformed_iff (p : Str) : ¬ Malformed p ↔ ∃ ds, WellFormed ds ∧ pattern ds = p := by
  constructor
  · intro h
    obtain ⟨ls, t, ht, hls, rfl⟩ := lexes p.length p (Nat.le_refl _)
    have hbroken : ¬ Broken t := fun hb => h (.inl ⟨ls, t, hb, hls, rfl⟩)
    obtain rfl := ht.resolve_right hbroken
    have hknown : ∀ key ∈ conversions ls, inTable key = true := by
      intro key hkey
      by_contra hunknown
      exact h (.inr ⟨ls, [], .inl rfl, hls, rfl, key, hkey, Bool.eq_false_iff.mpr hunknown⟩)
    refine ⟨ls.map Lexeme.directive, wellFormed_directives ls hls hknown, ?_⟩
    rw [pattern_directives, List.append_nil]
  · intro h hmalformed
    obtain ⟨ds, hds, rfl⟩ := h
    have hlexed := lexed_lexemes ds hds
    -- the lexemes of the directives are the only reading of the pattern
    have hunique : ∀ ls t, (t = [] ∨ Broken t) → Lexed t ls → src ls ++ t = pattern ds →
        lexemes ds = ls ∧ [] = t := by
      intro ls t ht hls heq
      refine lexes_unique hlexed hls (.inl rfl) ht ?_
      rw [List.append_nil, src_lexemes, heq]
    rcases hmalformed with hbroken | hunknown
    · obtain ⟨ls, t, ht, hls, heq⟩ := hbroken
      obtain ⟨-, rfl⟩ := hunique ls t (.inr ht) hls heq
      cases ht
    · obtain ⟨ls, t, ht, hls, heq, key, hkey, hunknown⟩ := hunknown
      obtain ⟨rfl, -⟩ := hunique ls t ht hls heq
      rw [conversions_known ds hds key hkey] at hunknown
      cases hunknown

/-! ## §2. The error flag. -/

/-- **THE ERROR FLAG IS EXACT** for exactly the patterns of the documented language:
no path of `init` sets it. -/
theorem isError_exact_iff (xx : FormatItem → FormatItem) (p : Str) :
    ((LogFormatter.new xx p).isError = true ↔ Malformed p)
      ↔ ∃ ds, WellFormed ds ∧ pattern ds = p := by
  rw [← not_malformed_iff, new_isError]
  simp

/-- A lone '%' is malformed, and no error for `isError`. -/
theorem isError_lonePercent :
    Malformed "%".toList ∧ (LogFormatter.new xxSrc "%".toList).isError = false ∧
      (LogFormatter.new xxSrcs "%".toList).isError = false := by
  refine ⟨.inl ⟨[], ['%'], .lonePercent, trivial, rfl⟩, ?_, ?_⟩
  · decide
  · decide

/-! ## §3. What an error leaves behind. -/

/-- The formatter has no items and prints nothing. -/
def LeavesNothing (f : LogFormatter) : Prop :=
  f.m_items = [] ∧ ∀ (lib : Libc) (event : LogEvent), f.format lib event = []

theorem leavesNothing_of_items {f : LogFormatter} (h : f.m_items = []) : LeavesNothing f := by
  refine ⟨h, fun lib event => ?_⟩
  rw [format_congr (g := { f with m_items := [] }) h lib event]
  rfl

/-- The pattern starts with a conversion that is not in the table. -/
def StartsUnknown (p : Str) : Prop :=
  ∃ c r, p = '%' :: c :: r ∧ c ≠ '%' ∧ c ≠ 'd' ∧ inTable [c] = false

/-- The table has an item for exactly its keys. -/
theorem lookup_eq_none_iff (xx : FormatItem → FormatItem) (key : Str) :
    (sItemFuncs xx).lookup key = none ↔ inTable key = false := by
  constructor
  · intro hnone
    rw [Bool.eq_false_iff]
    intro hknown
    obtain ⟨⟨k, item⟩, hmem, rfl⟩ := List.mem_map.mp ((inTable_iff key).mp hknown)
    rw [List.lookup_eq_none_iff] at hnone
    have := hnone (k, xx item) (List.mem_map.mpr ⟨(k, item), hmem, rfl⟩)
    simp at this
  · exact lookup_eq_none xx

theorem lexemeItem_conv (xx : FormatItem → FormatItem) (D : Str) {c : Char} (hd : c ≠ 'd') :
    lexemeItem xx D (.conv c) = none ↔ inTable [c] = false := by
  have hitem : lexemeItem xx D (.conv c) = (sItemFuncs xx).lookup [c] := by
    simp [lexemeItem, tokenItem, hd]
  rw [hitem, lookup_eq_none_iff]

/-- **The first lexeme decides** whether anything is installed. -/
theorem installed_eq_nil_iff (xx : FormatItem → FormatItem) (D : Str) (l : Lexeme)
    (ls : List Lexeme) :
    installed (tokenItem xx D) ((l :: ls).foldl Tokens.feed {}).flushed = []
      ↔ lexemeItem xx D l = none := by
  by_cases hl : ∀ c, l ≠ .chr c
  · -- its token is the first one
    obtain ⟨ps, hps⟩ := feed_patterns ls (Tokens.feed {} l)
    have hfirst : ((l :: ls).foldl Tokens.feed {}).flushed = l.token :: ps := by
      rw [List.foldl_cons, hps, (feed_token {} hl).2]
      rfl
    have htok := tokenItem_token xx D l
    rw [hfirst]
    cases hi : lexemeItem xx D l with
    | none => exact iff_of_true (installed_cons_none ps (htok.trans hi)) rfl
    | some i =>
        rw [installed_cons_some ps (htok.trans hi)]
        exact iff_of_false (List.cons_ne_nil _ _) (Option.some_ne_none i)
  · push Not at hl
    obtain ⟨c, rfl⟩ := hl
    -- a literal char is printed, so it is in some item
    have htext := @itemsText_feed xx D epochLibc sampleEvent (.chr c :: ls) {}
      (by intro p hp; cases hp)
    rw [installed_cons_some (i := .StringFormatItem [c]) ls rfl] at htext
    refine iff_of_false (fun hnil => ?_) (Option.some_ne_none _)
    rw [hnil] at htext
    cases htext

theorem startsUnknown_cons (c : Char) (r : Str) :
    StartsUnknown ('%' :: c :: r) ↔ c ≠ '%' ∧ c ≠ 'd' ∧ inTable [c] = false := by
  unfold StartsUnknown
  constructor
  · intro h
    obtain ⟨e, t, heq, hunknown⟩ := h
    cases heq
    exact hunknown
  · intro h
    exact ⟨c, r, rfl, h⟩

/-- A pattern starts with an unknown conversion exactly when its first lexeme has no
item. -/
theorem startsUnknown_iff (xx : FormatItem → FormatItem) (D : Str) {l : Lexeme} (r : Str)
    (hok : l.Ok) : StartsUnknown (l.src ++ r) ↔ lexemeItem xx D l = none := by
  match l with
  | .chr c =>
      refine iff_of_false (fun h => ?_) (Option.some_ne_none _)
      obtain ⟨e, t, heq, -⟩ := h
      injection heq with hc _
      exact hok hc
  | .percent =>
      refine iff_of_false (fun h => ?_) (Option.some_ne_none _)
      exact ((startsUnknown_cons '%' r).mp h).1 rfl
  | .conv c =>
      show StartsUnknown ('%' :: c :: r) ↔ _
      rw [startsUnknown_cons, lexemeItem_conv xx D hok.2]
      exact ⟨fun h => h.2.2, fun h => ⟨hok.1, hok.2, h⟩⟩
  | .date group =>
      refine iff_of_false (fun h => ?_) (Option.some_ne_none _)
      obtain ⟨s, hs⟩ : ∃ s, Lexeme.src (.date group) ++ r = '%' :: 'd' :: s := by
        cases group with
        | none => exact ⟨r, rfl⟩
        | some g => exact ⟨_, rfl⟩
      rw [hs, startsUnknown_cons] at h
      exact h.2.1 rfl

/-- **No items**: the pattern is empty, the scan returns early, or the first lexeme has
no item. -/
theorem new_items_eq_nil_iff (xx : FormatItem → FormatItem) (p : Str) :
    (LogFormatter.new xx p).m_items = [] ↔ p = [] ∨ EndsBroken p ∨ StartsUnknown p := by
  obtain ⟨ls, t, ht, hls, rfl⟩ := lexes p.length p (Nat.le_refl _)
  by_cases hbroken : Broken t
  · exact iff_of_true (new_broken xx hbroken hls) (.inr (.inl ⟨ls, t, hbroken, hls, rfl⟩))
  obtain rfl := ht.resolve_right hbroken
  have hscans : ¬ EndsBroken (src ls ++ []) := by
    intro h
    obtain ⟨ls', t', hbroken', hls', heq⟩ := h
    obtain ⟨-, rfl⟩ := lexes_unique hls' hls (.inr hbroken') (.inl rfl) heq
    exact hbroken hbroken'
  cases ls with
  | nil => exact iff_of_true rfl (.inl rfl)
  | cons l ls =>
      have hne : src (l :: ls) ++ [] ≠ [] := by
        rw [List.append_nil]
        exact fun h => List.cons_ne_nil l ls (src_eq_nil h)
      rw [or_iff_right hne, or_iff_right hscans]
      rw [List.append_nil, new_items xx hls, installed_eq_nil_iff, src_cons]
      exact (startsUnknown_iff xx _ (src ls) hls.1).symm

/-- **ALL OR NOTHING** holds exactly for the errors the scan itself finds, and for
an unknown conversion at the very start. -/
theorem leavesNothing_iff (xx : FormatItem → FormatItem) {p : Str} (hp : Malformed p) :
    LeavesNothing (LogFormatter.new xx p) ↔ EndsBroken p ∨ StartsUnknown p := by
  have hitems := new_items_eq_nil_iff xx p
  constructor
  · intro h
    rcases hitems.mp h.1 with rfl | hstart
    · -- the empty pattern is well formed
      exact absurd hp ((not_malformed_iff []).mpr ⟨[], trivial, rfl⟩)
    · exact hstart
  · intro h
    exact leavesNothing_of_items (hitems.mpr (.inr h))

/-- Of "%q%m" nothing is left. -/
theorem leavesNothing_iff_first : LeavesNothing (LogFormatter.new xxSrc "%q%m".toList) := by
  have hls : Lexed [] [.conv 'q', .conv 'm'] := by simp [Lexed, Lexeme.Ok, Lexeme.Before]
  have hmalformed : Malformed "%q%m".toList :=
    .inr ⟨[.conv 'q', .conv 'm'], [], .inl rfl, hls, rfl, ['q'], List.mem_cons_self, by decide⟩
  exact (leavesNothing_iff xxSrc hmalformed).mpr (.inr ⟨'q', ['%', 'm'], rfl, by decide⟩)

/-- Of "abc%q" the text in front of the unknown conversion is left. -/
theorem prefix_is_left :
    Malformed "abc%q".toList ∧
      ¬ LeavesNothing (LogFormatter.new xxSrc "abc%q".toList) ∧
      (LogFormatter.new xxSrc "abc%q".toList).format epochLibc sampleEvent = "abc".toList := by
  have hls : Lexed [] [.chr 'a', .chr 'b', .chr 'c', .conv 'q'] := by
    simp [Lexed, Lexeme.Ok, Lexeme.Before]
  refine ⟨.inr ⟨[.chr 'a', .chr 'b', .chr 'c', .conv 'q'], [], .inl rfl, hls, rfl, ['q'],
    List.mem_cons_self, by decide⟩, fun h => ?_, by decide⟩
  exact absurd h.1 (by decide)

end SylarCot.Log
