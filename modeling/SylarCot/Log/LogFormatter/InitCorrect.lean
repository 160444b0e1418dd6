/-
  SylarCot.Log.LogFormatter.InitCorrect
  ─────────────────────────────────────
  **WHAT A CONSTRUCTED FORMATTER HOLDS AND PRINTS**, lexeme by lexeme.

  The item loop of `init` works on tokens in which neighbouring literal chars
  have been merged, and stops at the first conversion the table does not know.
  `installed` is that stopping rule, over any list.  Merging does not change
  the text: `itemsText_tokens` moves from the token list to the lexemes it was
  fed from, so that a formatter's output is read off the pattern's lexemes:

    • `format_new` — a lexed pattern prints the texts of its lexemes, up to the
      first unknown conversion;
    • `new_broken` — a broken pattern leaves no items.

  Every `%d` gets the SAME format, the concatenation `groups` of all groups of
  the pattern: `init` has one `dateformat` and creates the items after the scan.
-/
import SylarCot.Log.LogFormatter.LogFormatter
import SylarCot.Log.LogFormatter.ScanCorrect

namespace SylarCot.Log

/-! ## §1. Stopping at the first unknown item. -/

/-- The items of a list, up to the first element that has none. -/
def installed {α : Type*} (item : α → Option FormatItem) : List α → List FormatItem
  | [] => []
  | a :: as =>
      match item a with
      | none => []
      | some i => i :: installed item as

section Installed

variable {α : Type*} {item : α → Option FormatItem}

theorem installed_cons_some {a : α} {i : FormatItem} (as : List α) (h : item a = some i) :
    installed item (a :: as) = i :: installed item as := by
  simp only [installed, h]

theorem installed_cons_none {a : α} (as : List α) (h : item a = none) :
    installed item (a :: as) = [] := by
  simp only [installed, h]

/-- Behind a prefix whose elements all have items, the rest is installed too. -/
theorem installed_append_known {as : List α} (h : ∀ a ∈ as, item a ≠ none) (bs : List α) :
    installed item (as ++ bs) = installed item as ++ installed item bs := by
  induction as with
  | nil => rfl
  | cons a as ih =>
      obtain ⟨i, hi⟩ := Option.ne_none_iff_exists'.mp (h a List.mem_cons_self)
      rw [List.cons_append, installed_cons_some _ hi, installed_cons_some _ hi,
          ih (fun b hb => h b (List.mem_cons_of_mem a hb))]
      rfl

/-- Behind an element without an item nothing is installed. -/
theorem installed_append_unknown {as : List α} (h : ∃ a ∈ as, item a = none) (bs : List α) :
    installed item (as ++ bs) = installed item as := by
  induction as with
  | nil =>
      obtain ⟨a, ha, -⟩ := h
      cases ha
  | cons a as ih =>
      rw [List.cons_append]
      cases hi : item a with
      | none => rw [installed_cons_none _ hi, installed_cons_none _ hi]
      | some i =>
          rw [installed_cons_some _ hi, installed_cons_some _ hi, ih]
          obtain ⟨b, hb, hnone⟩ := h
          rcases List.mem_cons.mp hb with rfl | hb
          · rw [hi] at hnone; cases hnone
          · exact ⟨b, hb, hnone⟩

end Installed

/-! ## §2. The item loop. -/

/-- The item one token of the item loop gets; `none` if the table has none. -/
def tokenItem (xx : FormatItem → FormatItem) (dateformat : Str) : Bool × Str → Option FormatItem
  | (first, second) =>
      if first = false then some (.StringFormatItem second)
      else if second = ['d'] then some (.dateTime dateformat)
      else (sItemFuncs xx).lookup second

/-- **The item loop** appends the items of the tokens it gets through. -/
theorem itemLoop_fst (xx : FormatItem → FormatItem) (m_pattern dateformat : Str) :
    ∀ (ps : List (Bool × Str)) (m_items : List FormatItem),
      (itemLoop xx m_pattern dateformat ps m_items).1
        = m_items ++ installed (tokenItem xx dateformat) ps
  | [], m_items => by simp [itemLoop, installed]
  | (first, second) :: ps, m_items => by
      unfold itemLoop
      by_cases hfirst : first = false
      · rw [if_pos hfirst, itemLoop_fst,
            installed_cons_some (i := .StringFormatItem second) ps (by simp [tokenItem, hfirst]),
            List.append_assoc]
        rfl
      rw [if_neg hfirst]
      by_cases hd : second = ['d']
      · rw [if_pos hd, itemLoop_fst,
            installed_cons_some (i := .dateTime dateformat) ps (by simp [tokenItem, hfirst, hd]),
            List.append_assoc]
        rfl
      rw [if_neg hd]
      have htok : tokenItem xx dateformat (first, second) = (sItemFuncs xx).lookup second := by
        simp [tokenItem, hfirst, hd]
      cases hl : (sItemFuncs xx).lookup second with
      | none => simp [installed_cons_none ps (htok.trans hl)]
      | some item =>
          simp only
          rw [itemLoop_fst, installed_cons_some ps (htok.trans hl), List.append_assoc]
          rfl

/-! ## §3. From tokens to lexemes. -/

/-- The item a lexeme stands for. -/
def lexemeItem (xx : FormatItem → FormatItem) (dateformat : Str) : Lexeme → Option FormatItem
  | .chr c => some (.StringFormatItem [c])
  | .percent => some (.StringFormatItem ['%'])
  | .conv c => tokenItem xx dateformat (true, [c])
  | .date _ => some (.dateTime dateformat)

/-- The texts of all date groups, one after the other. -/
def groups (ls : List Lexeme) : Str :=
  ls.flatMap fun
    | .date (some group) => group
    | _ => []

theorem feed_dateformat (ls : List Lexeme) :
    ∀ t : Tokens, (ls.foldl Tokens.feed t).dateformat = t.dateformat ++ groups ls := by
  induction ls with
  | nil => intro t; simp [groups]
  | cons l ls ih =>
      intro t
      show (ls.foldl Tokens.feed (t.feed l)).dateformat = _
      rw [ih]
      match l with
      | .chr _ => rfl
      | .percent => rfl
      | .conv _ => rfl
      | .date none => simp [Tokens.feed, groups]
      | .date (some group) => simp [Tokens.feed, groups]

section Tokens

variable (xx : FormatItem → FormatItem) (D : Str)

/-- Every token so far has an item. -/
def Known (t : Tokens) : Prop := ∀ p ∈ t.patterns, tokenItem xx D p ≠ none

variable {xx D}

theorem Known.flushed {t : Tokens} (h : Known xx D t) :
    ∀ p ∈ t.flushed, tokenItem xx D p ≠ none := by
  intro p hp
  unfold Tokens.flushed at hp
  split at hp
  · rcases List.mem_append.mp hp with hp | hp
    · exact h p hp
    · rw [List.mem_singleton.mp hp]
      simp [tokenItem]
  · exact h p hp

theorem Known.append_flushed {t : Tokens} (h : Known xx D t) {p : Bool × Str}
    (hp : tokenItem xx D p ≠ none) : ∀ q ∈ t.flushed ++ [p], tokenItem xx D q ≠ none := by
  intro q hq
  rcases List.mem_append.mp hq with hq | hq
  · exact h.flushed q hq
  · rw [List.mem_singleton.mp hq]
    exact hp

/-- Flushing turns the pending string into a token of the same text. -/
theorem itemsText_flushed (lib : Libc) (event : LogEvent) {t : Tokens} (h : Known xx D t) :
    itemsText lib event (installed (tokenItem xx D) t.flushed)
      = itemsText lib event (installed (tokenItem xx D) t.patterns) ++ t.normal_str := by
  unfold Tokens.flushed
  by_cases hn : t.normal_str = []
  · rw [if_neg (by simp [hn]), hn, List.append_nil]
  · rw [if_pos hn, installed_append_known h, itemsText_append]
    simp [installed, tokenItem, itemsText, FormatItem.text]

/-- A token known to the table adds its text behind the pending string. -/
theorem itemsText_flushed_append (lib : Libc) (event : LogEvent) {t : Tokens}
    (h : Known xx D t) {p : Bool × Str} {i : FormatItem} (hi : tokenItem xx D p = some i) :
    itemsText lib event (installed (tokenItem xx D) (t.flushed ++ [p]))
      = itemsText lib event (installed (tokenItem xx D) t.patterns) ++ t.normal_str
          ++ i.text lib event := by
  rw [installed_append_known h.flushed, itemsText_append, itemsText_flushed lib event h,
      installed_cons_some [] hi]
  simp [installed, itemsText]

theorem flushed_patterns (t : Tokens) : ∃ ps, t.flushed = t.patterns ++ ps := by
  unfold Tokens.flushed
  split
  · exact ⟨_, rfl⟩
  · exact ⟨[], (List.append_nil _).symm⟩

/-- The token a lexeme pushes, if it is not a literal char. -/
def Lexeme.token : Lexeme → Bool × Str
  | .chr c => (false, [c])
  | .percent => (false, ['%'])
  | .conv c => (true, [c])
  | .date _ => (true, ['d'])

/-- Every lexeme but a literal char flushes and pushes its token. -/
theorem feed_token (t : Tokens) {l : Lexeme} (hl : ∀ c, l ≠ .chr c) :
    (t.feed l).normal_str = [] ∧ (t.feed l).patterns = t.flushed ++ [l.token] := by
  match l with
  | .chr c => exact absurd rfl (hl c)
  | .percent => exact ⟨rfl, rfl⟩
  | .conv _ => exact ⟨rfl, rfl⟩
  | .date _ => exact ⟨rfl, rfl⟩

variable (xx D) in
theorem tokenItem_token (l : Lexeme) : tokenItem xx D l.token = lexemeItem xx D l := by
  match l with
  | .chr _ => rfl
  | .percent => rfl
  | .conv _ => rfl
  | .date _ => rfl

/-- The token list only grows. -/
theorem feed_patterns (ls : List Lexeme) :
    ∀ t : Tokens, ∃ ps, (ls.foldl Tokens.feed t).flushed = t.patterns ++ ps := by
  induction ls with
  | nil => intro t; exact flushed_patterns t
  | cons l ls ih =>
      intro t
      obtain ⟨ps, hps⟩ := ih (t.feed l)
      show ∃ ps, (ls.foldl Tokens.feed (t.feed l)).flushed = _
      rw [hps]
      by_cases hl : ∀ c, l ≠ .chr c
      · obtain ⟨qs, hqs⟩ := flushed_patterns t
        exact ⟨qs ++ [l.token] ++ ps, by rw [(feed_token t hl).2, hqs]; simp⟩
      · push Not at hl
        obtain ⟨c, rfl⟩ := hl
        exact ⟨ps, rfl⟩

/-- **Merging does not change the text**: the items of the token list print what
the items of the lexemes print. -/
theorem itemsText_feed (lib : Libc) (event : LogEvent) (ls : List Lexeme) :
    ∀ t : Tokens, Known xx D t →
      itemsText lib event (installed (tokenItem xx D) (ls.foldl Tokens.feed t).flushed)
        = itemsText lib event (installed (tokenItem xx D) t.patterns) ++ t.normal_str
            ++ itemsText lib event (installed (lexemeItem xx D) ls) := by
  -- on the lexemes still to be fed, for any tokens known so far
  induction ls with
  | nil =>
      intro t ht
      show itemsText lib event (installed (tokenItem xx D) t.flushed) = _
      rw [itemsText_flushed lib event ht]
      simp [installed, itemsText]
  | cons l ls ih =>
      intro t ht
      show itemsText lib event
          (installed (tokenItem xx D) (ls.foldl Tokens.feed (t.feed l)).flushed) = _
      by_cases hl : ∀ c, l ≠ .chr c
      · obtain ⟨hnormal, hpatterns⟩ := feed_token t hl
        have htok := tokenItem_token xx D l
        cases hi : lexemeItem xx D l with
        | none =>
            -- the table does not know the conversion: nothing after it is installed
            obtain ⟨ps, hps⟩ := feed_patterns ls (t.feed l)
            have hunknown : ∃ q ∈ (t.feed l).patterns, tokenItem xx D q = none :=
              ⟨l.token, by rw [hpatterns]; simp, htok.trans hi⟩
            rw [hps, installed_append_unknown hunknown, hpatterns,
                installed_append_known ht.flushed, installed_cons_none [] (htok.trans hi),
                List.append_nil, itemsText_flushed lib event ht, installed_cons_none ls hi]
            simp [itemsText]
        | some i =>
            have hknown : Known xx D (t.feed l) := by
              unfold Known
              rw [hpatterns]
              exact ht.append_flushed (by rw [htok, hi]; simp)
            rw [ih _ hknown, hnormal, hpatterns,
                itemsText_flushed_append lib event ht (htok.trans hi),
                installed_cons_some ls hi]
            simp [itemsText]
      · push Not at hl
        obtain ⟨c, rfl⟩ := hl
        -- a literal char joins the pending string and prints with it later
        rw [ih (t.feed (.chr c)) ht,
            installed_cons_some (i := .StringFormatItem [c]) ls rfl]
        simp [Tokens.feed, itemsText, FormatItem.text]

end Tokens

/-! ## §4. The constructor. -/

/-- No path of `init` touches the error flag. -/
theorem init_isError (xx : FormatItem → FormatItem) (f : LogFormatter) :
    (f.init xx).1.isError = f.isError := by
  unfold LogFormatter.init LogFormatter.isError
  cases scan f.m_pattern <;> rfl

theorem new_isError (xx : FormatItem → FormatItem) (p : Str) :
    (LogFormatter.new xx p).isError = false :=
  init_isError xx { m_pattern := p }

/-- The items of a formatter whose pattern is lexed. -/
theorem new_items (xx : FormatItem → FormatItem) {ls : List Lexeme} (hls : Lexed [] ls) :
    (LogFormatter.new xx (src ls)).m_items
      = installed (tokenItem xx (groups ls)) (ls.foldl Tokens.feed {}).flushed := by
  obtain ⟨s, hscan, htok⟩ := scan_src hls
  have hdate : s.dateformat = groups ls := by
    have := feed_dateformat ls {}
    rw [← htok] at this
    exact this
  unfold LogFormatter.new LogFormatter.init
  simp only [hscan]
  rw [itemLoop_fst, flush_dateformat, flush_patterns, htok, hdate]
  rfl

/-- **A broken pattern leaves no items.** -/
theorem new_broken (xx : FormatItem → FormatItem) {ls : List Lexeme} {t : Str} (ht : Broken t)
    (hls : Lexed t ls) : (LogFormatter.new xx (src ls ++ t)).m_items = [] := by
  unfold LogFormatter.new LogFormatter.init
  simp only [scan_broken ht hls]

/-! ## §5. `format` -/

/-- On an event with a file name, `format` prints the texts of the items. -/
theorem format_eq_itemsText (lib : Libc) (f : LogFormatter) (event : LogEvent)
    (hfile : event.getFile ≠ none) : f.format lib event = itemsText lib event f.m_items := by
  unfold LogFormatter.format LogFormatter.formatTo
  rw [formatAll_isPlain lib event f.m_items (fun _ => hfile) {} OStream.IsPlain.fresh]
  rfl

/-- **A lexed pattern prints the texts of its lexemes**, every date with the
groups of the whole pattern, up to the first unknown conversion. -/
theorem format_new (lib : Libc) (xx : FormatItem → FormatItem) (event : LogEvent)
    (hfile : event.getFile ≠ none) {ls : List Lexeme} (hls : Lexed [] ls) :
    (LogFormatter.new xx (src ls)).format lib event
      = itemsText lib event (installed (lexemeItem xx (groups ls)) ls) := by
  rw [format_eq_itemsText lib _ event hfile, new_items xx hls,
      itemsText_feed lib event ls {} (by intro p hp; cases hp)]
  rfl

end SylarCot.Log
