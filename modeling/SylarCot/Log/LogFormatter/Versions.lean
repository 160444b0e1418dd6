/-
  SylarCot.Log.LogFormatter.Versions
  ──────────────────────────────────
  **THE TWO VERSIONS OF `logformatter.cpp` AGAINST EACH OTHER.**

  The copy CMake compiles (`src/`) builds its conversion table with a macro that
  drops the item class, so every conversion but the date prints the message.
  The two versions agree on a pattern exactly when that makes no difference:
  when no conversion but `%m` is installed (`versionsAgree_iff`).

    • `installed_versions` — where only `%m` is installed, both versions build
      the same items, so they agree on every event, a null file name included;
    • `length_versions` — on an event without content every other installed
      conversion makes the output of `srcs/` longer.
-/
import SylarCot.Log.LogFormatter.Meaning

namespace SylarCot.Log

/-! ## §1. When the versions agree. -/

/-- Both versions report the same error flag and print the same text for every
event. -/
def VersionsAgree (p : Str) : Prop :=
  ∀ (lib : Libc) (event : LogEvent),
    (LogFormatter.new xxSrc p).isError = (LogFormatter.new xxSrcs p).isError ∧
      LogFormatter.SameText lib event (LogFormatter.new xxSrc p) (LogFormatter.new xxSrcs p)

/-- The table has the key. -/
def inTable (key : Str) : Bool := key ∈ itemtype.map Prod.fst

/-- The conversions of a lexeme sequence other than the date. -/
def conversions : List Lexeme → List Str
  | [] => []
  | .conv c :: ls => [c] :: conversions ls
  | _ :: ls => conversions ls

/-- The conversions before the first one the table does not know. -/
def knownConversions (ls : List Lexeme) : List Str := (conversions ls).takeWhile inTable

/-- The key is not the message's. -/
def notMessage (key : Str) : Bool := key ≠ ['m']

/-- No conversion but `%m` (and the date) is installed from the pattern. -/
def MessageOnly (p : Str) : Prop :=
  ∀ ls, Lexed [] ls → src ls = p → ∀ key ∈ knownConversions ls, key = ['m']

theorem lookup_eq_none (xx : FormatItem → FormatItem) {key : Str} (h : inTable key = false) :
    (sItemFuncs xx).lookup key = none := by
  rw [List.lookup_eq_none_iff]
  rintro ⟨key', item⟩ hmem
  obtain ⟨⟨k, i⟩, hk, heq⟩ := List.mem_map.mp hmem
  injection heq with hkey _
  subst hkey
  have hne : key ≠ k := by
    rintro rfl
    have : inTable key = true := decide_eq_true (List.mem_map.mpr ⟨(key, i), hk, rfl⟩)
    rw [h] at this
    cases this
  simpa using hne

/-! ## §2. Only `%m`: the same items. -/

/-- The conversions of a token list other than the date. -/
def tokenConversions (ps : List (Bool × Str)) : List Str :=
  ps.filterMap fun (first, second) =>
    if first = false ∨ second = ['d'] then none else some second

theorem tokenConversions_append (ps qs : List (Bool × Str)) :
    tokenConversions (ps ++ qs) = tokenConversions ps ++ tokenConversions qs :=
  List.filterMap_append

theorem tokenConversions_flushed (t : Tokens) :
    tokenConversions t.flushed = tokenConversions t.patterns := by
  unfold Tokens.flushed
  split
  · rw [tokenConversions_append]
    exact List.append_nil _
  · rfl

/-- The tokens carry the conversions of the lexemes, in order. -/
theorem tokenConversions_feed {rest : Str} :
    ∀ (ls : List Lexeme) (t : Tokens), Lexed rest ls →
      tokenConversions (ls.foldl Tokens.feed t).flushed
        = tokenConversions t.patterns ++ conversions ls
  | [], t, _ => by
      show tokenConversions t.flushed = _
      rw [tokenConversions_flushed]
      exact (List.append_nil _).symm
  | l :: ls, t, ⟨hok, _, hls⟩ => by
      show tokenConversions (ls.foldl Tokens.feed (t.feed l)).flushed = _
      rw [tokenConversions_feed ls (t.feed l) hls]
      cases l with
      | chr _ => rfl
      | percent =>
          show tokenConversions (t.flushed ++ [(false, ['%'])]) ++ conversions ls = _
          rw [tokenConversions_append, tokenConversions_flushed]
          simp [tokenConversions, conversions]
      | conv c =>
          have hd : c ≠ 'd' := hok.2
          show tokenConversions (t.flushed ++ [(true, [c])]) ++ conversions ls = _
          rw [tokenConversions_append, tokenConversions_flushed]
          simp [tokenConversions, conversions, hd]
      | date _ =>
          show tokenConversions (t.flushed ++ [(true, ['d'])]) ++ conversions ls = _
          rw [tokenConversions_append, tokenConversions_flushed]
          simp [tokenConversions, conversions]

/-- **Where only `%m` is installed, the two tables install the same items.** -/
theorem installed_versions (D : Str) :
    ∀ ps : List (Bool × Str), (∀ key ∈ (tokenConversions ps).takeWhile inTable, key = ['m']) →
      installed (tokenItem xxSrc D) ps = installed (tokenItem xxSrcs D) ps
  | [], _ => rfl
  | (first, second) :: ps, h => by
      by_cases hplain : first = false ∨ second = ['d']
      · -- a literal or a date: the table is not asked
        have hconv : tokenConversions ((first, second) :: ps) = tokenConversions ps := by
          simp [tokenConversions, hplain]
        have hitem : tokenItem xxSrc D (first, second) = tokenItem xxSrcs D (first, second) := by
          by_cases hfirst : first = false
          · simp [tokenItem, hfirst]
          · simp [tokenItem, hfirst, hplain.resolve_left hfirst]
        rw [hconv] at h
        simp only [installed, hitem, installed_versions D ps h]
      · have hconv : tokenConversions ((first, second) :: ps) = second :: tokenConversions ps := by
          simp [tokenConversions, hplain]
        have hitem : ∀ xx, tokenItem xx D (first, second) = (sItemFuncs xx).lookup second := by
          intro xx
          have hfirst : first ≠ false := fun hf => hplain (.inl hf)
          have hd : second ≠ ['d'] := fun hd => hplain (.inr hd)
          show (if first = false then _ else if second = ['d'] then _ else _) = _
          rw [if_neg hfirst, if_neg hd]
        rw [hconv] at h
        cases hknown : inTable second with
        | true =>
            -- a known conversion is `%m`, which both tables map to the message
            rw [List.takeWhile_cons_of_pos hknown] at h
            obtain rfl : second = ['m'] := h second List.mem_cons_self
            have ih := installed_versions D ps (fun key hkey => h key (List.mem_cons_of_mem _ hkey))
            rw [installed_cons_some (i := .MessageFormatItem) ps ((hitem xxSrc).trans rfl),
                installed_cons_some (i := .MessageFormatItem) ps ((hitem xxSrcs).trans rfl), ih]
        | false =>
            -- an unknown one ends the item loop in both versions
            rw [installed_cons_none ps ((hitem xxSrc).trans (lookup_eq_none xxSrc hknown)),
                installed_cons_none ps ((hitem xxSrcs).trans (lookup_eq_none xxSrcs hknown))]

/-! ## §3. Any other conversion: a longer text. -/

/-- An event without content and with every other field printing something. -/
def quietEvent : LogEvent := { sampleEvent with m_ss := [] }

theorem text_quietEvent_ne_nil (lib : Libc) {c : Char} {item : FormatItem}
    (h : ([c], item) ∈ itemtype) (hd : c ≠ 'd') (hm : c ≠ 'm') :
    item.text lib quietEvent ≠ [] := by
  rw [text_itemtype lib quietEvent h hd]
  revert hd hm
  refine itemtype_cases (motive := fun c _ => c ≠ 'd' → c ≠ 'm' → headerField quietEvent c ≠ [])
    ?_ ?_ ?_ ?_ ?_ ?_ ?_ ?_ ?_ ?_ ?_ ?_ h
  all_goals decide

/-- **On an event without content every installed conversion other than `%m`
makes the output of `srcs/` longer.** -/
theorem length_versions (lib : Libc) (D : Str) {rest : Str} :
    ∀ ls : List Lexeme, Lexed rest ls →
      (itemsText lib quietEvent (installed (lexemeItem xxSrc D) ls)).length
          + (knownConversions ls).countP notMessage
        ≤ (itemsText lib quietEvent (installed (lexemeItem xxSrcs D) ls)).length
  | [], _ => Nat.le_refl _
  | l :: ls, ⟨hok, _, hls⟩ => by
      have ih := length_versions lib D ls hls
      -- a lexeme both tables give the same item adds the same text to both
      have hsame : ∀ i, lexemeItem xxSrc D l = some i → lexemeItem xxSrcs D l = some i →
          knownConversions (l :: ls) = knownConversions ls →
          (itemsText lib quietEvent (installed (lexemeItem xxSrc D) (l :: ls))).length
              + (knownConversions (l :: ls)).countP notMessage
            ≤ (itemsText lib quietEvent (installed (lexemeItem xxSrcs D) (l :: ls))).length := by
        intro i hi hi' hconv
        rw [installed_cons_some ls hi, installed_cons_some ls hi', hconv]
        simp only [itemsText, List.flatMap_cons, List.length_append] at ih ⊢
        omega
      cases l with
      | chr c => exact hsame _ rfl rfl rfl
      | percent => exact hsame _ rfl rfl rfl
      | date _ => exact hsame _ rfl rfl rfl
      | conv c =>
          have hd : c ≠ 'd' := hok.2
          have hitem : ∀ xx, lexemeItem xx D (.conv c) = (sItemFuncs xx).lookup [c] := by
            intro xx
            simp [lexemeItem, tokenItem, hd]
          cases hknown : inTable [c] with
          | false =>
              have hnone : knownConversions (.conv c :: ls) = [] := by
                simp [knownConversions, conversions, hknown]
              rw [installed_cons_none ls ((hitem xxSrc).trans (lookup_eq_none xxSrc hknown)), hnone]
              exact Nat.zero_le _
          | true =>
              obtain ⟨item, hmem⟩ := mem_itemtype (of_decide_eq_true hknown)
              have hconv : knownConversions (.conv c :: ls) = [c] :: knownConversions ls := by
                simp [knownConversions, conversions, hknown]
              rw [installed_cons_some ls ((hitem xxSrc).trans (lookup_itemtype xxSrc hmem)),
                  installed_cons_some ls ((hitem xxSrcs).trans (lookup_itemtype xxSrcs hmem)),
                  hconv, List.countP_cons]
              have hquiet : (xxSrc item).text lib quietEvent = [] := rfl
              have hlong : c ≠ 'm' → 0 < (item.text lib quietEvent).length := fun hm =>
                List.length_pos_iff.mpr (text_quietEvent_ne_nil lib hmem hd hm)
              simp only [itemsText, List.flatMap_cons, List.length_append, hquiet,
                List.length_nil, xxSrcs] at ih ⊢
              by_cases hm : c = 'm'
              · have hmessage : notMessage [c] = false := by simp [notMessage, hm]
                rw [hmessage, if_neg Bool.false_ne_true]
                omega
              · have hother : notMessage [c] = true := by simp [notMessage, hm]
                have := hlong hm
                rw [hother, if_pos rfl]
                omega

/-! ## §4. The exact condition. -/

theorem format_congr {f g : LogFormatter} (h : f.m_items = g.m_items) (lib : Libc)
    (event : LogEvent) : f.format lib event = g.format lib event := by
  unfold LogFormatter.format LogFormatter.formatTo
  rw [h]

theorem sameText_of_items {f g : LogFormatter} (h : f.m_items = g.m_items) (lib : Libc)
    (event : LogEvent) : LogFormatter.SameText lib event f g := by
  apply LogFormatter.sameText_of_eq (format_congr h lib event)
  unfold LogFormatter.DatesFit
  rw [h]
  exact id

/-- Where only `%m` is installed, both versions build the same items. -/
theorem MessageOnly.items_eq {p : Str} (h : MessageOnly p) :
    (LogFormatter.new xxSrc p).m_items = (LogFormatter.new xxSrcs p).m_items := by
  obtain ⟨ls, rest, hrest, hls, rfl⟩ := lexes p.length p (Nat.le_refl _)
  rcases hrest with rfl | hbroken
  · -- a pattern that scans to its end
    rw [List.append_nil] at h ⊢
    rw [new_items xxSrc hls, new_items xxSrcs hls]
    apply installed_versions
    have hconv : tokenConversions (ls.foldl Tokens.feed {}).flushed = conversions ls :=
      tokenConversions_feed ls {} hls
    rw [hconv]
    exact h ls hls rfl
  · -- a lone '%' or an open group: no items in either version
    rw [new_broken xxSrc hbroken hls, new_broken xxSrcs hbroken hls]

/-- **THE TWO VERSIONS AGREE ON A PATTERN EXACTLY WHEN** no conversion other
than `%m` and the date is installed from it. -/
theorem versionsAgree_iff (p : Str) : VersionsAgree p ↔ MessageOnly p := by
  constructor
  · rintro h ls hls rfl key hkey
    -- compare the outputs' lengths on the event without content
    have hformat := (h epochLibc quietEvent).2.format_eq
    have hfile : quietEvent.getFile ≠ none := by decide
    rw [format_new epochLibc xxSrc quietEvent hfile hls,
        format_new epochLibc xxSrcs quietEvent hfile hls] at hformat
    have hlen := length_versions epochLibc (groups ls) ls hls
    rw [hformat] at hlen
    have hzero : (knownConversions ls).countP notMessage = 0 := by omega
    have hmessage := List.countP_eq_zero.mp hzero key hkey
    simpa [notMessage] using hmessage
  · intro h lib event
    refine ⟨?_, sameText_of_items h.items_eq lib event⟩
    rw [new_isError, new_isError]

/-- For `%p` the compiled copy prints the message. -/
theorem versions_differ :
    ¬ ∀ p : Str, VersionsAgree p := by
  intro h
  have := (h "%p".toList epochLibc sampleEvent).2.format_eq
  revert this
  decide

end SylarCot.Log
