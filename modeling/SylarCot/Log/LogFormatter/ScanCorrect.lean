/-
  SylarCot.Log.LogFormatter.ScanCorrect
  ─────────────────────────────────────
  **THE SCAN LOOP READS THE LEXICAL GRAMMAR.**

  `Tokens.feed` says what one lexeme adds to the scanner's buffer, token list
  and date format.  Between two lexemes the scanner is `At` the remaining text;
  `scan_lexeme` is the step lemma (one lexeme, one to many rounds of the loop),
  `scan_lexed` the run lemma by induction on the sequence.  With the dichotomy
  of the grammar this decides the scan of EVERY string:

    • `scan_src` — a lexed sequence is scanned to the end, and the tokens are
      what its lexemes feed;
    • `scan_broken` — in front of a broken ending the scan returns early.
-/
import SylarCot.Log.LogFormatter.Scan
import SylarCot.Log.LogFormatter.PatternLanguage

namespace SylarCot.Log

open SylarCot.Library

/-! ## §1. What a lexeme feeds. -/

/-- The scanner's locals without the index and the state. -/
structure Tokens where
  normal_str : Str := []
  patterns : List (Bool × Str) := []
  dateformat : Str := []

/-- The token list with the pending normal string pushed. -/
def Tokens.flushed (t : Tokens) : List (Bool × Str) :=
  if t.normal_str ≠ [] then t.patterns ++ [(false, t.normal_str)] else t.patterns

/-- The effect of one lexeme. -/
def Tokens.feed (t : Tokens) : Lexeme → Tokens
  | .chr c => { t with normal_str := t.normal_str ++ [c] }
  | .percent => { t with normal_str := [], patterns := t.flushed ++ [(false, ['%'])] }
  | .conv c => { t with normal_str := [], patterns := t.flushed ++ [(true, [c])] }
  | .date group =>
      { normal_str := []
        patterns := t.flushed ++ [(true, ['d'])]
        dateformat := t.dateformat ++ group.getD [] }

/-- The scanner's token fields. -/
def ScanState.tokens (s : ScanState) : Tokens := ⟨s.normal_str, s.patterns, s.dateformat⟩

@[simp] theorem flush_i (s : ScanState) : s.flush.i = s.i := by
  unfold ScanState.flush; split <;> rfl

@[simp] theorem flush_dateformat (s : ScanState) : s.flush.dateformat = s.dateformat := by
  unfold ScanState.flush; split <;> rfl

@[simp] theorem flush_patterns (s : ScanState) : s.flush.patterns = s.tokens.flushed := by
  unfold ScanState.flush Tokens.flushed ScanState.tokens; split <;> rfl

/-! ## §2. Reading the pattern at an index. -/

/-- What a non-empty remaining text says about the index. -/
theorem drop_eq_cons {p r : Str} {i : Nat} {c : Char} (h : p.drop i = c :: r) :
    i < p.length ∧ p[i]? = some c ∧ p.drop (i + 1) = r := by
  have hi : i < p.length := by
    by_contra hi
    rw [List.drop_eq_nil_of_le (by omega)] at h
    cases h
  rw [List.drop_eq_getElem_cons hi] at h
  injection h with hc hr
  exact ⟨hi, by rw [List.getElem?_eq_getElem hi, hc], hr⟩

theorem drop_eq_nil {p : Str} {i : Nat} (h : p.drop i = []) : p.length ≤ i :=
  List.drop_eq_nil_iff.mp h

/-- The scanner stands between two lexemes, in front of `rest`. -/
def At (p : Str) (s : ScanState) (rest : Str) : Prop :=
  p.drop s.i = rest ∧ (rest ≠ [] → s.state = .NORMAL)

/-! ## §3. The group loop. -/

/-- A chain of rounds over chars other than '}'. -/
theorem braceBody_steps (p : Str) :
    ∀ (group rest : Str) (s : ScanState), '}' ∉ group → p.drop s.i = group ++ rest →
      Steps (braceBody p) s
        { s with dateformat := s.dateformat ++ group, i := s.i + group.length }
  | [], rest, s, _, _ => by
      simpa using Steps.refl (braceBody p) s
  | b :: group, rest, s, hg, hdrop => by
      simp only [List.mem_cons, not_or] at hg
      obtain ⟨hi, hget, htail⟩ := drop_eq_cons hdrop
      have hround : braceBody p s
          = .next { s with dateformat := s.dateformat ++ [b], i := s.i + 1 } := by
        unfold braceBody
        rw [if_pos hi, hget]
        exact if_pos (Ne.symm hg.1)
      have hrest := braceBody_steps p group rest
        { s with dateformat := s.dateformat ++ [b], i := s.i + 1 } hg.2 htail
      refine (Steps.single hround).trans ?_
      simpa [Nat.add_assoc, Nat.add_comm 1] using hrest

theorem braceBody_next {p : Str} {s s' : ScanState} (h : braceBody p s = .next s') :
    s.i < p.length ∧ s'.i = s.i + 1 := by
  unfold braceBody at h
  by_cases hi : s.i < p.length
  · rw [if_pos hi, List.getElem?_eq_getElem hi] at h
    simp only at h
    split at h
    · injection h with h
      exact ⟨hi, by rw [← h]⟩
    · cases h
  · rw [if_neg hi] at h
    cases h

/-- **The group loop** collects the text up to the first '}', or to the end. -/
theorem braceLoop_eq (p group rest : Str) (s : ScanState) (hg : '}' ∉ group)
    (hdrop : p.drop s.i = group ++ rest) (hrest : rest = [] ∨ ∃ r, rest = '}' :: r) :
    braceLoop p s = .finished
      { s with dateformat := s.dateformat ++ group, i := s.i + group.length } := by
  have hend : p.drop (s.i + group.length) = rest := by
    rw [← List.drop_drop, hdrop, List.drop_left]
  have hexit : braceBody p
        { s with dateformat := s.dateformat ++ group, i := s.i + group.length }
      = .exit (.finished
        { s with dateformat := s.dateformat ++ group, i := s.i + group.length }) := by
    unfold braceBody
    rcases hrest with rfl | ⟨r, rfl⟩
    · exact if_neg (Nat.not_lt.mpr (drop_eq_nil hend))
    · obtain ⟨hi, hget, -⟩ := drop_eq_cons hend
      simp only
      rw [if_pos hi, hget]
      rfl
  unfold braceLoop
  rw [loop_of_steps (fun _ => True) (fun s => p.length - s.i)
        (fun s s' _ h => ⟨trivial, by have := braceBody_next h; omega⟩)
        trivial (braceBody_steps p group rest s hg hdrop) hexit _ (by omega)]
  rfl

/-! ## §4. One lexeme, one step. -/

/-- A round whose switch breaks. -/
theorem scanBody_next {p : Str} {s s' : ScanState} (hi : s.i < p.length)
    (h : switchBody p s = .finished s') : scanBody p s = .next { s' with i := s'.i + 1 } := by
  unfold scanBody
  rw [if_pos hi, h]

/-- A round whose switch returns from `init`. -/
theorem scanBody_returned {p : Str} {s : ScanState} (hi : s.i < p.length)
    (h : switchBody p s = .returned) : scanBody p s = .exit .returned := by
  unfold scanBody
  rw [if_pos hi, h]

/-- A char other than '%', read between lexemes. -/
theorem scan_chr {p r : Str} {s : ScanState} {c : Char} (hc : c ≠ '%')
    (hat : At p s (c :: r)) :
    scanBody p s = .next { s with normal_str := s.normal_str ++ [c], i := s.i + 1 } := by
  obtain ⟨hdrop, hstate⟩ := hat
  obtain ⟨hi, hget, -⟩ := drop_eq_cons hdrop
  have hsw : switchBody p s = .finished { s with normal_str := s.normal_str ++ [c] } := by
    unfold switchBody normalCase
    rw [hget, hstate (by simp)]
    simp [hc, ← hstate (by simp)]
  exact scanBody_next hi hsw

/-- The scanner after the '%' of a directive. -/
def afterPercent (s : ScanState) : ScanState :=
  { s.flush with normal_str := [], state := .PATTERN, i := s.i + 1 }

/-- A '%' that is not the last char, read between lexemes. -/
theorem scan_percent {p r : Str} {s : ScanState} {e : Char}
    (hat : At p s ('%' :: e :: r)) :
    scanBody p s = .next (afterPercent s) ∧ p.drop (s.i + 1) = e :: r := by
  obtain ⟨hdrop, hstate⟩ := hat
  obtain ⟨hi, hget, htail⟩ := drop_eq_cons hdrop
  have hi' : s.i + 1 < p.length := (drop_eq_cons htail).1
  have hsw : switchBody p s
      = .finished { s.flush with normal_str := [], state := .PATTERN } := by
    unfold switchBody normalCase
    rw [hget, hstate (by simp)]
    simp only [↓reduceIte, flush_i]
    rw [if_neg (by omega)]
  refine ⟨?_, htail⟩
  rw [scanBody_next hi hsw]
  simp [afterPercent]

/-- The switch in state PATTERN. -/
theorem switch_afterPercent {p r : Str} {s : ScanState} {e : Char}
    (hdrop : p.drop (s.i + 1) = e :: r) :
    s.i + 1 < p.length ∧ switchBody p (afterPercent s) = patternCase p e (afterPercent s) := by
  obtain ⟨hi, hget, -⟩ := drop_eq_cons hdrop
  refine ⟨hi, ?_⟩
  have hnext : p[(afterPercent s).i]? = some e := hget
  unfold switchBody
  rw [hnext]
  rfl

/-- The two rounds of a directive whose second char settles it. -/
theorem scan_directive {p r : Str} {s s' : ScanState} {e : Char}
    (hat : At p s ('%' :: e :: r))
    (hcase : patternCase p e (afterPercent s) = .finished s') :
    Steps (scanBody p) s { s' with i := s'.i + 1 } := by
  obtain ⟨hround, hdrop⟩ := scan_percent hat
  obtain ⟨hi, hsw⟩ := switch_afterPercent hdrop
  refine (Steps.single hround).trans (Steps.single ?_)
  exact scanBody_next hi (hsw.trans hcase)

/-- `%d` in front of a text that does not start with '{'. -/
theorem dateCase_bare {p r : Str} {s : ScanState} (hdrop : p.drop (s.i + 1) = r)
    (hbare : r.head? ≠ some '{') :
    ∃ s', dateCase p s = .finished s' ∧ p.drop (s'.i + 1) = r ∧
      (r ≠ [] → s'.state = .NORMAL) ∧ s'.tokens = s.tokens ∧ s.i ≤ s'.i := by
  cases r with
  | nil =>
      have hlen := drop_eq_nil hdrop
      refine ⟨{ s with i := s.i + 1 }, ?_, ?_, by simp, rfl, Nat.le_succ _⟩
      · unfold dateCase
        exact if_pos hlen
      · exact List.drop_eq_nil_of_le (by simp only; omega)
  | cons b r =>
      obtain ⟨hi, hget, -⟩ := drop_eq_cons hdrop
      have hb : b ≠ '{' := by simpa using hbare
      refine ⟨{ s with state := .NORMAL }, ?_, hdrop, fun _ => rfl, rfl, Nat.le_refl _⟩
      unfold dateCase
      simp only
      rw [if_neg (by omega), hget]
      exact if_pos hb

/-- `%d{group` up to the end or to its '}'. -/
theorem dateCase_group {p group rest : Str} {s : ScanState}
    (hdrop : p.drop (s.i + 1) = '{' :: (group ++ rest)) (hg : '}' ∉ group)
    (hrest : rest = [] ∨ ∃ r, rest = '}' :: r) :
    dateCase p s =
      if rest = [] then .returned
      else .finished { s with
        dateformat := s.dateformat ++ group
        i := s.i + 1 + 1 + group.length
        state := .NORMAL } := by
  obtain ⟨hi, hget, htail⟩ := drop_eq_cons hdrop
  have hend : p.drop (s.i + 1 + 1 + group.length) = rest := by
    rw [← List.drop_drop, htail, List.drop_left]
  unfold dateCase
  simp only
  rw [if_neg (by omega), hget]
  simp only [ne_eq, not_true_eq_false, ↓reduceIte]
  rw [braceLoop_eq p group rest { s with i := s.i + 1 + 1 } hg htail hrest]
  simp only
  rcases hrest with rfl | ⟨r, rfl⟩
  · rw [if_pos (drop_eq_nil hend), if_pos rfl]
  · rw [if_neg (Nat.not_le.mpr (drop_eq_cons hend).1), if_neg (by simp)]

/-- **The step lemma**: in front of a lexeme the loop reads exactly that lexeme
and feeds it. -/
theorem scan_lexeme {p rest : Str} {s : ScanState} (l : Lexeme) (hok : l.Ok)
    (hbefore : l.Before rest) (hat : At p s (l.src ++ rest)) :
    ∃ s', Steps (scanBody p) s s' ∧ At p s' rest ∧ s'.tokens = s.tokens.feed l := by
  match l with
  | .chr c =>
      obtain ⟨-, -, htail⟩ := drop_eq_cons hat.1
      exact ⟨_, Steps.single (scan_chr hok hat), ⟨htail, fun _ => hat.2 (by simp [Lexeme.src])⟩,
        rfl⟩
  | .percent =>
      have hdrop := (drop_eq_cons (scan_percent hat).2).2.2
      exact ⟨_, scan_directive hat rfl, ⟨hdrop, fun _ => rfl⟩,
        by simp [ScanState.tokens, Tokens.feed, afterPercent]⟩
  | .conv e =>
      have hdrop := (drop_eq_cons (scan_percent hat).2).2.2
      have hcase : patternCase p e (afterPercent s) = .finished { afterPercent s with
          patterns := (afterPercent s).patterns ++ [(true, [e])], state := .NORMAL } := by
        unfold patternCase
        rw [if_neg hok.1, if_neg hok.2]
      exact ⟨_, scan_directive hat hcase, ⟨hdrop, fun _ => rfl⟩,
        by simp [ScanState.tokens, Tokens.feed, afterPercent]⟩
  | .date none =>
      have hdrop := (drop_eq_cons (scan_percent hat).2).2.2
      obtain ⟨s', hcase, hrest, hstate, htok, -⟩ :=
        dateCase_bare (s := { afterPercent s with
          patterns := (afterPercent s).patterns ++ [(true, ['d'])] }) hdrop hbefore
      refine ⟨_, scan_directive hat hcase, ⟨hrest, hstate⟩, ?_⟩
      rw [show ScanState.tokens { s' with i := s'.i + 1 } = s'.tokens from rfl, htok]
      simp [ScanState.tokens, Tokens.feed, afterPercent]
  | .date (some group) =>
      have hsrc : Lexeme.src (.date (some group)) ++ rest
          = '%' :: 'd' :: '{' :: (group ++ '}' :: rest) := by
        simp [Lexeme.src]
      rw [hsrc] at hat
      have hdrop := (drop_eq_cons (scan_percent hat).2).2.2
      have hcase := dateCase_group (s := { afterPercent s with
          patterns := (afterPercent s).patterns ++ [(true, ['d'])] }) hdrop hok (.inr ⟨rest, rfl⟩)
      rw [if_neg (by simp)] at hcase
      refine ⟨_, scan_directive hat hcase, ⟨?_, fun _ => rfl⟩, ?_⟩
      · have hend := congrArg (List.drop (1 + group.length + 1)) hdrop
        rw [List.drop_drop] at hend
        simpa [Nat.add_assoc, Nat.add_comm, Nat.add_left_comm, afterPercent] using hend
      · simp [ScanState.tokens, Tokens.feed, afterPercent]

/-! ## §5. Every round advances the index. -/

theorem dateCase_le {p : Str} {s s' : ScanState} (h : dateCase p s = .finished s') :
    s.i ≤ s'.i := by
  by_cases hbrace : (p.drop (s.i + 1)).head? = some '{'
  · obtain ⟨r, hdrop⟩ : ∃ r, p.drop (s.i + 1) = '{' :: r := by
      cases hd : p.drop (s.i + 1) with
      | nil => simp [hd] at hbrace
      | cons b r => exact ⟨r, by simpa [hd] using hbrace⟩
    obtain ⟨group, rest, hg, hr, hrest⟩ : ∃ group rest, '}' ∉ group ∧ r = group ++ rest ∧
        (rest = [] ∨ ∃ r', rest = '}' :: r') := by
      rcases splitBrace r with hopen | ⟨group, rest, hg, hr⟩
      · exact ⟨r, [], hopen, (List.append_nil r).symm, .inl rfl⟩
      · exact ⟨group, '}' :: rest, hg, hr, .inr ⟨rest, rfl⟩⟩
    rw [dateCase_group (hr ▸ hdrop) hg hrest] at h
    split at h
    · cases h
    · injection h with h
      rw [← h]
      show s.i ≤ s.i + 1 + 1 + group.length
      omega
  · obtain ⟨t, hcase, -, -, -, hle⟩ := dateCase_bare rfl hbrace
    rw [hcase] at h
    injection h with h
    rw [← h]; exact hle

theorem normalCase_le {p : Str} {c : Char} {s s' : ScanState}
    (h : normalCase p c s = .finished s') : s.i ≤ s'.i := by
  unfold normalCase at h
  by_cases hc : c = '%'
  · rw [if_pos hc] at h
    simp only [flush_i] at h
    split at h
    · cases h
    · injection h with h
      subst h
      exact Nat.le_refl s.i
  · rw [if_neg hc] at h
    injection h with h
    subst h
    exact Nat.le_refl s.i

theorem patternCase_le {p : Str} {c : Char} {s s' : ScanState}
    (h : patternCase p c s = .finished s') : s.i ≤ s'.i := by
  unfold patternCase at h
  by_cases hc : c = '%'
  · rw [if_pos hc] at h
    injection h with h
    subst h
    exact Nat.le_refl s.i
  rw [if_neg hc] at h
  by_cases hd : c = 'd'
  · rw [if_pos hd] at h
    exact dateCase_le (s := { s with patterns := s.patterns ++ [(true, [c])] }) h
  · rw [if_neg hd] at h
    injection h with h
    subst h
    exact Nat.le_refl s.i

theorem switchBody_le {p : Str} {s s' : ScanState} (h : switchBody p s = .finished s') :
    s.i ≤ s'.i := by
  unfold switchBody at h
  cases hget : p[s.i]? with
  | none => rw [hget] at h; cases h
  | some c =>
      rw [hget] at h
      cases hstate : s.state with
      | NORMAL => rw [hstate] at h; exact normalCase_le h
      | PATTERN => rw [hstate] at h; exact patternCase_le h

/-- **Progress**: a round that goes on started inside the pattern and leaves the
index strictly larger. -/
theorem scanBody_lt {p : Str} {s s' : ScanState} (h : scanBody p s = .next s') :
    s.i < p.length ∧ s.i < s'.i := by
  unfold scanBody at h
  by_cases hi : s.i < p.length
  · rw [if_pos hi] at h
    cases hsw : switchBody p s with
    | finished t =>
        rw [hsw] at h
        injection h with h
        have hle := switchBody_le hsw
        refine ⟨hi, ?_⟩
        rw [← h]
        show s.i < t.i + 1
        omega
    | returned => rw [hsw] at h; cases h
    | fault f => rw [hsw] at h; cases h
  · rw [if_neg hi] at h
    cases h

/-- **The bound does not matter**: a chain of rounds that ends in an exit is what the
scan loop computes, under any bound above the pattern's length. -/
theorem scanLoop_of_steps {p : Str} {s : ScanState} {e : ScanExit}
    (hsteps : Steps (scanBody p) {} s) (hexit : scanBody p s = .exit e) :
    ∀ n, p.length < n → loop (scanBody p) n {} = some e := by
  have hdec : ∀ t t' : ScanState, True → scanBody p t = .next t' →
      True ∧ p.length - t'.i < p.length - t.i := by
    intro t t' _ h
    have := scanBody_lt h
    exact ⟨trivial, by omega⟩
  exact loop_of_steps (fun _ => True) (fun s => p.length - s.i) hdec trivial hsteps hexit

/-- The scan is decided by any chain of rounds that ends in an exit. -/
theorem scan_of_steps {p : Str} {s : ScanState} {e : ScanExit}
    (hsteps : Steps (scanBody p) {} s) (hexit : scanBody p s = .exit e) : scan p = e := by
  unfold scan
  rw [scanLoop_of_steps hsteps hexit _ (Nat.lt_succ_self _)]
  rfl

/-! ## §6. Whole patterns. -/

/-- **The run lemma**: in front of a lexed sequence the loop reads the sequence
and feeds its lexemes in order. -/
theorem scan_lexed {p rest : Str} :
    ∀ (ls : List Lexeme) (s : ScanState), Lexed rest ls → At p s (src ls ++ rest) →
      ∃ s', Steps (scanBody p) s s' ∧ At p s' rest ∧ s'.tokens = ls.foldl Tokens.feed s.tokens
  | [], s, _, hat => ⟨s, Steps.refl _ s, hat, rfl⟩
  | l :: ls, s, ⟨hok, hbefore, hls⟩, hat => by
      rw [src_cons, List.append_assoc] at hat
      obtain ⟨t, hsteps, hat', htok⟩ := scan_lexeme l hok hbefore hat
      obtain ⟨s', hsteps', hat'', htok'⟩ := scan_lexed ls t hls hat'
      exact ⟨s', hsteps.trans hsteps', hat'', by rw [htok', htok]; rfl⟩

theorem at_start (p : Str) : At p {} p := ⟨rfl, fun _ => rfl⟩

/-- The loop reads a lexed pattern up to where its condition fails. -/
theorem src_finishes {ls : List Lexeme} (hls : Lexed [] ls) :
    ∃ s, Steps (scanBody (src ls)) {} s ∧ scanBody (src ls) s = .exit (.finished s) ∧
      s.tokens = ls.foldl Tokens.feed {} := by
  have hat : At (src ls) {} (src ls ++ []) := by
    rw [List.append_nil]
    exact at_start _
  obtain ⟨s, hsteps, ⟨hdrop, -⟩, htok⟩ := scan_lexed ls {} hls hat
  refine ⟨s, hsteps, ?_, htok⟩
  unfold scanBody
  exact if_neg (Nat.not_lt.mpr (drop_eq_nil hdrop))

/-- **A lexed pattern is scanned to its end.** -/
theorem scan_src {ls : List Lexeme} (hls : Lexed [] ls) :
    ∃ s, scan (src ls) = .finished s ∧ s.tokens = ls.foldl Tokens.feed {} := by
  obtain ⟨s, hsteps, hexit, htok⟩ := src_finishes hls
  exact ⟨s, scan_of_steps hsteps hexit, htok⟩

/-- In front of a broken ending `init` returns, at once or after one round. -/
theorem broken_returns {p t : Str} {s : ScanState} (ht : Broken t) (hat : At p s t) :
    ∃ s', Steps (scanBody p) s s' ∧ scanBody p s' = .exit .returned := by
  cases ht with
  | lonePercent =>
      obtain ⟨hi, hget, htail⟩ := drop_eq_cons hat.1
      have hlen := drop_eq_nil htail
      refine ⟨s, Steps.refl _ s, scanBody_returned hi ?_⟩
      unfold switchBody normalCase
      rw [hget, hat.2 (by simp)]
      simp only [↓reduceIte, flush_i]
      exact if_pos hlen
  | openGroup group hg =>
      obtain ⟨hround, hdrop⟩ := scan_percent hat
      obtain ⟨hi, hsw⟩ := switch_afterPercent hdrop
      refine ⟨_, Steps.single hround, scanBody_returned hi (hsw.trans ?_)⟩
      have hgroup : p.drop (s.i + 1 + 1) = '{' :: (group ++ []) := by
        rw [List.append_nil]
        exact (drop_eq_cons hdrop).2.2
      exact dateCase_group (s := { afterPercent s with
          patterns := (afterPercent s).patterns ++ [(true, ['d'])] }) hgroup hg (.inl rfl)

/-- **A broken pattern stops the scan.** -/
theorem scan_broken {ls : List Lexeme} {t : Str} (ht : Broken t) (hls : Lexed t ls) :
    scan (src ls ++ t) = .returned := by
  obtain ⟨s, hsteps, hat, -⟩ := scan_lexed ls {} hls (at_start _)
  obtain ⟨s', hsteps', hexit⟩ := broken_returns ht hat
  exact scan_of_steps (hsteps.trans hsteps') hexit

end SylarCot.Log
