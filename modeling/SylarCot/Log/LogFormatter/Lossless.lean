/-
  SylarCot.Log.LogFormatter.Lossless
  ──────────────────────────────────
  **THE SCAN ENDS, STAYS INSIDE THE PATTERN AND LOSES NOTHING.**

  `writeBack` writes a token list as a pattern: a normal string with every '%'
  doubled, a pattern char behind a '%'.  Feeding a lexeme to the scanner's tokens
  adds the lexeme's own text to what they write back, a date without its group;
  so after a whole pattern the tokens write back the pattern without groups.

    • `scan_ends` — for every pattern the loop ends, under any bound above the
      pattern's length, without a fault, and every round moves the index forward;
    • `scan_lossless` — it ends at the item loop exactly on the lexed patterns,
      and there the tokens and the date format hold every char of the pattern once.
-/
import SylarCot.Log.LogFormatter.InitCorrect

namespace SylarCot.Log

open SylarCot.Library

/-! ## §1. The scan ends. -/

/-- From the start of any pattern some chain of rounds ends the loop, without a fault. -/
theorem reaches_exit (p : Str) :
    ∃ s e, Steps (scanBody p) {} s ∧ scanBody p s = .exit e ∧ ∀ f, e ≠ .fault f := by
  obtain ⟨ls, t, ht, hls, rfl⟩ := lexes p.length p (Nat.le_refl _)
  rcases ht with rfl | hbroken
  · rw [List.append_nil]
    obtain ⟨s, hsteps, hexit, -⟩ := src_finishes hls
    refine ⟨s, _, hsteps, hexit, ?_⟩
    intro f h
    cases h
  · obtain ⟨s, hsteps, hat, -⟩ := scan_lexed ls {} hls (at_start _)
    obtain ⟨s', hsteps', hexit⟩ := broken_returns hbroken hat
    refine ⟨s', _, hsteps.trans hsteps', hexit, ?_⟩
    intro f h
    cases h

/-- **THE SCAN ALWAYS ENDS AND STAYS INSIDE THE PATTERN**: more rounds than the pattern
has chars change nothing, no access is out of range and no decrement wraps, and every
round that goes on started inside the pattern and leaves the index strictly larger. -/
theorem scan_ends (p : Str) :
    (∀ n, p.length < n → loop (scanBody p) n {} = some (scan p)) ∧
      (∀ f, scan p ≠ .fault f) ∧
      ∀ s s', scanBody p s = .next s' → s.i < p.length ∧ s.i < s'.i := by
  obtain ⟨s, e, hsteps, hexit, hfault⟩ := reaches_exit p
  have hscan : scan p = e := scan_of_steps hsteps hexit
  refine ⟨?_, ?_, fun _ _ => scanBody_lt⟩
  · rw [hscan]
    exact scanLoop_of_steps hsteps hexit
  · rw [hscan]
    exact hfault

/-- An open group ends the scan, in 1000 rounds as in any number. -/
theorem scan_ends_openGroup :
    loop (scanBody "%d\x7b%H".toList) 1000 {} = some .returned := by
  rw [(scan_ends "%d\x7b%H".toList).1 1000 (by decide)]
  decide

/-! ## §2. Writing tokens back. -/

/-- A normal string as a pattern: every '%' doubled. -/
def doublePercent (s : Str) : Str := s.flatMap fun c => if c = '%' then ['%', '%'] else [c]

/-- A token as a pattern. -/
def writeToken : Bool × Str → Str
  | (false, s) => doublePercent s
  | (true, s) => '%' :: s

/-- A token list as a pattern. -/
def writeBack (patterns : List (Bool × Str)) : Str := patterns.flatMap writeToken

/-- A date without its group. -/
def Lexeme.bare : Lexeme → Lexeme
  | .date _ => .date none
  | l => l

theorem doublePercent_append (s t : Str) :
    doublePercent (s ++ t) = doublePercent s ++ doublePercent t :=
  List.flatMap_append

theorem writeBack_append (ps qs : List (Bool × Str)) :
    writeBack (ps ++ qs) = writeBack ps ++ writeBack qs :=
  List.flatMap_append

theorem writeBack_singleton (q : Bool × Str) : writeBack [q] = writeToken q :=
  List.append_nil _

/-- What the tokens fed so far write back. -/
def Tokens.written (t : Tokens) : Str := writeBack t.patterns ++ doublePercent t.normal_str

/-- Pushing the pending string writes nothing new. -/
theorem writeBack_flushed (t : Tokens) : writeBack t.flushed = t.written := by
  unfold Tokens.flushed Tokens.written
  by_cases hn : t.normal_str = []
  · rw [if_neg (by simp [hn]), hn]
    exact (List.append_nil _).symm
  · rw [if_pos hn, writeBack_append, writeBack_singleton]
    rfl

/-- A directive's token writes the directive. -/
theorem writeToken_token {l : Lexeme} (hok : l.Ok) : writeToken l.token = l.bare.src := by
  match l with
  | .chr c =>
      show doublePercent [c] = [c]
      unfold doublePercent
      rw [List.flatMap_singleton]
      exact if_neg hok
  | .percent => rfl
  | .conv _ => rfl
  | .date _ => rfl

/-- **One lexeme** adds its own text, a date without the group. -/
theorem written_feed (t : Tokens) {l : Lexeme} (hok : l.Ok) :
    (t.feed l).written = t.written ++ l.bare.src := by
  rw [← writeToken_token hok]
  by_cases hl : ∀ c, l ≠ .chr c
  · obtain ⟨hnormal, hpatterns⟩ := feed_token t hl
    unfold Tokens.written
    rw [hnormal, hpatterns, writeBack_append, writeBack_flushed, writeBack_singleton]
    exact List.append_nil _
  · push Not at hl
    obtain ⟨c, rfl⟩ := hl
    -- a literal char waits in the pending string
    show writeBack t.patterns ++ doublePercent (t.normal_str ++ [c]) = _
    rw [doublePercent_append, ← List.append_assoc]
    rfl

/-- **A sequence of lexemes** adds their texts in order. -/
theorem written_foldl {rest : Str} :
    ∀ (ls : List Lexeme) (t : Tokens), Lexed rest ls →
      (ls.foldl Tokens.feed t).written = t.written ++ src (ls.map Lexeme.bare)
  | [], t, _ => (List.append_nil _).symm
  | l :: ls, t, ⟨hok, _, hls⟩ => by
      rw [List.foldl_cons, written_foldl ls (t.feed l) hls, written_feed t hok,
          List.append_assoc]
      rfl

/-! ## §3. Nothing is lost. -/

/-- A scan that reaches the item loop has read a lexed pattern. -/
theorem scan_finished_iff (p : Str) :
    (∃ s, scan p = .finished s) ↔ ∃ ls, Lexed [] ls ∧ src ls = p := by
  constructor
  · intro h
    obtain ⟨s, hs⟩ := h
    obtain ⟨ls, t, ht, hls, rfl⟩ := lexes p.length p (Nat.le_refl _)
    rcases ht with rfl | hbroken
    · exact ⟨ls, hls, (List.append_nil _).symm⟩
    · -- in front of a broken ending `init` has returned
      rw [scan_broken hbroken hls] at hs
      cases hs
  · intro h
    obtain ⟨ls, hls, rfl⟩ := h
    obtain ⟨s, hs, -⟩ := scan_src hls
    exact ⟨s, hs⟩

/-- **THE SCAN IS LOSSLESS** and accepts exactly its grammar: it reaches the item loop
iff the pattern is a lexed sequence, and then the tokens write back the pattern with the
groups of its dates removed, and `dateformat` is these groups in order. -/
theorem scan_lossless (p : Str) :
    ((∃ s, scan p = .finished s) ↔ ∃ ls, Lexed [] ls ∧ src ls = p) ∧
      ∀ s, scan p = .finished s → ∀ ls, Lexed [] ls → src ls = p →
        writeBack s.flush.patterns = src (ls.map Lexeme.bare) ∧
          s.flush.dateformat = groups ls := by
  refine ⟨scan_finished_iff p, ?_⟩
  intro s hs ls hls hp
  -- the loop ends in one state only, the one the lexemes lead to
  obtain ⟨s', hs', htok⟩ := scan_src hls
  rw [hp, hs] at hs'
  injection hs' with hs'
  subst hs'
  constructor
  · rw [flush_patterns, writeBack_flushed, htok, written_foldl ls {} hls]
    rfl
  · have hdate := feed_dateformat ls {}
    rw [← htok] at hdate
    rw [flush_dateformat]
    exact hdate

/-- "a%%%d{%H}b" is written back as "a%%%db", and its date format is "%H". -/
theorem scan_lossless_group : ∃ s, scan "a%%%d\x7b%H\x7db".toList = .finished s ∧
    writeBack s.flush.patterns = "a%%%db".toList ∧ s.flush.dateformat = "%H".toList := by
  have hls : Lexed [] [.chr 'a', .percent, .date (some "%H".toList), .chr 'b'] := by
    simp [Lexed, Lexeme.Ok, Lexeme.Before]
  obtain ⟨hfinished, htokens⟩ := scan_lossless "a%%%d\x7b%H\x7db".toList
  obtain ⟨s, hs⟩ := hfinished.mpr ⟨_, hls, by decide⟩
  exact ⟨s, hs, htokens s hs _ hls (by decide)⟩

end SylarCot.Log
