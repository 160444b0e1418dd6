/-
  SylarCot.Log.LogFormatter.PatternLanguage
  ─────────────────────────────────────────
  **THE LEXICAL GRAMMAR OF PATTERNS**, independent of the scanner.

  A pattern is read as a sequence of lexemes: a char other than '%', the escape
  `%%`, a conversion `%c`, a bare `%d` and a `%d{...}`.  `src` writes a sequence
  back.  A sequence is `Lexed rest` when it may stand in front of the text
  `rest`: every lexeme is well formed, and a bare `%d` is not directly followed
  by a '{' (which would make it a `%d{...}`).

    • `lexes` — EVERY string is a lexed sequence followed by nothing or by one
      of the two malformed endings (`Broken`): a lone '%', an unclosed `%d{`;
    • `lexes_unique` — and it is so in one way only.
-/
import SylarCot.Log.OStream

namespace SylarCot.Log

/-! ## §1. Lexemes. -/

/-- One lexeme of a pattern; a `date` carries the text of its group, if any. -/
inductive Lexeme where
  | chr (c : Char)
  | percent
  | conv (c : Char)
  | date (group : Option Str)
  deriving Repr, DecidableEq

namespace Lexeme

/-- How a lexeme is written. -/
def src : Lexeme → Str
  | .chr c => [c]
  | .percent => ['%', '%']
  | .conv c => ['%', c]
  | .date none => ['%', 'd']
  | .date (some group) => '%' :: 'd' :: '{' :: (group ++ ['}'])

/-- The lexeme is what it is named. -/
def Ok : Lexeme → Prop
  | .chr c => c ≠ '%'
  | .percent => True
  | .conv c => c ≠ '%' ∧ c ≠ 'd'
  | .date none => True
  | .date (some group) => '}' ∉ group

/-- The lexeme may stand directly in front of `rest`. -/
def Before (rest : Str) : Lexeme → Prop
  | .date none => rest.head? ≠ some '{'
  | _ => True

end Lexeme

/-- A lexeme sequence as a pattern. -/
def src (ls : List Lexeme) : Str := ls.flatMap Lexeme.src

@[simp] theorem src_nil : src [] = [] := rfl

@[simp] theorem src_cons (l : Lexeme) (ls : List Lexeme) : src (l :: ls) = l.src ++ src ls := rfl

theorem src_append (ls ms : List Lexeme) : src (ls ++ ms) = src ls ++ src ms :=
  List.flatMap_append

/-- The sequence reads as itself in front of `rest`. -/
def Lexed (rest : Str) : List Lexeme → Prop
  | [] => True
  | l :: ls => l.Ok ∧ l.Before (src ls ++ rest) ∧ Lexed rest ls

/-- The endings no lexeme sequence has. -/
inductive Broken : Str → Prop where
  | lonePercent : Broken ['%']
  | openGroup (group : Str) (h : '}' ∉ group) : Broken ('%' :: 'd' :: '{' :: group)

/-! ## §2. Every string is a lexed sequence and at most one broken ending. -/

/-- Split a text at its first '}'. -/
theorem splitBrace (s : Str) : '}' ∉ s ∨ ∃ group rest, '}' ∉ group ∧ s = group ++ '}' :: rest := by
  by_cases h : '}' ∈ s
  · right
    obtain ⟨group, rest, hs, hg⟩ := List.eq_append_cons_of_mem h
    exact ⟨group, rest, hg, hs⟩
  · left; exact h

/-- Put one more lexeme in front of a split. -/
private theorem lexes_cons {l : Lexeme} {p : Str} (hok : l.Ok) (hbefore : l.Before p)
    (h : ∃ ls rest, (rest = [] ∨ Broken rest) ∧ Lexed rest ls ∧ src ls ++ rest = p) :
    ∃ ls rest, (rest = [] ∨ Broken rest) ∧ Lexed rest ls ∧ src ls ++ rest = l.src ++ p := by
  obtain ⟨ls, rest, hrest, hls, rfl⟩ := h
  exact ⟨l :: ls, rest, hrest, ⟨hok, hbefore, hls⟩, by simp⟩

/-- **The dichotomy.** -/
theorem lexes : ∀ (n : Nat) (p : Str), p.length ≤ n →
    ∃ ls rest, (rest = [] ∨ Broken rest) ∧ Lexed rest ls ∧ src ls ++ rest = p := by
  intro n
  induction n with
  | zero =>
      intro p hp
      obtain rfl : p = [] := List.length_eq_zero_iff.mp (by omega)
      exact ⟨[], [], .inl rfl, trivial, rfl⟩
  | succ n ih =>
      intro p hp
      match p with
      | [] => exact ⟨[], [], .inl rfl, trivial, rfl⟩
      | c :: r =>
          simp only [List.length_cons] at hp
          by_cases hc : c = '%'
          · subst hc
            match r with
            | [] => exact ⟨[], ['%'], .inr .lonePercent, trivial, rfl⟩
            | e :: r =>
                simp only [List.length_cons] at hp
                by_cases hpct : e = '%'
                · subst hpct
                  exact lexes_cons (l := .percent) trivial trivial (ih r (by omega))
                by_cases hd : e = 'd'
                · subst hd
                  by_cases hbrace : r.head? = some '{'
                  · -- a group: closed, or open up to the end
                    obtain ⟨r, rfl⟩ : ∃ r', r = '{' :: r' := by
                      cases r with
                      | nil => simp at hbrace
                      | cons b r => exact ⟨r, by simpa using hbrace⟩
                    rcases splitBrace r with hopen | ⟨group, rest, hg, rfl⟩
                    · exact ⟨[], _, .inr (.openGroup r hopen), trivial, rfl⟩
                    · have hrest := ih rest (by simp at hp; omega)
                      have := lexes_cons (l := .date (some group)) hg trivial hrest
                      simpa [Lexeme.src] using this
                  · exact lexes_cons (l := .date none) trivial hbrace (ih r (by omega))
                · exact lexes_cons (l := .conv e) ⟨hpct, hd⟩ trivial (ih r (by omega))
          · exact lexes_cons (l := .chr c) hc trivial (ih r (by omega))

/-! ## §3. There is no other way to read it. -/

/-- The first lexeme of a text, and what follows it. -/
def firstLexeme : Str → Option (Lexeme × Str)
  | [] => none
  | c :: r =>
      if c ≠ '%' then some (.chr c, r)
      else
        match r with
        | [] => none
        | e :: r =>
            if e = '%' then some (.percent, r)
            else if e ≠ 'd' then some (.conv e, r)
            else if r.head? = some '{' then
              let group := r.tail.takeWhile (· ≠ '}')
              let rest := r.tail.dropWhile (· ≠ '}')
              if rest = [] then none else some (.date (some group), rest.tail)
            else some (.date none, r)

theorem noBrace {group : Str} (h : '}' ∉ group) : ∀ c ∈ group, decide (c ≠ '}') = true := by
  intro c hc
  apply decide_eq_true
  rintro rfl
  exact h hc

theorem takeWhile_brace {group : Str} (h : '}' ∉ group) (r : Str) :
    (group ++ '}' :: r).takeWhile (· ≠ '}') = group ∧
      (group ++ '}' :: r).dropWhile (· ≠ '}') = '}' :: r := by
  constructor
  · rw [List.takeWhile_append_of_pos (noBrace h)]
    simp
  · rw [List.dropWhile_append_of_pos (noBrace h)]
    simp

/-- A lexeme is the first one of every text it may stand in front of. -/
theorem firstLexeme_src {l : Lexeme} {r : Str} (hok : l.Ok) (hbefore : l.Before r) :
    firstLexeme (l.src ++ r) = some (l, r) := by
  match l with
  | .chr c => exact if_pos hok
  | .percent => rfl
  | .conv c =>
      show (if c = '%' then _ else if c ≠ 'd' then _ else _) = _
      rw [if_neg hok.1, if_pos hok.2]
      rfl
  | .date none =>
      show (if r.head? = some '{' then _ else _) = _
      rw [if_neg hbefore]
      rfl
  | .date (some group) =>
      have hsrc : Lexeme.src (.date (some group)) ++ r
          = '%' :: 'd' :: '{' :: (group ++ '}' :: r) := by
        simp [Lexeme.src]
      obtain ⟨htake, hdrop⟩ := takeWhile_brace hok r
      rw [hsrc]
      show (if (group ++ '}' :: r).dropWhile (· ≠ '}') = [] then none else
        some (Lexeme.date (some ((group ++ '}' :: r).takeWhile (· ≠ '}'))),
          ((group ++ '}' :: r).dropWhile (· ≠ '}')).tail)) = _
      rw [htake, hdrop]
      rfl

/-- The end of a pattern has no first lexeme. -/
theorem firstLexeme_stop {t : Str} (h : t = [] ∨ Broken t) : firstLexeme t = none := by
  rcases h with rfl | hbroken
  · rfl
  · cases hbroken with
    | lonePercent => rfl
    | openGroup group hg =>
        have hdrop : (group ++ []).dropWhile (· ≠ '}') = [] :=
          List.dropWhile_append_of_pos (noBrace hg)
        rw [List.append_nil] at hdrop
        show (if group.dropWhile (· ≠ '}') = [] then none else _) = _
        rw [if_pos hdrop]

/-- **The grammar is unambiguous.** -/
theorem lexes_unique : ∀ {ls ls' : List Lexeme} {t t' : Str}, Lexed t ls → Lexed t' ls' →
    (t = [] ∨ Broken t) → (t' = [] ∨ Broken t') → src ls ++ t = src ls' ++ t' →
      ls = ls' ∧ t = t' := by
  intro ls
  induction ls with
  | nil =>
      intro ls' t t' _ hls' ht _ heq
      cases ls' with
      | nil => exact ⟨rfl, heq⟩
      | cons l' ls' =>
          obtain ⟨hok', hbefore', -⟩ := hls'
          have hfirst := firstLexeme_src hok' hbefore'
          rw [← List.append_assoc, ← src_cons, ← heq] at hfirst
          rw [show src [] ++ t = t from rfl, firstLexeme_stop ht] at hfirst
          cases hfirst
  | cons l ls ih =>
      intro ls' t t' hls hls' ht ht' heq
      obtain ⟨hok, hbefore, hls⟩ := hls
      have hfirst := firstLexeme_src hok hbefore
      rw [← List.append_assoc, ← src_cons, heq] at hfirst
      cases ls' with
      | nil =>
          rw [show src [] ++ t' = t' from rfl, firstLexeme_stop ht'] at hfirst
          cases hfirst
      | cons l' ls' =>
          obtain ⟨hok', hbefore', hls'⟩ := hls'
          rw [src_cons, List.append_assoc, firstLexeme_src hok' hbefore'] at hfirst
          injection hfirst with hpair
          injection hpair with hl hrest
          obtain ⟨rfl, rfl⟩ := ih hls hls' ht ht' hrest.symm
          exact ⟨by rw [hl], rfl⟩

/-! ## §4. Where a sequence ends. -/

/-- The sequence ends in a bare `%d`. -/
def EndsInDate (ls : List Lexeme) : Prop := ls.getLast? = some (.date none)

theorem Lexeme.src_ne_nil (l : Lexeme) : l.src ≠ [] := by
  match l with
  | .date none => simp [Lexeme.src]
  | .date (some _) => simp [Lexeme.src]
  | .chr _ => simp [Lexeme.src]
  | .percent => simp [Lexeme.src]
  | .conv _ => simp [Lexeme.src]

theorem src_eq_nil {ls : List Lexeme} (h : src ls = []) : ls = [] := by
  cases ls with
  | nil => rfl
  | cons l ls =>
      rw [src_cons, List.append_eq_nil_iff] at h
      exact absurd h.1 l.src_ne_nil

end SylarCot.Log
