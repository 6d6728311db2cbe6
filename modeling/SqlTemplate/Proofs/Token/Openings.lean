import Mathlib.Data.List.Basic
import SqlTemplate.Token.Mark

/-!
# What rules begin with

Each rule begins with its own characters, behind blanks (`Mark.Rule.opening`). So no two rules find
anything at one place of a text, whatever stands before the place (`Mark.Rule.eq_of_find?`), and the
order in which the rules are tried does not matter (`Mark.at?_eq_some_iff`).

The one pair that needs a second look is a fallback and the opening of a conditional. Both begin
with a question mark, but the opening has only one.
-/

namespace SqlTemplate

open SqlTemplate.Text

namespace Mark

variable {before before' : Option Char} {afterKey afterKey' : Bool} {s : List Char} {f f' : Found}

/-- All rules are tried. -/
theorem Rule.mem_all (r : Rule) : r ∈ Rule.all := by
  cases r with
  | listOpen delimiter => cases delimiter <;> decide
  | _ => decide

/-- The characters that a rule begins with, behind the blanks before them. -/
def Rule.opening : Rule → List Char
  | .key => ['@']
  | .fallback => ['?', '?']
  | .conditionalOpen => ['?']
  | .elseOpen => [':']
  | .blockClose => ['}']
  | .listOpen delimiter => ['(', listSign delimiter, ')']
  | .listClose => [']']
  | .separator => [';']
  | .spread => ['.', '.', '.']
  | .lineComment => ['-', '-']
  | .blockComment => ['/', '*']

/-- No rule begins as another one does, except that a conditional begins with the first question
mark of a fallback. -/
theorem Rule.eq_of_opening_isPrefix {r r' : Rule} (h : r.opening <+: r'.opening) :
    r = r' ∨ r = .conditionalOpen ∧ r' = .fallback := by
  have all : ∀ r ∈ Rule.all, ∀ r' ∈ Rule.all, r.opening <+: r'.opening →
      r = r' ∨ r = .conditionalOpen ∧ r' = .fallback := by
    decide
  exact all r r.mem_all r' r'.mem_all h

/-! ## What stands where a rule finds something -/

theorem blanks_cons_of_pos {c : Char} (hc : isAsciiBlank c = true) (rest : List Char) :
    blanks (c :: rest) = blanks rest + 1 := by
  rw [blanks, run, List.takeWhile_cons_of_pos hc, List.length_cons]
  rfl

theorem blanks_cons_of_neg {c : Char} (hc : isAsciiBlank c = false) (rest : List Char) :
    blanks (c :: rest) = 0 := by
  rw [blanks, run, List.takeWhile_cons, hc]
  rfl

/-- Behind no blanks, the text begins as it is. -/
theorem drop_blanks_cons {c : Char} (hc : isAsciiBlank c = false) (rest : List Char) :
    (c :: rest).drop (blanks (c :: rest)) = c :: rest := by
  rw [blanks_cons_of_neg hc, List.drop_zero]

theorem opening_isPrefix_of_key? (h : key? before s = some f) :
    ['@'] <+: s.drop (blanks s) := by
  unfold key? at h
  split at h
  · rw [drop_blanks_cons (by decide)]
    exact List.prefix_append ['@'] _
  · cases h

theorem opening_isPrefix_of_fallback? (h : fallback? s = some f) :
    ['?', '?'] <+: s.drop (blanks s) := by
  unfold fallback? at h
  split at h
  · rw [drop_blanks_cons (by decide)]
    exact List.prefix_append ['?', '?'] _
  · cases h

/-- An opening brace stands behind the sign, or blanks do: the sign itself does not. -/
theorem exists_sign_of_blockOpen? {sign : Char} {n : Nat}
    (h : blockOpen? sign s = some n) :
    ∃ rest, s.drop (blanks s) = sign :: rest ∧ (opening? '{' rest).isSome := by
  unfold blockOpen? at h
  split at h
  · rename_i d rest text
    split at h
    · rename_i same
      obtain ⟨m, opened, -⟩ := Option.map_eq_some_iff.mp h
      exact ⟨rest, same ▸ text, opened ▸ rfl⟩
    · cases h
  · cases h

theorem opening_isPrefix_of_listOpen? {sign : Char} {n : Nat} (h : listOpen? sign s = some n) :
    ['(', sign, ')'] <+: s.drop (blanks s) := by
  unfold listOpen? at h
  split at h
  · split at h
    · rename_i same
      rw [drop_blanks_cons (by decide), same]
      exact List.prefix_append ['(', sign, ')'] _
    · cases h
  · cases h

theorem opening_isPrefix_of_alone? {c : Char} {count n : Nat}
    (h : alone? c count before s = some n) : List.replicate count c <+: s.drop (blanks s) := by
  simp only [alone?] at h
  split at h
  · rename_i found
    rw [← found.1]
    exact List.take_prefix _ _
  · cases h

theorem opening_isPrefix_of_lineComment? {n : Nat} (h : lineComment? s = some n) :
    ['-', '-'] <+: s.drop (blanks s) := by
  unfold lineComment? at h
  split at h
  · rename_i text
    rw [text]
    exact List.prefix_append ['-', '-'] _
  · cases h

theorem opening_isPrefix_of_blockComment? {n : Nat} (h : blockComment? s = some n) :
    ['/', '*'] <+: s.drop (blanks s) := by
  unfold blockComment? at h
  split at h
  · rw [drop_blanks_cons (by decide)]
    exact List.prefix_append ['/', '*'] _
  · cases h

/-- Where a rule finds something, the text begins as the rule does. -/
theorem Rule.opening_isPrefix {r : Rule} (h : r.find? before afterKey s = some f) :
    r.opening <+: s.drop (blanks s) := by
  cases r <;> simp only [Rule.find?, Option.map_eq_some_iff] at h
  case key => exact opening_isPrefix_of_key? h
  case fallback =>
    split at h
    · exact opening_isPrefix_of_fallback? h
    · cases h
  all_goals obtain ⟨n, found, -⟩ := h
  case conditionalOpen =>
    obtain ⟨rest, text, -⟩ := exists_sign_of_blockOpen? found
    exact text ▸ List.prefix_append ['?'] rest
  case elseOpen =>
    obtain ⟨rest, text, -⟩ := exists_sign_of_blockOpen? found
    exact text ▸ List.prefix_append [':'] rest
  case blockClose => exact opening_isPrefix_of_alone? found
  case listOpen => exact opening_isPrefix_of_listOpen? found
  case listClose => exact opening_isPrefix_of_alone? found
  case separator => exact opening_isPrefix_of_alone? found
  case spread => exact opening_isPrefix_of_alone? found
  case lineComment => exact opening_isPrefix_of_lineComment? found
  case blockComment => exact opening_isPrefix_of_blockComment? found

/-! ## One rule at each place -/

/-- The opening of a conditional has one question mark. -/
theorem not_opening_fallback {n : Nat} (h : blockOpen? '?' s = some n) :
    ¬Rule.opening .fallback <+: s.drop (blanks s) := by
  obtain ⟨rest, text, opened⟩ := exists_sign_of_blockOpen? h
  intro first
  rw [text] at first
  obtain ⟨more, second⟩ := first
  obtain rfl : '?' :: more = rest := (List.cons.inj second).2
  -- behind the sign there would be a question mark, which is no brace
  rw [opening?, drop_blanks_cons (by decide)] at opened
  cases opened

theorem Rule.not_fallback_of_conditionalOpen
    (h : Rule.conditionalOpen.find? before afterKey s = some f) :
    Rule.fallback.find? before' afterKey' s ≠ some f' := by
  intro other
  obtain ⟨n, found, -⟩ := Option.map_eq_some_iff.mp h
  exact not_opening_fallback found (Rule.opening_isPrefix other)

/-- At one place of a text only one rule finds anything, whatever is before the place. -/
theorem Rule.eq_of_find? {r r' : Rule} (h : r.find? before afterKey s = some f)
    (h' : r'.find? before' afterKey' s = some f') : r = r' := by
  have here := Rule.opening_isPrefix h
  have there := Rule.opening_isPrefix h'
  rcases List.prefix_or_prefix_of_prefix here there with shorter | shorter
  · rcases Rule.eq_of_opening_isPrefix shorter with same | ⟨rfl, rfl⟩
    · exact same
    · exact absurd h' (Rule.not_fallback_of_conditionalOpen h)
  · rcases Rule.eq_of_opening_isPrefix shorter with same | ⟨rfl, rfl⟩
    · exact same.symm
    · exact absurd h (Rule.not_fallback_of_conditionalOpen h')

/-- A mark stands where one of the rules finds it. Their order does not matter. -/
theorem at?_eq_some_iff :
    at? before afterKey s = some f ↔ ∃ r : Rule, r.find? before afterKey s = some f := by
  refine ⟨exists_rule_of_at?, fun ⟨r, found⟩ => ?_⟩
  have some : (at? before afterKey s).isSome := by
    rw [at?, List.findSome?_isSome_iff]
    exact ⟨r, r.mem_all, found ▸ rfl⟩
  obtain ⟨f', first⟩ := Option.isSome_iff_exists.mp some
  obtain ⟨r', here⟩ := exists_rule_of_at? first
  obtain rfl := Rule.eq_of_find? found here
  rw [first, ← here, found]

theorem key?_of_before (h : key? before s = some f) : key? none s = some f := by
  unfold key? at h ⊢
  split at h
  · dsimp only at h ⊢
    split at h
    · cases h
    · rename_i named
      rw [if_neg (not_or.mpr ⟨(Option.some_ne_none _).symm, (not_or.mp named).2⟩), h]
  · cases h

theorem alone?_of_before {c : Char} {count n : Nat} (h : alone? c count before s = some n) :
    alone? c count none s = some n := by
  simp only [alone?] at h ⊢
  split at h
  · rename_i found
    rw [if_pos ⟨found.1, found.2.1, fun first => (Option.some_ne_none _).symm first.2⟩, h]
  · cases h

/-- What a rule finds behind a character it finds at the front of a text. -/
theorem Rule.find?_of_before {r : Rule} (h : r.find? before afterKey s = some f) :
    r.find? none afterKey s = some f := by
  cases r <;> simp only [Rule.find?, Option.map_eq_some_iff] at h ⊢
  case key => exact key?_of_before h
  case blockClose => exact h.imp fun _ found => found.imp_left alone?_of_before
  case listClose => exact h.imp fun _ found => found.imp_left alone?_of_before
  case separator => exact h.imp fun _ found => found.imp_left alone?_of_before
  case spread => exact h.imp fun _ found => found.imp_left alone?_of_before
  all_goals exact h

/-- A mark that stands behind a character stands at the front of a text too. -/
theorem at?_of_before (h : at? before afterKey s = some f) : at? none afterKey s = some f := by
  obtain ⟨r, found⟩ := exists_rule_of_at? h
  exact at?_eq_some_iff.mpr ⟨r, Rule.find?_of_before found⟩

end Mark

end SqlTemplate
