import SqlTemplate.Text.Blank
import SqlTemplate.Text.Name
import SqlTemplate.Token

/-!
# Marks

A *mark* is anything in a template that is not SQL text: a comment, or a lexeme other than literal
text. `Mark.at?` says which mark stands at the front of a text, and how many characters it takes.
The rules are tried in a fixed order and the first that applies wins:

* `@name`, unless the at sign is the second of two;
* `??word`, right after a key;
* `?` or `:` and an opening brace, with blanks before, between and behind;
* `}`, `]`, `;` and `...` standing alone, with blanks before and, for the last two, behind;
* `(&)[`, `(|)[` and `(,)[`, with blanks around the bracket;
* a line comment with the blanks before it, and a block comment.

A brace, bracket, semicolon or at sign next to its like is an escape and never a mark. For that the
rules look at the character behind, and the ones that need it at the character `before` too.
Every mark takes at least one character (`Mark.length_pos_of_at?`).
-/

namespace SqlTemplate

open SqlTemplate.Text

/-- What can stand at a place of a template, other than literal text. -/
inductive Mark where
  /-- a comment: nothing that the template says depends on it -/
  | comment
  /-- a lexeme -/
  | lexeme (lexeme : Lexeme)
  deriving DecidableEq, Repr

namespace Mark

/-- A mark that was found, and the number of characters it takes. -/
structure Found where
  /-- what was found -/
  mark : Mark
  /-- how many characters it takes -/
  length : Nat
  deriving DecidableEq, Repr

/-! ## Words and runs -/

/-- The characters that end the word of a fallback, besides blanks. -/
def wordEnds : List Char := [',', ';', '(', ')', '[', ']', '{', '}', '@', '?', ':']

/-- The characters of the word of a fallback. -/
def isWordChar (c : Char) : Bool := !isAsciiBlank c && c ∉ wordEnds

/-- The characters of a line comment. -/
def isLineChar (c : Char) : Bool := c != '\n' && c != '\r'

/-- The number of characters in the longest run in front all of whose characters satisfy `p`. -/
def run (p : Char → Bool) (s : List Char) : Nat := (s.takeWhile p).length

/-- The number of ASCII blanks in front. -/
def blanks (s : List Char) : Nat := run isAsciiBlank s

/-! ## The rules -/

/-- `@name`, where the at sign is not the second of two. -/
def key? (before : Option Char) : List Char → Option Found
  | '@' :: rest =>
    let name := rest.takeWhile isNameChar
    if before = some '@' ∨ name = [] then none
    else some ⟨.lexeme (.key (String.ofList name)), name.length + 1⟩
  | _ => none

/-- `??word`. -/
def fallback? : List Char → Option Found
  | '?' :: '?' :: rest =>
    let word := rest.takeWhile isWordChar
    if word = [] then none
    else some ⟨.lexeme (.fallback (String.ofList word)), word.length + 2⟩
  | _ => none

/-- The opening character `c`, not doubled, after blanks and with the blanks behind it. -/
def opening? (c : Char) (s : List Char) : Option Nat :=
  match s.drop (blanks s) with
  | d :: rest =>
    if d = c ∧ rest.head? ≠ some c then some (blanks s + 1 + blanks rest) else none
  | [] => none

/-- The character `sign` after blanks, and an opening brace. -/
def blockOpen? (sign : Char) (s : List Char) : Option Nat :=
  match s.drop (blanks s) with
  | d :: rest => if d = sign then (opening? '{' rest).map (blanks s + 1 + ·) else none
  | [] => none

/-- The character `sign` in parentheses, and an opening bracket. -/
def listOpen? (sign : Char) : List Char → Option Nat
  | '(' :: d :: ')' :: rest => if d = sign then (opening? '[' rest).map (3 + ·) else none
  | _ => none

/-- Exactly `n` of the character `c` after blanks. More of them, behind or directly before, make it
no mark. -/
def alone? (c : Char) (n : Nat) (before : Option Char) (s : List Char) : Option Nat :=
  let rest := s.drop (blanks s)
  if rest.take n = List.replicate n c ∧ rest[n]? ≠ some c ∧ ¬(blanks s = 0 ∧ before = some c) then
    some (blanks s + n)
  else none

/-- The length `n` of a mark, made longer by the blanks that follow the mark. -/
def withBlanks (s : List Char) (n : Nat) : Nat := n + blanks (s.drop n)

/-- Two hyphens after blanks, and the rest of their line. -/
def lineComment? (s : List Char) : Option Nat :=
  match s.drop (blanks s) with
  | '-' :: '-' :: rest => some (blanks s + 2 + run isLineChar rest)
  | _ => none

/-- The number of characters before the first `*/`. -/
def commentEnd? : List Char → Option Nat
  | '*' :: '/' :: _ => some 0
  | _ :: rest => (commentEnd? rest).map (· + 1)
  | [] => none

/-- A block comment, up to the first place where it can end. Without an end it is no comment. -/
def blockComment? : List Char → Option Nat
  | '/' :: '*' :: rest => (commentEnd? rest).map (· + 4)
  | _ => none

/-! ## The order of the rules -/

/-- The rules by which a mark is found. -/
inductive Rule where
  | key
  | fallback
  | conditionalOpen
  | elseOpen
  | blockClose
  | listOpen (delimiter : Delimiter)
  | listClose
  | separator
  | spread
  | lineComment
  | blockComment
  deriving DecidableEq, Repr

/-- The rules in the order in which they are tried. -/
def Rule.all : List Rule :=
  [.key, .fallback, .conditionalOpen, .elseOpen, .blockClose, .listOpen .and, .listOpen .or,
    .listOpen .comma, .listClose, .separator, .spread, .lineComment, .blockComment]

/-- The character that stands in the parentheses of a list opener. -/
def listSign : Delimiter → Char
  | .and => '&'
  | .or => '|'
  | .comma => ','

/-- What a rule finds in front of the text. `before` is the character before the text, as far as
the rule may look back; `afterKey` says that the text follows a key, so that a fallback can stand
there. -/
def Rule.find? (before : Option Char) (afterKey : Bool) (s : List Char) : Rule → Option Found
  | .key => key? before s
  | .fallback => if afterKey then fallback? s else none
  | .conditionalOpen => (blockOpen? '?' s).map (⟨.lexeme .conditionalOpen, ·⟩)
  | .elseOpen => (blockOpen? ':' s).map (⟨.lexeme .elseOpen, ·⟩)
  | .blockClose => (alone? '}' 1 before s).map (⟨.lexeme .blockClose, ·⟩)
  | .listOpen d => (listOpen? (listSign d) s).map (⟨.lexeme (.listOpen d), ·⟩)
  | .listClose => (alone? ']' 1 before s).map (⟨.lexeme .listClose, ·⟩)
  | .separator => (alone? ';' 1 before s).map (⟨.lexeme .separator, withBlanks s ·⟩)
  | .spread => (alone? '.' 3 before s).map (⟨.lexeme .spread, withBlanks s ·⟩)
  | .lineComment => (lineComment? s).map (⟨.comment, ·⟩)
  | .blockComment => (blockComment? s).map (⟨.comment, ·⟩)

/-- The mark that stands in front of the text: the one that the first rule finds which finds any. -/
def at? (before : Option Char) (afterKey : Bool) (s : List Char) : Option Found :=
  Rule.all.findSome? (Rule.find? before afterKey s)

/-- A mark that stands in front of the text was found by one of the rules. -/
theorem exists_rule_of_at? {before : Option Char} {afterKey : Bool} {s : List Char} {f : Found}
    (h : at? before afterKey s = some f) : ∃ r : Rule, r.find? before afterKey s = some f :=
  let ⟨r, _, found⟩ := List.exists_of_findSome?_eq_some h
  ⟨r, found⟩

/-! ## Every mark takes a character -/

theorem length_pos_of_key? {before : Option Char} {s : List Char} {f : Found}
    (h : key? before s = some f) : 0 < f.length := by
  unfold key? at h
  split at h
  · dsimp only at h
    split at h
    · cases h
    · cases h
      exact Nat.succ_pos _
  · cases h

theorem length_pos_of_fallback? {s : List Char} {f : Found} (h : fallback? s = some f) :
    0 < f.length := by
  unfold fallback? at h
  split at h
  · dsimp only at h
    split at h
    · cases h
    · cases h
      exact Nat.succ_pos _
  · cases h

theorem pos_of_blockOpen? {sign : Char} {s : List Char} {n : Nat}
    (h : blockOpen? sign s = some n) : 0 < n := by
  unfold blockOpen? at h
  split at h
  · split at h
    · obtain ⟨m, -, rfl⟩ := Option.map_eq_some_iff.mp h
      omega
    · cases h
  · cases h

theorem pos_of_listOpen? {sign : Char} {s : List Char} {n : Nat}
    (h : listOpen? sign s = some n) : 0 < n := by
  unfold listOpen? at h
  split at h
  · split at h
    · obtain ⟨m, -, rfl⟩ := Option.map_eq_some_iff.mp h
      omega
    · cases h
  · cases h

theorem pos_of_alone? {c : Char} {k : Nat} {before : Option Char} {s : List Char} {n : Nat}
    (hk : 0 < k) (h : alone? c k before s = some n) : 0 < n := by
  unfold alone? at h
  dsimp only at h
  split at h
  · cases h
    omega
  · cases h

theorem pos_of_lineComment? {s : List Char} {n : Nat} (h : lineComment? s = some n) : 0 < n := by
  unfold lineComment? at h
  split at h
  · cases h
    omega
  · cases h

theorem pos_of_blockComment? {s : List Char} {n : Nat} (h : blockComment? s = some n) :
    0 < n := by
  unfold blockComment? at h
  split at h
  · obtain ⟨m, -, rfl⟩ := Option.map_eq_some_iff.mp h
    omega
  · cases h

theorem le_withBlanks (s : List Char) (n : Nat) : n ≤ withBlanks s n := Nat.le_add_right ..

/-- Whatever a rule finds takes at least one character. -/
theorem Rule.length_pos_of_find? {before : Option Char} {afterKey : Bool} {s : List Char}
    {f : Found} {r : Rule} (h : r.find? before afterKey s = some f) : 0 < f.length := by
  cases r <;> simp only [Rule.find?, Option.map_eq_some_iff] at h
  case key => exact length_pos_of_key? h
  case fallback =>
    split at h
    · exact length_pos_of_fallback? h
    · cases h
  all_goals obtain ⟨n, hn, rfl⟩ := h
  case conditionalOpen => exact pos_of_blockOpen? hn
  case elseOpen => exact pos_of_blockOpen? hn
  case blockClose => exact pos_of_alone? Nat.one_pos hn
  case listOpen => exact pos_of_listOpen? hn
  case listClose => exact pos_of_alone? Nat.one_pos hn
  case separator => exact Nat.lt_of_lt_of_le (pos_of_alone? Nat.one_pos hn) (le_withBlanks s n)
  case spread => exact Nat.lt_of_lt_of_le (pos_of_alone? (by omega) hn) (le_withBlanks s n)
  case lineComment => exact pos_of_lineComment? hn
  case blockComment => exact pos_of_blockComment? hn

/-- A mark takes at least one character, so the text behind it is shorter. -/
theorem length_pos_of_at? {before : Option Char} {afterKey : Bool} {s : List Char} {f : Found}
    (h : at? before afterKey s = some f) : 0 < f.length :=
  let ⟨_, found⟩ := exists_rule_of_at? h
  Rule.length_pos_of_find? found

end Mark

end SqlTemplate
