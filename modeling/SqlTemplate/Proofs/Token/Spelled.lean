import SqlTemplate.Token.Mark

/-!
# How marks are spelled

A mark takes a slice off the front of a text. `Mark.Spelled` says which characters the slice of each
mark has, and what cannot stand behind it: a run goes on for as long as it can, and a control
character is not one of two. Whatever a rule finds is spelled so (`Mark.Rule.takes_of_find?`).

The relation also has literal text, which takes any slice that is the text. It does not tell where
literal text ends.
-/

namespace SqlTemplate

open SqlTemplate.Text

namespace Mark

/-! ## Runs -/

/-- Characters that satisfy `p`, where none does right behind them. -/
structure IsRun (p : Char → Bool) (slice behind : List Char) : Prop where
  /-- all characters satisfy `p` -/
  all : ∀ c ∈ slice, p c = true
  /-- the run is as long as it can be -/
  longest : ∀ c ∈ behind.head?, p c = false

section IsRun

variable {p : Char → Bool} {slice behind : List Char}

theorem IsRun.dropWhile_append (h : IsRun p slice behind) :
    (slice ++ behind).dropWhile p = behind := by
  rw [List.dropWhile_append_of_pos h.all]
  cases behind with
  | nil => rfl
  | cons c behind => rw [List.dropWhile_cons, h.longest c rfl, if_neg Bool.false_ne_true]

theorem IsRun.takeWhile_append (h : IsRun p slice behind) :
    (slice ++ behind).takeWhile p = slice := by
  have whole := List.takeWhile_append_dropWhile (p := p) (l := slice ++ behind)
  rw [h.dropWhile_append] at whole
  exact List.append_cancel_right whole

end IsRun

/-- Every text begins with a run, which may be empty. -/
theorem exists_run (p : Char → Bool) (s : List Char) :
    ∃ slice behind, s = slice ++ behind ∧ IsRun p slice behind ∧ s.takeWhile p = slice := by
  refine ⟨_, _, List.takeWhile_append_dropWhile.symm, ⟨fun c h => ?_, fun c h => ?_⟩, rfl⟩
  · exact List.all_eq_true.mp List.all_takeWhile c h
  · simpa [Option.mem_def.mp h] using List.head?_dropWhile_not p s

/-! ## Spellings -/

/-- The character `c` as often as said and no more often, with blanks before it. -/
inductive Alone (c : Char) (count : Nat) : List Char → List Char → Prop
  | intro {front behind : List Char} : (∀ b ∈ front, isAsciiBlank b = true) →
      behind.head? ≠ some c → Alone c count (front ++ List.replicate count c) behind

/-- The character `c` as often as said and no more often, with blanks before it and behind. -/
inductive Blanked (c : Char) (count : Nat) : List Char → List Char → Prop
  | intro {slice back behind : List Char} : Alone c count slice (back ++ behind) →
      IsRun isAsciiBlank back behind → Blanked c count (slice ++ back) behind

/-- The character `sign` and an opening brace, with blanks before them, between and behind. -/
inductive Block (sign : Char) : List Char → List Char → Prop
  | intro {front slice behind : List Char} : (∀ b ∈ front, isAsciiBlank b = true) →
      Blanked '{' 1 slice behind → Block sign (front ++ sign :: slice) behind

/-- The slice that a mark takes, and the text behind the slice. -/
inductive Spelled : Mark → List Char → List Char → Prop
  | literal (text behind : List Char) :
      Spelled (.lexeme (.literal (String.ofList text))) text behind
  | key {name behind : List Char} : name ≠ [] → IsRun isNameChar name behind →
      Spelled (.lexeme (.key (String.ofList name))) ('@' :: name) behind
  | fallback {word behind : List Char} : word ≠ [] → IsRun isWordChar word behind →
      Spelled (.lexeme (.fallback (String.ofList word))) ('?' :: '?' :: word) behind
  | conditionalOpen {slice behind : List Char} : Block '?' slice behind →
      Spelled (.lexeme .conditionalOpen) slice behind
  | elseOpen {slice behind : List Char} : Block ':' slice behind →
      Spelled (.lexeme .elseOpen) slice behind
  | blockClose {slice behind : List Char} : Alone '}' 1 slice behind →
      Spelled (.lexeme .blockClose) slice behind
  | listOpen (delimiter : Delimiter) {slice behind : List Char} : Blanked '[' 1 slice behind →
      Spelled (.lexeme (.listOpen delimiter)) ('(' :: listSign delimiter :: ')' :: slice) behind
  | listClose {slice behind : List Char} : Alone ']' 1 slice behind →
      Spelled (.lexeme .listClose) slice behind
  | separator {slice behind : List Char} : Blanked ';' 1 slice behind →
      Spelled (.lexeme .separator) slice behind
  | spread {slice behind : List Char} : Blanked '.' 3 slice behind →
      Spelled (.lexeme .spread) slice behind
  | lineComment {front text behind : List Char} : (∀ b ∈ front, isAsciiBlank b = true) →
      IsRun isLineChar text behind → Spelled .comment (front ++ '-' :: '-' :: text) behind
  | blockComment {text behind : List Char} : ¬['*', '/'] <:+: text ++ ['*'] →
      Spelled .comment ('/' :: '*' :: text ++ ['*', '/']) behind

/-- The first `n` characters of a text are a slice of the kind that `P` says. -/
def Takes (P : List Char → List Char → Prop) (s : List Char) (n : Nat) : Prop :=
  ∃ slice behind, s = slice ++ behind ∧ n = slice.length ∧ P slice behind

section Takes

variable {P Q : List Char → List Char → Prop} {s : List Char} {n : Nat}

theorem Takes.imp (h : Takes P s n) (imp : ∀ slice behind, P slice behind → Q slice behind) :
    Takes Q s n := by
  obtain ⟨slice, behind, text, length, holds⟩ := h
  exact ⟨slice, behind, text, length, imp slice behind holds⟩

/-- What a slice is shows in the characters that are taken and in those that are left. -/
theorem Takes.take_drop (h : Takes P s n) : P (s.take n) (s.drop n) := by
  obtain ⟨slice, behind, rfl, rfl, holds⟩ := h
  rwa [List.take_left, List.drop_left]

end Takes

/-! ## What the rules find -/

section Rules

variable {before : Option Char} {c : Char} {s : List Char} {count n : Nat} {f : Found}

/-- Every text begins with blanks, which may be none, and the rules look behind them. -/
theorem exists_blanks (s : List Char) :
    ∃ front rest, s = front ++ rest ∧ IsRun isAsciiBlank front rest ∧ blanks s = front.length := by
  obtain ⟨front, rest, text, run, taken⟩ := exists_run isAsciiBlank s
  exact ⟨front, rest, text, run, congrArg List.length taken⟩

theorem takes_of_key? (h : key? before s = some f) : Takes f.mark.Spelled s f.length := by
  unfold key? at h
  split at h
  · rename_i rest
    obtain ⟨name, behind, rfl, run, taken⟩ := exists_run isNameChar rest
    simp only [taken] at h
    split at h
    · cases h
    · rename_i named
      cases h
      exact ⟨'@' :: name, behind, rfl, rfl, .key (not_or.mp named).2 run⟩
  · cases h

theorem takes_of_fallback? (h : fallback? s = some f) : Takes f.mark.Spelled s f.length := by
  unfold fallback? at h
  split at h
  · rename_i rest
    obtain ⟨word, behind, rfl, run, taken⟩ := exists_run isWordChar rest
    simp only [taken] at h
    split at h
    · cases h
    · rename_i filled
      cases h
      exact ⟨'?' :: '?' :: word, behind, rfl, rfl, .fallback filled run⟩
  · cases h

/-- Blanks behind a mark are taken with it. -/
theorem takes_withBlanks (h : Takes (Alone c count) s n) :
    Takes (Blanked c count) s (withBlanks s n) := by
  obtain ⟨slice, rest, rfl, rfl, alone⟩ := h
  obtain ⟨back, behind, rfl, run, length⟩ := exists_blanks rest
  refine ⟨slice ++ back, behind, (List.append_assoc ..).symm, ?_, .intro alone run⟩
  rw [withBlanks, List.drop_left, length, List.length_append]

theorem takes_of_alone? (h : alone? c count before s = some n) : Takes (Alone c count) s n := by
  obtain ⟨front, rest, rfl, run, length⟩ := exists_blanks s
  simp only [alone?, length, List.drop_left] at h
  split at h
  · rename_i found
    cases h
    obtain ⟨taken, single, -⟩ := found
    refine ⟨front ++ List.replicate count c, rest.drop count, ?_, ?_, .intro run.all ?_⟩
    · rw [← taken, List.append_assoc, List.take_append_drop]
    · rw [List.length_append, List.length_replicate]
    · rwa [List.head?_drop]
  · cases h

theorem takes_of_opening? (h : opening? c s = some n) : Takes (Blanked c 1) s n := by
  obtain ⟨front, rest, rfl, run, length⟩ := exists_blanks s
  simp only [opening?, length, List.drop_left] at h
  split at h
  · rename_i d rest
    split at h
    · rename_i found
      obtain ⟨rfl, single⟩ := found
      obtain ⟨back, behind, rfl, blank, size⟩ := exists_blanks rest
      cases h
      refine ⟨front ++ [d] ++ back, behind, by simp, ?_, .intro (.intro run.all single) blank⟩
      rw [size, List.length_append, List.length_append, List.length_singleton]
    · cases h
  · cases h

theorem takes_of_blockOpen? {sign : Char} (h : blockOpen? sign s = some n) :
    Takes (Block sign) s n := by
  obtain ⟨front, rest, rfl, run, length⟩ := exists_blanks s
  simp only [blockOpen?, length, List.drop_left] at h
  split at h
  · split at h
    · rename_i d rest same
      obtain rfl := same
      obtain ⟨m, opened, rfl⟩ := Option.map_eq_some_iff.mp h
      obtain ⟨slice, behind, rfl, rfl, blanked⟩ := takes_of_opening? opened
      refine ⟨front ++ d :: slice, behind, by simp, ?_, .intro run.all blanked⟩
      rw [List.length_append, List.length_cons]
      omega
    · cases h
  · cases h

theorem takes_of_listOpen? {delimiter : Delimiter} (h : listOpen? (listSign delimiter) s = some n) :
    Takes (Spelled (.lexeme (.listOpen delimiter))) s n := by
  unfold listOpen? at h
  split at h
  · split at h
    · rename_i d rest same
      obtain rfl := same
      obtain ⟨m, opened, rfl⟩ := Option.map_eq_some_iff.mp h
      obtain ⟨slice, behind, rfl, rfl, blanked⟩ := takes_of_opening? opened
      refine ⟨'(' :: listSign delimiter :: ')' :: slice, behind, rfl, ?_, .listOpen _ blanked⟩
      simp only [List.length_cons]
      omega
    · cases h
  · cases h

theorem takes_of_lineComment? (h : lineComment? s = some n) : Takes (Spelled .comment) s n := by
  obtain ⟨front, rest, rfl, blank, length⟩ := exists_blanks s
  simp only [lineComment?, length, List.drop_left] at h
  split at h
  · rename_i rest
    obtain ⟨text, behind, rfl, run, taken⟩ := exists_run isLineChar rest
    cases h
    refine ⟨front ++ '-' :: '-' :: text, behind, by simp, ?_, .lineComment blank.all run⟩
    rw [Mark.run, taken]
    simp only [List.length_append, List.length_cons]
    omega
  · cases h

/-- A comment ends at the first `*/`. -/
theorem exists_of_commentEnd? (h : commentEnd? s = some n) :
    ∃ text behind, s = text ++ '*' :: '/' :: behind ∧ n = text.length ∧
      ¬['*', '/'] <:+: text ++ ['*'] := by
  fun_induction commentEnd? s generalizing n with
  | case1 behind =>
    cases h
    exact ⟨[], behind, rfl, rfl, by decide⟩
  | case2 c rest other ih =>
    obtain ⟨m, found, rfl⟩ := Option.map_eq_some_iff.mp h
    obtain ⟨text, behind, rfl, rfl, first⟩ := ih found
    refine ⟨c :: text, behind, rfl, rfl, fun inside => ?_⟩
    rcases List.infix_cons_iff.mp inside with here | later
    · -- a comment that ended here would have been found by the first rule
      cases text with
      | nil =>
        obtain ⟨tail, eq⟩ := here
        simp at eq
      | cons d text =>
        obtain ⟨tail, eq⟩ := here
        cases eq
        exact other _ rfl rfl
    · exact first later
  | case3 => cases h

theorem takes_of_blockComment? (h : blockComment? s = some n) :
    Takes (Spelled .comment) s n := by
  unfold blockComment? at h
  split at h
  · obtain ⟨m, found, rfl⟩ := Option.map_eq_some_iff.mp h
    obtain ⟨text, behind, rfl, rfl, first⟩ := exists_of_commentEnd? found
    exact ⟨'/' :: '*' :: text ++ ['*', '/'], behind, by simp, by simp, .blockComment first⟩
  · cases h

/-- Whatever a rule finds is spelled as its mark is. -/
theorem Rule.takes_of_find? {afterKey : Bool} {r : Rule}
    (h : r.find? before afterKey s = some f) : Takes f.mark.Spelled s f.length := by
  cases r <;> simp only [Rule.find?, Option.map_eq_some_iff] at h
  case key => exact takes_of_key? h
  case fallback =>
    split at h
    · exact takes_of_fallback? h
    · cases h
  all_goals obtain ⟨n, found, rfl⟩ := h
  case conditionalOpen => exact (takes_of_blockOpen? found).imp fun _ _ => .conditionalOpen
  case elseOpen => exact (takes_of_blockOpen? found).imp fun _ _ => .elseOpen
  case blockClose => exact (takes_of_alone? found).imp fun _ _ => .blockClose
  case listOpen => exact takes_of_listOpen? found
  case listClose => exact (takes_of_alone? found).imp fun _ _ => .listClose
  case separator =>
    exact (takes_withBlanks (takes_of_alone? found)).imp fun _ _ => .separator
  case spread => exact (takes_withBlanks (takes_of_alone? found)).imp fun _ _ => .spread
  case lineComment => exact takes_of_lineComment? found
  case blockComment => exact takes_of_blockComment? found

/-- A fallback is found behind a key only. -/
theorem Rule.afterKey_of_find? {afterKey : Bool} {r : Rule} {word : String}
    (h : r.find? before afterKey s = some f) (mark : f.mark = .lexeme (.fallback word)) :
    afterKey = true := by
  cases r <;> simp only [Rule.find?, Option.map_eq_some_iff] at h
  case key =>
    unfold key? at h
    split at h
    · dsimp only at h
      split at h <;> cases h
      cases mark
    · cases h
  case fallback =>
    split at h
    · assumption
    · cases h
  all_goals
    obtain ⟨n, -, rfl⟩ := h
    cases mark

end Rules

end Mark

end SqlTemplate
