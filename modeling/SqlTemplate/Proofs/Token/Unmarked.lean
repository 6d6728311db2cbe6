import Mathlib.Data.List.Basic
import SqlTemplate.Node.Reading
import SqlTemplate.Proofs.Text.Escape
import SqlTemplate.Proofs.Token.Spelled

/-!
# Texts without marks

Each mark shows in the text around it, whatever stands before it. A name has an at sign that is not
one of two, and so have the braces, brackets and semicolons of the control marks; a spread has
three dots and no fourth one; a comment has its two hyphens, or its beginning and its end. The word
of a fallback needs a key before it.

A text that has none of these is *unmarked*. The marks that look back, look at the character before
them, so the claim is about a place in a text and not about what is behind the place alone
(`Mark.not_unmarked_of_find?`). An unmarked text is a single piece of literal text
(`Segment.segments_of_unmarked`), and it is read as what it stands for without its doubled
characters (`Node.read_of_unmarked`).
-/

namespace SqlTemplate

open SqlTemplate.Text

namespace Mark

/-- A text in which no mark can stand. -/
structure Unmarked (s : List Char) : Prop where
  /-- each of the six characters has another one beside it -/
  control : ∀ c ∈ doubled, ¬HasRun c 1 s
  /-- there are no three dots without a fourth -/
  dots : ¬HasRun '.' 3 s
  /-- no line comment begins -/
  hyphens : ¬['-', '-'] <:+: s
  /-- no block comment begins that ends -/
  comment : ¬HasBlockComment s

/-! ## Characters that stand alone -/

section Runs

variable {c : Char} {count n : Nat} {s u : List Char} {f : Found}

/-- Behind blanks, the character before is none but a blank or the one before the blanks. -/
theorem getLast?_append_blanks {front : List Char} (hc : isAsciiBlank c = false)
    (blank : ∀ b ∈ front, isAsciiBlank b = true) (hu : front = [] → u.getLast? ≠ some c) :
    (u ++ front).getLast? ≠ some c := by
  rcases front.eq_nil_or_concat' with rfl | ⟨more, b, rfl⟩
  · rw [List.append_nil]
    exact hu rfl
  · rw [← List.append_assoc, List.getLast?_concat]
    rintro ⟨⟩
    rw [blank c (List.mem_append_right _ (List.mem_singleton_self c))] at hc
    cases hc

theorem hasRun_of_alone {slice behind : List Char} (hc : isAsciiBlank c = false)
    (hu : u.getLast? ≠ some c) (h : Alone c count slice behind) :
    HasRun c count (u ++ slice ++ behind) := by
  obtain ⟨blank, single⟩ := h
  rename_i front
  exact ⟨u ++ front, behind, by simp, getLast?_append_blanks hc blank fun _ => hu, single⟩

theorem hasRun_of_blanked {slice behind : List Char} (hc : isAsciiBlank c = false)
    (hu : u.getLast? ≠ some c) (h : Blanked c count slice behind) :
    HasRun c count (u ++ slice ++ behind) := by
  obtain ⟨alone, -⟩ := h
  simpa using hasRun_of_alone hc hu alone

theorem hasRun_of_key? (h : key? u.getLast? s = some f) : HasRun '@' 1 (u ++ s) := by
  unfold key? at h
  split at h
  · rename_i rest
    dsimp only at h
    split at h
    · cases h
    · rename_i named
      obtain ⟨single, filled⟩ := not_or.mp named
      refine ⟨u, rest, by simp, single, fun next => filled ?_⟩
      -- a second at sign would be no character of a name
      obtain ⟨tail, rfl⟩ := List.head?_eq_some_iff.mp next
      exact List.takeWhile_cons_of_neg (by decide)
  · cases h

theorem hasRun_of_alone? (hc : isAsciiBlank c = false)
    (h : alone? c count u.getLast? s = some n) : HasRun c count (u ++ s) := by
  obtain ⟨front, rest, rfl, run, length⟩ := exists_blanks s
  simp only [alone?, length, List.drop_left] at h
  split at h
  · rename_i found
    obtain ⟨taken, single, first⟩ := found
    refine ⟨u ++ front, rest.drop count, ?_, getLast?_append_blanks hc run.all ?_, ?_⟩
    · rw [← taken, List.append_assoc, List.append_assoc, List.take_append_drop]
    · rintro rfl last
      exact first ⟨rfl, last⟩
    · rwa [List.head?_drop]
  · cases h

theorem hasRun_of_blockOpen? {sign : Char} (hs : sign ≠ '{')
    (h : blockOpen? sign s = some n) : HasRun '{' 1 (u ++ s) := by
  obtain ⟨_, behind, rfl, -, block⟩ := takes_of_blockOpen? h
  obtain ⟨-, blanked⟩ := block
  rename_i front slice
  have run : HasRun '{' 1 (u ++ (front ++ [sign]) ++ slice ++ behind) := by
    refine hasRun_of_blanked (by decide) ?_ blanked
    rw [← List.append_assoc, List.getLast?_concat]
    exact fun same => hs (Option.some.inj same)
  simpa using run

theorem hasRun_of_listOpen? {delimiter : Delimiter}
    (h : listOpen? (listSign delimiter) s = some n) : HasRun '[' 1 (u ++ s) := by
  obtain ⟨_, behind, rfl, -, opened⟩ := takes_of_listOpen? h
  cases opened with
  | @listOpen _ slice _ blanked =>
    have run : HasRun '[' 1 (u ++ ['(', listSign delimiter, ')'] ++ slice ++ behind) := by
      refine hasRun_of_blanked (by decide) ?_ blanked
      rw [List.getLast?_append]
      exact fun same => absurd (show ')' = '[' from Option.some.inj same) (by decide)
    simpa using run

end Runs

/-! ## Where marks stand -/

variable {u s : List Char}

/-- A comment has two hyphens side by side, or is a block comment. -/
theorem not_unmarked_of_comment {n : Nat} (h : Takes (Spelled .comment) s n) :
    ¬Unmarked (u ++ s) := by
  intro unmarked
  obtain ⟨_, behind, rfl, -, spelled⟩ := h
  cases spelled with
  | @lineComment front text _ blank run =>
    exact unmarked.hyphens ⟨u ++ front, text ++ behind, by simp⟩
  | @blockComment text _ first =>
    exact unmarked.comment ⟨u, text, behind, by simp⟩

/-- Where a rule finds something that is no fallback, the text is not unmarked. -/
theorem not_unmarked_of_find? {r : Rule} {f : Found}
    (h : r.find? u.getLast? false s = some f) : ¬Unmarked (u ++ s) := by
  intro unmarked
  cases r <;> simp only [Rule.find?, Option.map_eq_some_iff] at h
  case key => exact unmarked.control _ (by decide) (hasRun_of_key? h)
  case fallback => cases h
  all_goals obtain ⟨n, found, -⟩ := h
  case conditionalOpen =>
    exact unmarked.control _ (by decide) (hasRun_of_blockOpen? (by decide) found)
  case elseOpen => exact unmarked.control _ (by decide) (hasRun_of_blockOpen? (by decide) found)
  case blockClose => exact unmarked.control _ (by decide) (hasRun_of_alone? (by decide) found)
  case listOpen => exact unmarked.control _ (by decide) (hasRun_of_listOpen? found)
  case listClose => exact unmarked.control _ (by decide) (hasRun_of_alone? (by decide) found)
  case separator => exact unmarked.control _ (by decide) (hasRun_of_alone? (by decide) found)
  case spread => exact unmarked.dots (hasRun_of_alone? (by decide) found)
  case lineComment => exact not_unmarked_of_comment (takes_of_lineComment? found) unmarked
  case blockComment => exact not_unmarked_of_comment (takes_of_blockComment? found) unmarked

/-- At no place of an unmarked text does a mark stand. -/
theorem at?_of_unmarked (h : Unmarked (u ++ s)) : at? u.getLast? false s = none := by
  rcases found : at? u.getLast? false s with _ | f
  · rfl
  · obtain ⟨r, here⟩ := exists_rule_of_at? found
    exact absurd h (not_unmarked_of_find? here)

end Mark

namespace Segment

/-- The literal text goes on to the end of an unmarked text. -/
theorem literalLength_of_unmarked {u s : List Char} {before : Char}
    (h : Mark.Unmarked (u ++ before :: s)) : literalLength before s = s.length := by
  induction s generalizing u before with
  | nil => rfl
  | cons c rest ih =>
    have whole : Mark.Unmarked (u ++ [before] ++ c :: rest) := by simpa using h
    have none : Mark.at? (some before) false (c :: rest) = none := by
      simpa using Mark.at?_of_unmarked whole
    rw [literalLength, endsLiteral, none, ih whole]
    simp

/-- An unmarked text is one piece of literal text. -/
theorem segments_of_unmarked {s : List Char} (h : Mark.Unmarked s) (filled : s ≠ []) :
    segments false s = [⟨.lexeme (.literal (String.ofList s)), s⟩] := by
  rcases s with _ | ⟨c, rest⟩
  · exact absurd rfl filled
  · have none : Mark.at? none false (c :: rest) = none := Mark.at?_of_unmarked (u := []) h
    have length : literalLength c rest = rest.length := literalLength_of_unmarked (u := []) h
    simp [segments_cons, front, none, length]

end Segment

/-- An unmarked text is read as what it stands for. -/
theorem Node.read_of_unmarked {template : String} (h : Mark.Unmarked template.toList)
    (filled : template ≠ "") : Node.read template = .ok [.literal (unescapeString template)] := by
  have segments : Segment.segments false template.toList =
      [⟨.lexeme (.literal template), template.toList⟩] := by
    rw [Segment.segments_of_unmarked h (by simpa using filled), String.ofList_toList]
  rw [Node.read, Scan.ofTemplate, segments]
  rfl

end SqlTemplate
