import Mathlib.Data.List.Basic
import SqlTemplate.Proofs.Token.Spelled
import SqlTemplate.Source

/-!
# Lines and header lines

What the reading of a source into queries rests on.

* A text of whole lines can be cut off: the lines of what is behind it are the same without it
  (`Source.lines_append`).
* `Source.Header` says how a header line is spelled. `header?` finds a name exactly in the lines
  that are spelled so (`Source.header?_eq_some_iff`). A line feed at the end of a line makes no
  header line of it (`Source.header?_append_newline`).
* Lines that are no header lines have no queries, and have no effect on the queries of the lines
  behind them (`Source.split_append`).
-/

namespace SqlTemplate

open SqlTemplate.Text
open Mark (IsRun exists_run)

namespace Source

/-! ## Lines -/

/-- A text of whole lines: each ends with a line feed, also the last one. -/
def WholeLines (s : List Char) : Prop := s = [] ∨ s.getLast? = some '\n'

instance (s : List Char) : Decidable (WholeLines s) :=
  inferInstanceAs (Decidable (s = [] ∨ s.getLast? = some '\n'))

theorem wholeLines_concat (s : List Char) : WholeLines (s ++ ['\n']) := .inr List.getLast?_concat

theorem WholeLines.tail {c : Char} {s : List Char} (h : WholeLines (c :: s)) : WholeLines s := by
  cases s with
  | nil => exact .inl rfl
  | cons d s =>
    have last := h.resolve_left (List.cons_ne_nil _ _)
    rw [List.getLast?_cons_cons] at last
    exact .inr last

theorem lines_cons_newline (s : List Char) : lines ('\n' :: s) = ['\n'] :: lines s := by
  rw [lines, if_pos rfl]

/-- A character that is no line feed is the first one of the first line. -/
theorem lines_cons {c : Char} (h : c ≠ '\n') {s line : List Char} {more : List (List Char)}
    (first : lines s = line :: more) : lines (c :: s) = (c :: line) :: more := by
  rw [lines, if_neg h, first]

theorem lines_ne_nil {s : List Char} (h : s ≠ []) : lines s ≠ [] := by
  intro none
  have text := flatten_lines s
  rw [none] at text
  exact h text.symm

/-- The lines of whole lines come before those of what is behind them. -/
theorem lines_append {s : List Char} (h : WholeLines s) (t : List Char) :
    lines (s ++ t) = lines s ++ lines t := by
  induction s with
  | nil => rfl
  | cons c s ih =>
    have behind := ih h.tail
    by_cases newline : c = '\n'
    · subst newline
      rw [List.cons_append, lines_cons_newline, lines_cons_newline, behind, List.cons_append]
    · have filled : s ≠ [] := by
        rintro rfl
        exact newline (Option.some.inj (h.resolve_left (List.cons_ne_nil _ _)))
      obtain ⟨line, more, first⟩ := List.exists_cons_of_ne_nil (lines_ne_nil filled)
      rw [first, List.cons_append] at behind
      rw [List.cons_append, lines_cons newline behind, lines_cons newline first, List.cons_append]

/-- A text without a line feed is one line. -/
theorem lines_of_notMem {s : List Char} (h : '\n' ∉ s) (filled : s ≠ []) : lines s = [s] := by
  induction s with
  | nil => exact absurd rfl filled
  | cons c s ih =>
    obtain ⟨first, others⟩ := not_or.mp (mt List.mem_cons.mpr h)
    by_cases last : s = []
    · subst last
      rw [lines, if_neg (Ne.symm first)]
      rfl
    · exact lines_cons (Ne.symm first) (ih others last)

theorem lines_concat {s : List Char} (h : '\n' ∉ s) : lines (s ++ ['\n']) = [s ++ ['\n']] := by
  induction s with
  | nil => rfl
  | cons c s ih =>
    obtain ⟨first, others⟩ := not_or.mp (mt List.mem_cons.mpr h)
    exact lines_cons (Ne.symm first) (ih others)

/-- Every text ends with a line that has no line feed, and may be empty. -/
theorem exists_last_line (s : List Char) :
    ∃ whole last, s = whole ++ last ∧ WholeLines whole ∧ '\n' ∉ last := by
  induction s with
  | nil => exact ⟨[], [], rfl, .inl rfl, List.not_mem_nil⟩
  | cons c s ih =>
    obtain ⟨whole, last, rfl, closed, one⟩ := ih
    cases whole with
    | nil =>
      by_cases newline : c = '\n'
      · subst newline
        exact ⟨['\n'], last, rfl, .inr rfl, one⟩
      · refine ⟨[], c :: last, rfl, .inl rfl, ?_⟩
        rintro (_ | ⟨_, mem⟩)
        · exact newline rfl
        · exact one mem
    | cons d whole =>
      refine ⟨c :: d :: whole, last, rfl, .inr ?_, one⟩
      rw [List.getLast?_cons_cons]
      exact closed.resolve_left (List.cons_ne_nil _ _)

/-! ## Header lines -/

/-- The characters of a name have codes between those of the blanks. -/
theorem code_of_isNameChar {c : Char} (h : isNameChar c = true) : 48 ≤ c.toNat ∧ c.toNat ≤ 122 := by
  rcases (Bool.or_eq_true_iff ..).mp h with alphanum | underscore
  · rcases (Bool.or_eq_true_iff ..).mp alphanum with alpha | digit
    · rcases (Bool.or_eq_true_iff ..).mp alpha with upper | lower
      · have range : 65 ≤ c.toNat ∧ c.toNat ≤ 90 := of_decide_eq_true upper
        omega
      · obtain ⟨first, last⟩ := Bool.and_eq_true_iff.mp lower
        have range : 97 ≤ c.toNat ∧ c.toNat ≤ 122 :=
          ⟨of_decide_eq_true first, of_decide_eq_true last⟩
        omega
    · obtain ⟨first, last⟩ := Bool.and_eq_true_iff.mp digit
      have range : 48 ≤ c.toNat ∧ c.toNat ≤ 57 := ⟨of_decide_eq_true first, of_decide_eq_true last⟩
      omega
  · rw [eq_of_beq underscore]
    decide

/-- The characters of a name are not blank. -/
theorem isBlank_of_isNameChar {c : Char} (h : isNameChar c = true) : isBlank c = false := by
  have range := code_of_isNameChar h
  simp only [isBlank, blankRanges, List.any_cons, List.any_nil, Bool.or_false, Bool.or_eq_false_iff,
    Bool.and_eq_false_iff, decide_eq_false_iff_not]
  omega

/-- A header line with a name, and what follows the name in the line. -/
inductive Header (name : String) : List Char → List Char → Prop
  | intro {front gap space tail : List Char} (blank_front : ∀ c ∈ front, isBlank c = true)
      (blank_gap : ∀ c ∈ gap, isBlank c = true) (blank_space : ∀ c ∈ space, isBlank c = true)
      (spaced : space ≠ []) (named : name ≠ "") (run : IsRun isNameChar name.toList tail) :
      Header name
        (front ++ (['-', '-'] ++ (gap ++ (['@', 'q', 'u', 'e', 'r', 'y'] ++
          (space ++ (name.toList ++ tail)))))) tail

theorem isRun_isBlank {slice behind : List Char} {c : Char} (blank : ∀ c ∈ slice, isBlank c = true)
    (first : isBlank c = false) : IsRun isBlank slice (c :: behind) := by
  refine ⟨blank, ?_⟩
  rintro _ ⟨⟩
  exact first

theorem after?_eq_some_iff {word s rest : List Char} :
    after? word s = some rest ↔ s = word ++ rest := by
  rw [after?]
  constructor
  · intro h
    split at h
    · rename_i begins
      obtain ⟨rest, rfl⟩ := List.isPrefixOf_iff_prefix.mp begins
      cases h
      rw [List.drop_left]
    · cases h
  · rintro rfl
    rw [if_pos (List.isPrefixOf_iff_prefix.mpr (List.prefix_append ..)), List.drop_left]

/-- A line in which a name is found is a header line with the name. -/
theorem header_of_header? {line tail : List Char} {name : String}
    (h : header? line = some (name, tail)) : Header name line tail := by
  obtain ⟨comment, hyphens, h⟩ := Option.bind_eq_some_iff.mp h
  obtain ⟨rest, word, h⟩ := Option.bind_eq_some_iff.mp h
  obtain ⟨front, behind, rfl, run_front, -⟩ := exists_run isBlank line
  obtain ⟨gap, other, rfl, run_gap, -⟩ := exists_run isBlank comment
  obtain ⟨space, named, rfl, run_space, -⟩ := exists_run isBlank rest
  obtain ⟨slice, left, rfl, run, taken⟩ := exists_run isNameChar named
  rw [trimStart, run_front.dropWhile_append, after?_eq_some_iff] at hyphens
  rw [trimStart, run_gap.dropWhile_append, after?_eq_some_iff] at word
  simp only [trimStart, run_space.dropWhile_append, taken, List.drop_left] at h
  split at h
  · rename_i found
    obtain ⟨blank, filled⟩ := found
    cases h
    subst hyphens word
    have spaced : space ≠ [] := by
      -- otherwise the blank behind the word would be in the name
      rintro rfl
      obtain ⟨c, more, rfl⟩ := List.exists_cons_of_ne_nil filled
      have not_blank := isBlank_of_isNameChar (run.all c (List.mem_cons_self ..))
      exact absurd (not_blank.symm.trans blank) Bool.false_ne_true
    have named : String.ofList slice ≠ "" := by
      intro none
      exact filled (String.ofList_inj.mp none)
    rw [← String.toList_ofList (l := slice)] at run
    have header := Header.intro run_front.all run_gap.all run_space.all spaced named run
    rwa [String.toList_ofList] at header
  · cases h

/-- In a header line its name is found. -/
theorem Header.header?_eq {line tail : List Char} {name : String} (h : Header name line tail) :
    header? line = some (name, tail) := by
  obtain ⟨blank_front, blank_gap, blank_space, spaced, named, run⟩ := h
  rename_i front gap space
  obtain ⟨c, more, chars⟩ : ∃ c more, name.toList = c :: more :=
    List.exists_cons_of_ne_nil fun none => named (String.toList_inj.mp none)
  have not_blank : isBlank c = false := by
    apply isBlank_of_isNameChar
    exact run.all c (chars ▸ List.mem_cons_self ..)
  have run_front : ∀ behind, IsRun isBlank front (['-', '-'] ++ behind) :=
    fun behind => isRun_isBlank blank_front (by decide)
  have run_gap : ∀ behind, IsRun isBlank gap (['@', 'q', 'u', 'e', 'r', 'y'] ++ behind) :=
    fun behind => isRun_isBlank blank_gap (by decide)
  have run_space : IsRun isBlank space (name.toList ++ tail) :=
    chars ▸ isRun_isBlank blank_space not_blank
  have begins : (space ++ (name.toList ++ tail)).head?.any isBlank = true := by
    obtain ⟨b, others, rfl⟩ := List.exists_cons_of_ne_nil spaced
    exact blank_space b (List.mem_cons_self ..)
  have filled : name.toList ≠ [] := chars ▸ List.cons_ne_nil _ _
  rw [header?, trimStart, (run_front _).dropWhile_append, after?_eq_some_iff.mpr rfl,
    Option.bind_some, trimStart, (run_gap _).dropWhile_append, after?_eq_some_iff.mpr rfl,
    Option.bind_some]
  simp only [trimStart, run_space.dropWhile_append, run.takeWhile_append]
  rw [if_pos ⟨begins, filled⟩, List.drop_left, String.ofList_toList]

/-- A name is found in a line exactly if it is a header line with the name. -/
theorem header?_eq_some_iff {line tail : List Char} {name : String} :
    header? line = some (name, tail) ↔ Header name line tail :=
  ⟨header_of_header?, Header.header?_eq⟩

/-- What a header line is does not depend on whether a line feed ends it. -/
theorem Header.of_concat {name : String} {line tail : List Char}
    (h : Header name (line ++ ['\n']) tail) :
    ∃ shorter, tail = shorter ++ ['\n'] ∧ Header name line shorter := by
  generalize whole : line ++ ['\n'] = text at h
  obtain ⟨blank_front, blank_gap, blank_space, spaced, named, run⟩ := h
  rename_i front gap space
  rcases List.eq_nil_or_concat' tail with rfl | ⟨shorter, last, rfl⟩
  · rcases List.eq_nil_or_concat' name.toList with none | ⟨chars, last, same⟩
    · exact absurd (String.toList_inj.mp none) named
    · -- the line feed would be the last character of the name
      have is_name_char := run.all last (same ▸ List.mem_concat_self)
      rw [same] at whole
      simp only [List.append_nil, ← List.append_assoc] at whole
      obtain ⟨-, ⟨⟩⟩ := List.append_inj' whole rfl
      exact absurd is_name_char (by decide)
  · simp only [← List.append_assoc] at whole
    obtain ⟨rfl, ⟨⟩⟩ := List.append_inj' whole rfl
    simp only [List.append_assoc]
    refine ⟨shorter, rfl, .intro blank_front blank_gap blank_space spaced named ⟨run.all, ?_⟩⟩
    intro c first
    apply run.longest c
    rw [List.head?_append, first]
    rfl

/-- A line feed at the end makes no header line of a line. -/
theorem header?_append_newline {line : List Char} (h : header? line = none) :
    header? (line ++ ['\n']) = none := by
  cases found : header? (line ++ ['\n']) with
  | none => rfl
  | some header =>
    obtain ⟨shorter, -, shown⟩ := (header_of_header? found).of_concat
    rw [shown.header?_eq] at h
    cases h

/-! ## Texts without header lines -/

/-- No line of a text is a header line. -/
def HeaderFree (s : List Char) : Prop := ∀ line ∈ lines s, header? line = none

instance (s : List Char) : Decidable (HeaderFree s) :=
  inferInstanceAs (Decidable (∀ line ∈ lines s, header? line = none))

/-- A text without header lines may be ended with a line feed. -/
theorem HeaderFree.append_newline {s : List Char} (h : HeaderFree s) :
    HeaderFree (s ++ ['\n']) := by
  obtain ⟨whole, last, rfl, closed, one⟩ := exists_last_line s
  have last_free : header? last = none := by
    by_cases filled : last = []
    · subst filled
      rfl
    · apply h
      rw [lines_append closed, lines_of_notMem one filled]
      exact List.mem_append_right _ (List.mem_singleton.mpr rfl)
  intro line mem
  rw [List.append_assoc, lines_append closed, lines_concat one, List.mem_append,
    List.mem_singleton] at mem
  rcases mem with mem | rfl
  · apply h
    rw [lines_append closed]
    exact List.mem_append_left _ mem
  · exact header?_append_newline last_free

/-- Lines that are no header lines go to the text before the first header line behind them. -/
theorem split_append {front : List (List Char)} (free : ∀ line ∈ front, header? line = none)
    (behind : List (List Char)) :
    split (front ++ behind) = (front.flatten ++ (split behind).1, (split behind).2) := by
  induction front with
  | nil => rfl
  | cons line front ih =>
    have others := ih fun other mem => free other (List.mem_cons_of_mem _ mem)
    rw [List.cons_append, split, others, free line (List.mem_cons_self ..), List.flatten_cons,
      List.append_assoc]

/-- Behind a header line comes the text of its query, up to the next header line. -/
theorem split_header {line tail : List Char} {name : String}
    (h : header? line = some (name, tail)) (behind : List (List Char)) :
    split (line :: behind) =
      ([], ⟨name, String.ofList (trim (tail ++ (split behind).1))⟩ :: (split behind).2) := by
  rw [split, h]

end Source

end SqlTemplate
