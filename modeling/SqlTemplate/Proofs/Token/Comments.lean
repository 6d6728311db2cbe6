import Mathlib
import SqlTemplate.Proofs.Token.Openings
import SqlTemplate.Proofs.Token.Tiling

/-!
# What a comment says

A comment may say anything else. If the text inside of one is replaced by a text that the comment
can hold, a template is cut at the same places as before, and the comment stays one
(`Segment.segments_reworded`).

The rules read on behind the place where they are tried, so what they find before the comment could
change with it. It does not, as long as what they find ends before the comment
(`Mark.Rule.find?_reworded`), and this is so at all places up to the comment since it was cut there.
Most rules stop at the second character of the comment at the latest, which is a hyphen or an
asterisk and stays. A word or a line comment that ends before the comment ends at a character that
stays. And where a block comment does not end, it does not end in the other text.
-/

namespace SqlTemplate

open SqlTemplate.Text

/-- Two characters side by side in a text are in its first part or in the second, or they stand on
both sides of the cut. -/
theorem infix_pair_append {c d : Char} {s t : List Char} (h : [c, d] <:+: s ++ t) :
    [c, d] <:+: s ∨ [c, d] <:+: t ∨ s.getLast? = some c ∧ t.head? = some d := by
  rcases List.infix_append_iff.mp h with left | right | ⟨front, back, pair, atEnd, atStart⟩
  · exact .inl left
  · exact .inr (.inl right)
  · rcases front with _ | ⟨_, _ | ⟨_, _ | _⟩⟩
    · cases pair
      exact .inr (.inl atStart.isInfix)
    · cases pair
      obtain ⟨before, rfl⟩ := atEnd
      obtain ⟨behind, rfl⟩ := atStart
      exact .inr (.inr ⟨List.getLast?_concat, rfl⟩)
    · cases pair
      exact .inl atEnd.isInfix
    · cases pair

namespace Mark

/-! ## Other text in a comment -/

/-- A comment and the same comment with another text in it. -/
inductive Reworded : List Char → List Char → Prop
  | line {front text other : List Char} : (∀ b ∈ front, isAsciiBlank b = true) →
      (∀ c ∈ other, isLineChar c = true) → ¬['*', '/'] <:+: other →
      Reworded (front ++ '-' :: '-' :: text) (front ++ '-' :: '-' :: other)
  | block {text other : List Char} : ¬['*', '/'] <:+: other →
      Reworded ('/' :: '*' :: text ++ ['*', '/']) ('/' :: '*' :: other ++ ['*', '/'])

/-! ## Rules that stop at a character -/

section Stem

variable {p : Char → Bool} {z c : Char} {before : Option Char} {afterKey : Bool}

/-- A run ends before a character that is not of its kind. -/
theorem takeWhile_append_cons (hz : p z = false) (u t : List Char) :
    (u ++ z :: t).takeWhile p = u.takeWhile p := by
  rw [List.takeWhile_append, List.takeWhile_cons, hz, if_neg Bool.false_ne_true, List.append_nil]
  split
  · rename_i whole
    exact ((List.takeWhile_prefix p).eq_of_length whole).symm
  · rfl

theorem blanks_append_cons (hz : isAsciiBlank z = false) (u t : List Char) :
    blanks (u ++ z :: t) = blanks u :=
  congrArg List.length (takeWhile_append_cons hz u t)

theorem drop_blanks_append (u t : List Char) :
    (u ++ t).drop (blanks u) = u.drop (blanks u) ++ t :=
  List.drop_append_of_le_length (List.takeWhile_prefix isAsciiBlank).length_le

theorem key?_append_cons (hz : isNameChar z = false) (hat : z ≠ '@') (u t t' : List Char) :
    key? before (u ++ z :: t) = key? before (u ++ z :: t') := by
  cases u with
  | nil => simp [key?, hat]
  | cons d u =>
    by_cases h : d = '@'
    · subst h
      simp only [List.cons_append, key?, takeWhile_append_cons hz]
    · simp [key?, h]

theorem opening?_append_cons (hz : isAsciiBlank z = false) (hc : z ≠ c) (u t t' : List Char) :
    opening? c (u ++ z :: t) = opening? c (u ++ z :: t') := by
  simp only [opening?, blanks_append_cons hz, drop_blanks_append]
  rcases u.drop (blanks u) with _ | ⟨d, v⟩
  · simp [hc]
  · simp only [List.cons_append, blanks_append_cons hz]
    cases v <;> rfl

theorem blockOpen?_append_cons {sign : Char} (hz : isAsciiBlank z = false) (hs : z ≠ sign)
    (hb : z ≠ '{') (u t t' : List Char) :
    blockOpen? sign (u ++ z :: t) = blockOpen? sign (u ++ z :: t') := by
  simp only [blockOpen?, blanks_append_cons hz, drop_blanks_append]
  rcases u.drop (blanks u) with _ | ⟨d, v⟩
  · simp [hs]
  · simp only [List.cons_append, opening?_append_cons hz hb v t t']

theorem listOpen?_append_cons {sign : Char} (hz : isAsciiBlank z = false) (hs : z ≠ sign)
    (hp : z ≠ '(') (hq : z ≠ ')') (hb : z ≠ '[') (u t t' : List Char) :
    listOpen? sign (u ++ z :: t) = listOpen? sign (u ++ z :: t') := by
  rcases u with _ | ⟨a, _ | ⟨b, _ | ⟨d, u⟩⟩⟩
  · simp [listOpen?, hp]
  · -- the character would have to be the sign
    have none : ∀ t, listOpen? sign (a :: z :: t) = none := by
      intro t
      unfold listOpen?
      split
      · rename_i same
        cases same
        exact if_neg hs
      · rfl
    exact (none t).trans (none t').symm
  · simp [listOpen?, hq]
  · by_cases h : a = '(' ∧ d = ')'
    · obtain ⟨rfl, rfl⟩ := h
      simp only [List.cons_append, listOpen?, opening?_append_cons hz hb u t t']
    · have none : ∀ t, listOpen? sign (a :: b :: d :: t) = none := by
        intro t
        unfold listOpen?
        split
        · rename_i same
          cases same
          exact absurd ⟨rfl, rfl⟩ h
        · rfl
      exact (none _).trans (none _).symm

/-- A run of a character that comes in front of another one, and what is behind the run, are told
from the text up to that other one. -/
theorem take_append_cons_iff (count : Nat) (hc : z ≠ c) (v t : List Char) :
    (v ++ z :: t).take count = List.replicate count c ∧ (v ++ z :: t)[count]? ≠ some c ↔
      v.take count = List.replicate count c ∧ v[count]? ≠ some c := by
  induction v generalizing count with
  | nil =>
    cases count with
    | zero => simp [hc]
    | succ count => simp [List.replicate_succ, hc]
  | cons d v ih =>
    cases count with
    | zero => simp
    | succ count =>
      simp only [List.cons_append, List.take_succ_cons, List.replicate_succ, List.cons.injEq,
        List.getElem?_cons_succ, and_assoc, ih]

theorem alone?_append_cons {count : Nat} (hz : isAsciiBlank z = false) (hc : z ≠ c)
    (u t : List Char) : alone? c count before (u ++ z :: t) = alone? c count before u := by
  have same := take_append_cons_iff count hc (u.drop (blanks u)) t
  simp only [alone?, blanks_append_cons hz, drop_blanks_append]
  simp only [← and_assoc, same]

/-- What stands alone takes no more characters than there are. -/
theorem alone?_le_length {count n : Nat} {u : List Char} (h : alone? c count before u = some n) :
    n ≤ u.length := by
  obtain ⟨slice, behind, rfl, rfl, -⟩ := takes_of_alone? h
  simp

theorem withBlanks_append_cons (hz : isAsciiBlank z = false) {n : Nat} {u : List Char}
    (hn : n ≤ u.length) (t : List Char) : withBlanks (u ++ z :: t) n = withBlanks u n := by
  rw [withBlanks, withBlanks, List.drop_append_of_le_length hn, blanks_append_cons hz]

/-- What stands alone, with the blanks behind it, is told from the text up to the character. -/
theorem map_withBlanks_append_cons {count : Nat} {α : Type} (g : Nat → α)
    (hz : isAsciiBlank z = false) (hc : z ≠ c) (u t : List Char) :
    (alone? c count before (u ++ z :: t)).map (fun n => g (withBlanks (u ++ z :: t) n)) =
      (alone? c count before u).map fun n => g (withBlanks u n) := by
  rw [alone?_append_cons hz hc]
  apply Option.map_congr
  intro n found
  rw [withBlanks_append_cons hz (alone?_le_length found)]

/-- All rules but those for words and for comments stop at a hyphen or an asterisk at the latest. -/
theorem Rule.find?_append_cons {r : Rule} (hr : r ∉ [.fallback, .lineComment, .blockComment])
    (hz : z = '-' ∨ z = '*') (u t t' : List Char) :
    r.find? before afterKey (u ++ z :: t) = r.find? before afterKey (u ++ z :: t') := by
  have blank : isAsciiBlank z = false := by rcases hz with rfl | rfl <;> decide
  have name : isNameChar z = false := by rcases hz with rfl | rfl <;> decide
  have other : ∀ c ∈ ['@', '?', ':', '{', '}', '(', ')', '[', ']', ';', '.'], z ≠ c := by
    rcases hz with rfl | rfl <;> simp
  have sign : ∀ delimiter, z ≠ listSign delimiter := by
    intro delimiter
    rcases hz with rfl | rfl <;> cases delimiter <;> decide
  cases r <;> simp only [Rule.find?]
  case key => exact key?_append_cons name (other _ (by decide)) u t t'
  case conditionalOpen =>
    rw [blockOpen?_append_cons blank (other _ (by decide)) (other _ (by decide)) u t t']
  case elseOpen =>
    rw [blockOpen?_append_cons blank (other _ (by decide)) (other _ (by decide)) u t t']
  case listOpen delimiter =>
    rw [listOpen?_append_cons blank (sign delimiter) (other _ (by decide)) (other _ (by decide))
      (other _ (by decide)) u t t']
  case blockClose => rw [alone?_append_cons blank (other _ (by decide)), alone?_append_cons blank
    (other _ (by decide))]
  case listClose => rw [alone?_append_cons blank (other _ (by decide)), alone?_append_cons blank
    (other _ (by decide))]
  case separator =>
    rw [map_withBlanks_append_cons _ blank (other _ (by decide)),
      map_withBlanks_append_cons _ blank (other _ (by decide))]
  case spread =>
    rw [map_withBlanks_append_cons _ blank (other _ (by decide)),
      map_withBlanks_append_cons _ blank (other _ (by decide))]
  all_goals exact absurd (by decide) hr

end Stem

/-! ## Rules that read on -/

section Reading

variable {p : Char → Bool} {x z : Char} {u t : List Char}

/-- A run that ends before a character, or at it, ends there whatever is behind the character. -/
theorem takeWhile_append_cons_of_le (h : ((u ++ x :: t).takeWhile p).length ≤ u.length)
    (t' : List Char) : (u ++ x :: t').takeWhile p = (u ++ x :: t).takeWhile p := by
  cases hx : p x with
  | false => rw [takeWhile_append_cons hx, takeWhile_append_cons hx]
  | true =>
    rw [List.takeWhile_append] at h ⊢
    rw [List.takeWhile_append]
    split at h
    · rw [List.takeWhile_cons_of_pos hx, List.length_append, List.length_cons] at h
      omega
    · rename_i notWhole
      rw [if_neg notWhole, if_neg notWhole]

/-- No word is found that does not begin with two question marks. -/
theorem fallback?_eq_none {c d : Char} (h : ¬(c = '?' ∧ d = '?')) (t : List Char) :
    fallback? (c :: d :: t) = none := by
  unfold fallback?
  split
  · rename_i same
    cases same
    exact absurd ⟨rfl, rfl⟩ h
  · rfl

/-- A word that ends before a character, or at it, is found whatever is behind the character. -/
theorem fallback?_append_cons (hx : x ≠ '?')
    (short : ∀ f ∈ fallback? (u ++ x :: t), f.length ≤ u.length) (t' : List Char) :
    fallback? (u ++ x :: t') = fallback? (u ++ x :: t) := by
  rcases u with _ | ⟨c, _ | ⟨d, u⟩⟩
  · simp [fallback?, hx]
  · simp [fallback?, hx]
  · by_cases marks : c = '?' ∧ d = '?'
    · obtain ⟨rfl, rfl⟩ := marks
      have ends : ((u ++ x :: t).takeWhile isWordChar).length ≤ u.length := by
        by_cases empty : (u ++ x :: t).takeWhile isWordChar = []
        · rw [empty]
          exact Nat.zero_le _
        · simp only [List.cons_append, fallback?, if_neg empty] at short
          exact Nat.le_of_add_le_add_right (short _ rfl)
      simp only [List.cons_append, fallback?, takeWhile_append_cons_of_le ends t']
    · simp only [List.cons_append, fallback?_eq_none marks]

/-- A line comment that ends in the first part of a text is found whatever is behind the next
character, if the first part does not end with blanks. -/
theorem lineComment?_append_cons (hz : isAsciiBlank z = false) (hu : u.drop (blanks u) ≠ [])
    (short : ∀ n ∈ lineComment? (u ++ z :: t), n < u.length) (t' : List Char) :
    lineComment? (u ++ z :: t') = lineComment? (u ++ z :: t) := by
  have parts : blanks u + (u.drop (blanks u)).length = u.length := by
    have := (List.takeWhile_prefix (l := u) isAsciiBlank).length_le
    rw [List.length_drop, blanks, run]
    omega
  simp only [lineComment?, blanks_append_cons hz, drop_blanks_append] at short ⊢
  generalize u.drop (blanks u) = v at hu short parts ⊢
  rcases v with _ | ⟨d, _ | ⟨e, v⟩⟩
  · exact absurd rfl hu
  · by_cases marks : d = '-' ∧ z = '-'
    · -- a comment that began with this character would go on behind it
      obtain ⟨rfl, rfl⟩ := marks
      have ends := short _ rfl
      simp only [List.length_singleton] at parts
      omega
    · simp only [List.cons_append, List.nil_append]
      split <;> split <;> simp_all
  · by_cases marks : d = '-' ∧ e = '-'
    · obtain ⟨rfl, rfl⟩ := marks
      have ends := short _ rfl
      simp only [List.length_cons, run] at parts ends
      have ends : ((v ++ z :: t).takeWhile isLineChar).length ≤ v.length := by
        change _ + 2 + ((v ++ z :: t).takeWhile isLineChar).length < u.length at ends
        omega
      simp only [List.cons_append, run, takeWhile_append_cons_of_le ends t']
    · simp only [List.cons_append]
      split <;> split <;> simp_all

end Reading

/-! ## Where a block comment ends -/

section CommentEnd

variable {text behind s u t : List Char} {n : Nat}

/-- A block comment ends at the first place where it can. -/
theorem commentEnd?_append (first : ¬['*', '/'] <:+: text ++ ['*']) :
    commentEnd? (text ++ '*' :: '/' :: behind) = some text.length := by
  induction text with
  | nil => rfl
  | cons c text ih =>
    have later : ¬['*', '/'] <:+: text ++ ['*'] := fun inside =>
      first (List.infix_cons_iff.mpr (.inr inside))
    have other : ∀ more, c = '*' → text ++ '*' :: '/' :: behind = '/' :: more → False := by
      rintro more rfl same
      cases text with
      | nil => cases same
      | cons d text =>
        cases same
        exact first ⟨[], text ++ ['*'], rfl⟩
    rw [List.cons_append, commentEnd?, ih later]
    · rfl
    · exact other

/-- No block comment is found that does not begin with a slash and an asterisk. -/
theorem blockComment?_eq_none {c d : Char} (h : ¬(c = '/' ∧ d = '*')) (t : List Char) :
    blockComment? (c :: d :: t) = none := by
  unfold blockComment?
  split
  · rename_i same
    cases same
    exact absurd ⟨rfl, rfl⟩ h
  · rfl

/-- A block comment has no end if there is none in the text. -/
theorem commentEnd?_eq_none_iff : commentEnd? s = none ↔ ¬['*', '/'] <:+: s := by
  fun_induction commentEnd? s with
  | case1 rest => exact iff_of_false (Option.some_ne_none _) (not_not_intro ⟨[], rest, rfl⟩)
  | case2 c rest other ih =>
    rw [Option.map_eq_none_iff, ih, List.infix_cons_iff, not_or]
    refine (and_iff_right ?_).symm
    rintro ⟨more, same⟩
    cases same
    exact other more rfl rfl
  | case3 => exact iff_of_true rfl (by simp)

/-- A block comment that ends in the first part of a text ends there, whatever is behind. -/
theorem commentEnd?_append_of_le (h : commentEnd? (u ++ t) = some n) (hn : n + 2 ≤ u.length)
    (t' : List Char) : commentEnd? (u ++ t') = some n := by
  obtain ⟨text, behind, whole, rfl, first⟩ := exists_of_commentEnd? h
  have inside : text ++ ['*', '/'] <+: u := by
    refine List.prefix_of_prefix_length_le ⟨behind, ?_⟩ (List.prefix_append u t) ?_
    · rw [whole, List.append_assoc]
      rfl
    · simpa using hn
  obtain ⟨more, rfl⟩ := inside
  rw [List.append_assoc, List.append_assoc]
  exact commentEnd?_append first

end CommentEnd

/-! ## Comments and what is before them -/

section Reworded

variable {slice slice' behind a : List Char} {before : Option Char} {afterKey : Bool}

/-- A comment with another text in it begins with the same character. -/
theorem Reworded.exists_cons (h : Reworded slice slice') :
    ∃ x t t', slice = x :: t ∧ slice' = x :: t' ∧ x ≠ '?' ∧ x ≠ '*' := by
  cases h with
  | @line front text other blank _ _ =>
    cases front with
    | nil => exact ⟨'-', _, _, rfl, rfl, by decide, by decide⟩
    | cons b front =>
      have hb := blank b (List.mem_cons_self ..)
      refine ⟨b, _, _, rfl, rfl, ?_, ?_⟩ <;> rintro rfl <;> cases hb
  | block _ => exact ⟨'/', _, _, rfl, rfl, by decide, by decide⟩

/-- A comment with another text in it begins with the same two characters behind the same blanks. -/
theorem Reworded.exists_stem (h : Reworded slice slice') :
    ∃ front y z t t', slice = front ++ [y] ++ z :: t ∧ slice' = front ++ [y] ++ z :: t' ∧
      isAsciiBlank y = false ∧ (z = '-' ∨ z = '*') := by
  cases h with
  | @line front text other _ _ _ =>
    exact ⟨front, '-', '-', text, other, by simp, by simp, by decide, .inl rfl⟩
  | @block text other _ =>
    exact ⟨[], '/', '*', text ++ ['*', '/'], other ++ ['*', '/'], rfl, rfl, by decide, .inr rfl⟩

/-- A line comment ends where its line does. -/
theorem Spelled.isLineChar_behind {front text : List Char}
    (blank : ∀ b ∈ front, isAsciiBlank b = true)
    (h : Spelled .comment (front ++ '-' :: '-' :: text) behind) :
    ∀ c ∈ behind.head?, isLineChar c = false := by
  generalize slice_eq : front ++ '-' :: '-' :: text = slice at h
  cases h with
  | lineComment _ run => exact run.longest
  | blockComment _ =>
    cases front with
    | nil => cases slice_eq
    | cons b front =>
      obtain rfl : b = '/' := (List.cons.inj slice_eq).1
      cases blank '/' (List.mem_cons_self ..)

/-- A comment with another text in it is one, and ends at the same place. -/
theorem Reworded.spelled (h : Reworded slice slice') (spelled : Spelled .comment slice behind) :
    Spelled .comment slice' behind := by
  cases h with
  | line blank inLine _ => exact .lineComment blank ⟨inLine, spelled.isLineChar_behind blank⟩
  | block noEnd =>
    refine .blockComment fun inside => ?_
    rcases infix_pair_append inside with early | here | ⟨-, slash⟩
    · exact noEnd early
    · exact absurd here.length_le (by decide)
    · cases slash

/-- A comment is found where it is spelled. -/
theorem at?_of_comment (h : Spelled .comment slice behind) :
    at? before afterKey (slice ++ behind) = some ⟨.comment, slice.length⟩ := by
  rw [at?_eq_some_iff]
  cases h with
  | @lineComment front text _ blank run =>
    refine ⟨.lineComment, ?_⟩
    have front_length : blanks front = front.length := by
      rw [blanks, Mark.run, List.takeWhile_eq_self_iff.mpr blank]
    have text_length : Mark.run isLineChar (text ++ behind) = text.length := by
      rw [Mark.run, run.takeWhile_append]
    rw [List.append_assoc, List.cons_append, Rule.find?, lineComment?,
      blanks_append_cons (by decide), front_length, List.drop_left]
    simp only [List.cons_append, text_length, Option.map_some, List.length_append,
      List.length_cons]
    rw [Nat.add_assoc, Nat.add_comm 2]
  | @blockComment text _ first =>
    refine ⟨.blockComment, ?_⟩
    simp [Rule.find?, blockComment?, commentEnd?_append first]

/-- Where no block comment ends in a text with a comment, none ends with another text in that. -/
theorem Reworded.not_infix (h : Reworded slice slice') (spelled : Spelled .comment slice behind)
    (noEnd : ¬['*', '/'] <:+: a ++ (slice ++ behind)) :
    ¬['*', '/'] <:+: a ++ (slice' ++ behind) := by
  cases h with
  | @line front text other blank inLine otherNoEnd =>
    have ends := spelled.isLineChar_behind blank
    intro inside
    have inside : ['*', '/'] <:+: (a ++ front ++ ['-', '-']) ++ (other ++ behind) := by
      simpa using inside
    rcases infix_pair_append inside with before | rest | ⟨hyphen, -⟩
    · exact noEnd (before.trans ⟨[], text ++ behind, by simp⟩)
    · rcases infix_pair_append rest with here | later | ⟨-, slash⟩
      · exact otherNoEnd here
      · exact noEnd (later.trans ⟨a ++ front ++ '-' :: '-' :: text, [], by simp⟩)
      · cases ends '/' slash
    · simp at hyphen
  | @block text other _ =>
    exact absurd ⟨a ++ '/' :: '*' :: text, behind, by simp⟩ noEnd

/-- Behind a text that is not empty, a block comment that ends before a comment is found, and one
that has no end is not, whatever the comment says. -/
theorem Reworded.blockComment? (h : Reworded slice slice') (spelled : Spelled .comment slice behind)
    (filled : a ≠ [])
    (short : ∀ n ∈ Mark.blockComment? (a ++ (slice ++ behind)), n ≤ a.length) :
    Mark.blockComment? (a ++ (slice' ++ behind)) = Mark.blockComment? (a ++ (slice ++ behind)) := by
  rcases a with _ | ⟨c, _ | ⟨d, a⟩⟩
  · exact absurd rfl filled
  · obtain ⟨x, t, t', rfl, rfl, -, star⟩ := h.exists_cons
    simp [Mark.blockComment?, star]
  · by_cases marks : c = '/' ∧ d = '*'
    · obtain ⟨rfl, rfl⟩ := marks
      simp only [List.cons_append, Mark.blockComment?] at short ⊢
      cases ends : commentEnd? (a ++ (slice ++ behind)) with
      | none =>
        have noEnd := h.not_infix spelled (commentEnd?_eq_none_iff.mp ends)
        rw [commentEnd?_eq_none_iff.mpr noEnd]
      | some n =>
        rw [ends] at short
        have inside := short _ rfl
        simp only [List.length_cons] at inside
        rw [commentEnd?_append_of_le ends (by omega)]
    · simp only [List.cons_append, blockComment?_eq_none marks]

/-- A text that ends with a character other than a blank is not only blanks. -/
theorem drop_blanks_concat_ne_nil {u : List Char} {y : Char} (hy : isAsciiBlank y = false) :
    (u ++ [y]).drop (blanks (u ++ [y])) ≠ [] := by
  rw [blanks_append_cons hy, drop_blanks_append]
  simp

/-- Behind a text that is not empty, a rule finds the same in front of a comment, whatever the
comment says, if what it finds there ends before the comment or it finds nothing. -/
theorem Rule.find?_reworded (h : Reworded slice slice') (spelled : Spelled .comment slice behind)
    (filled : a ≠ []) (r : Rule)
    (short : ∀ f ∈ r.find? before afterKey (a ++ (slice ++ behind)), f.length ≤ a.length) :
    r.find? before afterKey (a ++ (slice' ++ behind)) =
      r.find? before afterKey (a ++ (slice ++ behind)) := by
  by_cases plain : r ∉ [.fallback, .lineComment, .blockComment]
  · obtain ⟨front, y, z, t, t', rfl, rfl, -, hz⟩ := h.exists_stem
    simpa using Rule.find?_append_cons plain hz (a ++ front ++ [y]) (t' ++ behind) (t ++ behind)
  · simp only [List.mem_cons, List.not_mem_nil, or_false, not_not] at plain
    rcases plain with rfl | rfl | rfl <;> simp only [Rule.find?] at short ⊢
    · obtain ⟨x, t, t', rfl, rfl, mark, -⟩ := h.exists_cons
      split at short
      · rename_i key
        rw [if_pos key, if_pos key]
        exact fallback?_append_cons mark short _
      · rename_i key
        rw [if_neg key, if_neg key]
    · obtain ⟨front, y, z, t, t', rfl, rfl, hy, hz⟩ := h.exists_stem
      have blank : isAsciiBlank z = false := by rcases hz with rfl | rfl <;> decide
      have same := lineComment?_append_cons (u := a ++ front ++ [y]) (t := t ++ behind) blank
        (drop_blanks_concat_ne_nil hy) ?_ (t' ++ behind)
      · simpa using congrArg (Option.map (Found.mk .comment)) same
      · intro n found
        have ends := short ⟨.comment, n⟩ (Option.mem_map.mpr ⟨n, by simpa using found, rfl⟩)
        simp only [List.length_append, List.length_singleton] at ends ⊢
        omega
    · rw [h.blockComment? spelled filled fun n found =>
        short ⟨.comment, n⟩ (Option.mem_map.mpr ⟨n, found, rfl⟩)]

/-- Behind a text that is not empty, a mark that ends before a comment stands there whatever the
comment says. -/
theorem at?_reworded (h : Reworded slice slice') (spelled : Spelled .comment slice behind)
    (filled : a ≠ []) {f : Found} (found : at? before afterKey (a ++ (slice ++ behind)) = some f)
    (short : f.length ≤ a.length) : at? before afterKey (a ++ (slice' ++ behind)) = some f := by
  obtain ⟨r, here⟩ := exists_rule_of_at? found
  refine at?_eq_some_iff.mpr ⟨r, ?_⟩
  rw [Rule.find?_reworded h spelled filled r, here]
  rw [here]
  rintro f ⟨⟩
  exact short

/-- Behind a text that is not empty, no mark stands in front of a comment, whatever the comment
says, if none does. -/
theorem at?_reworded_eq_none (h : Reworded slice slice')
    (spelled : Spelled .comment slice behind) (filled : a ≠ [])
    (found : at? before afterKey (a ++ (slice ++ behind)) = none) :
    at? before afterKey (a ++ (slice' ++ behind)) = none := by
  rw [at?, List.findSome?_eq_none_iff] at found ⊢
  intro r mem
  have nothing := found r mem
  rw [Rule.find?_reworded h spelled filled r, nothing]
  rw [nothing]
  exact fun f found => absurd found (Option.not_mem_none f)

end Reworded

end Mark

namespace Segment

open Mark (Reworded Spelled)

/-! ## The segment in front -/

/-- What stands in front takes no more characters than there are. -/
theorem length_front_le (afterKey : Bool) (c : Char) (rest : List Char) :
    (front afterKey c rest).length ≤ (c :: rest).length := by
  unfold front
  split
  · obtain ⟨r, found⟩ := Mark.exists_rule_of_at? ‹_›
    obtain ⟨slice, behind, text, length, -⟩ := Mark.Rule.takes_of_find? found
    rw [length, text, List.length_append]
    exact Nat.le_add_right ..
  · exact Nat.succ_le_succ (literalLength_le c rest)

/-- A segment stands in front of a text: cut there, the two of them are cut into the segment and the
segments of the text. -/
def Leads (afterKey : Bool) (g : Segment) (t : List Char) : Prop :=
  ∃ c rest, g.slice ++ t = c :: rest ∧ front afterKey c rest = ⟨g.mark, g.slice.length⟩

/-- A text is cut into a segment that stands in front, and the segments of what is behind it. -/
theorem segments_eq_cons_iff {afterKey : Bool} {s : List Char} {g : Segment}
    {gs : List Segment} : segments afterKey s = g :: gs ↔
      ∃ t, s = g.slice ++ t ∧ Leads afterKey g t ∧
        segments (keyBefore afterKey g.mark) t = gs := by
  constructor
  · intro h
    cases s with
    | nil => cases (segments_nil afterKey).symm.trans h
    | cons c rest =>
      have le := length_front_le afterKey c rest
      obtain ⟨rfl, rfl⟩ := List.cons.inj ((segments_cons afterKey c rest).symm.trans h)
      have whole := (List.take_append_drop (front afterKey c rest).length (c :: rest)).symm
      refine ⟨_, whole, ⟨c, rest, whole.symm, ?_⟩, rfl⟩
      rw [List.length_take, Nat.min_eq_left le]
  · rintro ⟨t, rfl, ⟨c, rest, whole, leads⟩, rfl⟩
    rw [whole, segments_cons, leads, ← whole, List.take_left, List.drop_left]

/-- The segment in front of a text takes a slice that is spelled as it is. -/
theorem Leads.spelled {afterKey : Bool} {g : Segment} {t : List Char} (h : Leads afterKey g t) :
    Spelled g.mark g.slice t := by
  obtain ⟨c, rest, whole, leads⟩ := h
  have spelled := spelled_front afterKey c rest
  rwa [leads, ← whole, List.take_left, List.drop_left] at spelled

/-- Each segment of a text stands in front of those behind it. -/
theorem exists_leads {afterKey : Bool} {s : List Char} {gs rest : List Segment} {g : Segment}
    (h : segments afterKey s = gs ++ g :: rest) :
    ∃ afterKey', Leads afterKey' g (rest.flatMap slice) := by
  induction gs generalizing afterKey s with
  | nil =>
    obtain ⟨t, -, leads, next⟩ := segments_eq_cons_iff.mp h
    rw [← next, flatMap_slice_segments]
    exact ⟨afterKey, leads⟩
  | cons _ gs ih =>
    obtain ⟨t, -, -, next⟩ := segments_eq_cons_iff.mp h
    exact ih next

/-- Each segment of a text takes a slice that is spelled as it is, in front of those behind it. -/
theorem spelled_of_segments {afterKey : Bool} {s : List Char} {gs rest : List Segment}
    {g : Segment} (h : segments afterKey s = gs ++ g :: rest) :
    Spelled g.mark g.slice (rest.flatMap slice) := by
  obtain ⟨_, leads⟩ := exists_leads h
  exact leads.spelled

/-- The segment in front of a text is the mark that stands there. -/
theorem Leads.of_at? {afterKey : Bool} {g : Segment} {t : List Char} (filled : g.slice ≠ [])
    (h : Mark.at? none afterKey (g.slice ++ t) = some ⟨g.mark, g.slice.length⟩) :
    Leads afterKey g t := by
  obtain ⟨c, rest, slice⟩ := List.exists_cons_of_ne_nil filled
  refine ⟨c, rest ++ t, by rw [slice]; rfl, ?_⟩
  rw [slice, List.cons_append] at h
  rw [front, h, slice]

theorem Leads.ne_nil {afterKey : Bool} {g : Segment} {t : List Char} (h : Leads afterKey g t) :
    g.slice ≠ [] := by
  obtain ⟨c, rest, -, leads⟩ := h
  have some := length_pos_front afterKey c rest
  rw [leads] at some
  exact List.ne_nil_of_length_pos some

theorem Leads.eq_of_at? {afterKey : Bool} {g : Segment} {t : List Char} (h : Leads afterKey g t)
    {f : Mark.Found} (found : Mark.at? none afterKey (g.slice ++ t) = some f) :
    f = ⟨g.mark, g.slice.length⟩ := by
  obtain ⟨c, rest, whole, leads⟩ := h
  rw [whole] at found
  rwa [front, found] at leads

theorem front_of_none {afterKey : Bool} {c : Char} {rest : List Char}
    (nothing : Mark.at? none afterKey (c :: rest) = none) :
    front afterKey c rest =
      ⟨.lexeme (.literal (String.ofList (c :: rest.take (literalLength c rest)))),
        literalLength c rest + 1⟩ := by
  rw [front, nothing]

/-- Where no mark stands, the segment in front of a text is literal text. -/
theorem Leads.literal {afterKey : Bool} {g : Segment} {t : List Char} (h : Leads afterKey g t)
    (nothing : Mark.at? none afterKey (g.slice ++ t) = none) :
    ∃ c lit, g = ⟨.lexeme (.literal (String.ofList (c :: lit))), c :: lit⟩ ∧
      literalLength c (lit ++ t) = lit.length := by
  obtain ⟨mark, slice⟩ := g
  obtain ⟨c, lit, rfl⟩ := List.exists_cons_of_ne_nil h.ne_nil
  obtain ⟨d, rest, whole, leads⟩ := h
  rw [whole] at nothing
  rw [front_of_none nothing] at leads
  have whole : c :: (lit ++ t) = d :: rest := whole
  obtain ⟨rfl, rfl⟩ := List.cons.inj whole
  obtain ⟨rfl, length⟩ := Mark.Found.mk.inj leads
  have length : literalLength c (lit ++ t) = lit.length := Nat.succ.inj length
  rw [length, List.take_left]
  exact ⟨c, lit, rfl, length⟩

theorem Leads.of_literal {afterKey : Bool} {c : Char} {lit t : List Char}
    (nothing : Mark.at? none afterKey (c :: lit ++ t) = none)
    (length : literalLength c (lit ++ t) = lit.length) :
    Leads afterKey ⟨.lexeme (.literal (String.ofList (c :: lit))), c :: lit⟩ t := by
  have nothing : Mark.at? none afterKey (c :: (lit ++ t)) = none := nothing
  refine ⟨c, lit ++ t, rfl, ?_⟩
  rw [front_of_none nothing, length, List.take_left]
  rfl

/-! ## Where literal text ends -/

/-- Literal text ends where a mark stands, but not inside a run of blanks. -/
theorem endsLiteral_cons_iff {before d : Char} {rest : List Char} :
    endsLiteral before (d :: rest) = true ↔
      ¬(isAsciiBlank before = true ∧ isAsciiBlank d = true) ∧
        ∃ f, Mark.at? (some before) false (d :: rest) = some f := by
  rw [endsLiteral, Bool.and_eq_true, Bool.not_eq_true', ← Bool.not_eq_true, Bool.and_eq_true,
    Option.isSome_iff_exists]

/-- Literal text ends at the same place in two texts if it goes on up to there in both, and ends
there in both. -/
theorem literalLength_append {t t' : List Char}
    (goesOn : ∀ before d more, endsLiteral before (d :: more ++ t) = false →
      endsLiteral before (d :: more ++ t') = false)
    (ends : ∀ before, endsLiteral before t = true → endsLiteral before t' = true)
    (lit : List Char) (before : Char) (h : literalLength before (lit ++ t) = lit.length) :
    literalLength before (lit ++ t') = lit.length := by
  induction lit generalizing before with
  | nil =>
    have here : endsLiteral before t = true := by
      cases t with
      | nil => rfl
      | cons d t =>
        by_contra other
        rw [List.nil_append, literalLength, if_neg other] at h
        cases h
    cases t' with
    | nil => rfl
    | cons d t' => rw [List.nil_append, literalLength, if_pos (ends before here), List.length_nil]
  | cons d lit ih =>
    rw [List.cons_append, literalLength] at h ⊢
    split at h
    · cases h
    · rename_i more
      have more := goesOn before d lit (Bool.not_eq_true _ ▸ more)
      rw [if_neg (by rw [← List.cons_append, more]; exact Bool.false_ne_true),
        ih d (Nat.succ.inj h)]
      rfl

section Reworded

variable {slice slice' behind a : List Char} {before : Char}

/-- Before a comment, literal text goes on whatever the comment says. -/
theorem endsLiteral_reworded_eq_false (re : Reworded slice slice')
    (spelled : Spelled .comment slice behind) {d : Char}
    (h : endsLiteral before (d :: a ++ (slice ++ behind)) = false) :
    endsLiteral before (d :: a ++ (slice' ++ behind)) = false := by
  rw [← Bool.not_eq_true, List.cons_append, endsLiteral_cons_iff] at h ⊢
  rintro ⟨noRun, f, found⟩
  cases stood : Mark.at? (some before) false (d :: (a ++ (slice ++ behind))) with
  | some f => exact h ⟨noRun, f, stood⟩
  | none =>
    have nothing := Mark.at?_reworded_eq_none (a := d :: a) re spelled (List.cons_ne_nil d a) stood
    cases nothing.symm.trans found

/-- Literal text that ends at a segment before a comment, or at the comment itself, ends there
whatever the comment says. -/
theorem endsLiteral_reworded (re : Reworded slice slice') {gs rest : List Segment}
    (here : segments false (gs.flatMap Segment.slice ++ (slice ++ behind)) =
      gs ++ ⟨.comment, slice⟩ :: rest)
    (spelled : Spelled .comment slice behind)
    (h : endsLiteral before (gs.flatMap Segment.slice ++ (slice ++ behind)) = true) :
    endsLiteral before (gs.flatMap Segment.slice ++ (slice' ++ behind)) = true := by
  cases gs with
  | nil =>
    have found : Mark.at? (some before) false (slice' ++ behind) = some ⟨.comment, slice'.length⟩ :=
      Mark.at?_of_comment (re.spelled spelled)
    obtain ⟨x, t, t', rfl, rfl, -⟩ := re.exists_cons
    obtain ⟨noRun, -⟩ := endsLiteral_cons_iff.mp h
    exact endsLiteral_cons_iff.mpr ⟨noRun, _, found⟩
  | cons g gs =>
    obtain ⟨t, whole, leads, -⟩ := segments_eq_cons_iff.mp here
    obtain ⟨d, more, cons⟩ := List.exists_cons_of_ne_nil leads.ne_nil
    have longer : g.slice.length ≤ ((g :: gs).flatMap Segment.slice).length := by
      rw [List.flatMap_cons, List.length_append]
      exact Nat.le_add_right ..
    have front_cons :
        (g :: gs).flatMap Segment.slice = d :: (more ++ gs.flatMap Segment.slice) := by
      rw [List.flatMap_cons, cons]
      rfl
    generalize (g :: gs).flatMap Segment.slice = front at *
    subst front_cons
    obtain ⟨noRun, f, found⟩ := endsLiteral_cons_iff.mp h
    -- the mark at which the literal text ends is the segment there, so it ends before the comment
    have atFront : Mark.at? none false (g.slice ++ t) = some f := whole ▸ Mark.at?_of_before found
    obtain rfl := leads.eq_of_at? atFront
    exact endsLiteral_cons_iff.mpr
      ⟨noRun, _, Mark.at?_reworded re spelled (List.cons_ne_nil d _) found longer⟩

/-- The segment in front of a text stands there whatever a comment in the text says. -/
theorem Leads.reworded {afterKey : Bool} (re : Reworded slice slice')
    (spelled : Spelled .comment slice behind) {g : Segment} {gs rest : List Segment}
    (leads : Leads afterKey g (gs.flatMap Segment.slice ++ (slice ++ behind)))
    (next : segments (keyBefore afterKey g.mark) (gs.flatMap Segment.slice ++ (slice ++ behind)) =
      gs ++ ⟨.comment, slice⟩ :: rest) :
    Leads afterKey g (gs.flatMap Segment.slice ++ (slice' ++ behind)) := by
  have filled : g.slice ++ gs.flatMap Segment.slice ≠ [] := by simp [leads.ne_nil]
  cases found : Mark.at? none afterKey (g.slice ++ (gs.flatMap Segment.slice ++ (slice ++ behind)))
    with
  | some f =>
    obtain rfl := leads.eq_of_at? found
    refine .of_at? leads.ne_nil ?_
    rw [← List.append_assoc] at found ⊢
    exact Mark.at?_reworded re spelled filled found (by simp)
  | none =>
    obtain ⟨c, lit, rfl, length⟩ := leads.literal found
    refine .of_literal ?_ (literalLength_append ?_ ?_ lit c length)
    · rw [← List.append_assoc] at found ⊢
      exact Mark.at?_reworded_eq_none re spelled filled found
    · intro before d more goesOn
      rw [← List.append_assoc] at goesOn ⊢
      exact endsLiteral_reworded_eq_false (a := more ++ gs.flatMap Segment.slice) re spelled goesOn
    · exact fun before => endsLiteral_reworded re next spelled

/-- Whatever a comment in a text says, the text is cut into the same segments, and the comment stays
one of them. -/
theorem segments_reworded (re : Reworded slice slice') {afterKey : Bool} {s : List Char}
    {gs rest : List Segment} (h : segments afterKey s = gs ++ ⟨.comment, slice⟩ :: rest) :
    segments afterKey (gs.flatMap Segment.slice ++ (slice' ++ rest.flatMap Segment.slice)) =
      gs ++ ⟨.comment, slice'⟩ :: rest := by
  have spelled := spelled_of_segments h
  have tiled := flatMap_slice_segments afterKey s
  rw [h, List.flatMap_append, List.flatMap_cons] at tiled
  subst tiled
  induction gs generalizing afterKey with
  | nil =>
    obtain ⟨t, whole, -, next⟩ := segments_eq_cons_iff.mp h
    obtain rfl : rest.flatMap Segment.slice = t := List.append_cancel_left whole
    refine segments_eq_cons_iff.mpr ⟨_, rfl, .of_at? ?_ ?_, next⟩
    · obtain ⟨x, t, t', -, rfl, -⟩ := re.exists_cons
      exact List.cons_ne_nil x t'
    · exact Mark.at?_of_comment (re.spelled spelled)
  | cons g gs ih =>
    rw [List.flatMap_cons, List.append_assoc] at h ⊢
    obtain ⟨t, whole, leads, next⟩ := segments_eq_cons_iff.mp h
    obtain rfl := List.append_cancel_left whole
    exact segments_eq_cons_iff.mpr ⟨_, rfl, leads.reworded re spelled next, ih next⟩

end Reworded

end Segment

/-! ## Lexemes -/

/-- The lexemes of a scan are those of its segments: all but the comments. -/
theorem Scan.lexemes_ofSegments (offset : Nat) (gs : List Segment) :
    (ofSegments offset gs).tokens.map Token.lexeme =
      gs.filterMap fun g => match g.mark with
        | .comment => none
        | .lexeme l => some l := by
  induction gs generalizing offset with
  | nil => rfl
  | cons g gs ih =>
    obtain ⟨mark, slice⟩ := g
    cases mark with
    | comment => exact ih _
    | lexeme l => exact congrArg (List.cons l) (ih _)

end SqlTemplate
