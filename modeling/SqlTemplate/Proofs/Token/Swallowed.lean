import SqlTemplate.Proofs.Token.BlankRuns
import SqlTemplate.Proofs.Token.LookBehind

/-!
# Blanks beside control tokens

A control token takes all the blanks on its side, so literal text beside it does not begin or end
with a blank there (`Scan.ofTemplate_swallows`).

The blanks behind an opening, a separator or a spread are taken by the rule itself, as far as they
go. The blanks before a token are taken only if the literal text ends where they begin. That it does
is due to the search for its end: a rule that passes over blanks finds the token from the last blank
of the literal text too (`Mark.Rule.isSome_find?_cons`), so the text would have ended there, or a
mark would stand where it begins.
-/

namespace SqlTemplate

open SqlTemplate.Text

/-! ## Tokens that take blanks -/

/-- Whether a lexeme takes the blanks before it. -/
def Lexeme.takesBlanksBefore : Lexeme → Bool
  | .conditionalOpen => true
  | .elseOpen => true
  | .blockClose => true
  | .listClose => true
  | .separator => true
  | .spread => true
  | _ => false

/-- Whether a lexeme takes the blanks behind it. -/
def Lexeme.takesBlanksBehind : Lexeme → Bool
  | .conditionalOpen => true
  | .elseOpen => true
  | .listOpen _ => true
  | .separator => true
  | .spread => true
  | _ => false

namespace Mark

section Rules

variable {before : Option Char} {afterKey : Bool} {s : List Char} {r : Rule}

/-- A lexeme that takes the blanks before it is found by a rule that passes over blanks. -/
theorem Rule.passesBlanks_of_find? {f : Found} {l : Lexeme}
    (h : r.find? before afterKey s = some f) (mark : f.mark = .lexeme l)
    (takes : l.takesBlanksBefore = true) : r.passesBlanks = true := by
  cases r <;> simp only [Rule.find?, Option.map_eq_some_iff] at h
  case key =>
    obtain ⟨name, same⟩ := exists_name_of_key? h
    cases same.symm.trans mark
    cases takes
  case fallback =>
    split at h
    · obtain ⟨word, same⟩ := exists_word_of_fallback? h
      cases same.symm.trans mark
      cases takes
    · cases h
  case listOpen =>
    obtain ⟨n, -, rfl⟩ := h
    cases mark
    cases takes
  case blockComment =>
    obtain ⟨n, -, rfl⟩ := h
    cases mark
  all_goals rfl

/-- Behind the slice of a lexeme that takes the blanks behind it, there is no blank. -/
theorem Spelled.not_blank_behind {l : Lexeme} {slice behind : List Char}
    (h : Spelled (.lexeme l) slice behind) (takes : l.takesBlanksBehind = true) :
    ∀ c ∈ behind.head?, isAsciiBlank c = false := by
  have blanked : ∀ {c count slice}, Blanked c count slice behind →
      ∀ c ∈ behind.head?, isAsciiBlank c = false := by
    rintro _ _ _ ⟨-, run⟩
    exact run.longest
  cases h with
  | conditionalOpen block =>
    obtain ⟨-, opening⟩ := block
    exact blanked opening
  | elseOpen block =>
    obtain ⟨-, opening⟩ := block
    exact blanked opening
  | listOpen _ opening => exact blanked opening
  | separator alone => exact blanked alone
  | spread alone => exact blanked alone
  | _ => cases takes

end Rules

end Mark

namespace Segment

variable {afterKey afterKey' : Bool} {g : Segment} {t : List Char}

/-- Where literal text stands in front, no mark does. -/
theorem Leads.at?_eq_none (h : Leads afterKey g t) {text : String}
    (literal : g.mark = .lexeme (.literal text)) :
    Mark.at? none afterKey (g.slice ++ t) = none := by
  cases found : Mark.at? none afterKey (g.slice ++ t) with
  | none => rfl
  | some f =>
    obtain rfl := h.eq_of_at? found
    obtain ⟨r, here⟩ := Mark.exists_rule_of_at? found
    exact absurd literal (Mark.Rule.mark_ne_literal here text)

/-- What stands in front was found by a rule, unless it is literal text. -/
theorem Leads.exists_rule (h : Leads afterKey g t)
    (other : ∀ text, g.mark ≠ .lexeme (.literal text)) :
    ∃ r : Mark.Rule, r.find? none afterKey (g.slice ++ t) = some ⟨g.mark, g.slice.length⟩ := by
  cases found : Mark.at? none afterKey (g.slice ++ t) with
  | none =>
    obtain ⟨c, lit, rfl, -⟩ := h.literal found
    exact absurd rfl (other _)
  | some f =>
    obtain rfl := h.eq_of_at? found
    exact Mark.exists_rule_of_at? found

/-- Literal text that stands in front goes on to the first place where it can end. -/
theorem Leads.isLeast_endings (h : Leads afterKey g t) {text : String}
    (literal : g.mark = .lexeme (.literal text)) :
    g.slice = text.toList ∧ IsLeast (endings (g.slice ++ t)) g.slice.length := by
  have nothing := h.at?_eq_none literal
  obtain ⟨c, lit, rfl, length⟩ := h.literal nothing
  cases literal
  have nothing : Mark.at? none afterKey (c :: (lit ++ t)) = none := nothing
  have least := Segment.isLeast_endings c (lit ++ t)
  rw [← literalLength_eq nothing, length] at least
  exact ⟨String.toList_ofList.symm, least⟩

/-- Literal text does not end with a blank where a rule finds something that passes over blanks. -/
theorem Leads.not_blank_at_end (h : Leads afterKey g t) {text : String}
    (literal : g.mark = .lexeme (.literal text)) {r : Mark.Rule} {before : Option Char}
    (passes : r.passesBlanks = true) (found : (r.find? before afterKey' t).isSome) :
    ∀ c ∈ text.toList.getLast?, isAsciiBlank c = false := by
  intro b last
  by_contra blank
  rw [Bool.not_eq_false] at blank
  -- what the rule finds it finds from the last character of the literal text as well
  have stands : ∀ before' afterKey'', (Mark.at? before' afterKey'' (b :: t)).isSome := by
    intro before' afterKey''
    have here : (r.find? before' afterKey'' (b :: t)).isSome :=
      Mark.Rule.isSome_find?_cons passes blank found
    obtain ⟨f, here⟩ := Option.isSome_iff_exists.mp here
    exact Option.isSome_iff_exists.mpr ⟨f, Mark.at?_eq_some_iff.mpr ⟨r, here⟩⟩
  have nothing := h.at?_eq_none literal
  obtain ⟨slice, least⟩ := h.isLeast_endings literal
  obtain ⟨front, whole⟩ := List.getLast?_eq_some_iff.mp last
  rw [slice, whole, List.append_assoc, List.singleton_append] at nothing least
  rcases front.eq_nil_or_concat' with rfl | ⟨more, c, rfl⟩
  · -- the literal text is the blank alone, and a mark stands where it begins
    have stood := stands none afterKey
    rw [List.nil_append] at nothing
    rw [nothing] at stood
    cases stood
  · -- the literal text would have ended before the blank
    have ends : (more ++ [c]).length ∈ endings (more ++ [c] ++ b :: t) := by
      refine ⟨by simp, .inr ?_⟩
      rw [List.drop_left]
      exact stands _ _
    have first := least.2 ends
    simp at first

end Segment

namespace Scan

/-- Each token is a segment that stands in front of what is behind it in the template. -/
theorem exists_leads_of_mem {template : String} {t : Token}
    (mem : t ∈ (ofTemplate template).tokens) :
    ∃ afterKey before g behind, template.toList = before ++ (g.slice ++ behind) ∧
      Segment.Leads afterKey g behind ∧ g.mark = .lexeme t.lexeme ∧ t.offset = width before ∧
      t.length = width g.slice := by
  obtain ⟨gs, g, rest, cut, mark, offset, length⟩ := exists_segment_of_mem mem
  obtain ⟨afterKey, leads⟩ := Segment.exists_leads cut
  have tiled := Segment.flatMap_slice_segments false template.toList
  rw [cut, List.flatMap_append, List.flatMap_cons] at tiled
  rw [Nat.zero_add] at offset
  exact ⟨afterKey, _, g, _, tiled.symm, leads, mark, offset, length⟩

/-- A line comment stands at a byte of a template, with the blanks before its hyphens. -/
def LineCommentAt (template : String) (place : Nat) : Prop :=
  ∃ before behind : String, template = before ++ behind ∧ place = before.utf8ByteSize ∧
    (Mark.lineComment? behind.toList).isSome

/-- Where a line comment stands, or a token that takes the blanks before it, a rule finds something
that passes over blanks. -/
theorem exists_rule_at {template : String} {place : Nat}
    (h : LineCommentAt template place ∨ ∃ u ∈ (ofTemplate template).tokens, u.offset = place ∧
      u.lexeme.takesBlanksBefore = true) :
    ∃ before behind afterKey, ∃ r : Mark.Rule, template.toList = before ++ behind ∧
      place = width before ∧ r.passesBlanks = true ∧ (r.find? none afterKey behind).isSome := by
  rcases h with ⟨before, behind, rfl, rfl, comment⟩ | ⟨u, mem, rfl, takes⟩
  · refine ⟨before.toList, behind.toList, false, .lineComment, String.toList_append,
      utf8ByteSize_eq_width before, rfl, ?_⟩
    rwa [Mark.Rule.find?, Option.isSome_map]
  · obtain ⟨afterKey, before, g, behind, whole, leads, mark, offset, -⟩ := exists_leads_of_mem mem
    have notLiteral : ∀ text, g.mark ≠ .lexeme (.literal text) := by
      intro text literal
      rw [← Mark.lexeme.inj (literal.symm.trans mark)] at takes
      cases takes
    obtain ⟨r, found⟩ := leads.exists_rule notLiteral
    exact ⟨before, g.slice ++ behind, afterKey, r, whole, offset,
      Mark.Rule.passesBlanks_of_find? found mark takes, found ▸ rfl⟩

/-- Literal text does not end with a blank if a token that takes the blanks before it begins where
the text ends, or if a line comment does. And it does not begin with a blank if a token that takes
the blanks behind it ends where the text begins. -/
theorem ofTemplate_swallows (template : String) :
    ∀ t ∈ (ofTemplate template).tokens, ∀ text, t.lexeme = .literal text →
      ((LineCommentAt template (t.offset + t.length) ∨
          ∃ u ∈ (ofTemplate template).tokens, u.offset = t.offset + t.length ∧
            u.lexeme.takesBlanksBefore = true) →
        ∀ c ∈ text.toList.getLast?, isAsciiBlank c = false) ∧
      ((∃ u ∈ (ofTemplate template).tokens, u.offset + u.length = t.offset ∧
          u.lexeme.takesBlanksBehind = true) →
        ∀ c ∈ text.toList.head?, isAsciiBlank c = false) := by
  intro t mem text literal
  obtain ⟨afterKey, before, g, behind, whole, leads, mark, offset, length⟩ :=
    exists_leads_of_mem mem
  rw [literal] at mark
  constructor
  · intro next
    obtain ⟨front, rest, afterKey', r, cut, place, passes, found⟩ := exists_rule_at next
    rw [cut, ← List.append_assoc] at whole
    rw [offset, length, ← width_append] at place
    obtain ⟨-, rfl⟩ := append_inj_of_width whole place.symm
    exact leads.not_blank_at_end mark passes found
  · rintro ⟨u, memU, place, takes⟩
    obtain ⟨_, front, g', rest, cut, leads', mark', offset', length'⟩ := exists_leads_of_mem memU
    rw [cut, ← List.append_assoc] at whole
    rw [offset, offset', length', ← width_append] at place
    obtain ⟨-, rfl⟩ := append_inj_of_width whole place
    obtain ⟨slice, -⟩ := leads.isLeast_endings mark
    have spelled := leads'.spelled
    rw [mark'] at spelled
    have first := spelled.not_blank_behind takes
    rwa [List.head?_append_of_ne_nil _ leads.ne_nil, slice] at first

/-- A separator takes the blanks on both sides, and a line comment those before it. -/
theorem ofTemplate_swallows_separator :
    (ofTemplate "x y \t;  é z -- c").tokens =
      [⟨.literal "x y", 0, 3⟩, ⟨.separator, 3, 5⟩, ⟨.literal "é z", 8, 4⟩] ∧
    LineCommentAt "x y \t;  é z -- c" 12 ∧
    (∀ c ∈ "x y".toList.getLast?, isAsciiBlank c = false) ∧
    (∀ c ∈ "é z".toList.head?, isAsciiBlank c = false) ∧
    ∀ c ∈ "é z".toList.getLast?, isAsciiBlank c = false := by
  have tokens : (ofTemplate "x y \t;  é z -- c").tokens =
      [⟨.literal "x y", 0, 3⟩, ⟨.separator, 3, 5⟩, ⟨.literal "é z", 8, 4⟩] := by
    cbv
  have mem : ∀ t ∈ [⟨.literal "x y", 0, 3⟩, ⟨.separator, 3, 5⟩, ⟨.literal "é z", 8, 4⟩],
      t ∈ (ofTemplate "x y \t;  é z -- c").tokens := by
    rw [tokens]
    exact fun _ => id
  have comment : LineCommentAt "x y \t;  é z -- c" 12 :=
    ⟨"x y \t;  é z", " -- c", rfl, by decide, by decide⟩
  obtain ⟨before, -⟩ := ofTemplate_swallows _ _ (mem ⟨.literal "x y", 0, 3⟩ (by decide)) _ rfl
  obtain ⟨last, behind⟩ := ofTemplate_swallows _ _ (mem ⟨.literal "é z", 8, 4⟩ (by decide)) _ rfl
  have separator := mem ⟨.separator, 3, 5⟩ (by decide)
  exact ⟨tokens, comment, before (.inr ⟨_, separator, rfl, rfl⟩), behind ⟨_, separator, rfl, rfl⟩,
    last (.inl comment)⟩

end Scan

end SqlTemplate
