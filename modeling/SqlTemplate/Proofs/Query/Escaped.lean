import SqlTemplate.Proofs.Query.Static
import SqlTemplate.Proofs.Token.Unmarked

/-!
# Escaped queries

Any text can be had as SQL: escaped, it compiles to a static query that says just that text and
binds nothing (`Query.compile_escapeString`). Escaping reaches the six characters that can be
doubled. It does nothing about comments and about three dots, which therefore must not be in the
text.

The escaped text is unmarked (`Mark.unmarked_escape`), so it is a single piece of literal text, and
unescaping gives the text back.
-/

namespace SqlTemplate

open SqlTemplate.Text

/-- Escaping a text leaves no mark in it but those that cannot be escaped. -/
theorem Mark.unmarked_escape {s : List Char} (dots : ¬HasRun '.' 3 s)
    (hyphens : ¬['-', '-'] <:+: s) (comment : ¬HasBlockComment s) : Mark.Unmarked (escape s) where
  control _ mem := not_hasRun_one_escape mem s
  dots run := dots (hasRun_of_escape (by decide) run)
  hyphens h := hyphens (hyphens_of_escape h)
  comment h := comment (hasBlockComment_of_escape h)

/-- An escaped text is read as the text, if there is any. -/
theorem Node.read_escapeString {text : String} (dots : ¬HasRun '.' 3 text.toList)
    (hyphens : ¬['-', '-'] <:+: text.toList) (comment : ¬HasBlockComment text.toList) :
    Node.read (escapeString text) = .ok (if text = "" then [] else [.literal text]) := by
  by_cases empty : text = ""
  · rw [if_pos empty, empty]
    cbv
  · have unmarked : Mark.Unmarked (escapeString text).toList := by
      rw [toList_escapeString]
      exact Mark.unmarked_escape dots hyphens comment
    have filled : escapeString text ≠ "" := by
      intro nothing
      apply empty
      rw [← unescapeString_escapeString text, nothing]
      rfl
    rw [if_neg empty, Node.read_of_unmarked unmarked filled, unescapeString_escapeString]

namespace Query

/-- Escaping a text gives a template for it, unless three dots or a comment are in the text: the
template compiles to a static query without keys that says the text, whatever the arguments are. -/
theorem compile_escapeString {text : String} (dots : ¬HasRun '.' 3 text.toList)
    (hyphens : ¬['-', '-'] <:+: text.toList) (comment : ¬HasBlockComment text.toList) :
    ∃ q, compile (escapeString text) = .ok q ∧ q.isStatic = true ∧ q.keys = [] ∧
      q.text = some text ∧ ∀ arguments, q.generate arguments = .ok ⟨text, []⟩ := by
  have compiled : compile (escapeString text) =
      .ok (ofTree (escapeString text) (if text = "" then [] else [.literal text])) := by
    rw [compile_eq, Node.read_escapeString dots hyphens comment]
    rfl
  by_cases empty : text = ""
  · rw [if_pos empty] at compiled
    rw [empty] at compiled ⊢
    exact ⟨_, compiled, rfl, rfl, rfl, fun _ => rfl⟩
  · rw [if_neg empty] at compiled
    have said : (ofTree (escapeString text) [.literal text]).text = some text :=
      congrArg some (Piece.flat_singleton (.text text))
    refine ⟨_, compiled, rfl, rfl, said, fun arguments => ?_⟩
    rw [generate, said]
    rfl

/-- A text with what looks like marks: a name, an opening with blanks, separators and closings, and
a comment that does not end. -/
theorem compile_escapeString_near_marks :
    ¬HasRun '.' 3 "@a ? \x7b;(,) [..\x7d....]/*/ -".toList ∧
    ¬['-', '-'] <:+: "@a ? \x7b;(,) [..\x7d....]/*/ -".toList ∧
    ¬HasBlockComment "@a ? \x7b;(,) [..\x7d....]/*/ -".toList ∧
    ∃ q, compile (escapeString "@a ? \x7b;(,) [..\x7d....]/*/ -") = .ok q ∧
      q.isStatic = true ∧ q.keys = [] ∧ q.text = some "@a ? \x7b;(,) [..\x7d....]/*/ -" ∧
      ∀ arguments, q.generate arguments = .ok ⟨"@a ? \x7b;(,) [..\x7d....]/*/ -", []⟩ := by
  have dots : ¬HasRun '.' 3 "@a ? \x7b;(,) [..\x7d....]/*/ -".toList := by
    decide
  have hyphens : ¬['-', '-'] <:+: "@a ? \x7b;(,) [..\x7d....]/*/ -".toList := by
    decide
  have comment : ¬HasBlockComment "@a ? \x7b;(,) [..\x7d....]/*/ -".toList := by
    decide
  exact ⟨dots, hyphens, comment, compile_escapeString dots hyphens comment⟩

end Query

end SqlTemplate
