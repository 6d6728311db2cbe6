import SqlTemplate.Text.Width
import SqlTemplate.Token.Mark

/-!
# Segments

A template is cut into *segments*: slices that are each a comment, a control lexeme or a stretch of
literal text. The cut goes from left to right. Where a mark stands, its slice is the segment;
elsewhere the segment is the literal text up to the first place at which a mark stands.

* Nothing is lost: the slices of the segments, one after another, are the template
  (`flatMap_slice_segments`).
* `Token.scan` leaves out the comments and gives each lexeme its place in bytes.

A mark looks back no further than the segment it would end. The search for the end of literal text
passes over the blanks that continue a run of blanks: the marks that may begin with blanks were
tried where the run begins.
-/

namespace SqlTemplate

open SqlTemplate.Text

/-- A slice of a template and what it is. -/
structure Segment where
  /-- a comment or a lexeme, literal text included -/
  mark : Mark
  /-- the characters of the template that it takes -/
  slice : List Char
  deriving DecidableEq, Repr

namespace Segment

/-! ## Literal text -/

/-- Whether literal text ends between the character `before` and the text behind it: a mark stands
there, and the place is not inside a run of blanks. -/
def endsLiteral (before : Char) : List Char → Bool
  | [] => true
  | c :: rest =>
    !(isAsciiBlank before && isAsciiBlank c) && (Mark.at? (some before) false (c :: rest)).isSome

/-- The number of characters that literal text has behind its character `before`. -/
def literalLength (before : Char) : List Char → Nat
  | [] => 0
  | c :: rest => if endsLiteral before (c :: rest) then 0 else literalLength c rest + 1

/-- Literal text is not longer than the text that it is in front of. -/
theorem literalLength_le (before : Char) (s : List Char) : literalLength before s ≤ s.length := by
  fun_induction literalLength before s with
  | case1 => exact Nat.le_refl _
  | case2 => exact Nat.zero_le _
  | case3 before c rest _ ih => exact Nat.succ_le_succ ih

/-! ## Cutting -/

/-- What stands in front of the text `c :: rest`: a mark, or literal text. -/
def front (afterKey : Bool) (c : Char) (rest : List Char) : Mark.Found :=
  match Mark.at? none afterKey (c :: rest) with
  | some found => found
  | none =>
    let n := literalLength c rest
    ⟨.lexeme (.literal (String.ofList (c :: rest.take n))), n + 1⟩

/-- What stands in front takes at least one character. -/
theorem length_pos_front (afterKey : Bool) (c : Char) (rest : List Char) :
    0 < (front afterKey c rest).length := by
  unfold front
  split
  · exact Mark.length_pos_of_at? ‹_›
  · exact Nat.succ_pos _

/-- Whether the text behind a segment follows a key. A comment leaves that as it was. -/
def keyBefore (afterKey : Bool) : Mark → Bool
  | .comment => afterKey
  | .lexeme (.key _) => true
  | .lexeme _ => false

/-- The segments of a text; `afterKey` says that the text follows a key. -/
def segments (afterKey : Bool) : List Char → List Segment
  | [] => []
  | c :: rest =>
    let found := front afterKey c rest
    ⟨found.mark, (c :: rest).take found.length⟩ ::
      segments (keyBefore afterKey found.mark) ((c :: rest).drop found.length)
termination_by s => s.length
decreasing_by
  have := length_pos_front afterKey c rest
  simp only [List.length_drop, List.length_cons]
  omega

@[simp] theorem segments_nil (afterKey : Bool) : segments afterKey [] = [] := by
  rw [segments]

theorem segments_cons (afterKey : Bool) (c : Char) (rest : List Char) :
    segments afterKey (c :: rest) =
      ⟨(front afterKey c rest).mark, (c :: rest).take (front afterKey c rest).length⟩ ::
        segments (keyBefore afterKey (front afterKey c rest).mark)
          ((c :: rest).drop (front afterKey c rest).length) := by
  rw [segments]

/-- The segments tile the text: put one after another, their slices are the text. -/
theorem flatMap_slice_segments (afterKey : Bool) (s : List Char) :
    (segments afterKey s).flatMap slice = s := by
  fun_induction segments afterKey s with
  | case1 => rfl
  | case2 afterKey c rest found ih => rw [List.flatMap_cons, ih, List.take_append_drop]

/-- No segment is empty. -/
theorem slice_ne_nil_of_mem_segments {afterKey : Bool} {s : List Char} {g : Segment}
    (h : g ∈ segments afterKey s) : g.slice ≠ [] := by
  fun_induction segments afterKey s with
  | case1 => cases h
  | case2 afterKey c rest found ih =>
    rcases List.mem_cons.mp h with rfl | h
    · have : 0 < found.length := length_pos_front afterKey c rest
      obtain ⟨n, hn⟩ : ∃ n, found.length = n + 1 := ⟨found.length - 1, by omega⟩
      simp [hn]
    · exact ih h

end Segment

/-! ## Tokens -/

/-- The tokens of a template, and the place at which the template ends. -/
structure Scan where
  /-- the tokens in order, without the end of the template -/
  tokens : List Token
  /-- the place behind the last segment, in bytes -/
  stop : Nat
  deriving DecidableEq, Repr

/-- The tokens among the segments, where the first segment stands at byte `offset`. -/
def Scan.ofSegments (offset : Nat) : List Segment → Scan
  | [] => ⟨[], offset⟩
  | ⟨mark, slice⟩ :: rest =>
    let behind := ofSegments (offset + width slice) rest
    match mark with
    | .comment => behind
    | .lexeme lexeme => { behind with tokens := ⟨lexeme, offset, width slice⟩ :: behind.tokens }

/-- Cuts a template into its tokens. -/
def Scan.ofTemplate (template : String) : Scan :=
  .ofSegments 0 (Segment.segments false template.toList)

/-- The scan ends behind the last segment, so at the width of all slices together. -/
theorem Scan.stop_ofSegments (offset : Nat) (gs : List Segment) :
    (ofSegments offset gs).stop = offset + width (gs.flatMap Segment.slice) := by
  induction gs generalizing offset with
  | nil => simp [ofSegments]
  | cons g gs ih =>
    obtain ⟨mark, slice⟩ := g
    cases mark <;> simp [ofSegments, ih, Nat.add_assoc]

/-- The scan of a template ends at the template's width in bytes. -/
theorem Scan.stop_ofTemplate (template : String) :
    (ofTemplate template).stop = width template.toList := by
  rw [ofTemplate, stop_ofSegments, Segment.flatMap_slice_segments, Nat.zero_add]

end SqlTemplate
