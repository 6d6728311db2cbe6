import SqlTemplate.Proofs.Source.Header
import SqlTemplate.Text.Width

/-!
# Where the queries of a source stand

A source is gone through twice: once for the places of its header lines (`Source.headers`), and then
for the text behind the name in each of them, up to the place of the next one. The places of the two
passes fit together. Each text is a slice of whole characters that does not end before it begins,
and without the blanks around it, it is the text of the query (`Source.cut_units`).
-/

namespace SqlTemplate

open SqlTemplate.Text

namespace Source

/-- A header line where it stands in a source, in bytes. -/
structure HeaderPlace where
  /-- the name in the line -/
  name : String
  /-- the place of the line -/
  start : Nat
  /-- the place behind the name -/
  body : Nat
  deriving DecidableEq, Repr

/-- The header lines among lines, the first of which stands at byte `offset`. -/
def headersFrom (offset : Nat) : List (List Char) → List HeaderPlace
  | [] => []
  | line :: rest =>
    let behind := headersFrom (offset + width line) rest
    match header? line with
    | some (name, tail) => ⟨name, offset, offset + (width line - width tail)⟩ :: behind
    | none => behind

/-- The header lines of a source, in order. -/
def headers (source : String) : List HeaderPlace := headersFrom 0 (lines source.toList)

/-- The place of the first of some header lines, or the end of the source if there is none. -/
def firstStart (source : String) : List HeaderPlace → Nat
  | [] => source.utf8ByteSize
  | header :: _ => header.start

/-- Queries are cut out of a source at its header lines. Each has the name of its header line. Its
text is the slice behind the name up to the next header line or the end of the source, without the
blanks around it. -/
inductive Cut (source : String) : List HeaderPlace → List SourceUnit → Prop
  | nil : Cut source [] []
  | cons {header : HeaderPlace} {headers : List HeaderPlace} {text : String}
      {units : List SourceUnit} (front slice behind : String)
      (whole : source = front ++ header.name ++ slice ++ behind)
      (body : header.body = (front ++ header.name).utf8ByteSize)
      (stop : firstStart source headers = (front ++ header.name ++ slice).utf8ByteSize)
      (trimmed : text = String.ofList (trim slice.toList)) (rest : Cut source headers units) :
      Cut source (header :: headers) (⟨header.name, text⟩ :: units)

/-- A header line goes on behind its name. -/
theorem exists_append_of_header? {line tail : List Char} {name : String}
    (h : header? line = some (name, tail)) : ∃ front, line = front ++ name.toList ++ tail := by
  obtain ⟨-, -, -, -, -, -⟩ := header_of_header? h
  rename_i front gap space
  exact ⟨front ++ (['-', '-'] ++ (gap ++ (['@', 'q', 'u', 'e', 'r', 'y'] ++ space))), by simp⟩

theorem Cut.length_eq {source : String} {headers : List HeaderPlace} {units : List SourceUnit}
    (h : Cut source headers units) : units.length = headers.length := by
  induction h with
  | nil => rfl
  | cons _ _ _ _ _ _ _ _ ih => exact congrArg Nat.succ ih

/-- The lines behind some text of a source are cut at their header lines. The text before the first
of these ends where the line begins. -/
theorem cut_split {source : String} {before : List Char} {ls : List (List Char)}
    (whole : source.toList = before ++ ls.flatten) :
    (∃ rest, ls.flatten = (split ls).1 ++ rest ∧
      firstStart source (headersFrom (width before) ls) = width (before ++ (split ls).1)) ∧
    Cut source (headersFrom (width before) ls) (split ls).2 := by
  induction ls generalizing before with
  | nil =>
    refine ⟨⟨[], rfl, ?_⟩, .nil⟩
    rw [headersFrom, firstStart, utf8ByteSize_eq_width, whole]
    rfl
  | cons line ls ih =>
    rw [List.flatten_cons, ← List.append_assoc] at whole
    obtain ⟨⟨rest, lead, stop⟩, cut⟩ := ih whole
    rw [width_append] at stop cut
    cases found : header? line with
    | none =>
      simp only [headersFrom, split, found]
      refine ⟨⟨rest, ?_, ?_⟩, cut⟩
      · rw [List.flatten_cons, lead, List.append_assoc]
      · rw [stop, List.append_assoc]
    | some header =>
      obtain ⟨name, tail⟩ := header
      obtain ⟨front, rfl⟩ := exists_append_of_header? found
      simp only [headersFrom, split, found]
      refine ⟨⟨_, rfl, ?_⟩, ?_⟩
      · rw [List.append_nil]
        rfl
      · refine .cons (String.ofList (before ++ front)) (String.ofList (tail ++ (split ls).1))
          (String.ofList rest) ?_ ?_ ?_ ?_ cut
        · apply String.toList_inj.mp
          simp [whole, lead]
        · rw [utf8ByteSize_eq_width, String.toList_append, String.toList_ofList]
          simp only [width_append]
          omega
        · rw [stop, utf8ByteSize_eq_width]
          simp
        · rw [String.toList_ofList]

/-- The queries of a source are cut out of it at its header lines. -/
theorem cut_units (source : String) : Cut source (headers source) (units source) := by
  have whole : source.toList = [] ++ (lines source.toList).flatten := (flatten_lines _).symm
  exact (cut_split whole).2

end Source

end SqlTemplate
