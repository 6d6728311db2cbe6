import SqlTemplate.Entries
import SqlTemplate.Query
import SqlTemplate.Text.Blank
import SqlTemplate.Text.Name

/-!
# Sources

A *source* is a text that holds queries under header lines `-- @query name`. The text of a query
begins behind the name, in the header line itself, and goes on to the next header line; blanks
around it do not count. What stands before the first header line belongs to no query.

`Source.queries` compiles the queries of a source, and stops at the first one that has no text,
that has the name of an earlier one, or that does not compile.
-/

namespace SqlTemplate

open SqlTemplate.Text

/-- A query of a source, before it is compiled. -/
structure SourceUnit where
  /-- the name in the header line -/
  name : String
  /-- the text behind the name, without the blanks around it -/
  text : String
  deriving DecidableEq, Repr

namespace Source

/-! ## Lines -/

/-- The lines of a text, each with the line feed that ends it. -/
def lines : List Char → List (List Char)
  | [] => []
  | c :: rest =>
    if c = '\n' then [c] :: lines rest
    else
      match lines rest with
      | [] => [[c]]
      | line :: more => (c :: line) :: more

/-- Put one after another, the lines are the text. -/
theorem flatten_lines (s : List Char) : (lines s).flatten = s := by
  induction s with
  | nil => rfl
  | cons c rest ih =>
    rw [lines]
    split
    · rw [List.flatten_cons, ih, List.singleton_append]
    · split <;> simp_all

/-! ## Header lines -/

/-- What follows a word, in a text that begins with the word. -/
def after? (word s : List Char) : Option (List Char) :=
  if word.isPrefixOf s then some (s.drop word.length) else none

/-- The name in a header line, and what follows it in the line: two hyphens, the word `@query`, at
least one blank, and the name, with blanks allowed before the hyphens and behind them. -/
def header? (line : List Char) : Option (String × List Char) :=
  (after? ['-', '-'] (trimStart line)).bind fun comment =>
    (after? ['@', 'q', 'u', 'e', 'r', 'y'] (trimStart comment)).bind fun rest =>
      let named := trimStart rest
      let name := named.takeWhile isNameChar
      if rest.head?.any isBlank ∧ name ≠ [] then
        some (String.ofList name, named.drop name.length)
      else none

/-! ## Units -/

/-- The queries in the lines of a source, and the text before the first header line. -/
def split : List (List Char) → List Char × List SourceUnit
  | [] => ([], [])
  | line :: rest =>
    let (lead, units) := split rest
    match header? line with
    | some (name, tail) => ([], ⟨name, String.ofList (trim (tail ++ lead))⟩ :: units)
    | none => (line ++ lead, units)

/-- The queries of a source, in order. -/
def units (source : String) : List SourceUnit := (split (lines source.toList)).2

/-! ## Compiling -/

/-- Compiles a query of a source behind the ones before it. -/
def compileUnit (queries : Entries Query) (unit : SourceUnit) :
    Except Error (Entries Query) :=
  if unit.text = "" then .error (.emptyUnit unit.name)
  else if (queries.find? unit.name).isSome then .error (.duplicateName unit.name)
  else (Query.compile unit.text).map fun q => queries ++ [(unit.name, q)]

/-- The compiled queries of a source by name, in order. -/
def queries (source : String) : Except Error (Entries Query) :=
  (units source).foldlM compileUnit []

end Source

end SqlTemplate
