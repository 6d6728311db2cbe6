import SqlTemplate.Error
import SqlTemplate.Node.Condensed
import SqlTemplate.Node.Reading

/-!
# Queries

A *query* is a template that has been compiled: read, condensed and, in the same walk, looked
through for the names it refers to. If it is static, that is, written the same way whatever the
values are, its text is rendered once and kept; its placeholders then stand for its keys in order.
-/

namespace SqlTemplate

/-- A compiled template. -/
structure Query where
  /-- the template -/
  source : String
  /-- the condensed tree -/
  nodes : List Node
  /-- whether the text is the same whatever the values are -/
  isStatic : Bool
  /-- the names that the template refers to, each once, where it is first met -/
  keys : List String
  /-- the text of a static query -/
  text : Option String
  deriving Repr

namespace Query

/-- The text of a tree if it is static: what it is rendered to without any arguments. -/
def staticText (isStatic : Bool) (nodes : List Node) : Except Mismatch (Option String) :=
  if isStatic then (Node.toStatement nodes .null).map fun s => some s.text
  else .ok none

/-- Compiles a template. -/
def compile (source : String) : Except Error Query := do
  let tree ← (Node.read source).mapError Error.grammar
  let (nodes, findings) := Node.survey tree .start
  let text ← (staticText findings.isStatic nodes).mapError Error.mismatch
  return { source, nodes, isStatic := findings.isStatic, keys := findings.keys, text }

/-- Renders a query with a value for its arguments. -/
def generate (q : Query) (arguments : Value) : Except Mismatch Statement :=
  match q.text with
  | some text => .ok ⟨text, q.keys.map arguments.boundTo⟩
  | none => Node.toStatement q.nodes arguments

end Query

end SqlTemplate
