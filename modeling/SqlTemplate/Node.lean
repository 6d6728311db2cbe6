import SqlTemplate.Token

/-!
# The tree of a template

A template is read into a list of nodes. A node is literal text, one of the three ways to insert a
value, or one of the two ways to nest: a conditional, whose branches are lists of nodes, and a
delimited list, whose items are.
-/

namespace SqlTemplate

/-- A part of a template. -/
inductive Node where
  /-- SQL text, with its doubled characters already halved -/
  | literal (text : String)
  /-- `@name` -/
  | value (name : String)
  /-- `@name??word` -/
  | fallback (name word : String)
  /-- `@name?{ success }` and, if there is one, the branch for an absent name -/
  | conditional (name : String) (success : List Node) (failure : Option (List Node))
  /-- `(,)[ ...@name ]`, which stands for the elements of a list -/
  | spread (name : String) (delimiter : Delimiter)
  /-- `(,)[ item; item ]` -/
  | list (delimiter : Delimiter) (items : List (List Node))
  deriving Repr

namespace Node

/-- The text of a list of nodes that is a single piece of literal text. -/
def literal? : List Node → Option String
  | [.literal text] => some text
  | _ => none

@[simp] theorem literal?_eq_some_iff {nodes : List Node} {text : String} :
    literal? nodes = some text ↔ nodes = [.literal text] := by
  unfold literal?
  split
  · simp
  · simp_all

end Node

end SqlTemplate
