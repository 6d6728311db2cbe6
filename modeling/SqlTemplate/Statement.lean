import SqlTemplate.Node
import SqlTemplate.Text.Decimal
import SqlTemplate.Value

/-!
# Statements

A *statement* is SQL text with numbered placeholders, and the values bound to them in order. A tree
is rendered to a statement with a value for its arguments. The render goes through the tree from
left to right and keeps a *draft*: the text so far, the values bound so far, and for each name that
has been written the text that it was written with.

* The first reference to a name binds its value, or the elements of its list, to new placeholders.
  Later references to the name write the same text again.
* An absent name binds null, a fallback excepted, which writes its word instead.
* An item of a list that writes nothing takes its delimiter with it.
* A spread needs a list, whether its name has been written or not. Otherwise the render ends with a
  `Mismatch`.

No value is ever written into the text.
-/

namespace SqlTemplate

/-- A rendered statement. -/
structure Statement where
  /-- SQL text with the placeholders `$1`, `$2` and so on -/
  text : String
  /-- the values of the placeholders, in order -/
  values : List Value
  deriving Repr

/-- A spread whose name has no list. -/
structure Mismatch where
  /-- the name -/
  key : String
  /-- the kind of the name's value, if the name is present -/
  found : Option ValueKind
  deriving DecidableEq, Repr

/-- The wording of a mismatch. -/
def Mismatch.message (m : Mismatch) : String :=
  "Expected key '" ++ m.key ++ "' to be a list, got " ++
    match m.found with
    | none => "nothing"
    | some kind => kind.name

/-! ## Drafts -/

/-- A statement in the making. -/
structure Draft where
  /-- the text that has been written -/
  text : String
  /-- the values that have been bound, in order -/
  values : List Value
  /-- the text that each name is written with, in the order in which the names were bound -/
  bound : Entries String
  deriving Repr

namespace Draft

/-- Nothing has been written. -/
def empty : Draft := ⟨"", [], []⟩

/-- Writes text. -/
def write (d : Draft) (text : String) : Draft := { d with text := d.text ++ text }

/-- The placeholder with a number. -/
def placeholder (n : Nat) : String := "$" ++ Text.natural n

/-- The placeholders of `count` values behind `bound` values, with the delimiter between them. -/
def placeholders (delimiter : Delimiter) (bound count : Nat) : String :=
  delimiter.text.intercalate ((List.range' (bound + 1) count).map placeholder)

/-- Writes a name, and binds values to it that `text` has the placeholders of. -/
def bind (d : Draft) (name text : String) (values : List Value) : Draft :=
  ⟨d.text ++ text, d.values ++ values, d.bound ++ [(name, text)]⟩

/-- Writes a reference to a name: as the name was written before, or with a new placeholder. -/
def reference (d : Draft) (arguments : Value) (name : String) : Draft :=
  match Entries.find? name d.bound with
  | some text => d.write text
  | none => d.bind name (placeholder (d.values.length + 1)) [arguments.boundTo name]

/-- Writes the elements of the list that a name has: as the name was written before, or with new
placeholders. -/
def spread (d : Draft) (arguments : Value) (name : String) (delimiter : Delimiter) :
    Except Mismatch Draft :=
  match arguments.present? name with
  | some (.list elements) =>
    match Entries.find? name d.bound with
    | some text => .ok (d.write text)
    | none =>
      .ok (d.bind name (placeholders delimiter d.values.length elements.length) elements)
  | found => .error ⟨name, found.map Value.kind⟩

/-- Whether a later draft has no more text than an earlier one. -/
def wroteNothing (earlier later : Draft) : Bool :=
  later.text.utf8ByteSize == earlier.text.utf8ByteSize

end Draft

/-! ## Rendering -/

namespace Node

mutual

/-- Renders a node behind a draft. -/
def render (arguments : Value) : Node → Draft → Except Mismatch Draft
  | .literal text, d => .ok (d.write text)
  | .value name, d => .ok (d.reference arguments name)
  | .fallback name word, d =>
    match arguments.present? name with
    | none => .ok (d.write word)
    | some _ => .ok (d.reference arguments name)
  | .conditional name success failure, d =>
    match arguments.present? name with
    | some _ => renderAll arguments success d
    | none => renderBranch arguments failure d
  | .spread name delimiter, d => d.spread arguments name delimiter
  | .list delimiter items, d => renderItems arguments delimiter items false d

/-- Renders nodes behind a draft, one after another. -/
def renderAll (arguments : Value) : List Node → Draft → Except Mismatch Draft
  | [], d => .ok d
  | node :: rest, d => do renderAll arguments rest (← render arguments node d)

/-- Renders the second branch of a conditional, if there is one. -/
def renderBranch (arguments : Value) : Option (List Node) → Draft → Except Mismatch Draft
  | none, d => .ok d
  | some branch, d => renderAll arguments branch d

/-- Renders the items of a list behind a draft. `wrote` says that an item before them wrote
something, so that a delimiter goes first. An item that writes nothing leaves the text as it was
before the delimiter. -/
def renderItems (arguments : Value) (delimiter : Delimiter) :
    List (List Node) → Bool → Draft → Except Mismatch Draft
  | [], _, d => .ok d
  | item :: rest, wrote, d => do
    let opened := if wrote then d.write delimiter.text else d
    let after ← renderAll arguments item opened
    if opened.wroteNothing after then
      renderItems arguments delimiter rest wrote { after with text := d.text }
    else renderItems arguments delimiter rest true after

end

/-- Renders a tree to a statement. -/
def toStatement (nodes : List Node) (arguments : Value) : Except Mismatch Statement := do
  let d ← renderAll arguments nodes .empty
  return ⟨d.text, d.values⟩

end Node

end SqlTemplate
