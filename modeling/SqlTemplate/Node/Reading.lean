import SqlTemplate.Node
import SqlTemplate.Text.Doubled
import SqlTemplate.Token.Segment

/-!
# Reading the tree of a template

The tokens of a template are read one at a time, with a stack of the conditionals and lists that are
open. The grammar is

    Fragments := Fragment*
    Fragment  := literal
               | @name
               | @name??word
               | @name ?{ Fragments } [ :{ Fragments } ]
               | opener List ]
    List      := ...@name
               | ;* [ Item (;+ Item)* ;* ]

where an `Item` is a non-empty `Fragments`, and at most `maxDepth` conditionals and lists are open
at once. A token that cannot stand where it stands ends the reading at once, with a syntax error
that names the token, its place, and the one token that could have stood there if there is only one.

What a token means can depend on the one before it: a key may stand alone, have a fallback word,
or be the test of a conditional. Such a token is kept as *pending* until the next one settles it.
-/

namespace SqlTemplate

open SqlTemplate.Text

/-- The greatest number of conditionals and lists that may be open at once. -/
def maxDepth : Nat := 256

/-- A conditional or list that is open. `outer` holds the nodes before it in the list of nodes that
it stands in, the last one first. -/
inductive Frame where
  /-- in the first branch of a conditional -/
  | success (outer : List Node) (name : String)
  /-- in the second branch of a conditional, with the first one read -/
  | failure (outer : List Node) (name : String) (success : List Node)
  /-- in a list, with its earlier items, the last one first -/
  | list (outer : List Node) (delimiter : Delimiter) (items : List (List Node))
  deriving Repr

/-- What was read last, where the next token decides what it is. -/
inductive Pending where
  /-- nothing that the next token could change -/
  | settled
  /-- a key, which a fallback word or a conditional's opening may follow -/
  | key (name : String)
  /-- the opening of a list, which a spread may follow -/
  | opened (delimiter : Delimiter)
  /-- the dots of a spread, which a key has to follow -/
  | spread (delimiter : Delimiter)
  /-- the key of a spread, which the end of its list has to follow -/
  | spreadKey (delimiter : Delimiter) (name : String)
  /-- the first branch of a conditional, which a second one may follow -/
  | branch (name : String) (success : List Node)
  deriving Repr

/-- How far a template has been read. -/
structure Reading where
  /-- the conditionals and lists that are open, the innermost one first -/
  stack : List Frame
  /-- the nodes of the innermost list of nodes, the last one first -/
  nodes : List Node
  /-- what the next token is to settle -/
  pending : Pending
  deriving Repr

namespace Reading

/-- Nothing has been read. -/
def start : Reading := ⟨[], [], .settled⟩

/-- The token that closes what is open. -/
def closer (r : Reading) : TokenKind :=
  match r.stack with
  | [] => .eof
  | .success .. :: _ => .blockClose
  | .failure .. :: _ => .blockClose
  | .list .. :: _ => .listClose

/-- Adds a node behind the ones that were read. -/
def put (r : Reading) (node : Node) : Reading :=
  { r with nodes := node :: r.nodes, pending := .settled }

/-- Settles what is pending when the next token neither continues it nor is forced by it. -/
def settle (r : Reading) : Reading :=
  match r.pending with
  | .key name => r.put (.value name)
  | .opened delimiter => ⟨.list r.nodes delimiter [] :: r.stack, [], .settled⟩
  | .branch name success => r.put (.conditional name success none)
  | .settled => r
  | .spread _ => r
  | .spreadKey .. => r

/-- The items of a list, the last one first, with the item that was being read. Without any node it
is no item. -/
def withItem (items : List (List Node)) (nodes : List Node) : List (List Node) :=
  match nodes with
  | [] => items
  | _ => nodes.reverse :: items

/-! ## One token -/

/-- The error of a token that cannot stand where it stands. -/
def unexpected (t : Token) (expected : Option TokenKind) : Except SyntaxError Reading :=
  .error ⟨t.kind, expected, t.offset⟩

/-- Opens a conditional or list, if not too many are open. -/
def enter (r : Reading) (t : Token) (inside : Reading) : Except SyntaxError Reading :=
  if r.stack.length = maxDepth then unexpected t none else .ok inside

/-- Reads a token when nothing is pending. -/
def place (r : Reading) (t : Token) : Except SyntaxError Reading :=
  match t.lexeme with
  | .literal text => .ok (r.put (.literal (unescapeString text)))
  | .key name => .ok { r with pending := .key name }
  | .listOpen delimiter => r.enter t { r with pending := .opened delimiter }
  | .separator =>
    match r.stack with
    | .list outer delimiter items :: stack =>
      .ok ⟨.list outer delimiter (withItem items r.nodes) :: stack, [], .settled⟩
    | _ => unexpected t r.closer
  | .listClose =>
    match r.stack with
    | .list outer delimiter items :: stack =>
      .ok (put ⟨stack, outer, .settled⟩ (.list delimiter (withItem items r.nodes).reverse))
    | _ => unexpected t r.closer
  | .blockClose =>
    match r.stack with
    | .success outer name :: stack => .ok ⟨stack, outer, .branch name r.nodes.reverse⟩
    | .failure outer name success :: stack =>
      .ok (put ⟨stack, outer, .settled⟩ (.conditional name success (some r.nodes.reverse)))
    | _ => unexpected t r.closer
  | .fallback _ => unexpected t none
  | .conditionalOpen => unexpected t none
  | .elseOpen => unexpected t none
  | .spread => unexpected t none

/-- Reads a token. -/
def step (r : Reading) (t : Token) : Except SyntaxError Reading :=
  match r.pending with
  | .settled => r.place t
  | .key name =>
    match t.lexeme with
    | .fallback word => .ok (r.put (.fallback name word))
    | .conditionalOpen => r.enter t ⟨.success r.nodes name :: r.stack, [], .settled⟩
    | _ => r.settle.place t
  | .opened delimiter =>
    match t.lexeme with
    | .spread => .ok { r with pending := .spread delimiter }
    | _ => r.settle.place t
  | .spread delimiter =>
    match t.lexeme with
    | .key name => .ok { r with pending := .spreadKey delimiter name }
    | _ => unexpected t (some .key)
  | .spreadKey delimiter name =>
    match t.lexeme with
    | .listClose => .ok (r.put (.spread name delimiter))
    | _ => unexpected t (some .listClose)
  | .branch name success =>
    match t.lexeme with
    | .elseOpen => .ok ⟨.failure r.nodes name success :: r.stack, [], .settled⟩
    | _ => r.settle.place t

/-! ## The end of the template -/

/-- The error of a template that ends too early. -/
def endsEarly (stop : Nat) (expected : TokenKind) : Except SyntaxError (List Node) :=
  .error ⟨.eof, some expected, stop⟩

/-- Ends the reading at the byte `stop`, where the template ends. -/
def finish (r : Reading) (stop : Nat) : Except SyntaxError (List Node) :=
  match r.pending with
  | .spread _ => endsEarly stop .key
  | .spreadKey .. => endsEarly stop .listClose
  | _ =>
    match r.settle.stack with
    | [] => .ok r.settle.nodes.reverse
    | _ => endsEarly stop r.settle.closer

/-- Reads the tokens that are left, and the end of the template behind them. -/
def run (r : Reading) (stop : Nat) : List Token → Except SyntaxError (List Node)
  | [] => r.finish stop
  | t :: ts => do (← r.step t).run stop ts

@[simp] theorem run_nil (r : Reading) (stop : Nat) : r.run stop [] = r.finish stop := rfl

/-- Reading goes on from where the first token leads, or ends with that token's error. -/
theorem run_cons (r : Reading) (stop : Nat) (t : Token) (ts : List Token) :
    r.run stop (t :: ts) =
      match r.step t with
      | .ok next => next.run stop ts
      | .error e => .error e := by
  rw [run]
  cases r.step t <;> rfl

end Reading

/-- Reads the tree of a template. -/
def Node.read (template : String) : Except SyntaxError (List Node) :=
  let scan := Scan.ofTemplate template
  Reading.start.run scan.stop scan.tokens

end SqlTemplate
