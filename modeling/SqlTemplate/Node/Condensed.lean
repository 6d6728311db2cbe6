import SqlTemplate.Node
import SqlTemplate.Text.Blank

/-!
# Condensed trees

A tree is *condensed* before it is used: parts with nothing to say in any branch are left out, and
what is fixed is written as one piece of text.

* Neighbouring pieces of literal text become one.
* A conditional whose branches are both empty is left out, and so is an empty second branch.
* The items of a list lose the blanks of the literal text at their ends, and an item of which
  nothing is left is left out. Neighbouring items that are literal text become one item, with the
  delimiter between them.
* A list without items is left out, and a list with a single item of literal text is that text.

An empty list of nodes is thus the mark of a part that says nothing.

A template is looked through while it is condensed: `survey` condenses a tree and finds out, in the
same walk, whether its text can depend on the values, and which names it refers to.
-/

namespace SqlTemplate

open SqlTemplate.Text

namespace Node

/-! ## Fusing neighbours -/

/-- Puts a node in front of the nodes behind it. Literal text becomes one with literal text. -/
def fuse (node : Node) (behind : List Node) : List Node :=
  match node, behind with
  | .literal text, .literal next :: rest => .literal (text ++ next) :: rest
  | _, _ => node :: behind

/-- Puts an item in front of the items behind it. Items of literal text become one, with the
delimiter between them. -/
def fuseItem (delimiter : Delimiter) (item : List Node) (behind : List (List Node)) :
    List (List Node) :=
  match literal? item, behind with
  | some text, next :: rest =>
    match literal? next with
    | some nextText => [.literal (text ++ delimiter.text ++ nextText)] :: rest
    | none => item :: behind
  | _, _ => item :: behind

/-! ## Trimming an item -/

/-- Trims literal text that stands first, and leaves it out if it is blank. -/
def trimFront : List Node → List Node
  | .literal text :: rest =>
    if trimStartString text = "" then rest else .literal (trimStartString text) :: rest
  | nodes => nodes

/-- Trims literal text that stands last, and leaves it out if it is blank. -/
def trimBack : List Node → List Node
  | [.literal text] =>
    if trimEndString text = "" then [] else [.literal (trimEndString text)]
  | node :: rest => node :: trimBack rest
  | [] => []

/-- An item without the blanks of the literal text at its ends. -/
def trimItem (item : List Node) : List Node := trimBack (trimFront item)

/-! ## Leaving out -/

/-- A conditional with condensed branches, unless both are empty. -/
def conditional? (name : String) (success : List Node) (failure : Option (List Node)) :
    Option Node :=
  match success, failure with
  | [], none => none
  | _, _ => some (.conditional name success failure)

/-- A list with condensed items: nothing, a single piece of literal text, or a list. -/
def list? (delimiter : Delimiter) (items : List (List Node)) : Option Node :=
  match items with
  | [] => none
  | [item] =>
    match literal? item with
    | some text => some (.literal text)
    | none => some (.list delimiter items)
  | _ => some (.list delimiter items)

mutual

/-- What a node is condensed to, if it can say anything. -/
def condense? : Node → Option Node
  | .literal text => some (.literal text)
  | .value name => some (.value name)
  | .fallback name word => some (.fallback name word)
  | .spread name delimiter => some (.spread name delimiter)
  | .conditional name success failure =>
    conditional? name (condense success) (condenseBranch? failure)
  | .list delimiter items => list? delimiter (condenseItems delimiter items)

/-- What a list of nodes is condensed to. -/
def condense : List Node → List Node
  | [] => []
  | node :: rest =>
    match condense? node with
    | some condensed => fuse condensed (condense rest)
    | none => condense rest

/-- What the second branch of a conditional is condensed to, if it is there and says anything. -/
def condenseBranch? : Option (List Node) → Option (List Node)
  | none => none
  | some branch =>
    match condense branch with
    | [] => none
    | nodes => some nodes

/-- What the items of a list are condensed to. -/
def condenseItems (delimiter : Delimiter) : List (List Node) → List (List Node)
  | [] => []
  | item :: rest =>
    match trimItem (condense item) with
    | [] => condenseItems delimiter rest
    | trimmed => fuseItem delimiter trimmed (condenseItems delimiter rest)

end

/-! ## What a tree refers to -/

mutual

/-- The names that a node refers to, in the order in which they are met: a conditional's branches
come before its own name. -/
def names : Node → List String
  | .literal _ => []
  | .value name => [name]
  | .fallback name _ => [name]
  | .spread name _ => [name]
  | .conditional name success failure => namesIn success ++ namesInBranch failure ++ [name]
  | .list _ items => namesInItems items

/-- The names that a list of nodes refers to. -/
def namesIn : List Node → List String
  | [] => []
  | node :: rest => names node ++ namesIn rest

/-- The names that the second branch of a conditional refers to. -/
def namesInBranch : Option (List Node) → List String
  | none => []
  | some branch => namesIn branch

/-- The names that the items of a list refer to. -/
def namesInItems : List (List Node) → List String
  | [] => []
  | item :: rest => namesIn item ++ namesInItems rest

end

/-- The names that a tree refers to, each once, where it is first met. -/
def keys (nodes : List Node) : List String := (namesIn nodes).eraseDups

mutual

/-- Whether a node is written the same way whatever the values are. Values themselves are never
written, so a name is; the presence of a name, or the length of a list, shows. -/
def isStatic : Node → Bool
  | .literal _ => true
  | .value _ => true
  | .fallback .. => false
  | .spread .. => false
  | .conditional .. => false
  | .list _ items => allItemsStatic items

/-- Whether all nodes are written the same way whatever the values are. -/
def allStatic : List Node → Bool
  | [] => true
  | node :: rest => isStatic node && allStatic rest

/-- Whether all items are written the same way whatever the values are. -/
def allItemsStatic : List (List Node) → Bool
  | [] => true
  | item :: rest => allStatic item && allItemsStatic rest

end

/-! ## Looking a tree through -/

/-- What has been found out about a template so far. -/
structure Findings where
  /-- whether the text is the same whatever the values are -/
  isStatic : Bool
  /-- the names that were met, each once, where it was first met -/
  keys : List String
  deriving DecidableEq, Repr

namespace Findings

/-- Nothing has been met. -/
def start : Findings := ⟨true, []⟩

/-- Meets a name. -/
def meet (f : Findings) (name : String) : Findings :=
  if name ∈ f.keys then f else { f with keys := f.keys ++ [name] }

/-- Meets a name whose presence, or number of elements, shows in the text. -/
def meetVarying (f : Findings) (name : String) : Findings := { f.meet name with isStatic := false }

end Findings

mutual

/-- Condenses a node and adds what is found in it. A conditional that is left out is not met: its
branches say nothing, whether its name is present or not. -/
def survey? : Node → Findings → Option Node × Findings
  | .literal text, f => (some (.literal text), f)
  | .value name, f => (some (.value name), f.meet name)
  | .fallback name word, f => (some (.fallback name word), f.meetVarying name)
  | .spread name delimiter, f => (some (.spread name delimiter), f.meetVarying name)
  | .conditional name success failure, f =>
    let (success, f) := survey success f
    let (failure, f) := surveyBranch? failure f
    match conditional? name success failure with
    | none => (none, f)
    | some node => (some node, f.meetVarying name)
  | .list delimiter items, f =>
    let (items, f) := surveyItems delimiter items f
    (list? delimiter items, f)

/-- Condenses a list of nodes and adds what is found in it. -/
def survey : List Node → Findings → List Node × Findings
  | [], f => ([], f)
  | node :: rest, f =>
    let (first, f) := survey? node f
    let (behind, f) := survey rest f
    match first with
    | some condensed => (fuse condensed behind, f)
    | none => (behind, f)

/-- Condenses the second branch of a conditional and adds what is found in it. -/
def surveyBranch? : Option (List Node) → Findings → Option (List Node) × Findings
  | none, f => (none, f)
  | some branch, f =>
    let (nodes, f) := survey branch f
    match nodes with
    | [] => (none, f)
    | _ => (some nodes, f)

/-- Condenses the items of a list and adds what is found in them. -/
def surveyItems (delimiter : Delimiter) :
    List (List Node) → Findings → List (List Node) × Findings
  | [], f => ([], f)
  | item :: rest, f =>
    let (first, f) := survey item f
    let (behind, f) := surveyItems delimiter rest f
    match trimItem first with
    | [] => (behind, f)
    | trimmed => (fuseItem delimiter trimmed behind, f)

end

end Node

end SqlTemplate
