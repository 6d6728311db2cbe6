import SqlTemplate.Node
import SqlTemplate.Text.Doubled

/-!
# The grammar of templates

What a template says, told from its lexemes without reading them one at a time. The relations below
are the productions of the grammar: which lexemes are which nodes.

    Fragments := Fragment*
    Fragment  := literal
               | @name
               | @name??word
               | @name ?{ Fragments } [ :{ Fragments } ]
               | opener ...@name ]
               | opener Items ]
    Items     := ;* [ Item (;+ Item)* ;* ]

An `Item` is a non-empty `Fragments`. The grammar knows no limit: how deep a tree is nested is told
from the tree (`Node.depth`).

A tree that is derived from lexemes has no empty item (`Grammar.filledIn`), and it has every lexeme
but the separators, each once and in order, with the literal text unescaped
(`Grammar.lexemesIn_eq`).
-/

namespace SqlTemplate

open SqlTemplate.Text

namespace Grammar

/-! ## Productions -/

mutual

/-- A list of nodes: fragments, one behind another. -/
inductive Fragments : List Lexeme → List Node → Prop
  | nil : Fragments [] []
  | cons {ls more : List Lexeme} {node : Node} {nodes : List Node} :
      Fragment ls node → Fragments more nodes → Fragments (ls ++ more) (node :: nodes)

/-- One node. -/
inductive Fragment : List Lexeme → Node → Prop
  | literal (text : String) : Fragment [.literal text] (.literal (unescapeString text))
  | value (name : String) : Fragment [.key name] (.value name)
  | fallback (name word : String) : Fragment [.key name, .fallback word] (.fallback name word)
  | conditional {ls : List Lexeme} (name : String) {success : List Node} :
      Fragments ls success →
        Fragment (.key name :: .conditionalOpen :: ls ++ [.blockClose])
          (.conditional name success none)
  | alternative {ls more : List Lexeme} (name : String) {success failure : List Node} :
      Fragments ls success → Fragments more failure →
        Fragment (.key name :: .conditionalOpen :: ls ++ [.blockClose] ++
          (.elseOpen :: more ++ [.blockClose])) (.conditional name success (some failure))
  | spread (delimiter : Delimiter) (name : String) :
      Fragment [.listOpen delimiter, .spread, .key name, .listClose] (.spread name delimiter)
  | list {ls : List Lexeme} (delimiter : Delimiter) {items : List (List Node)} :
      Items 0 ls items →
        Fragment (.listOpen delimiter :: ls ++ [.listClose]) (.list delimiter items)

/-- The items of a list that are still to come, with the separators before, between and behind them.
The first of them has at least `least` separators before it: none at the front of a list, and one
behind another item. -/
inductive Items : Nat → List Lexeme → List (List Node) → Prop
  | done (least count : Nat) : Items least (List.replicate count .separator) []
  | item {least count : Nat} {ls more : List Lexeme} {item : List Node}
      {items : List (List Node)} : least ≤ count → Fragments ls item → item ≠ [] →
        Items 1 more items →
        Items least (List.replicate count .separator ++ ls ++ more) (item :: items)

end

theorem Fragments.single {ls : List Lexeme} {node : Node} (h : Fragment ls node) :
    Fragments ls [node] := by
  simpa using Fragments.cons h .nil

/-- Fragments behind fragments are fragments. -/
theorem Fragments.append {ls more : List Lexeme} {nodes behind : List Node} :
    Fragments ls nodes → Fragments more behind → Fragments (ls ++ more) (nodes ++ behind)
  | .nil, h => h
  | .cons first rest, h => by
    rw [List.append_assoc]
    exact .cons first (rest.append h)

theorem Items.mono {least fewer : Nat} {ls : List Lexeme} {items : List (List Node)}
    (h : Items least ls items) (few : fewer ≤ least) : Items fewer ls items := by
  cases h with
  | done _ count => exact .done fewer count
  | item enough here filled rest => exact .item (Nat.le_trans few enough) here filled rest

/-- Items may have more separators before them. -/
theorem Items.behind_separators {least count : Nat} {ls : List Lexeme}
    {items : List (List Node)} (h : Items least ls items) {fewer : Nat}
    (few : fewer ≤ count + least) :
    Items fewer (List.replicate count .separator ++ ls) items := by
  cases h with
  | done _ last =>
    rw [List.replicate_append_replicate]
    exact .done fewer _
  | item enough here filled rest =>
    rw [List.append_assoc, ← List.append_assoc, List.replicate_append_replicate,
      ← List.append_assoc]
    exact .item (by omega) here filled rest

end Grammar

namespace Node

/-! ## What is told from a tree -/

mutual

/-- How many conditionals and lists are nested in a node. A spread is a list, and both branches of a
conditional are equally deep in it. -/
def depth : Node → Nat
  | .literal _ => 0
  | .value _ => 0
  | .fallback .. => 0
  | .conditional _ success failure => max (depthIn success) (depthInBranch failure) + 1
  | .spread .. => 1
  | .list _ items => depthInItems items + 1

/-- How many conditionals and lists are nested in nodes. -/
def depthIn : List Node → Nat
  | [] => 0
  | node :: rest => max (depth node) (depthIn rest)

/-- How many conditionals and lists are nested in the second branch of a conditional. -/
def depthInBranch : Option (List Node) → Nat
  | none => 0
  | some branch => depthIn branch

/-- How many conditionals and lists are nested in the items of a list. -/
def depthInItems : List (List Node) → Nat
  | [] => 0
  | item :: rest => max (depthIn item) (depthInItems rest)

end

theorem depthIn_append (nodes behind : List Node) :
    depthIn (nodes ++ behind) = max (depthIn nodes) (depthIn behind) := by
  induction nodes with
  | nil => simp [depthIn]
  | cons node rest ih => rw [List.cons_append, depthIn, ih, depthIn, Nat.max_assoc]

@[simp] theorem depthIn_reverse (nodes : List Node) : depthIn nodes.reverse = depthIn nodes := by
  induction nodes with
  | nil => rfl
  | cons node rest ih =>
    rw [List.reverse_cons, depthIn_append, ih, depthIn, depthIn, depthIn, Nat.max_zero,
      Nat.max_comm]

theorem depthInItems_append (items behind : List (List Node)) :
    depthInItems (items ++ behind) = max (depthInItems items) (depthInItems behind) := by
  induction items with
  | nil => simp [depthInItems]
  | cons item rest ih => rw [List.cons_append, depthInItems, ih, depthInItems, Nat.max_assoc]

@[simp] theorem depthInItems_reverse (items : List (List Node)) :
    depthInItems items.reverse = depthInItems items := by
  induction items with
  | nil => rfl
  | cons item rest ih =>
    rw [List.reverse_cons, depthInItems_append, ih, depthInItems, depthInItems, depthInItems,
      Nat.max_zero, Nat.max_comm]

mutual

/-- No list in a node has an empty item. -/
def Filled : Node → Prop
  | .literal _ => True
  | .value _ => True
  | .fallback .. => True
  | .conditional _ success failure => FilledIn success ∧ FilledInBranch failure
  | .spread .. => True
  | .list _ items => FilledItems items

/-- No list in nodes has an empty item. -/
def FilledIn : List Node → Prop
  | [] => True
  | node :: rest => Filled node ∧ FilledIn rest

/-- No list in the second branch of a conditional has an empty item. -/
def FilledInBranch : Option (List Node) → Prop
  | none => True
  | some branch => FilledIn branch

/-- No item is empty, and no list in an item has an empty item. -/
def FilledItems : List (List Node) → Prop
  | [] => True
  | item :: rest => item ≠ [] ∧ FilledIn item ∧ FilledItems rest

end

mutual

/-- The lexemes that are in a node, in order: all that it was read from but the separators. -/
def lexemes : Node → List Lexeme
  | .literal text => [.literal text]
  | .value name => [.key name]
  | .fallback name word => [.key name, .fallback word]
  | .conditional name success failure =>
    .key name :: .conditionalOpen :: lexemesIn success ++ .blockClose :: lexemesInBranch failure
  | .spread name delimiter => [.listOpen delimiter, .spread, .key name, .listClose]
  | .list delimiter items => .listOpen delimiter :: lexemesInItems items ++ [.listClose]

/-- The lexemes that are in nodes. -/
def lexemesIn : List Node → List Lexeme
  | [] => []
  | node :: rest => lexemes node ++ lexemesIn rest

/-- The lexemes that are in the second branch of a conditional. -/
def lexemesInBranch : Option (List Node) → List Lexeme
  | none => []
  | some branch => .elseOpen :: lexemesIn branch ++ [.blockClose]

/-- The lexemes that are in the items of a list. -/
def lexemesInItems : List (List Node) → List Lexeme
  | [] => []
  | item :: rest => lexemesIn item ++ lexemesInItems rest

end

end Node

namespace Grammar

open Node

/-! ## Trees that are derived -/

mutual

/-- No list has an empty item. -/
theorem filledIn {ls : List Lexeme} {nodes : List Node} : Fragments ls nodes → FilledIn nodes
  | .nil => trivial
  | .cons first rest => ⟨filled first, filledIn rest⟩

theorem filled {ls : List Lexeme} {node : Node} : Fragment ls node → Filled node
  | .literal _ => trivial
  | .value _ => trivial
  | .fallback .. => trivial
  | .conditional _ success => ⟨filledIn success, trivial⟩
  | .alternative _ success failure => ⟨filledIn success, filledIn failure⟩
  | .spread .. => trivial
  | .list _ items => filledItems items

theorem filledItems {least : Nat} {ls : List Lexeme} {items : List (List Node)} :
    Items least ls items → FilledItems items
  | .done .. => trivial
  | .item _ here filled rest => ⟨filled, filledIn here, filledItems rest⟩

end

end Grammar

/-- A lexeme as it is in a tree: literal text is unescaped. -/
def Lexeme.unescaped : Lexeme → Lexeme
  | .literal text => .literal (unescapeString text)
  | l => l

namespace Grammar

open Node

/-- The lexemes that say something, as they are in a tree: all but the separators. -/
def kept (ls : List Lexeme) : List Lexeme :=
  (ls.filter fun l => l ≠ .separator).map Lexeme.unescaped

@[simp] theorem kept_nil : kept [] = [] := rfl

theorem kept_append (ls more : List Lexeme) : kept (ls ++ more) = kept ls ++ kept more := by
  rw [kept, List.filter_append, List.map_append]
  rfl

theorem kept_cons (l : Lexeme) (ls : List Lexeme) (h : l ≠ .separator) :
    kept (l :: ls) = l.unescaped :: kept ls := by
  rw [kept, List.filter_cons_of_pos (by simpa using h)]
  rfl

theorem kept_separators (count : Nat) : kept (List.replicate count .separator) = [] := by
  simp [kept]

mutual

/-- The lexemes in a tree are those that it is derived from, each once and in order, the separators
left out and the literal text unescaped. -/
theorem lexemesIn_eq {ls : List Lexeme} {nodes : List Node} :
    Fragments ls nodes → lexemesIn nodes = kept ls
  | .nil => rfl
  | .cons first rest => by
    rw [lexemesIn, lexemes_eq first, lexemesIn_eq rest, kept_append]

theorem lexemes_eq {ls : List Lexeme} {node : Node} : Fragment ls node → lexemes node = kept ls
  | .literal _ => rfl
  | .value _ => rfl
  | .fallback .. => rfl
  | .conditional name success => by
    simp [lexemes, lexemesInBranch, lexemesIn_eq success, kept_cons, kept_append,
      Lexeme.unescaped]
  | .alternative name success failure => by
    simp [lexemes, lexemesInBranch, lexemesIn_eq success, lexemesIn_eq failure, kept_cons,
      kept_append, Lexeme.unescaped]
  | .spread .. => rfl
  | .list delimiter items => by
    simp [lexemes, lexemesInItems_eq items, kept_cons, kept_append, Lexeme.unescaped]

theorem lexemesInItems_eq {least : Nat} {ls : List Lexeme} {items : List (List Node)} :
    Items least ls items → lexemesInItems items = kept ls
  | .done _ count => by
    rw [kept_separators]
    rfl
  | .item _ here _ rest => by
    rw [lexemesInItems, lexemesIn_eq here, lexemesInItems_eq rest, kept_append, kept_append,
      kept_separators, List.nil_append]

end

end Grammar

end SqlTemplate
