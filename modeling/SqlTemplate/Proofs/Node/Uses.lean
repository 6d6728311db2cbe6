import SqlTemplate.Proofs.Node.Grammar
import SqlTemplate.Proofs.Node.Survey

/-!
# Where a tree uses names

The uses of names in a tree, one for each key of its template and in the same order
(`Node.filterMap_lexemesIn`). A use is *idle* if it tests a name for a conditional that writes
nothing, whether the name is present or not.

Condensing leaves out the conditionals of the idle uses, and with them no other use: whatever stands
in the branches of such a conditional is itself idle. So the names in a condensed tree are those
that the tree has a use for that is not idle (`Node.mem_namesIn_condense`).
-/

namespace SqlTemplate

/-- The name of a key. -/
def Lexeme.key? : Lexeme → Option String
  | .key name => some name
  | _ => none

namespace Node

/-- A place in a tree where a name stands. -/
structure Use where
  /-- the name -/
  name : String
  /-- whether the name is the test of a conditional both of whose branches are silent -/
  idle : Bool
  deriving DecidableEq, Repr

mutual

/-- The uses of names in a node, in the order in which they are written. -/
def uses : Node → List Use
  | .literal _ => []
  | .value name => [⟨name, false⟩]
  | .fallback name _ => [⟨name, false⟩]
  | .conditional name success failure =>
    ⟨name, allSilent success && branchSilent failure⟩ :: usesIn success ++ usesInBranch failure
  | .spread name _ => [⟨name, false⟩]
  | .list _ items => usesInItems items

/-- The uses of names in a list of nodes. -/
def usesIn : List Node → List Use
  | [] => []
  | node :: rest => uses node ++ usesIn rest

/-- The uses of names in the second branch of a conditional. -/
def usesInBranch : Option (List Node) → List Use
  | none => []
  | some branch => usesIn branch

/-- The uses of names in the items of a list. -/
def usesInItems : List (List Node) → List Use
  | [] => []
  | item :: rest => usesIn item ++ usesInItems rest

end

/-! ## Keys -/

mutual

/-- Each key in a node is a use of its name. -/
theorem filterMap_lexemes : ∀ node : Node,
    (lexemes node).filterMap Lexeme.key? = (uses node).map Use.name
  | .literal _ => rfl
  | .value _ => rfl
  | .fallback .. => rfl
  | .spread .. => rfl
  | .conditional name success failure => by
    have first := filterMap_lexemesIn success
    have second := filterMap_lexemesInBranch failure
    simp [lexemes, uses, List.filterMap_cons, Lexeme.key?, first, second]
  | .list delimiter items => by
    have inside := filterMap_lexemesInItems items
    simp [lexemes, uses, List.filterMap_cons, Lexeme.key?, inside]

theorem filterMap_lexemesIn : ∀ nodes : List Node,
    (lexemesIn nodes).filterMap Lexeme.key? = (usesIn nodes).map Use.name
  | [] => rfl
  | node :: rest => by
    rw [lexemesIn, usesIn, List.filterMap_append, List.map_append, filterMap_lexemes node,
      filterMap_lexemesIn rest]

theorem filterMap_lexemesInBranch : ∀ branch : Option (List Node),
    (lexemesInBranch branch).filterMap Lexeme.key? = (usesInBranch branch).map Use.name
  | none => rfl
  | some branch => by
    have inside := filterMap_lexemesIn branch
    simp [lexemesInBranch, usesInBranch, List.filterMap_cons, Lexeme.key?, inside]

theorem filterMap_lexemesInItems : ∀ items : List (List Node),
    (lexemesInItems items).filterMap Lexeme.key? = (usesInItems items).map Use.name
  | [] => rfl
  | item :: rest => by
    rw [lexemesInItems, usesInItems, List.filterMap_append, List.map_append,
      filterMap_lexemesIn item, filterMap_lexemesInItems rest]

end

/-- The keys among lexemes are those that are kept in a tree. -/
theorem filterMap_kept (ls : List Lexeme) :
    (Grammar.kept ls).filterMap Lexeme.key? = ls.filterMap Lexeme.key? := by
  induction ls with
  | nil => rfl
  | cons l rest ih =>
    by_cases separator : l = .separator
    · rw [separator]
      exact ih
    · rw [Grammar.kept_cons l rest separator, List.filterMap_cons, List.filterMap_cons, ih]
      cases l <;> rfl

/-! ## Names in the condensed tree -/

mutual

/-- A name is in what a node is condensed to if the node has a use for it that is not idle. -/
theorem mem_names_condense? {name : String} : ∀ node : Node,
    name ∈ (condense? node).elim [] names ↔ ⟨name, false⟩ ∈ uses node
  | .literal _ => by simp [condense?, names, uses]
  | .value _ => by simp [condense?, names, uses]
  | .fallback .. => by simp [condense?, names, uses]
  | .spread .. => by simp [condense?, names, uses]
  | .conditional test success failure => by
    have first : name ∈ namesIn (condense success) ↔ ⟨name, false⟩ ∈ usesIn success :=
      mem_namesIn_condense success
    have second : name ∈ namesInBranch (condenseBranch? failure) ↔
        ⟨name, false⟩ ∈ usesInBranch failure :=
      mem_namesInBranch_condenseBranch? failure
    rw [condense?, uses, ← isEmpty_condense, ← isNone_condenseBranch?]
    rcases conditional?_cases test (condense success) (condenseBranch? failure) with
      ⟨empty, absent, left⟩ | ⟨live, kept⟩
    · -- nothing is left of the branches, so all uses in them are idle
      rw [empty] at first
      rw [absent] at second
      rw [left, empty, absent, List.cons_append, List.mem_cons, List.mem_append, ← first, ← second]
      simp [namesIn, namesInBranch]
    · rw [kept, live]
      simp only [Option.elim_some, names, List.mem_append, List.mem_cons, first, second]
      simp [or_comm, or_assoc]
  | .list delimiter items => by
    rw [condense?, (found_list? delimiter _).2]
    exact mem_namesInItems_condenseItems delimiter items

/-- A name is in a condensed tree if the tree has a use for it that is not idle. -/
theorem mem_namesIn_condense {name : String} : ∀ nodes : List Node,
    name ∈ namesIn (condense nodes) ↔ ⟨name, false⟩ ∈ usesIn nodes
  | [] => by simp [condense, namesIn, usesIn]
  | node :: rest => by
    rw [usesIn, List.mem_append, ← mem_names_condense? node, ← mem_namesIn_condense rest, condense]
    cases condense? node with
    | none => simp
    | some condensed => simp [namesIn_fuse]

theorem mem_namesInBranch_condenseBranch? {name : String} : ∀ branch : Option (List Node),
    name ∈ namesInBranch (condenseBranch? branch) ↔ ⟨name, false⟩ ∈ usesInBranch branch
  | none => by simp [condenseBranch?, namesInBranch, usesInBranch]
  | some branch => by
    rw [usesInBranch, ← mem_namesIn_condense branch, condenseBranch?]
    cases condense branch <;> rfl

theorem mem_namesInItems_condenseItems {name : String} (delimiter : Delimiter) :
    ∀ items : List (List Node),
      name ∈ namesInItems (condenseItems delimiter items) ↔ ⟨name, false⟩ ∈ usesInItems items
  | [] => by simp [condenseItems, namesInItems, usesInItems]
  | item :: rest => by
    rw [usesInItems, List.mem_append, ← mem_namesIn_condense item,
      ← mem_namesInItems_condenseItems delimiter rest, ← (found_trimItem (condense item)).2,
      condenseItems]
    cases trimItem (condense item) with
    | nil => simp [namesIn]
    | cons node others => simp [(found_fuseItem delimiter _ _).2]

end

end Node

end SqlTemplate
