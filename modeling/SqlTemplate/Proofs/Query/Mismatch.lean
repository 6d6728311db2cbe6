import SqlTemplate.Proofs.Statement.References
import SqlTemplate.Proofs.Statement.Shape

/-!
# Mismatches

A query cannot be rendered if and only if a render comes to a spread whose name has no list, and the
first such spread is what the render ends with (`Query.generate_mismatch`).

What has been written before has no part in this. A spread looks for its list first, and for the
text of its name only then, so a render behind any draft makes the same checks in the same order:
those of the references that it comes to (`Node.renderAll_checks`). Condensing leaves out none of
these, so it does not matter whether they are looked for in the template or in the query.
-/

namespace SqlTemplate

/-! ## A render makes the checks of its references -/

/-- Two steps end as two others do if the first ones end alike, and so do the second ones whatever
comes to them. -/
theorem ends_bind {ε α β : Type} {step : Except ε α} {next : α → Except ε β}
    {first second : Except ε Unit} (h : (step.map fun _ => ()) = first)
    (k : ∀ a, ((next a).map fun _ => ()) = second) :
    ((step.bind next).map fun _ => ()) = first.bind fun _ => second := by
  rw [← h]
  cases step with
  | error e => rfl
  | ok a => exact k a

namespace Node

mutual

/-- A node is rendered behind a draft, whatever it holds, if the references that the render comes to
pass their checks. Otherwise the render ends as the first check that fails. -/
theorem render_checks (arguments : Value) : ∀ (node : Node) (d : Draft),
    ((render arguments node d).map fun _ => ()) =
      forM (mentions arguments node) (Mention.check arguments)
  | .literal _, _ => rfl
  | .value _, _ => rfl
  | .fallback name _, _ => by
    simp only [render, mentions]
    cases arguments.present? name <;> rfl
  | .conditional name success failure, d => by
    simp only [render, mentions]
    cases arguments.present? name with
    | none => exact renderBranch_checks arguments failure d
    | some _ => exact renderAll_checks arguments success d
  | .spread name delimiter, d => by
    rw [render, mentions, List.forM_cons, List.forM_nil, Draft.spread, Mention.check]
    -- the list is looked for before the text that the name was written with
    cases arguments.present? name with
    | none => rfl
    | some v =>
      cases v with
      | list elements => cases Entries.find? name d.bound <;> rfl
      | _ => rfl
  | .list delimiter items, d => renderItems_checks arguments delimiter items false d

theorem renderAll_checks (arguments : Value) : ∀ (nodes : List Node) (d : Draft),
    ((renderAll arguments nodes d).map fun _ => ()) =
      forM (mentionsIn arguments nodes) (Mention.check arguments)
  | [], _ => rfl
  | node :: rest, d => by
    rw [renderAll_cons, mentionsIn, List.forM_append]
    exact ends_bind (render_checks arguments node d) (renderAll_checks arguments rest)

theorem renderBranch_checks (arguments : Value) : ∀ (branch : Option (List Node)) (d : Draft),
    ((renderBranch arguments branch d).map fun _ => ()) =
      forM (mentionsInBranch arguments branch) (Mention.check arguments)
  | none, _ => rfl
  | some branch, d => renderAll_checks arguments branch d

/-- An item that writes nothing is checked like any other. -/
theorem renderItems_checks (arguments : Value) (delimiter : Delimiter) :
    ∀ (items : List (List Node)) (wrote : Bool) (d : Draft),
      ((renderItems arguments delimiter items wrote d).map fun _ => ()) =
        forM (mentionsInItems arguments items) (Mention.check arguments)
  | [], _, _ => rfl
  | item :: rest, wrote, d => by
    rw [renderItems_cons, mentionsInItems, List.forM_append]
    refine ends_bind (renderAll_checks arguments item _) fun after => ?_
    split
    · exact renderItems_checks arguments delimiter rest wrote { after with text := d.text }
    · exact renderItems_checks arguments delimiter rest true after

end

/-- A render behind any draft ends with a mismatch if the checks of its references do. -/
theorem renderAll_eq_error_iff {arguments : Value} {nodes : List Node} {d : Draft} {m : Mismatch} :
    renderAll arguments nodes d = .error m ↔
      forM (mentionsIn arguments nodes) (Mention.check arguments) = .error m := by
  rw [← renderAll_checks arguments nodes d]
  cases renderAll arguments nodes d <;> simp [Except.map]

theorem toStatement_eq_error_iff {nodes : List Node} {arguments : Value} {m : Mismatch} :
    toStatement nodes arguments = .error m ↔ renderAll arguments nodes .empty = .error m := by
  rw [toStatement]
  cases renderAll arguments nodes .empty <;> simp [bind, Except.bind, pure, Except.pure]

end Node

/-! ## The spreads that a render comes to -/

/-- The mismatch of a name that has no list. -/
def Mismatch.ofName (arguments : Value) (name : String) : Mismatch :=
  ⟨name, (arguments.present? name).map Value.kind⟩

/-- A mismatch says the kind of the name's value, or `nothing` if the name is absent. -/
theorem Mismatch.message_ofName (arguments : Value) (name : String) :
    (ofName arguments name).message = "Expected key '" ++ name ++ "' to be a list, got " ++
      ((arguments.present? name).map fun v => v.kind.name).getD "nothing" := by
  unfold ofName message
  cases arguments.present? name <;> rfl

/-- The mismatch of the first of some names that has no list. -/
def Mismatch.first? (arguments : Value) (names : List String) : Option Mismatch :=
  (names.find? fun name => (arguments.elements? name).isNone).map (ofName arguments)

/-- There is a first mismatch if and only if one of the names has no list. -/
theorem Mismatch.isSome_first?_iff {arguments : Value} {names : List String} :
    (∃ m, first? arguments names = some m) ↔
      ∃ name ∈ names, arguments.elements? name = none := by
  simp only [← Option.isSome_iff_exists, first?, Option.isSome_map, List.find?_isSome,
    Option.isNone_iff_eq_none]

/-- The names before that of the first mismatch all have lists. -/
theorem Mismatch.first?_eq_some_iff {arguments : Value} {names : List String} {m : Mismatch} :
    first? arguments names = some m ↔ ∃ before name behind, names = before ++ name :: behind ∧
      (∀ other ∈ before, (arguments.elements? other).isSome) ∧ arguments.elements? name = none ∧
      m = ofName arguments name := by
  simp only [first?, Option.map_eq_some_iff, List.find?_eq_some_iff_append]
  constructor
  · rintro ⟨name, ⟨missing, before, behind, split, lists⟩, rfl⟩
    exact ⟨before, name, behind, split, fun other mem => by simpa using lists other mem,
      by simpa using missing, rfl⟩
  · rintro ⟨before, name, behind, split, lists, missing, rfl⟩
    exact ⟨name, ⟨by simpa using missing, before, behind, split, fun other mem => by
      simpa using lists other mem⟩, rfl⟩

/-- The name that a mention spreads. -/
def Mention.spread? : Mention → Option String
  | .whole _ => none
  | .spread name _ => some name

theorem Mention.check_spread (arguments : Value) (name : String) (delimiter : Delimiter) :
    check arguments (.spread name delimiter) =
      if (arguments.elements? name).isNone then .error (.ofName arguments name) else .ok () := by
  rw [check, Value.elements?, Mismatch.ofName]
  cases arguments.present? name with
  | none => rfl
  | some v => cases v <;> rfl

/-- The checks of mentions in a row end with the first mismatch of the names that are spread. -/
theorem Mention.forM_check_eq_error_iff {arguments : Value} {ms : List Mention} {m : Mismatch} :
    forM ms (check arguments) = .error m ↔
      Mismatch.first? arguments (ms.filterMap spread?) = some m := by
  induction ms with
  | nil => exact ⟨nofun, nofun⟩
  | cons head rest ih =>
    rw [List.forM_cons]
    cases head with
    | whole name => exact ih
    | spread name delimiter =>
      rw [check_spread, Mismatch.first?, List.filterMap_cons, spread?, List.find?_cons]
      cases (arguments.elements? name).isNone with
      | false => exact ih
      | true => simp [bind, Except.bind]

/-- The names of the spreads that a render of nodes comes to, in order. -/
def Node.spreadsIn (arguments : Value) (nodes : List Node) : List String :=
  (mentionsIn arguments nodes).filterMap Mention.spread?

/-! ## Mismatches of a query -/

namespace Query

/-- A query cannot be rendered if and only if a render comes to a spread of a name that has no list,
and the error is the mismatch of the first such spread of the template. It is the same behind any
draft, whatever names have been written. -/
theorem generate_mismatch {source : String} {q : Query} (h : compile source = .ok q)
    (arguments : Value) :
    ∃ tree, Node.read source = .ok tree ∧
      Node.spreadsIn arguments q.nodes = Node.spreadsIn arguments tree ∧
      ((∃ m, q.generate arguments = .error m) ↔
        ∃ name ∈ Node.spreadsIn arguments tree, arguments.elements? name = none) ∧
      (∀ m, q.generate arguments = .error m ↔
        ∃ before name behind, Node.spreadsIn arguments tree = before ++ name :: behind ∧
          (∀ other ∈ before, (arguments.elements? other).isSome) ∧
          arguments.elements? name = none ∧
          m = ⟨name, (arguments.present? name).map Value.kind⟩ ∧
          m.message = "Expected key '" ++ name ++ "' to be a list, got " ++
            ((arguments.present? name).map fun v => v.kind.name).getD "nothing") ∧
      ∀ d m, Node.renderAll arguments q.nodes d = .error m ↔ q.generate arguments = .error m := by
  have generated := generate_eq h arguments
  obtain ⟨tree, read, rfl⟩ := eq_ofTree h
  have spreads : Node.spreadsIn arguments (Node.condense tree) = Node.spreadsIn arguments tree :=
    congrArg (List.filterMap Mention.spread?) (Node.mentionsIn_condense arguments tree)
  have behind : ∀ d m, Node.renderAll arguments (Node.condense tree) d = .error m ↔
      Mismatch.first? arguments (Node.spreadsIn arguments tree) = some m := by
    intro d m
    rw [Node.renderAll_eq_error_iff, Mention.forM_check_eq_error_iff, ← spreads]
    rfl
  have whole : ∀ m, (ofTree source tree).generate arguments = .error m ↔
      Mismatch.first? arguments (Node.spreadsIn arguments tree) = some m := by
    intro m
    rw [generated, Node.toStatement_eq_error_iff]
    exact behind _ m
  refine ⟨tree, read, spreads, ?_, ?_, ?_⟩
  · simp only [whole]
    exact Mismatch.isSome_first?_iff
  · intro m
    rw [whole, Mismatch.first?_eq_some_iff]
    constructor
    · rintro ⟨before, name, rest, split, lists, missing, rfl⟩
      exact ⟨before, name, rest, split, lists, missing, rfl, Mismatch.message_ofName arguments name⟩
    · rintro ⟨before, name, rest, split, lists, missing, rfl, -⟩
      exact ⟨before, name, rest, split, lists, missing, rfl⟩
  · intro d m
    rw [whole]
    exact behind d m

/-- The name `a` has been written when the render comes to its spread, in an item of a list in a
branch. -/
theorem generate_mismatch_written : ∃ q,
    compile "@a (,)[...@ids] @c?\x7b(,)[@a; (,)[...@a] ]\x7d" = .ok q ∧
      q.generate (.map [("a", .bool true), ("ids", .list [.bool true]), ("c", .bool true)]) =
        .error ⟨"a", some .bool⟩ := by
  have compiled : compile "@a (,)[...@ids] @c?\x7b(,)[@a; (,)[...@a] ]\x7d" =
      .ok ⟨"@a (,)[...@ids] @c?\x7b(,)[@a; (,)[...@a] ]\x7d",
        [.value "a", .literal " ", .spread "ids" .comma, .literal " ",
          .conditional "c" [.list .comma [[.value "a"], [.spread "a" .comma]]] none],
        false, ["a", "ids", "c"], none⟩ := by
    cbv
  have known : Node.read "@a (,)[...@ids] @c?\x7b(,)[@a; (,)[...@a] ]\x7d" = .ok
      [.value "a", .literal " ", .spread "ids" .comma, .literal " ",
        .conditional "c" [.list .comma [[.value "a"], [.spread "a" .comma]]] none] := by
    cbv
  obtain ⟨tree, read, -, -, ends, -⟩ := generate_mismatch compiled
    (.map [("a", .bool true), ("ids", .list [.bool true]), ("c", .bool true)])
  obtain rfl := Except.ok.inj (read.symm.trans known)
  exact ⟨_, compiled, (ends _).mpr ⟨["ids"], "a", [], rfl, by decide, rfl, rfl, by decide⟩⟩

end Query

end SqlTemplate
