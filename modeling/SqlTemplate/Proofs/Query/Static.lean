import Mathlib
import SqlTemplate.Proofs.Node.Survey
import SqlTemplate.Proofs.Statement.Shape
import SqlTemplate.Query

/-!
# Static queries

A static query keeps the text that its tree is rendered to without arguments, and takes the values
of its keys for the placeholders. That it writes what a render would write comes down to two things.

* A static tree takes the same way through all arguments: it mentions each name in it, and its text
  does not depend on them (`Node.toStatement_of_allStatic`). In particular it has no spread, so its
  render cannot fail.
* The names that the survey met, each once, are the names that the render binds, in the same order:
  both are the names in the condensed tree (`Node.keys_survey`).

So a query is compiled whenever its template can be read (`Query.compile_eq`), and `generate` always
gives what a render of the condensed tree gives (`Query.generate_eq`).
-/

namespace SqlTemplate

namespace Node

/-! ## Static trees -/

mutual

/-- A static node mentions the names in it, and is written the same, whatever the arguments are. -/
theorem mentions_of_isStatic (a b : Value) : ∀ node : Node, isStatic node = true →
    mentions a node = (names node).map .whole ∧ ∀ w, pieces a w node = pieces b w node
  | .literal _, _ => ⟨rfl, fun _ => rfl⟩
  | .value _, _ => ⟨rfl, fun _ => rfl⟩
  | .list delimiter items, h => by
    obtain ⟨same, written⟩ := mentionsInItems_of_allItemsStatic a b items h
    exact ⟨same, fun w => by rw [pieces, pieces, written]⟩

theorem mentionsIn_of_allStatic (a b : Value) : ∀ nodes : List Node, allStatic nodes = true →
    mentionsIn a nodes = (namesIn nodes).map .whole ∧ ∀ w, piecesIn a w nodes = piecesIn b w nodes
  | [], _ => ⟨rfl, fun _ => rfl⟩
  | node :: rest, h => by
    rw [allStatic, Bool.and_eq_true] at h
    obtain ⟨first, written⟩ := mentions_of_isStatic a b node h.1
    obtain ⟨others, writtenBehind⟩ := mentionsIn_of_allStatic a b rest h.2
    refine ⟨?_, fun w => ?_⟩
    · rw [mentionsIn, first, others, namesIn, List.map_append]
    · rw [piecesIn, piecesIn, written, writtenBehind]

theorem mentionsInItems_of_allItemsStatic (a b : Value) : ∀ items : List (List Node),
    allItemsStatic items = true →
      mentionsInItems a items = (namesInItems items).map .whole ∧
        ∀ w, piecesInItems a w items = piecesInItems b w items
  | [], _ => ⟨rfl, fun _ => rfl⟩
  | item :: rest, h => by
    rw [allItemsStatic, Bool.and_eq_true] at h
    obtain ⟨first, written⟩ := mentionsIn_of_allStatic a b item h.1
    obtain ⟨others, writtenBehind⟩ := mentionsInItems_of_allItemsStatic a b rest h.2
    refine ⟨?_, fun w => ?_⟩
    · rw [mentionsInItems, first, others, namesInItems, List.map_append]
    · rw [piecesInItems, piecesInItems, written, writtenBehind]

end

/-- The first mentions of whole names are those of the names, each once, where it first comes. -/
theorem firsts_whole (names : List String) :
    Mention.firsts (names.map .whole) = names.eraseDups.map .whole := by
  have note_map : ∀ (keys : List String) (name : String),
      Mention.note (keys.map .whole) (.whole name) = (Findings.note keys name).map .whole := by
    intro keys name
    have mentioned : (keys.map Mention.whole).map Mention.name = keys := by
      rw [List.map_map]
      exact List.map_id keys
    rw [Mention.note, Findings.note, mentioned]
    by_cases known : name ∈ keys <;> simp [Mention.name, known]
  -- the mentions and the names are noted in step, so the induction is over any noted already
  have notes : ∀ keys : List String, (names.map Mention.whole).foldl Mention.note
      (keys.map .whole) = (names.foldl Findings.note keys).map .whole := by
    induction names with
    | nil => exact fun _ => rfl
    | cons name rest ih =>
      intro keys
      rw [List.map_cons, List.foldl_cons, note_map, ih, List.foldl_cons]
  simpa [Mention.firsts, Findings.foldl_note] using notes []

theorem forM_check_whole (arguments : Value) (names : List String) :
    forM (names.map Mention.whole) (Mention.check arguments) = .ok () := by
  induction names with
  | nil => rfl
  | cons name rest ih =>
    rw [List.map_cons, List.forM_cons]
    exact ih

/-- The text of a static tree. -/
def textOfStatic (nodes : List Node) : String :=
  Piece.flat (piecesIn .null (writtenAs .null ((namesIn nodes).map .whole)) nodes)

/-- A static tree is rendered to the same text with all arguments, and to the values of its keys. -/
theorem toStatement_of_allStatic {nodes : List Node} (h : allStatic nodes = true)
    (arguments : Value) :
    toStatement nodes arguments =
      .ok ⟨textOfStatic nodes, (keys nodes).map arguments.boundTo⟩ := by
  obtain ⟨mentions, written⟩ := mentionsIn_of_allStatic arguments .null nodes h
  have text : writtenAs arguments ((namesIn nodes).map .whole) =
      writtenAs .null ((namesIn nodes).map .whole) := by
    refine writtenAs_congr fun m mem => ?_
    obtain ⟨name, -, rfl⟩ := List.mem_map.mp mem
    rfl
  have values : boundValues arguments ((namesIn nodes).map .whole) =
      (keys nodes).map arguments.boundTo := by
    rw [boundValues, firsts_whole, List.flatMap_map, keys]
    exact List.map_eq_flatMap.symm
  rw [toStatement_eq, mentions, forM_check_whole, written, text, values]
  rfl

/-- What a survey of a template gives is the condensed tree, and what is found in it. -/
theorem survey_start (nodes : List Node) :
    survey nodes .start =
      (condense nodes, ⟨allStatic (condense nodes), keys (condense nodes)⟩) := by
  rw [← isStatic_survey, ← keys_survey, ← survey_fst nodes .start]

end Node

namespace Query

/-! ## Compiled queries -/

/-- The query of a template that was read. -/
def ofTree (source : String) (tree : List Node) : Query where
  source := source
  nodes := Node.condense tree
  isStatic := Node.allStatic (Node.condense tree)
  keys := Node.keys (Node.condense tree)
  text :=
    if Node.allStatic (Node.condense tree) then some (Node.textOfStatic (Node.condense tree))
    else none

/-- A template is compiled if it can be read: a static text is always found. -/
theorem compile_eq (source : String) :
    compile source = ((Node.read source).mapError Error.grammar).map (ofTree source) := by
  rw [compile]
  cases Node.read source with
  | error e => rfl
  | ok tree =>
    have text : staticText (Node.allStatic (Node.condense tree)) (Node.condense tree) =
        .ok (ofTree source tree).text := by
      rw [staticText]
      cases h : Node.allStatic (Node.condense tree) with
      | false => simp [ofTree, h]
      | true =>
        -- a static tree is rendered without arguments as with any others
        rw [if_pos rfl, Node.toStatement_of_allStatic h]
        simp [ofTree, h, Except.map]
    simp only [Except.mapError, Node.survey_start]
    change Except.bind (Except.mapError Error.mismatch (staticText _ _)) _ = _
    rw [text]
    rfl

/-- A query that was compiled is that of the tree that was read. -/
theorem eq_ofTree {source : String} {q : Query} (h : compile source = .ok q) :
    ∃ tree, Node.read source = .ok tree ∧ q = ofTree source tree := by
  rw [compile_eq] at h
  obtain ⟨tree, read, rfl⟩ := map_eq_ok h
  rcases done : Node.read source with broken | found
  · rw [done] at read
    cases read
  · rw [done] at read
    cases read
    exact ⟨tree, rfl, rfl⟩

/-- A compiled query gives what a render of its condensed tree gives. -/
theorem generate_eq {source : String} {q : Query} (h : compile source = .ok q)
    (arguments : Value) : q.generate arguments = Node.toStatement q.nodes arguments := by
  obtain ⟨tree, -, rfl⟩ := eq_ofTree h
  rw [generate]
  cases static : Node.allStatic (Node.condense tree) with
  | false => simp [ofTree, static]
  | true =>
    rw [show (ofTree source tree).nodes = Node.condense tree from rfl,
      Node.toStatement_of_allStatic static]
    simp [ofTree, static]

/-- Compiling a template fails only with a syntax error. A query has a text if it is static, and
then its text and the values of its keys are what its tree is rendered to with all arguments. -/
theorem static_path_agrees (source : String) :
    (∀ e, compile source = .error e →
      ∃ broken, Node.read source = .error broken ∧ e = .grammar broken) ∧
    ∀ q, compile source = .ok q → q.text.isSome = q.isStatic ∧
      (q.isStatic = true → ∀ arguments, ∃ text, q.text = some text ∧
        q.generate arguments = .ok ⟨text, q.keys.map arguments.boundTo⟩ ∧
        Node.toStatement q.nodes arguments = .ok ⟨text, q.keys.map arguments.boundTo⟩) := by
  refine ⟨?_, ?_⟩
  · intro e h
    rw [compile_eq] at h
    rcases done : Node.read source with broken | found
    · rw [done] at h
      cases h
      exact ⟨broken, rfl, rfl⟩
    · rw [done] at h
      cases h
  · intro q h
    have same := generate_eq h
    obtain ⟨tree, -, rfl⟩ := eq_ofTree h
    refine ⟨?_, ?_⟩
    · cases static : Node.allStatic (Node.condense tree) <;> simp [ofTree, static]
    · intro static arguments
      have rendered := Node.toStatement_of_allStatic static arguments
      refine ⟨_, if_pos static, ?_, rendered⟩
      rw [same]
      exact rendered

/-- A name that is repeated has one key, one number and one value. -/
theorem static_path_agrees_repeated : ∃ q, compile "@a,@b,@a" = .ok q ∧ q.isStatic = true ∧
    ∀ arguments, ∃ text, q.text = some text ∧
      q.generate arguments = .ok ⟨text, q.keys.map arguments.boundTo⟩ ∧
      Node.toStatement q.nodes arguments = .ok ⟨text, q.keys.map arguments.boundTo⟩ := by
  have compiled : compile "@a,@b,@a" = .ok ⟨"@a,@b,@a",
      [.value "a", .literal ",", .value "b", .literal ",", .value "a"], true, ["a", "b"],
      some "$1,$2,$1"⟩ := by
    cbv
  exact ⟨_, compiled, rfl, ((static_path_agrees _).2 _ compiled).2 rfl⟩

end Query

end SqlTemplate
