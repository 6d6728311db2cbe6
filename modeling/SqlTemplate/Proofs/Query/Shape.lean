import SqlTemplate.Proofs.Query.Static

/-!
# No value in the text

The text that a query generates depends on the shape of the arguments on its keys: on which keys are
present and how long their lists are. What the keys have shows in the values only, and there each
stays in its place (`Query.generate_of_sameShape`). Both ways of generating a statement are covered,
since a static query gives what a render of its tree gives (`Query.generate_eq`).
-/

namespace SqlTemplate

open Value (SameShape)

namespace Query

/-- The names in the tree of a query are among its keys. -/
theorem mem_keys {source : String} {q : Query} (h : compile source = .ok q) {name : String}
    (mem : name ∈ Node.namesIn q.nodes) : name ∈ q.keys := by
  obtain ⟨tree, -, rfl⟩ := eq_ofTree h
  exact List.mem_eraseDups.mpr mem

/-- With arguments of the same shape on its keys, a query generates the same text, and values that
the arguments have at the same places, or ends with a mismatch in both. -/
theorem generate_of_sameShape {source : String} {q : Query} (h : compile source = .ok q)
    {a b : Value} (shapes : ∀ key ∈ q.keys, SameShape a b key) :
    SameButContents a b (q.generate a) (q.generate b) := by
  rw [generate_eq h, generate_eq h]
  exact Node.toStatement_of_sameShape fun name mem => shapes name (mem_keys h mem)

/-- A list of the same length, with an element that looks like a placeholder in one of the
arguments. -/
theorem generate_of_sameShape_list : ∃ q, compile "(,)[...@ids]" = .ok q ∧
    (∀ key ∈ q.keys, SameShape (.map [("ids", .list [.null])])
      (.map [("ids", .list [.string "$2"])]) key) ∧
    SameButContents (.map [("ids", .list [.null])]) (.map [("ids", .list [.string "$2"])])
      (q.generate (.map [("ids", .list [.null])]))
      (q.generate (.map [("ids", .list [.string "$2"])])) := by
  have compiled : compile "(,)[...@ids]" =
      .ok ⟨"(,)[...@ids]", [.spread "ids" .comma], false, ["ids"], none⟩ := by
    cbv
  have shapes : ∀ key ∈ ["ids"], SameShape (.map [("ids", .list [.null])])
      (.map [("ids", .list [.string "$2"])]) key := by
    intro key mem
    rw [List.mem_singleton.mp mem]
    exact ⟨rfl, rfl⟩
  exact ⟨_, compiled, shapes, generate_of_sameShape compiled shapes⟩

end Query

end SqlTemplate
