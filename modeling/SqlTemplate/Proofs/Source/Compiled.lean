import Mathlib.Data.List.Forall2
import SqlTemplate.Proofs.Entries
import SqlTemplate.Proofs.Steps
import SqlTemplate.Source

/-!
# Sources that compile

`Source.queries` goes through the queries of a source and stops at the first one that it cannot
take. It gets to the end exactly if each query has a text that compiles and no two have the same
name (`Source.queries_eq_ok_iff`). The entries are then the compiled queries, one for each header
line and in the order of the header lines.
-/

namespace SqlTemplate

namespace Source

/-- An entry is what a query of a source compiles to, under its name. -/
structure Compiles (unit : SourceUnit) (entry : String × Query) : Prop where
  /-- the name is that of the query -/
  name : entry.1 = unit.name
  /-- the query has a text -/
  filled : unit.text ≠ ""
  /-- its text compiles -/
  query : Query.compile unit.text = .ok entry.2

section Compiles

variable {units : List SourceUnit} {all : Entries Query}

/-- Queries that all compile have entries. -/
theorem exists_compiles
    (h : ∀ unit ∈ units, unit.text ≠ "" ∧ ∃ q, Query.compile unit.text = .ok q) :
    ∃ all, List.Forall₂ Compiles units all := by
  induction units with
  | nil => exact ⟨[], .nil⟩
  | cons unit rest ih =>
    obtain ⟨all, others⟩ := ih fun other mem => h other (List.mem_cons_of_mem _ mem)
    obtain ⟨filled, q, compiled⟩ := h unit (List.mem_cons_self ..)
    exact ⟨(unit.name, q) :: all, .cons ⟨rfl, filled, compiled⟩ others⟩

theorem names_of_compiles (h : List.Forall₂ Compiles units all) :
    all.names = units.map SourceUnit.name := by
  induction h with
  | nil => rfl
  | cons compiled _ ih => exact List.cons_eq_cons.mpr ⟨compiled.name, ih⟩

theorem mem_of_compiles (h : List.Forall₂ Compiles units all) {unit : SourceUnit}
    (mem : unit ∈ units) :
    ∃ q, Query.compile unit.text = .ok q ∧ (unit.name, q) ∈ all := by
  induction h with
  | nil => cases mem
  | @cons _ entry _ _ compiled _ ih =>
    rcases List.mem_cons.mp mem with rfl | mem
    · exact ⟨entry.2, compiled.query, compiled.name ▸ List.mem_cons_self ..⟩
    · obtain ⟨q, compiles, found⟩ := ih mem
      exact ⟨q, compiles, List.mem_cons_of_mem _ found⟩

end Compiles

/-- A query is taken behind others if it compiles and has a name of its own. -/
theorem compileUnit_eq_ok_iff {queries all : Entries Query} {unit : SourceUnit} :
    compileUnit queries unit = .ok all ↔
      unit.name ∉ queries.names ∧ ∃ entry, Compiles unit entry ∧ all = queries ++ [entry] := by
  rw [compileUnit, ← Entries.isSome_find?_iff]
  constructor
  · intro h
    split at h
    · cases h
    · rename_i filled
      split at h
      · cases h
      · rename_i new
        obtain ⟨q, compiled, rfl⟩ := map_eq_ok h
        exact ⟨new, (unit.name, q), ⟨rfl, filled, compiled⟩, rfl⟩
  · rintro ⟨new, ⟨name, q⟩, ⟨rfl, filled, compiled⟩, rfl⟩
    rw [if_neg filled, if_neg new, compiled]
    rfl

theorem foldlM_compileUnit_eq_ok_iff {units : List SourceUnit} {queries all : Entries Query}
    (apart : queries.names.Nodup) :
    units.foldlM compileUnit queries = .ok all ↔
      all.names.Nodup ∧ ∃ added, List.Forall₂ Compiles units added ∧ all = queries ++ added := by
  induction units generalizing queries with
  | nil =>
    constructor
    · rintro ⟨⟩
      exact ⟨apart, [], .nil, (List.append_nil _).symm⟩
    · rintro ⟨-, added, ⟨⟩, rfl⟩
      exact congrArg Except.ok (List.append_nil _).symm
  | cons unit rest ih =>
    rw [List.foldlM_cons]
    constructor
    · intro h
      obtain ⟨next, taken, run⟩ := bind_eq_ok h
      obtain ⟨new, entry, compiled, rfl⟩ := compileUnit_eq_ok_iff.mp taken
      rw [← compiled.name] at new
      obtain ⟨distinct, added, others, rfl⟩ :=
        (ih (Entries.nodup_names_concat.mpr ⟨apart, new⟩)).mp run
      exact ⟨distinct, entry :: added, .cons compiled others, List.append_assoc ..⟩
    · rintro ⟨distinct, _, compiled, same⟩
      cases compiled with
      | @cons _ entry _ added compiled others =>
        rw [List.append_cons] at same
        have next : (queries ++ [entry]).names.Nodup := by
          rw [same, Entries.names_append] at distinct
          exact (List.nodup_append.mp distinct).1
        have new := (Entries.nodup_names_concat.mp next).2
        rw [compiled.name] at new
        rw [compileUnit_eq_ok_iff.mpr ⟨new, entry, compiled, rfl⟩]
        exact (ih next).mpr ⟨distinct, added, others, same⟩

/-- A source has queries exactly if each of its queries compiles and no two have the same name. They
are then the compiled queries in the order of the source. -/
theorem queries_eq_ok_iff {source : String} {all : Entries Query} :
    queries source = .ok all ↔ List.Forall₂ Compiles (units source) all ∧ all.names.Nodup := by
  have none : (Entries.names ([] : Entries Query)).Nodup := List.nodup_nil
  rw [queries, foldlM_compileUnit_eq_ok_iff none]
  constructor
  · rintro ⟨distinct, _, compiled, rfl⟩
    exact ⟨compiled, distinct⟩
  · rintro ⟨compiled, distinct⟩
    exact ⟨distinct, all, compiled, rfl⟩

end Source

end SqlTemplate
