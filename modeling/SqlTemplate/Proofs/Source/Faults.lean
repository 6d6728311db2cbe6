import SqlTemplate.Proofs.Query.Static
import SqlTemplate.Proofs.Source.Compiled
import SqlTemplate.Proofs.Source.Slices
import SqlTemplate.Proofs.Steps

/-!
# Sources that do not compile

A query of a source is at fault if it has no text, has the name of an earlier query, or does not
compile. A source fails exactly if one of its queries is at fault, and it fails as the first one
does; what is wrong with the others does not show. If none is, there is an entry for each header
line (`Source.queries_first_fault`).

Names are looked for among the queries that were taken. Up to the first query at fault these are all
earlier ones (`Source.compileUnit_eq_error_iff`).
-/

namespace SqlTemplate

namespace Source

/-! ## Faults -/

/-- A query cannot be taken behind the ones before it. -/
def Faulty (earlier : List SourceUnit) (unit : SourceUnit) : Prop :=
  unit.text = "" ∨ unit.name ∈ earlier.map SourceUnit.name ∨
    ∀ q, Query.compile unit.text ≠ .ok q

/-- What is wrong with a query behind the ones before it. Of several faults the first one counts,
and a syntax error is that of the query's own text. -/
inductive Fault (earlier : List SourceUnit) (unit : SourceUnit) : Error → Prop
  | empty (none : unit.text = "") : Fault earlier unit (.emptyUnit unit.name)
  | repeated (filled : unit.text ≠ "") (mem : unit.name ∈ earlier.map SourceUnit.name) :
      Fault earlier unit (.duplicateName unit.name)
  | malformed {e : SyntaxError} (filled : unit.text ≠ "")
      (new : unit.name ∉ earlier.map SourceUnit.name) (fails : Node.read unit.text = .error e) :
      Fault earlier unit (.grammar e)

/-- What is wrong with the first of some queries that is at fault, where the queries stand behind
earlier ones. -/
def FirstFault (earlier units : List SourceUnit) (e : Error) : Prop :=
  ∃ front unit later, units = front ++ unit :: later ∧ Fault (earlier ++ front) unit e ∧
    ∀ before other after, front = before ++ other :: after → ¬Faulty (earlier ++ before) other

section Faults

variable {queries : Entries Query} {earlier units : List SourceUnit} {unit : SourceUnit}
  {e : Error}

theorem Fault.faulty (h : Fault earlier unit e) : Faulty earlier unit := by
  cases h with
  | empty none => exact .inl none
  | repeated _ mem => exact .inr (.inl mem)
  | malformed _ _ fails =>
    refine .inr (.inr fun q compiled => ?_)
    obtain ⟨tree, read, -⟩ := Query.eq_ofTree compiled
    cases fails.symm.trans read

/-- A query is at fault exactly if something is wrong with it. -/
theorem faulty_iff : Faulty earlier unit ↔ ∃ e, Fault earlier unit e := by
  constructor
  · intro faulty
    by_cases filled : unit.text = ""
    · exact ⟨_, .empty filled⟩
    · by_cases known : unit.name ∈ earlier.map SourceUnit.name
      · exact ⟨_, .repeated filled known⟩
      · have fails := (faulty.resolve_left filled).resolve_left known
        cases read : Node.read unit.text with
        | error broken => exact ⟨_, .malformed filled known read⟩
        | ok tree =>
          rw [Query.compile_eq, read] at fails
          exact absurd rfl (fails _)
  · rintro ⟨e, fault⟩
    exact fault.faulty

/-- Behind queries that were taken, a query is refused for its fault. -/
theorem compileUnit_eq_error_iff (taken : queries.names = earlier.map SourceUnit.name) :
    compileUnit queries unit = .error e ↔ Fault earlier unit e := by
  rw [compileUnit]
  by_cases filled : unit.text = ""
  · rw [if_pos filled]
    constructor
    · rintro ⟨⟩
      exact .empty filled
    · rintro (_ | ⟨other, -⟩ | ⟨other, -, -⟩)
      · rfl
      · exact absurd filled other
      · exact absurd filled other
  · by_cases known : unit.name ∈ earlier.map SourceUnit.name
    · rw [if_neg filled, if_pos (Entries.isSome_find?_iff.mpr (taken ▸ known))]
      constructor
      · rintro ⟨⟩
        exact .repeated filled known
      · rintro (none | _ | ⟨-, new, -⟩)
        · exact absurd none filled
        · rfl
        · exact absurd known new
    · have new : ¬(queries.find? unit.name).isSome = true := by
        rwa [Entries.isSome_find?_iff, taken]
      rw [if_neg filled, if_neg new, Query.compile_eq]
      cases read : Node.read unit.text with
      | ok tree =>
        constructor
        · rintro ⟨⟩
        · rintro (none | ⟨-, mem⟩ | ⟨-, -, fails⟩)
          · exact absurd none filled
          · exact absurd mem known
          · cases read.symm.trans fails
      | error broken =>
        constructor
        · rintro ⟨⟩
          exact .malformed filled known read
        · rintro (none | ⟨-, mem⟩ | ⟨-, -, fails⟩)
          · exact absurd none filled
          · exact absurd mem known
          · cases read.symm.trans fails
            rfl

theorem names_of_compileUnit {all : Entries Query}
    (taken : queries.names = earlier.map SourceUnit.name)
    (h : compileUnit queries unit = .ok all) :
    all.names = (earlier ++ [unit]).map SourceUnit.name := by
  obtain ⟨-, entry, compiled, rfl⟩ := compileUnit_eq_ok_iff.mp h
  rw [Entries.names_append, taken, List.map_append]
  exact congrArg _ (congrArg (fun name => [name]) compiled.name)

/-! ## A run -/

/-- Behind queries that were taken, others are taken or refused for their faults. -/
theorem traced_compileUnit :
    Traced compileUnit (fun earlier queries => queries.names = earlier.map SourceUnit.name)
      Fault :=
  ⟨names_of_compileUnit, compileUnit_eq_error_iff⟩

theorem firstFault_iff : FirstFault earlier units e ↔ FirstFailure Fault earlier units e := by
  simp only [FirstFault, FirstFailure, faulty_iff, not_exists]

/-- Behind queries that were taken, others fail as the first one does that is at fault. -/
theorem foldlM_compileUnit_eq_error_iff (taken : queries.names = earlier.map SourceUnit.name) :
    units.foldlM compileUnit queries = .error e ↔ FirstFault earlier units e :=
  (traced_compileUnit.foldlM_eq_error_iff taken).trans firstFault_iff.symm

/-- If queries are taken to the last one, none of them is at fault. -/
theorem not_faulty_of_foldlM {all : Entries Query}
    (taken : queries.names = earlier.map SourceUnit.name)
    (h : units.foldlM compileUnit queries = .ok all) {front later : List SourceUnit}
    (whole : units = front ++ unit :: later) : ¬Faulty (earlier ++ front) unit := by
  intro faulty
  obtain ⟨e, fault⟩ := faulty_iff.mp faulty
  exact (traced_compileUnit.exists_foldlM_eq_ok_iff taken).mp ⟨all, h⟩ front unit later whole e fault

end Faults

/-- A source is cut into the queries that stand behind its header lines. It fails exactly if one of
them is at fault, and as the first one that is. Otherwise it has as many entries as header lines,
and under the name of each header line is found what the text behind it compiles to. -/
theorem queries_first_fault (source : String) :
    Cut source (headers source) (units source) ∧
    ((∃ e, queries source = .error e) ↔
      ∃ earlier unit later, units source = earlier ++ unit :: later ∧ Faulty earlier unit) ∧
    (∀ e, queries source = .error e ↔ FirstFault [] (units source) e) ∧
    ∀ all, queries source = .ok all →
      all.length = (headers source).length ∧ all.names.Nodup ∧
      all.names = (units source).map SourceUnit.name ∧
      ∀ unit ∈ units source, ∃ q, Query.compile unit.text = .ok q ∧
        all.find? unit.name = some q := by
  have taken : Entries.names ([] : Entries Query) = ([] : List SourceUnit).map SourceUnit.name :=
    rfl
  have cut := cut_units source
  refine ⟨cut, ⟨?_, ?_⟩, fun e => foldlM_compileUnit_eq_error_iff taken, ?_⟩
  · rintro ⟨e, fails⟩
    obtain ⟨earlier, unit, later, whole, fault, -⟩ :=
      (foldlM_compileUnit_eq_error_iff taken).mp fails
    exact ⟨earlier, unit, later, whole, fault.faulty⟩
  · rintro ⟨earlier, unit, later, whole, faulty⟩
    cases done : queries source with
    | error e => exact ⟨e, rfl⟩
    | ok all => exact absurd faulty (not_faulty_of_foldlM taken done whole)
  · intro all done
    obtain ⟨compiled, distinct⟩ := queries_eq_ok_iff.mp done
    refine ⟨?_, distinct, names_of_compiles compiled, fun unit mem => ?_⟩
    · rw [← cut.length_eq, compiled.length_eq]
    · obtain ⟨q, compiles, found⟩ := mem_of_compiles compiled mem
      exact ⟨q, compiles, (Entries.find?_eq_some_iff distinct).mpr found⟩

/-- The second query has no text and the name of the first one, and the third does not compile. -/
theorem queries_first_fault_empty :
    ∃ source, headers source = [⟨"a", 0, 11⟩, ⟨"a", 21, 32⟩, ⟨"b", 34, 45⟩] ∧
      units source = [⟨"a", "SELECT 1"⟩, ⟨"a", ""⟩, ⟨"b", "]"⟩] ∧
      Cut source (headers source) (units source) ∧ queries source = .error (.emptyUnit "a") := by
  have text : units "-- @query a SELECT 1\n-- @query a\n\n-- @query b ]" =
      [⟨"a", "SELECT 1"⟩, ⟨"a", ""⟩, ⟨"b", "]"⟩] := by
    cbv
  have select : Query.compile "SELECT 1" =
      .ok ⟨"SELECT 1", [.literal "SELECT 1"], true, [], some "SELECT 1"⟩ := by
    cbv
  obtain ⟨cut, -, fails, -⟩ :=
    queries_first_fault "-- @query a SELECT 1\n-- @query a\n\n-- @query b ]"
  refine ⟨_, by cbv, text, cut, (fails _).mpr ?_⟩
  rw [text]
  refine ⟨[⟨"a", "SELECT 1"⟩], ⟨"a", ""⟩, [⟨"b", "]"⟩], rfl, .empty rfl, ?_⟩
  intro before other after whole
  cases before with
  | nil =>
    cases whole
    rintro (none | earlier | fails)
    · exact absurd none (by decide)
    · cases earlier
    · exact fails _ select
  | cons head before => simp at whole

end Source

end SqlTemplate
