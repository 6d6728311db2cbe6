import Mathlib
import SqlTemplate.Proofs.Source.Compiled
import SqlTemplate.Proofs.Source.Header

/-!
# Composed sources

A source can be composed of queries: whole lines that are no header lines, and then each query under
a header line with its name. The queries that are read from it are the same ones
(`Source.units_composed`). If their names are distinct and each compiles, they are what the source
compiles to (`Source.queries_composed`).

The text of a query is only asked not to begin or end with a blank and not to have a header line.
Where it begins and ends is then settled by the line feeds around it.
-/

namespace SqlTemplate

open SqlTemplate.Text

/-! ## Composing -/

/-- A query under its header line. -/
def SourceUnit.written (unit : SourceUnit) : String :=
  "-- @query " ++ unit.name ++ "\n" ++ unit.text ++ "\n"

namespace Source

/-- A source that is composed of a text in front and of queries. -/
def composed (preamble : String) (units : List SourceUnit) : String :=
  preamble ++ String.join (units.map SourceUnit.written)

/-- A query that can be read back when it is written under its header line. -/
structure Composable (unit : SourceUnit) : Prop where
  /-- it has a name -/
  named : unit.name ≠ ""
  /-- the name is made of the characters for names -/
  name_chars : unit.name.toList.all isNameChar = true
  /-- there are no blanks around its text -/
  trimmed : trim unit.text.toList = unit.text.toList
  /-- none of the lines of its text is a header line -/
  free : HeaderFree unit.text.toList

instance (unit : SourceUnit) : Decidable (Composable unit) :=
  decidable_of_iff
    (unit.name ≠ "" ∧ unit.name.toList.all isNameChar = true ∧
      trim unit.text.toList = unit.text.toList ∧ HeaderFree unit.text.toList)
    ⟨fun ⟨named, name_chars, trimmed, free⟩ => ⟨named, name_chars, trimmed, free⟩,
      fun h => ⟨h.named, h.name_chars, h.trimmed, h.free⟩⟩

/-- The header line of a query is read as one. -/
theorem header?_written {name : String} (named : name ≠ "")
    (name_chars : name.toList.all isNameChar = true) :
    header? ("-- @query ".toList ++ name.toList ++ ['\n']) = some (name, ['\n']) := by
  have none_blank : ∀ c ∈ ([] : List Char), isBlank c = true := nofun
  have one_blank : ∀ c ∈ [' '], isBlank c = true := List.forall_mem_singleton.mpr rfl
  have run : Mark.IsRun isNameChar name.toList ['\n'] := by
    refine ⟨List.all_eq_true.mp name_chars, ?_⟩
    rintro _ ⟨⟩
    decide
  have words : "-- @query ".toList =
      ['-', '-'] ++ ([' '] ++ (['@', 'q', 'u', 'e', 'r', 'y'] ++ [' '])) := rfl
  rw [words, List.append_assoc]
  exact Header.header?_eq
    (.intro none_blank one_blank one_blank (List.cons_ne_nil _ _) named run)

theorem toList_written (unit : SourceUnit) :
    unit.written.toList = ("-- @query ".toList ++ unit.name.toList ++ ['\n']) ++
      (unit.text.toList ++ ['\n']) := by
  simp [SourceUnit.written]

/-- A written query is read back. What is read behind it stays what it is, if it begins with a
header line or has none. -/
theorem split_written {unit : SourceUnit} (h : Composable unit) {behind : List Char}
    {units : List SourceUnit} (rest : split (lines behind) = ([], units)) :
    split (lines (unit.written.toList ++ behind)) = ([], unit :: units) := by
  have one : '\n' ∉ "-- @query ".toList ++ unit.name.toList := by
    intro mem
    rcases List.mem_append.mp mem with mem | mem
    · exact absurd mem (by decide)
    · exact absurd (List.all_eq_true.mp h.name_chars _ mem) (by decide)
  have header := header?_written h.named h.name_chars
  have text : trim (['\n'] ++ (lines (unit.text.toList ++ ['\n'])).flatten) = unit.text.toList := by
    rw [flatten_lines, List.singleton_append, trim_cons_of_isBlank (by decide),
      trim_concat_of_isBlank (by decide), h.trimmed]
  rw [toList_written, List.append_assoc, lines_append (wholeLines_concat _), lines_concat one,
    lines_append (wholeLines_concat _), List.singleton_append, split_header header,
    split_append h.free.append_newline, rest, List.append_nil, text, String.ofList_toList]

theorem split_join_written {units : List SourceUnit} (h : ∀ unit ∈ units, Composable unit) :
    split (lines (String.join (units.map SourceUnit.written)).toList) = ([], units) := by
  induction units with
  | nil => rfl
  | cons unit rest ih =>
    have others := ih fun other mem => h other (List.mem_cons_of_mem _ mem)
    rw [List.map_cons, String.join_cons, String.toList_append]
    exact split_written (h unit (List.mem_cons_self ..)) others

/-- The queries of a composed source are the ones it is composed of. -/
theorem units_composed {preamble : String} {all : List SourceUnit}
    (whole : WholeLines preamble.toList) (free : HeaderFree preamble.toList)
    (h : ∀ unit ∈ all, Composable unit) : units (composed preamble all) = all := by
  rw [units, composed, String.toList_append, lines_append whole, split_append free,
    split_join_written h]

/-- A composed source has an entry for each of its queries and no others, if the names of the
queries are distinct and each query compiles. Under its name is found what its text compiles to. -/
theorem queries_composed {preamble : String} {units : List SourceUnit}
    (whole : WholeLines preamble.toList) (free : HeaderFree preamble.toList)
    (distinct : (units.map SourceUnit.name).Nodup) (composable : ∀ unit ∈ units, Composable unit)
    (compile : ∀ unit ∈ units, unit.text ≠ "" ∧ ∃ q, Query.compile unit.text = .ok q) :
    ∃ all, queries (composed preamble units) = .ok all ∧
      all.names = units.map SourceUnit.name ∧
      ∀ unit ∈ units, ∃ q, Query.compile unit.text = .ok q ∧ all.find? unit.name = some q := by
  obtain ⟨all, compiled⟩ := exists_compiles compile
  have names := names_of_compiles compiled
  rw [← names] at distinct
  refine ⟨all, ?_, names, fun unit mem => ?_⟩
  · rw [queries_eq_ok_iff, units_composed whole free composable]
    exact ⟨compiled, distinct⟩
  · obtain ⟨q, compiles, found⟩ := mem_of_compiles compiled mem
    exact ⟨q, compiles, (Entries.find?_eq_some_iff distinct).mpr found⟩

/-- Lines that are nearly header lines: one whose word goes on, one without a name, and one that
does not begin with the hyphens. -/
theorem queries_composed_near_headers :
    ∃ preamble units, preamble = "-- @queryx a\r\n\n" ∧
      units = [⟨"a", "SELECT 'é',\r\n-- @query\n@id"⟩, ⟨"B_2", "DELETE -- @query a"⟩] ∧
      WholeLines preamble.toList ∧ HeaderFree preamble.toList ∧
      (units.map SourceUnit.name).Nodup ∧ (∀ unit ∈ units, Composable unit) ∧
      (∀ unit ∈ units, unit.text ≠ "" ∧ ∃ q, Query.compile unit.text = .ok q) ∧
      ∃ all, queries (composed preamble units) = .ok all ∧
        all.names = units.map SourceUnit.name ∧
        ∀ unit ∈ units, ∃ q, Query.compile unit.text = .ok q ∧ all.find? unit.name = some q := by
  have select : Query.compile "SELECT 'é',\r\n-- @query\n@id" =
      .ok ⟨"SELECT 'é',\r\n-- @query\n@id", [.literal "SELECT 'é',\n", .value "id"], true, ["id"],
        some "SELECT 'é',\n$1"⟩ := by
    cbv
  have delete : Query.compile "DELETE -- @query a" =
      .ok ⟨"DELETE -- @query a", [.literal "DELETE"], true, [], some "DELETE"⟩ := by
    cbv
  have compile : ∀ unit ∈ [SourceUnit.mk "a" "SELECT 'é',\r\n-- @query\n@id",
      ⟨"B_2", "DELETE -- @query a"⟩], unit.text ≠ "" ∧ ∃ q, Query.compile unit.text = .ok q := by
    intro unit mem
    rcases List.mem_pair.mp mem with rfl | rfl
    · exact ⟨by decide, _, select⟩
    · exact ⟨by decide, _, delete⟩
  refine ⟨_, _, rfl, rfl, by decide, by decide, by decide, by decide, compile, ?_⟩
  exact queries_composed (by decide) (by decide) (by decide) (by decide) compile

end Source

end SqlTemplate
