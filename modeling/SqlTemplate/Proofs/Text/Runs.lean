import Mathlib.Data.List.Chain
import SqlTemplate.Text.Doubled

/-!
# Runs of a text

A text is made of *runs*, each of one character as often as it stands side by side. Halving a
character halves its runs, rounded up, and leaves the others as they are; it brings no two runs of
one character together and takes none apart (`halve_spell`). So characters that are halved one after
another do not get in each other's way: it comes to the same as to halve all their runs at once
(`foldl_halve_spell`), in whatever order it is done (`unescapeString_eq_spell`).
-/

namespace SqlTemplate.Text

/-! ## Runs -/

/-- A character that comes once or several times. -/
structure Run where
  /-- the character -/
  char : Char
  /-- how often it comes -/
  length : Nat
  /-- it comes at least once -/
  pos : 0 < length

/-- The text that runs make up. -/
def spell (rs : List Run) : List Char := rs.flatMap fun r => List.replicate r.length r.char

/-- No run goes on in the one behind it. -/
def Apart (rs : List Run) : Prop := rs.IsChain fun r next => r.char ≠ next.char

/-- Runs with one more character before them. -/
def Run.before (c : Char) : List Run → List Run
  | [] => [⟨c, 1, by omega⟩]
  | r :: rest =>
    if r.char = c then ⟨c, r.length + 1, by omega⟩ :: rest else ⟨c, 1, by omega⟩ :: r :: rest

/-- The runs of a text. -/
def runs (s : List Char) : List Run := s.foldr Run.before []

theorem spell_cons (r : Run) (rest : List Run) :
    spell (r :: rest) = List.replicate r.length r.char ++ spell rest := List.flatMap_cons

/-- The text of runs begins with the character of the first one. -/
theorem head?_spell (rs : List Run) : (spell rs).head? = rs.head?.map Run.char := by
  cases rs with
  | nil => rfl
  | cons r rest =>
    obtain ⟨c, n, pos⟩ := r
    obtain ⟨m, rfl⟩ := Nat.exists_eq_succ_of_ne_zero (Nat.ne_of_gt pos)
    rw [spell_cons, List.replicate_succ]
    rfl

theorem spell_before (c : Char) (rs : List Run) : spell (Run.before c rs) = c :: spell rs := by
  cases rs with
  | nil => rfl
  | cons r rest =>
    rw [Run.before]
    by_cases same : r.char = c
    · rw [if_pos same, spell_cons, spell_cons, same]
      rfl
    · rw [if_neg same]
      rfl

theorem apart_before (c : Char) {rs : List Run} (h : Apart rs) : Apart (Run.before c rs) := by
  cases rs with
  | nil => exact List.isChain_singleton _
  | cons r rest =>
    rw [Run.before]
    by_cases same : r.char = c
    · rw [if_pos same]
      obtain ⟨next, others⟩ := List.isChain_cons.mp h
      exact List.isChain_cons.mpr ⟨same ▸ next, others⟩
    · rw [if_neg same]
      exact List.isChain_cons_cons.mpr ⟨Ne.symm same, h⟩

/-- A text is made of its runs. -/
theorem spell_runs (s : List Char) : spell (runs s) = s := by
  induction s with
  | nil => rfl
  | cons c rest ih =>
    rw [runs, List.foldr_cons, spell_before]
    exact congrArg (List.cons c) ih

theorem apart_runs (s : List Char) : Apart (runs s) := by
  induction s with
  | nil => exact List.isChain_nil
  | cons c rest ih => exact apart_before c ih

/-! ## Halved runs -/

/-- A run of one of some characters is halved, rounded up. -/
def Run.halved (marks : List Char) (r : Run) : Run :=
  ⟨r.char, if r.char ∈ marks then (r.length + 1) / 2 else r.length, by
    have := r.pos
    split <;> omega⟩

theorem apart_map_halved (marks : List Char) {rs : List Run} (h : Apart rs) :
    Apart (rs.map (Run.halved marks)) := (List.isChain_map _).mpr h

/-- Where no marks are halved, runs stay as they are. -/
theorem Run.halved_nil : Run.halved [] = id := by
  funext r
  simp [Run.halved]

/-- A run of one more mark is halved before those of the others. -/
theorem Run.halved_cons {c : Char} {marks : List Char} (new : c ∉ marks) (r : Run) :
    (r.halved [c]).halved marks = r.halved (c :: marks) := by
  by_cases same : r.char = c
  · simp [Run.halved, same, new]
  · simp [Run.halved, same]

/-- Halving a character halves its runs. -/
theorem halve_spell (c : Char) {rs : List Run} (h : Apart rs) :
    halve c (spell rs) = spell (rs.map (Run.halved [c])) := by
  induction rs with
  | nil => rfl
  | cons r rest ih =>
    obtain ⟨next, others⟩ := List.isChain_cons.mp h
    rw [List.map_cons, spell_cons, spell_cons, ← ih others]
    by_cases same : r.char = c
    · have ends : (spell rest).head? ≠ some c := by
        rw [head?_spell, Ne, Option.map_eq_some_iff]
        rintro ⟨behind, first, rfl⟩
        exact next behind first same
      simp only [Run.halved, List.mem_singleton, same, if_true]
      exact halve_replicate_append ends r.length
    · simp only [Run.halved, List.mem_singleton, same, if_false]
      exact halve_replicate_append_of_ne same r.length _

/-- Halving characters one after another halves the runs of all of them. -/
theorem foldl_halve_spell {marks : List Char} (distinct : marks.Nodup) {rs : List Run}
    (h : Apart rs) :
    marks.foldl (fun text c => halve c text) (spell rs) = spell (rs.map (Run.halved marks)) := by
  induction marks generalizing rs with
  | nil =>
    rw [Run.halved_nil, List.map_id]
    rfl
  | cons c rest ih =>
    obtain ⟨new, distinct⟩ := List.nodup_cons.mp distinct
    rw [List.foldl_cons, halve_spell c h, ih distinct (apart_map_halved [c] h), List.map_map]
    congr 1
    apply List.map_congr_left
    intro r _
    exact Run.halved_cons new r

/-- Which runs are halved does not depend on the order of the marks. -/
theorem Run.halved_perm {marks others : List Char} (h : marks.Perm others) :
    Run.halved marks = Run.halved others := by
  funext r
  simp only [Run.halved, h.mem_iff]

/-- A text is unescaped by halving each of its runs of one of the six characters, rounded up, and
leaving the others as they are. Halving the six one after another in any other order comes to the
same. -/
theorem unescapeString_eq_spell (s : String) :
    spell (runs s.toList) = s.toList ∧ Apart (runs s.toList) ∧
    unescapeString s = String.ofList (spell ((runs s.toList).map (Run.halved doubled))) ∧
    ∀ order : List Char, order.Perm doubled →
      String.ofList (order.foldl (fun text c => halve c text) s.toList) = unescapeString s := by
  have halved (order : List Char) (perm : order.Perm doubled) :
      order.foldl (fun text c => halve c text) s.toList =
        spell ((runs s.toList).map (Run.halved doubled)) := by
    have distinct : order.Nodup := perm.nodup_iff.mpr (by decide)
    calc order.foldl (fun text c => halve c text) s.toList
      _ = order.foldl (fun text c => halve c text) (spell (runs s.toList)) := by rw [spell_runs]
      _ = spell ((runs s.toList).map (Run.halved order)) :=
        foldl_halve_spell distinct (apart_runs s.toList)
      _ = spell ((runs s.toList).map (Run.halved doubled)) := by rw [Run.halved_perm perm]
  have unescaped :
      unescapeString s = String.ofList (spell ((runs s.toList).map (Run.halved doubled))) :=
    congrArg String.ofList (halved doubled (List.Perm.refl _))
  refine ⟨spell_runs s.toList, apart_runs s.toList, unescaped, ?_⟩
  intro order perm
  rw [unescaped, halved order perm]

/-- Runs of three, four and five, and one of a character that is not doubled, from the last of the
six characters to the first. -/
theorem unescapeString_eq_spell_backwards :
    ['}', ']', '[', '{', '@', ';'].Perm doubled ∧
    runs "@@@;;;;--[[[[[".toList = [⟨'@', 3, by omega⟩, ⟨';', 4, by omega⟩, ⟨'-', 2, by omega⟩,
      ⟨'[', 5, by omega⟩] ∧
    unescapeString "@@@;;;;--[[[[[" = "@@;;--[[[" ∧
    String.ofList (['}', ']', '[', '{', '@', ';'].foldl (fun text c => halve c text)
      "@@@;;;;--[[[[[".toList) = "@@;;--[[[" := by
  have perm : ['}', ']', '[', '{', '@', ';'].Perm doubled := by decide
  have text : unescapeString "@@@;;;;--[[[[[" = "@@;;--[[[" := by rfl
  obtain ⟨-, -, -, orders⟩ := unescapeString_eq_spell "@@@;;;;--[[[[["
  exact ⟨perm, by rfl, text, (orders _ perm).trans text⟩

end SqlTemplate.Text
