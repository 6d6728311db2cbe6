import Mathlib.Data.List.Induction
import SqlTemplate.Proofs.Source.Compiled
import SqlTemplate.Registry

/-!
# The history of a registry

A program begins with the empty registry, and loads sources, looks names up and clears, in any
order. What is registered after its steps can be told from the sources alone.

* `Registry.Accepts` says which sources are accepted, up to the last step and since the last clear.
  Of the sources that are loaded together, those before the first that is refused are accepted, and
  no others. A source is refused if it does not compile, or if one of its names is among those of
  the sources accepted so far.
* The registry holds the queries of the accepted sources and nothing else, and no two of these
  sources have a name in common (`Registry.Holds`).
* So what is registered under a name stays there until the registry is cleared.

`Registry.write_once` puts this together.
-/

namespace SqlTemplate

namespace Registry

/-! ## Steps -/

/-- A source that is loaded: its name and its text. -/
abbrev Asset := String × String

/-- What a program does with the registry. -/
inductive Step where
  /-- loads sources -/
  | loadAssets (assets : List Asset)
  /-- looks a name up -/
  | find (name : String)
  /-- forgets every query -/
  | clear
  deriving DecidableEq, Repr

/-- What the program is answered. -/
inductive Answer where
  /-- why the first source that was not accepted was not, if there is one -/
  | loaded (error : Option Error)
  /-- the query that is registered under the name -/
  | found (query : Option Query)
  /-- nothing is registered any more -/
  | cleared
  deriving Repr

/-- The registry behind a step, and the answer. -/
def step (r : Registry) : Step → Registry × Answer
  | .loadAssets assets =>
    let outcome := r.loadAssets assets
    (outcome.registry, .loaded outcome.error)
  | .find name => (r, .found (r.find? name))
  | .clear => (r.clear, .cleared)

/-- The registry behind steps that begin with the empty one. -/
def after (steps : List Step) : Registry := steps.foldl (fun r s => (r.step s).1) empty

theorem after_concat (steps : List Step) (s : Step) :
    after (steps ++ [s]) = ((after steps).step s).1 := List.foldl_concat ..

/-! ## Accepted sources -/

/-- A query of one of the sources has the name. -/
def Named (accepted : List Asset) (name : String) : Prop :=
  ∃ asset ∈ accepted, ∃ queries, Source.queries asset.2 = .ok queries ∧ name ∈ queries.names

/-- A source can be accepted behind others: it compiles, and has no name in common with them. -/
def Fits (accepted : List Asset) (asset : Asset) : Prop :=
  ∃ queries, Source.queries asset.2 = .ok queries ∧ ∀ name ∈ queries.names, ¬Named accepted name

/-- Why a source cannot be accepted behind others. -/
inductive Refused (accepted : List Asset) (asset : Asset) : Error → Prop
  /-- it does not compile -/
  | invalid {e : Error} (fails : Source.queries asset.2 = .error e) : Refused accepted asset e
  /-- one of its names is among theirs -/
  | registered {queries : Entries Query} {name : String}
      (compiles : Source.queries asset.2 = .ok queries) (mem : name ∈ queries.names)
      (named : Named accepted name) : Refused accepted asset (.alreadyRegistered name asset.1)

theorem Fits.not_refused {accepted : List Asset} {asset : Asset} (fits : Fits accepted asset)
    {e : Error} : ¬Refused accepted asset e := by
  obtain ⟨queries, compiles, new⟩ := fits
  rintro (fails | ⟨others, mem, named⟩)
  · rw [compiles] at fails
    cases fails
  · obtain rfl := Except.ok.inj (compiles.symm.trans others)
    exact new _ mem named

/-- Of sources that are loaded together behind accepted ones, those are taken that come before the
first that is refused. -/
structure Takes (accepted assets taken : List Asset) (error : Option Error) : Prop where
  /-- each source that is taken fits behind those before it -/
  fits : ∀ before asset later, taken = before ++ asset :: later → Fits (accepted ++ before) asset
  /-- behind them comes nothing, or a source that is refused, whose error is the answer -/
  stops : (assets = taken ∧ error = none) ∨
    ∃ asset later e, assets = taken ++ asset :: later ∧ Refused (accepted ++ taken) asset e ∧
      error = some e

/-- The accepted sources behind a step. -/
inductive Next (accepted : List Asset) : Step → List Asset → Prop
  | loadAssets {assets taken : List Asset} {error : Option Error}
      (takes : Takes accepted assets taken error) :
      Next accepted (.loadAssets assets) (accepted ++ taken)
  | find (name : String) : Next accepted (.find name) accepted
  | clear : Next accepted .clear []

/-- The sources that are accepted in the course of steps, since the last clear. -/
inductive Accepts : List Step → List Asset → Prop
  | start : Accepts [] []
  | snoc {steps : List Step} {accepted next : List Asset} {s : Step}
      (earlier : Accepts steps accepted) (last : Next accepted s next) : Accepts (steps ++ [s]) next

namespace Takes

variable {accepted assets taken other rest : List Asset} {asset : Asset}
  {error otherError : Option Error}

theorem nil : Takes accepted [] [] none where
  fits before asset later none := by
    cases before <;> cases none
  stops := .inl ⟨rfl, rfl⟩

theorem refused {e : Error} (h : Refused accepted asset e) :
    Takes accepted (asset :: rest) [] (some e) where
  fits before asset later none := by
    cases before <;> cases none
  stops := .inr ⟨asset, rest, e, rfl, by rwa [List.append_nil], rfl⟩

/-- A source that fits is taken before the others. -/
theorem cons (first : Fits accepted asset) (h : Takes (accepted ++ [asset]) rest taken error) :
    Takes accepted (asset :: rest) (asset :: taken) error where
  fits before next later same := by
    cases before with
    | nil =>
      obtain ⟨rfl, rfl⟩ := List.cons.inj same
      rwa [List.append_nil]
    | cons head before =>
      obtain ⟨rfl, behind⟩ := List.cons.inj same
      rw [List.append_cons]
      exact h.fits before next later behind
  stops := by
    rcases h.stops with ⟨rfl, none⟩ | ⟨next, later, e, rfl, refused, some⟩
    · exact .inl ⟨rfl, none⟩
    · rw [← List.append_cons] at refused
      exact .inr ⟨next, later, e, rfl, refused, some⟩

theorem isPrefix (h : Takes accepted assets taken error) : taken <+: assets := by
  rcases h.stops with ⟨rfl, -⟩ | ⟨next, later, -, rfl, -, -⟩
  · exact List.prefix_rfl
  · exact List.prefix_append ..

/-- The source behind those that are taken is refused. -/
theorem refused_next (h : Takes accepted (taken ++ asset :: rest) taken error) :
    ∃ e, Refused (accepted ++ taken) asset e := by
  rcases h.stops with ⟨all, -⟩ | ⟨next, later, e, same, refused, -⟩
  · simp at all
  · obtain ⟨rfl, -⟩ := List.cons.inj (List.append_cancel_left same)
    exact ⟨e, refused⟩

/-- No source more can be taken: it would be one that is refused. -/
theorem append_eq_self {more : List Asset} (h : Takes accepted assets taken error)
    (longer : Takes accepted assets (taken ++ more) otherError) : more = [] := by
  cases more with
  | nil => rfl
  | cons next more =>
    have fits := longer.fits taken next more rfl
    obtain ⟨rest, rfl⟩ := longer.isPrefix
    rw [List.append_assoc] at h
    obtain ⟨e, refused⟩ := h.refused_next
    exact absurd refused fits.not_refused

/-- Which sources are taken is settled. -/
theorem unique (h : Takes accepted assets taken error)
    (h' : Takes accepted assets other otherError) : taken = other := by
  rcases List.prefix_or_prefix_of_prefix h.isPrefix h'.isPrefix with ⟨more, rfl⟩ | ⟨more, rfl⟩
  · rw [h.append_eq_self h', List.append_nil]
  · rw [h'.append_eq_self h, List.append_nil]

end Takes

/-- Which sources are accepted behind a step is settled. -/
theorem Next.unique {accepted next other : List Asset} {s : Step} (h : Next accepted s next)
    (h' : Next accepted s other) : next = other := by
  cases h with
  | loadAssets takes =>
    cases h' with
    | loadAssets takes' => rw [takes.unique takes']
  | find name =>
    cases h'
    rfl
  | clear =>
    cases h'
    rfl

theorem Accepts.exists_next {steps : List Step} {s : Step} {next : List Asset}
    (h : Accepts (steps ++ [s]) next) :
    ∃ accepted, Accepts steps accepted ∧ Next accepted s next := by
  generalize same : steps ++ [s] = all at h
  cases h with
  | start => simp at same
  | snoc earlier last =>
    obtain ⟨rfl, ⟨⟩⟩ := List.append_inj' same rfl
    exact ⟨_, earlier, last⟩

/-- Which sources are accepted in the course of steps is settled. -/
theorem Accepts.unique {steps : List Step} {accepted other : List Asset}
    (h : Accepts steps accepted) (h' : Accepts steps other) : accepted = other := by
  induction h generalizing other with
  | start =>
    generalize same : ([] : List Step) = none at h'
    cases h' with
    | start => rfl
    | snoc => simp at same
  | snoc _ last ih =>
    obtain ⟨before, earlier, last'⟩ := h'.exists_next
    obtain rfl := ih earlier
    exact last.unique last'

/-! ## What is registered -/

/-- The queries of sources are registered and no others, and no two sources have a name in
common. -/
structure Holds (r : Registry) (accepted : List Asset) : Prop where
  /-- the queries are those of the sources, in order -/
  union : ∃ parts, r.queries = parts.flatten ∧
    List.Forall₂ (fun asset part => Source.queries asset.2 = .ok part) accepted parts
  /-- no name comes twice -/
  disjoint : r.queries.names.Nodup

section Holds

variable {r : Registry} {accepted : List Asset}

theorem holds_empty : empty.Holds [] := ⟨⟨[], rfl, .nil⟩, List.nodup_nil⟩

/-- The queries of a source can be registered behind others if their names are new. -/
theorem Holds.put (h : r.Holds accepted) {asset : Asset} {queries : Entries Query}
    (compiles : Source.queries asset.2 = .ok queries)
    (new : ∀ name ∈ queries.names, name ∉ r.queries.names) :
    Holds ⟨r.queries ++ queries⟩ (accepted ++ [asset]) := by
  obtain ⟨⟨parts, same, all⟩, disjoint⟩ := h
  refine ⟨⟨parts ++ [queries], ?_, List.rel_append all (.cons compiles .nil)⟩, ?_⟩
  · rw [List.flatten_append, List.flatten_singleton, ← same]
  · rw [Entries.names_append, List.nodup_append]
    refine ⟨disjoint, (Source.queries_eq_ok_iff.mp compiles).2, ?_⟩
    rintro name mem _ mem_new rfl
    exact new name mem_new mem

theorem mem_flatten_iff {parts : List (Entries Query)} {entry : String × Query}
    (h : List.Forall₂ (fun asset part => Source.queries asset.2 = .ok part) accepted parts) :
    entry ∈ parts.flatten ↔
      ∃ asset ∈ accepted, ∃ queries, Source.queries asset.2 = .ok queries ∧ entry ∈ queries := by
  induction h with
  | nil => simp
  | @cons asset part accepted parts compiles _ ih =>
    rw [List.flatten_cons, List.mem_append, ih]
    constructor
    · rintro (mem | ⟨other, mem_other, found⟩)
      · exact ⟨asset, List.mem_cons_self .., part, compiles, mem⟩
      · exact ⟨other, List.mem_cons_of_mem _ mem_other, found⟩
    · rintro ⟨other, mem_other, queries, others, mem⟩
      rcases List.mem_cons.mp mem_other with rfl | mem_other
      · obtain rfl := Except.ok.inj (compiles.symm.trans others)
        exact .inl mem
      · exact .inr ⟨other, mem_other, queries, others, mem⟩

/-- An entry is registered exactly if one of the sources has it. -/
theorem Holds.mem_iff (h : r.Holds accepted) {entry : String × Query} :
    entry ∈ r.queries ↔
      ∃ asset ∈ accepted, ∃ queries, Source.queries asset.2 = .ok queries ∧ entry ∈ queries := by
  obtain ⟨⟨parts, same, all⟩, -⟩ := h
  rw [same]
  exact mem_flatten_iff all

theorem Holds.mem_names_iff (h : r.Holds accepted) {name : String} :
    name ∈ r.queries.names ↔ Named accepted name := by
  constructor
  · intro mem_names
    obtain ⟨entry, mem, rfl⟩ := List.mem_map.mp mem_names
    obtain ⟨asset, mem_asset, queries, compiles, mem_queries⟩ := h.mem_iff.mp mem
    exact ⟨asset, mem_asset, queries, compiles, List.mem_map_of_mem mem_queries⟩
  · rintro ⟨asset, mem_asset, queries, compiles, mem_names⟩
    obtain ⟨entry, mem, rfl⟩ := List.mem_map.mp mem_names
    exact List.mem_map_of_mem (h.mem_iff.mpr ⟨asset, mem_asset, queries, compiles, mem⟩)

/-- Looking a name up finds the query that one of the sources has under it. -/
theorem Holds.find?_eq_some_iff (h : r.Holds accepted) {name : String} {q : Query} :
    r.find? name = some q ↔
      ∃ asset ∈ accepted, ∃ queries, Source.queries asset.2 = .ok queries ∧ (name, q) ∈ queries :=
  (Entries.find?_eq_some_iff h.disjoint).trans h.mem_iff

end Holds

/-! ## A step -/

/-- A source is registered behind the others, or fails to compile, or has a name that is registered
already. -/
theorem accept_cases (r : Registry) (asset : Asset) :
    (∃ queries, Source.queries asset.2 = .ok queries ∧
      (∀ name ∈ queries.names, name ∉ r.queries.names) ∧
      r.accept asset.1 asset.2 = .ok ⟨r.queries ++ queries⟩) ∨
    (∃ e, Source.queries asset.2 = .error e ∧ r.accept asset.1 asset.2 = .error e) ∨
    ∃ queries name, Source.queries asset.2 = .ok queries ∧ name ∈ queries.names ∧
      name ∈ r.queries.names ∧
      r.accept asset.1 asset.2 = .error (.alreadyRegistered name asset.1) := by
  rw [accept]
  cases compiles : Source.queries asset.2 with
  | error e => exact .inr (.inl ⟨e, rfl, rfl⟩)
  | ok queries =>
    simp only [bind, Except.bind]
    cases clash : queries.names.find? fun name => (r.find? name).isSome with
    | some name =>
      have registered : (r.find? name).isSome = true := by
        simpa using List.find?_some clash
      exact .inr (.inr ⟨queries, name, rfl, List.mem_of_find?_eq_some clash,
        Entries.isSome_find?_iff.mp registered, rfl⟩)
    | none =>
      refine .inl ⟨queries, rfl, fun name mem registered => ?_, rfl⟩
      exact List.find?_eq_none.mp clash name mem (Entries.isSome_find?_iff.mpr registered)

/-- A source fits and is registered behind the others, or it is refused. -/
theorem Holds.accept {r : Registry} {accepted : List Asset} (h : r.Holds accepted) (asset : Asset) :
    (∃ next, r.accept asset.1 asset.2 = .ok next ∧ Fits accepted asset ∧
      next.Holds (accepted ++ [asset])) ∨
    ∃ e, r.accept asset.1 asset.2 = .error e ∧ Refused accepted asset e := by
  rcases r.accept_cases asset with ⟨queries, compiles, new, accepts⟩ | ⟨e, fails, refuses⟩ |
    ⟨queries, name, compiles, mem, registered, refuses⟩
  · have fits : Fits accepted asset := by
      refine ⟨queries, compiles, fun name mem named => ?_⟩
      exact new name mem (h.mem_names_iff.mpr named)
    exact .inl ⟨_, accepts, fits, h.put compiles new⟩
  · exact .inr ⟨e, refuses, .invalid fails⟩
  · exact .inr ⟨_, refuses, .registered compiles mem (h.mem_names_iff.mp registered)⟩

/-- Of the sources that are loaded together, those before the first that is refused are registered
behind the others, and nothing else is. -/
theorem Holds.loadAssets {r : Registry} {accepted : List Asset} (h : r.Holds accepted)
    (assets : List Asset) :
    ∃ taken, Takes accepted assets taken (r.loadAssets assets).error ∧
      (r.loadAssets assets).registry.Holds (accepted ++ taken) := by
  induction assets generalizing r accepted with
  | nil => exact ⟨[], .nil, (List.append_nil accepted).symm ▸ h⟩
  | cons asset rest ih =>
    rw [Registry.loadAssets]
    rcases h.accept asset with ⟨next, accepts, fits, holds⟩ | ⟨e, refuses, refused⟩
    · obtain ⟨taken, takes, union⟩ := ih holds
      rw [accepts]
      rw [← List.append_cons] at union
      exact ⟨asset :: taken, .cons fits takes, union⟩
    · rw [refuses]
      exact ⟨[], .refused refused, (List.append_nil accepted).symm ▸ h⟩

/-- A step keeps to the sources that are accepted. -/
theorem Holds.step {r : Registry} {accepted : List Asset} (h : r.Holds accepted) (s : Step) :
    ∃ next, Next accepted s next ∧ (r.step s).1.Holds next := by
  cases s with
  | loadAssets assets =>
    obtain ⟨taken, takes, holds⟩ := h.loadAssets assets
    exact ⟨_, .loadAssets takes, holds⟩
  | find name => exact ⟨accepted, .find name, h⟩
  | clear => exact ⟨[], .clear, holds_empty⟩

/-- Loading sources adds to what is registered and changes nothing of it. -/
theorem loadAssets_extends (r : Registry) (assets : List Asset) :
    r.queries <+: (r.loadAssets assets).registry.queries := by
  induction assets generalizing r with
  | nil => exact List.prefix_rfl
  | cons asset rest ih =>
    rw [loadAssets]
    rcases r.accept_cases asset with ⟨queries, -, -, accepts⟩ | ⟨e, -, refuses⟩ |
      ⟨-, name, -, -, -, refuses⟩
    · rw [accepts]
      exact (List.prefix_append ..).trans (ih _)
    · simp only [refuses, List.prefix_rfl]
    · simp only [refuses, List.prefix_rfl]

theorem step_extends (r : Registry) {s : Step} (h : s ≠ .clear) :
    r.queries <+: (r.step s).1.queries := by
  cases s with
  | loadAssets assets => exact r.loadAssets_extends assets
  | find name => exact List.prefix_rfl
  | clear => exact absurd rfl h

/-! ## A run -/

/-- Steps lead to the union of the sources that are accepted in their course. -/
theorem exists_accepts (steps : List Step) :
    ∃ accepted, Accepts steps accepted ∧ (after steps).Holds accepted := by
  induction steps using List.reverseRecOn with
  | nil => exact ⟨[], .start, holds_empty⟩
  | append_singleton steps s ih =>
    obtain ⟨accepted, earlier, holds⟩ := ih
    obtain ⟨next, last, holds⟩ := holds.step s
    rw [← after_concat] at holds
    exact ⟨next, .snoc earlier last, holds⟩

/-- Until the registry is cleared, it is only added to. -/
theorem after_extends (steps : List Step) {later : List Step} (h : Step.clear ∉ later) :
    (after steps).queries <+: (after (steps ++ later)).queries := by
  induction later generalizing steps with
  | nil => simp only [List.append_nil, List.prefix_rfl]
  | cons s rest ih =>
    have last : s ≠ .clear := fun same => h (same ▸ List.mem_cons_self ..)
    have others : Step.clear ∉ rest := fun mem => h (List.mem_cons_of_mem s mem)
    have first := step_extends (after steps) last
    rw [← after_concat] at first
    rw [List.append_cons]
    exact first.trans (ih (steps ++ [s]) others)

/-- The registry is a union of accepted sources, which is only written once. For any steps from the
empty registry, which sources are accepted since the last clear is settled, and the registry holds
the queries of these and no others. If more sources are loaded, those before the first that is
refused are registered completely, and of it and the others nothing is; its error is the answer.
Looking a name up leaves everything as it is. Whatever is registered stays the same query until the
registry is cleared. -/
theorem write_once (steps : List Step) :
    ∃ accepted, (∀ other, Accepts steps other ↔ other = accepted) ∧
      (after steps).Holds accepted ∧
      (∀ name q, (after steps).find? name = some q ↔ ∃ asset ∈ accepted, ∃ queries,
        Source.queries asset.2 = .ok queries ∧ (name, q) ∈ queries) ∧
      (∀ assets, ∃ taken error next, Takes accepted assets taken error ∧
        (after steps).step (.loadAssets assets) = (next, .loaded error) ∧
        next.Holds (accepted ++ taken) ∧
        ∀ name, (next.find? name).isSome = true ↔ Named (accepted ++ taken) name) ∧
      (∀ name, (after steps).step (.find name) =
        (after steps, .found ((after steps).find? name))) ∧
      (after steps).step .clear = (empty, .cleared) ∧
      ∀ later name q, Step.clear ∉ later → (after steps).find? name = some q →
        (after (steps ++ later)).find? name = some q := by
  obtain ⟨accepted, accepts, holds⟩ := exists_accepts steps
  refine ⟨accepted, fun other => ⟨fun h => h.unique accepts, fun same => same ▸ accepts⟩, holds,
    fun name q => holds.find?_eq_some_iff, ?_, fun name => rfl, rfl, ?_⟩
  · intro assets
    obtain ⟨taken, takes, union⟩ := holds.loadAssets assets
    exact ⟨taken, _, _, takes, rfl, union,
      fun name => Entries.isSome_find?_iff.trans union.mem_names_iff⟩
  · intro later name q uncleared found
    exact Entries.find?_of_isPrefix (after_extends steps uncleared) found

/-- The second source has the name of the first for its second query, so its first query is not
registered either. -/
example :
    let r := after [.loadAssets [("a.sql", "-- @query user\nSELECT 1"),
      ("b.sql", "-- @query order\nSELECT 2\n-- @query user\nSELECT 3")], .find "order"]
    r.find? "order" = none ∧ (r.find? "user").map Query.source = some "SELECT 1" := by
  cbv

end Registry

end SqlTemplate
