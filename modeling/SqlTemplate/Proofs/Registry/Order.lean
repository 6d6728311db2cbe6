import Mathlib
import SqlTemplate.Proofs.Registry.History

/-!
# The order in which sources are loaded

Whether sources can be loaded is a property of the sources and of what is registered before them,
and not of their order: each compiles, and among all their names and those that are registered
none comes twice (`Registry.Loadable`). While they are loaded, the registry grows with each source,
so that a name is looked for among others each time; in the end every pair of sources was compared
(`Registry.loadAssets_eq_iff`). The entries that are added are those of the sources in their order,
and where no name comes twice, looking a name up does not see the order.

Calls that follow one another load what one call loads, if they all succeed
(`Registry.loadCalls_eq_iff`). `Registry.loadAssets_order_free` puts this together.
-/

namespace SqlTemplate

namespace Registry

variable {r next last : Registry} {asset : Asset} {assets other rest : List Asset}
  {part : Entries Query} {parts : List (Entries Query)}

/-! ## Sources that can be loaded together -/

/-- The queries of sources that can be loaded together. -/
structure Loadable (r : Registry) (assets : List Asset) (parts : List (Entries Query)) : Prop where
  /-- each source compiles -/
  compiled : List.Forall₂ (fun asset part => Source.queries asset.2 = .ok part) assets parts
  /-- no name comes twice -/
  distinct : (Entries.names parts.flatten).Nodup
  /-- no name is registered -/
  new : ∀ name ∈ Entries.names parts.flatten, name ∉ r.queries.names

theorem loadable_nil : Loadable r [] parts ↔ parts = [] := by
  constructor
  · rintro ⟨compiled, -, -⟩
    exact List.forall₂_nil_left_iff.mp compiled
  · rintro rfl
    exact ⟨.nil, List.nodup_nil, fun name mem => nomatch mem⟩

/-- The first source compiles to queries with new names, and the others can be loaded behind it. -/
theorem loadable_cons :
    Loadable r (asset :: rest) (part :: parts) ↔ Source.queries asset.2 = .ok part ∧
      (∀ name ∈ part.names, name ∉ r.queries.names) ∧ Loadable ⟨r.queries ++ part⟩ rest parts := by
  constructor
  · rintro ⟨compiled, distinct, new⟩
    obtain ⟨first, others⟩ := List.forall₂_cons.mp compiled
    rw [List.flatten_cons, Entries.names_append] at distinct new
    obtain ⟨-, distinct, apart⟩ := List.nodup_append.mp distinct
    refine ⟨first, fun name mem => new name (List.mem_append_left _ mem), others, distinct, ?_⟩
    intro name mem registered
    rw [Entries.names_append, List.mem_append] at registered
    rcases registered with before | mem_first
    · exact new name (List.mem_append_right _ mem) before
    · exact apart name mem_first name mem rfl
  · rintro ⟨first, new_first, others, distinct, new⟩
    simp only [Entries.names_append, List.mem_append, not_or] at new
    refine ⟨.cons first others, ?_, ?_⟩
    · rw [List.flatten_cons, Entries.names_append, List.nodup_append]
      refine ⟨(Source.queries_eq_ok_iff.mp first).2, distinct, ?_⟩
      rintro name mem_first _ mem rfl
      exact (new name mem).2 mem_first
    · rw [List.flatten_cons, Entries.names_append]
      intro name mem
      rcases List.mem_append.mp mem with mem_first | mem
      · exact new_first name mem_first
      · exact (new name mem).1

/-- Sources are all loaded exactly if the first one compiles to queries with new names and the
others are all loaded behind it. -/
theorem loadAssets_cons_eq_iff :
    r.loadAssets (asset :: rest) = ⟨next, none⟩ ↔
      ∃ part, Source.queries asset.2 = .ok part ∧ (∀ name ∈ part.names, name ∉ r.queries.names) ∧
        loadAssets ⟨r.queries ++ part⟩ rest = ⟨next, none⟩ := by
  rw [loadAssets]
  rcases r.accept_cases asset with ⟨part, compiles, new, accepts⟩ | ⟨e, fails, refuses⟩ |
    ⟨part, name, compiles, mem, registered, refuses⟩
  · simp only [accepts, compiles, Except.ok.injEq, exists_eq_left']
    exact (and_iff_right new).symm
  · simp [refuses, fails]
  · simp only [refuses, compiles, Except.ok.injEq, exists_eq_left', Outcome.mk.injEq,
      reduceCtorEq, and_false, false_iff, not_and]
    exact fun new => absurd registered (new name mem)

/-- Sources are all loaded exactly if they can be loaded together, and their queries are registered
behind the others. -/
theorem loadAssets_eq_iff :
    r.loadAssets assets = ⟨next, none⟩ ↔
      ∃ parts, Loadable r assets parts ∧ next = ⟨r.queries ++ parts.flatten⟩ := by
  induction assets generalizing r with
  | nil =>
    simp only [loadAssets, loadable_nil, exists_eq_left, List.flatten_nil, List.append_nil,
      Outcome.mk.injEq, and_true]
    exact eq_comm
  | cons asset rest ih =>
    rw [loadAssets_cons_eq_iff]
    constructor
    · rintro ⟨part, first, new, loaded⟩
      obtain ⟨parts, others, rfl⟩ := ih.mp loaded
      refine ⟨part :: parts, loadable_cons.mpr ⟨first, new, others⟩, ?_⟩
      rw [List.flatten_cons, List.append_assoc]
    · rintro ⟨_ | ⟨part, parts⟩, loadable, rfl⟩
      · cases loadable.compiled
      · obtain ⟨first, new, others⟩ := loadable_cons.mp loadable
        refine ⟨part, first, new, ih.mpr ⟨parts, others, ?_⟩⟩
        rw [List.flatten_cons, List.append_assoc]

/-! ## Other orders -/

/-- Sources that can be loaded together can be loaded in any order. -/
theorem Loadable.perm (h : Loadable r assets parts) (perm : other.Perm assets) :
    ∃ others, others.Perm parts ∧ Loadable r other others := by
  obtain ⟨others, compiled, same⟩ := List.perm_comp_forall₂ perm h.compiled
  have names : (Entries.names others.flatten).Perm (Entries.names parts.flatten) :=
    same.flatten.map Prod.fst
  refine ⟨others, same, compiled, names.nodup_iff.mpr h.distinct, fun name mem => ?_⟩
  exact h.new name (names.mem_iff.mp mem)

theorem Outcome.eq_of_error {o : Outcome} (h : o.error = none) : o = ⟨o.registry, none⟩ := by
  rw [← h]

/-- In another order, the sources are loaded as well, and every name has the same query. -/
theorem loadAssets_perm (succeeds : (r.loadAssets assets).error = none)
    (perm : other.Perm assets) :
    (r.loadAssets other).error = none ∧ ∀ name,
      (r.loadAssets other).registry.find? name = (r.loadAssets assets).registry.find? name := by
  obtain ⟨parts, loadable, same⟩ := loadAssets_eq_iff.mp (Outcome.eq_of_error succeeds)
  obtain ⟨others, same_parts, loadable_other⟩ := loadable.perm perm
  have loaded := loadAssets_eq_iff.mpr ⟨others, loadable_other, rfl⟩
  rw [loaded, same]
  refine ⟨rfl, fun name => ?_⟩
  simp only [find?, Entries.find?_append, Entries.find?_perm same_parts.flatten loadable.distinct]

/-! ## Several calls -/

/-- What calls that each load sources lead to, one behind another: the registry behind the last one,
and what each is answered. -/
def loadCalls (r : Registry) : List (List Asset) → Registry × List (Option Error)
  | [] => (r, [])
  | assets :: calls =>
    let outcome := r.loadAssets assets
    let (last, errors) := outcome.registry.loadCalls calls
    (last, outcome.error :: errors)

/-- Sources behind others are loaded if the others are all loaded. -/
theorem loadAssets_append (r : Registry) (assets rest : List Asset) :
    r.loadAssets (assets ++ rest) =
      match r.loadAssets assets with
      | ⟨next, none⟩ => next.loadAssets rest
      | ⟨next, some e⟩ => ⟨next, some e⟩ := by
  induction assets generalizing r with
  | nil => rfl
  | cons asset assets ih =>
    rw [List.cons_append, loadAssets, loadAssets]
    cases r.accept asset.1 asset.2 with
    | ok next => exact ih next
    | error e => rfl

/-- Calls all succeed exactly if one call with all their sources does, and lead to the same. -/
theorem loadCalls_eq_iff {calls : List (List Asset)} :
    ((r.loadCalls calls).1 = last ∧ ∀ error ∈ (r.loadCalls calls).2, error = none) ↔
      r.loadAssets calls.flatten = ⟨last, none⟩ := by
  induction calls generalizing r with
  | nil => simp [loadCalls, loadAssets]
  | cons assets calls ih =>
    rw [List.flatten_cons, loadAssets_append]
    simp only [loadCalls, List.forall_mem_cons]
    obtain ⟨next, _ | e⟩ := r.loadAssets assets
    · simp only [true_and, ih]
    · simp

/-- The order in which sources are loaded does not matter. If sources are all loaded, they are all
loaded in any other order, and in several calls that follow one another, however they are
distributed among these; and every name has the same query in the end. If they are not all loaded,
they are not in any other order or in several calls either. -/
theorem loadAssets_order_free (r : Registry) (assets : List Asset) :
    ((r.loadAssets assets).error = none →
      (∀ other : List Asset, other.Perm assets → (r.loadAssets other).error = none ∧
        ∀ name, (r.loadAssets other).registry.find? name =
          (r.loadAssets assets).registry.find? name) ∧
      ∀ calls : List (List Asset), calls.flatten.Perm assets →
        (∀ error ∈ (r.loadCalls calls).2, error = none) ∧
        ∀ name, (r.loadCalls calls).1.find? name =
          (r.loadAssets assets).registry.find? name) ∧
    ((r.loadAssets assets).error ≠ none →
      (∀ other : List Asset, other.Perm assets → (r.loadAssets other).error ≠ none) ∧
      ∀ calls : List (List Asset), calls.flatten.Perm assets →
        ∃ error ∈ (r.loadCalls calls).2, error ≠ none) := by
  constructor
  · intro succeeds
    refine ⟨fun other perm => loadAssets_perm succeeds perm, fun calls perm => ?_⟩
    obtain ⟨succeeds_together, same⟩ := loadAssets_perm succeeds perm
    obtain ⟨last, succeed⟩ := loadCalls_eq_iff.mpr (Outcome.eq_of_error succeeds_together)
    exact ⟨succeed, last ▸ same⟩
  · intro fails
    have fails_other (other : List Asset) (perm : other.Perm assets) :
        (r.loadAssets other).error ≠ none :=
      fun succeeds => fails (loadAssets_perm succeeds perm.symm).1
    refine ⟨fails_other, fun calls perm => ?_⟩
    by_contra succeed
    push Not at succeed
    have loaded := loadCalls_eq_iff.mp ⟨rfl, succeed⟩
    exact fails_other _ perm (congrArg Outcome.error loaded)

/-- Behind a source with the name `a`, two others are loaded in either order and in two calls, and
another source with this name in neither order. -/
theorem loadAssets_order_free_three :
    let r := (empty.loadAssets [("a.sql", "-- @query a\n1")]).registry
    let b : Asset := ("b.sql", "-- @query b\n2")
    let c : Asset := ("c.sql", "-- @query c\n3")
    let again : Asset := ("d.sql", "-- @query a\n4")
    ((r.loadAssets [b, c]).error = none ∧ (r.loadAssets [c, b]).error = none ∧
      (∀ error ∈ (r.loadCalls [[c], [b]]).2, error = none) ∧
      ∀ name, (r.loadCalls [[c], [b]]).1.find? name = (r.loadAssets [b, c]).registry.find? name) ∧
    (r.loadAssets [b, again]).error ≠ none ∧ (r.loadAssets [again, b]).error ≠ none := by
  have answers :
      let r := (empty.loadAssets [("a.sql", "-- @query a\n1")]).registry
      (r.loadAssets [("b.sql", "-- @query b\n2"), ("c.sql", "-- @query c\n3")]).error = none ∧
      (r.loadAssets [("b.sql", "-- @query b\n2"), ("d.sql", "-- @query a\n4")]).error.isSome =
        true := by
    cbv
  intro r b c again
  obtain ⟨succeeds, fails⟩ := answers
  obtain ⟨in_order, in_calls⟩ := (loadAssets_order_free r [b, c]).1 succeeds
  obtain ⟨succeed, same⟩ := in_calls [[c], [b]] (.swap ..)
  have refused := Option.isSome_iff_ne_none.mp fails
  obtain ⟨refused_order, -⟩ := (loadAssets_order_free r [b, again]).2 refused
  exact ⟨⟨succeeds, (in_order [c, b] (.swap ..)).1, succeed, same⟩, refused,
    refused_order [again, b] (.swap ..)⟩

end Registry

end SqlTemplate
