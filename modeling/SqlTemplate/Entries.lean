/-!
# Entries by name

A list of pairs of a name and what belongs to it, in which no name comes twice as long as entries
are added with `put` alone. A later entry takes the place of an earlier one of the same name
(`find?_put`).
-/

namespace SqlTemplate

/-- Pairs of a name and what belongs to it. -/
abbrev Entries (α : Type) := List (String × α)

namespace Entries

variable {α : Type}

/-- What belongs to a name. -/
def find? (name : String) : Entries α → Option α
  | [] => none
  | (key, a) :: rest => if key = name then some a else find? name rest

/-- Sets what belongs to a name: in the place of the old entry, or behind all others. -/
def put (name : String) (a : α) : Entries α → Entries α
  | [] => [(name, a)]
  | (key, b) :: rest => if key = name then (name, a) :: rest else (key, b) :: put name a rest

/-- The entries of a list of pairs, where a later pair takes the place of an earlier one of the same
name. -/
def ofList (pairs : List (String × α)) : Entries α :=
  pairs.foldl (fun entries (name, a) => put name a entries) []

/-- The names that have an entry. -/
def names (entries : Entries α) : List String := entries.map Prod.fst

@[simp] theorem find?_nil (name : String) : find? name ([] : Entries α) = none := rfl

theorem find?_cons (name key : String) (a : α) (rest : Entries α) :
    find? name ((key, a) :: rest) = if key = name then some a else find? name rest := rfl

/-- After `put`, the name has the new entry and every other name what it had. -/
theorem find?_put (name other : String) (a : α) (entries : Entries α) :
    find? other (put name a entries) = if name = other then some a else find? other entries := by
  induction entries with
  | nil => rfl
  | cons entry rest ih =>
    obtain ⟨key, b⟩ := entry
    rw [put]
    by_cases h : key = name
    · subst h
      rw [if_pos rfl, find?_cons, find?_cons]
      split <;> rfl
    · rw [if_neg h, find?_cons, ih, find?_cons]
      by_cases k : key = other
      · subst k
        rw [if_pos rfl, if_pos rfl, if_neg (Ne.symm h)]
      · rw [if_neg k, if_neg k]

/-- A name has an entry exactly when it is among the names. -/
theorem isSome_find?_iff {name : String} {entries : Entries α} :
    (find? name entries).isSome = true ↔ name ∈ names entries := by
  induction entries with
  | nil => simp [names]
  | cons entry rest ih =>
    obtain ⟨key, b⟩ := entry
    rw [find?_cons]
    by_cases h : key = name
    · simp [h, names]
    · rw [if_neg h, ih]
      simp [names, Ne.symm h]

/-- Among entries and others behind them, a name has what it has among the first ones, if it is
there. -/
theorem find?_append (name : String) (entries others : Entries α) :
    find? name (entries ++ others) = (find? name entries).or (find? name others) := by
  induction entries with
  | nil => rfl
  | cons entry rest ih =>
    obtain ⟨key, b⟩ := entry
    rw [List.cons_append, find?_cons, find?_cons, ih]
    split <;> rfl

end Entries

end SqlTemplate
