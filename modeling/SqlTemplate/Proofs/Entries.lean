import Mathlib.Data.List.Induction
import Mathlib.Data.List.Nodup
import SqlTemplate.Entries

/-!
# Entries that are added behind others

Entries are also put behind one another, without `put`. As long as their names are apart, a name has
the entry that it was added with, and keeps it.
-/

namespace SqlTemplate

namespace Entries

variable {α : Type}

theorem names_append (entries others : Entries α) :
    names (entries ++ others) = names entries ++ names others := List.map_append

/-- Names stay apart when an entry with a new name comes behind. -/
theorem nodup_names_concat {entries : Entries α} {entry : String × α} :
    (names (entries ++ [entry])).Nodup ↔ (names entries).Nodup ∧ entry.1 ∉ names entries := by
  rw [names_append, List.nodup_append_comm, List.nodup_append]
  constructor
  · rintro ⟨-, apart, new⟩
    exact ⟨apart, fun mem => new entry.1 (List.mem_singleton.mpr rfl) entry.1 mem rfl⟩
  · rintro ⟨apart, new⟩
    refine ⟨List.nodup_singleton _, apart, ?_⟩
    rintro _ last name mem rfl
    exact new (List.mem_singleton.mp last ▸ mem)

/-- A new name is put behind all others. -/
theorem put_of_notMem {name : String} {entries : Entries α} (new : name ∉ names entries) (a : α) :
    put name a entries = entries ++ [(name, a)] := by
  induction entries with
  | nil => rfl
  | cons entry rest ih =>
    obtain ⟨key, b⟩ := entry
    obtain ⟨here, behind⟩ := not_or.mp (mt List.mem_cons.mpr new)
    rw [put, if_neg (Ne.symm here), ih behind, List.cons_append]

/-- What belongs to a name can be put without a change to the names. -/
theorem names_put_of_mem {name : String} {entries : Entries α} (known : name ∈ names entries)
    (a : α) : names (put name a entries) = names entries := by
  induction entries with
  | nil => cases known
  | cons entry rest ih =>
    obtain ⟨key, b⟩ := entry
    rw [put]
    by_cases same : key = name
    · rw [if_pos same, same]
      rfl
    · rw [if_neg same]
      have behind := (List.mem_cons.mp known).resolve_left (Ne.symm same)
      exact congrArg (List.cons key) (ih behind)

/-- Names stay apart under `put`. -/
theorem nodup_names_put {entries : Entries α} (h : (names entries).Nodup) (name : String) (a : α) :
    (names (put name a entries)).Nodup := by
  by_cases known : name ∈ names entries
  · rwa [names_put_of_mem known]
  · rw [put_of_notMem known]
    exact nodup_names_concat.mpr ⟨h, known⟩

/-- Where no name comes twice, no pair takes the place of another. -/
theorem ofList_eq_self {pairs : List (String × α)} (h : (names pairs).Nodup) :
    ofList pairs = pairs := by
  induction pairs using List.reverseRecOn with
  | nil => rfl
  | append_singleton pairs pair ih =>
    obtain ⟨distinct, new⟩ := nodup_names_concat.mp h
    rw [ofList, List.foldl_concat]
    change put pair.1 pair.2 (ofList pairs) = _
    rw [ih distinct, put_of_notMem new]

/-- Where no name comes twice, looking a name up gives the only entry that it has. -/
theorem find?_eq_some_iff {entries : Entries α} (h : (names entries).Nodup) {name : String}
    {a : α} : find? name entries = some a ↔ (name, a) ∈ entries := by
  induction entries with
  | nil => simp
  | cons entry rest ih =>
    obtain ⟨key, b⟩ := entry
    obtain ⟨new, apart⟩ := List.nodup_cons.mp h
    rw [find?_cons, List.mem_cons]
    by_cases same : key = name
    · subst same
      rw [if_pos rfl]
      refine ⟨fun found => .inl (congrArg (Prod.mk key) (Option.some.inj found).symm), ?_⟩
      rintro (found | behind)
      · rw [(Prod.mk.inj found).2]
      · exact absurd (List.mem_map_of_mem behind) new
    · rw [if_neg same, ih apart]
      refine ⟨.inr, ?_⟩
      rintro (found | behind)
      · exact absurd (Prod.mk.inj found).1.symm same
      · exact behind

/-- Where no name comes twice, the order of the entries does not matter. -/
theorem find?_perm {entries others : Entries α} (h : others.Perm entries)
    (distinct : (names entries).Nodup) (name : String) :
    find? name others = find? name entries := by
  have distinct_others : (names others).Nodup := (h.map Prod.fst).nodup_iff.mpr distinct
  refine Option.ext fun a => ?_
  rw [find?_eq_some_iff distinct, find?_eq_some_iff distinct_others, h.mem_iff]

/-- What a name has stays with it when entries come behind. -/
theorem find?_of_isPrefix {entries all : Entries α} (h : entries <+: all) {name : String} {a : α}
    (found : find? name entries = some a) : find? name all = some a := by
  obtain ⟨added, rfl⟩ := h
  rw [find?_append, found]
  rfl

end Entries

end SqlTemplate
