import Mathlib.Data.List.Forall2
import SqlTemplate.Proofs.Data.Parts

/-!
# Maps that are told pair by pair

A map that is told in keys and values by turns has the entries of its pairs, where a later one takes
the place of an earlier one of the same name (`Data.toValue_ofPairs_of_entries`).

Keys of different variants can share a name, such as the character `1` and the number. Among keys of
one variant this does not happen (`KeyVariant.Has.keyName_injective`), so that no pair takes another
one's place if all keys are different and of one variant (`Data.toValue_ofPairs_of_distinct`).
-/

namespace SqlTemplate

/-! ## Keys of one variant -/

/-- The variants of keys. Integers of different widths are of different variants. -/
inductive KeyVariant where
  | string
  | char
  | int (width : IntWidth)
  deriving DecidableEq, Repr

/-- The keys of a variant. -/
inductive KeyVariant.Has : KeyVariant → Value → Prop
  | string (s : String) : Has .string (.string s)
  | char (c : Char) : Has .char (.char c)
  | int (width : IntWidth) (n : width.Carrier) : Has (.int width) (.int width n)

namespace KeyVariant.Has

variable {variant : KeyVariant} {v w : Value}

/-- Every key of a variant names an entry. -/
theorem exists_keyName (h : variant.Has v) : ∃ name, v.keyName = .ok name := by
  cases h with
  | string s => exact ⟨s, rfl⟩
  | char c => exact ⟨c.toString, rfl⟩
  | int width n => exact ⟨Text.integer n.val, rfl⟩

/-- Different keys of one variant name different entries. -/
theorem keyName_injective (hv : variant.Has v) (hw : variant.Has w)
    (same : v.keyName = w.keyName) : v = w := by
  cases hv with
  | string s =>
    obtain ⟨t⟩ := hw
    exact congrArg Value.string (Except.ok.inj same)
  | char c =>
    obtain ⟨d⟩ := hw
    exact congrArg Value.char (String.singleton_inj.mp (Except.ok.inj same))
  | int width n =>
    obtain _ | _ | ⟨_, m⟩ := hw
    have numbers : n.val = m.val := Text.integer_injective (Except.ok.inj same)
    exact congrArg (Value.int width) (Subtype.ext numbers)

end KeyVariant.Has

/-! ## Entries of pairs -/

namespace Data

/-- An entry is what a pair stands for: the name of its key and the value. -/
structure IsEntry (pair : Data × Data) (entry : String × Value) : Prop where
  key : pair.1.keyName = .ok entry.1
  value : pair.2.toValue = .ok entry.2

section Entries

variable {pairs : List (Data × Data)} {told : Entries Value}

/-- A key and a value that follow one another put an entry. -/
theorem mapParts_pair {pair : Data × Data} {entry : String × Value} (h : IsEntry pair entry)
    (entries : Entries Value) (rest : Parts) :
    mapParts ⟨entries, none⟩ ((.key, pair.1) :: (.value, pair.2) :: rest) =
      mapParts ⟨entries.put entry.1 entry.2, none⟩ rest := by
  have key : MapDraft.part ⟨entries, none⟩ (.key, pair.1) = .ok ⟨entries, some entry.1⟩ := by
    rw [MapDraft.part_key, h.key]
    rfl
  have value : MapDraft.part ⟨entries, some entry.1⟩ (.value, pair.2) =
      .ok ⟨entries.put entry.1 entry.2, none⟩ := by
    rw [MapDraft.part, MapDraft.value_of_some rfl, h.value]
    rfl
  simp only [MapDraft.mapParts_eq_foldlM]
  rw [List.foldlM_cons, key]
  change List.foldlM MapDraft.part ⟨entries, some entry.1⟩ _ = _
  rw [List.foldlM_cons, value]
  rfl

/-- Pairs put their entries one after another. -/
theorem mapParts_pairs (h : List.Forall₂ IsEntry pairs told) (entries : Entries Value) :
    mapParts ⟨entries, none⟩ (pairs.flatMap fun (key, value) => [(.key, key), (.value, value)]) =
      .ok ⟨told.foldl (fun entries (name, v) => entries.put name v) entries, none⟩ := by
  induction h generalizing entries with
  | nil => rfl
  | cons entry _ ih =>
    rw [List.flatMap_cons]
    exact (mapParts_pair entry entries _).trans (ih _)

/-- A map that is told pair by pair has the entries of its pairs, where a later one takes the place
of an earlier one of the same name. -/
theorem toValue_ofPairs_of_entries (h : List.Forall₂ IsEntry pairs told) :
    (ofPairs pairs).toValue = .ok (.map (Entries.ofList told)) := by
  rw [ofPairs, toValue, MapDraft.empty, mapParts_pairs h]
  rfl

/-- A map that is told pair by pair loses no entry if all keys are of one variant and no two of them
are the same: it has as many entries as there are pairs, and the name of a key has the value of its
pair. -/
theorem toValue_ofPairs_of_distinct {variant : KeyVariant}
    (keys : ∀ pair ∈ pairs, ∃ key, pair.1.toValue = .ok key ∧ variant.Has key)
    (distinct : pairs.Pairwise fun pair other => pair.1.toValue ≠ other.1.toValue)
    (values : ∀ pair ∈ pairs, ∃ v, pair.2.toValue = .ok v) :
    ∃ entries : Entries Value, (ofPairs pairs).toValue = .ok (.map entries) ∧
      entries.length = pairs.length ∧ entries.names.Nodup ∧
      ∀ pair ∈ pairs, ∃ name v, pair.1.keyName = .ok name ∧ pair.2.toValue = .ok v ∧
        entries.find? name = some v := by
  have filled : ∀ pair ∈ pairs, ∃ entry, IsEntry pair entry := by
    intro pair mem
    obtain ⟨key, told, has⟩ := keys pair mem
    obtain ⟨name, named⟩ := has.exists_keyName
    obtain ⟨v, value⟩ := values pair mem
    refine ⟨(name, v), ?_, value⟩
    rw [keyName, told]
    exact named
  have : Nonempty (String × Value) := ⟨"", .null⟩
  choose! entry is_entry using filled
  have told : List.Forall₂ IsEntry pairs (pairs.map entry) :=
    List.forall₂_map_right_iff.mpr (List.forall₂_same.mpr is_entry)
  have names : (Entries.names (pairs.map entry)).Nodup := by
    rw [Entries.names, List.map_map]
    apply List.pairwise_map.mpr
    apply distinct.imp_of_mem
    intro pair other mem mem_other different same
    change (entry pair).1 = (entry other).1 at same
    -- keys of one name are the same, since they are of one variant
    obtain ⟨key, told, has⟩ := keys pair mem
    obtain ⟨key', told', has'⟩ := keys other mem_other
    have named := (is_entry pair mem).key
    have named' := (is_entry other mem_other).key
    rw [keyName, told] at named
    rw [keyName, told'] at named'
    apply different
    rw [told, told', has.keyName_injective has' (named.trans (same ▸ named'.symm))]
  refine ⟨pairs.map entry, ?_, List.length_map .., names, ?_⟩
  · rw [toValue_ofPairs_of_entries told, Entries.ofList_eq_self names]
  · intro pair mem
    refine ⟨_, _, (is_entry pair mem).key, (is_entry pair mem).value, ?_⟩
    exact (Entries.find?_eq_some_iff names).mpr (List.mem_map_of_mem mem)

end Entries

/-- Three bytes with a sign, one of them wrapped, whose texts begin alike. -/
theorem toValue_ofPairs_of_distinct_signed :
    ∃ (pairs : List (Data × Data)) (entries : Entries Value),
      pairs = [(.int .i8 ⟨1, by decide⟩, .bool true), (.int .i8 ⟨-1, by decide⟩, .empty .unit),
        (.wrapped .named (.int .i8 ⟨-128, by decide⟩), .sequence .plain [.char '1'])] ∧
      (∀ pair ∈ pairs, ∃ key, pair.1.toValue = .ok key ∧ (KeyVariant.int .i8).Has key) ∧
      (pairs.Pairwise fun pair other => pair.1.toValue ≠ other.1.toValue) ∧
      (∀ pair ∈ pairs, ∃ v, pair.2.toValue = .ok v) ∧
      (ofPairs pairs).toValue = .ok (.map entries) ∧ entries.length = 3 ∧ entries.names.Nodup ∧
      entries.find? "-128" = some (.list [.char '1']) := by
  let pairs : List (Data × Data) :=
    [(.int .i8 ⟨1, by decide⟩, .bool true), (.int .i8 ⟨-1, by decide⟩, .empty .unit),
      (.wrapped .named (.int .i8 ⟨-128, by decide⟩), .sequence .plain [.char '1'])]
  have apart (m n : IntWidth.i8.Carrier) (h : m.val ≠ n.val) :
      (int .i8 m).toValue ≠ (int .i8 n).toValue := by
    intro same
    cases same
    exact h rfl
  have keys : ∀ pair ∈ pairs, ∃ key, pair.1.toValue = .ok key ∧ (KeyVariant.int .i8).Has key := by
    simp only [pairs, List.forall_mem_cons]
    exact ⟨⟨_, rfl, .int ..⟩, ⟨_, rfl, .int ..⟩, ⟨_, rfl, .int ..⟩, List.forall_mem_nil _⟩
  have distinct : pairs.Pairwise fun pair other => pair.1.toValue ≠ other.1.toValue := by
    simp only [pairs, List.pairwise_cons, List.forall_mem_cons]
    exact ⟨⟨apart _ _ (by decide), apart _ _ (by decide), List.forall_mem_nil _⟩,
      ⟨apart _ _ (by decide), List.forall_mem_nil _⟩, List.forall_mem_nil _, .nil⟩
  have values : ∀ pair ∈ pairs, ∃ v, pair.2.toValue = .ok v := by
    simp only [pairs, List.forall_mem_cons]
    exact ⟨⟨_, rfl⟩, ⟨_, rfl⟩, ⟨_, rfl⟩, List.forall_mem_nil _⟩
  obtain ⟨entries, told, length, names, found⟩ := toValue_ofPairs_of_distinct keys distinct values
  obtain ⟨name, v, named, value, last⟩ := found (.wrapped .named (.int .i8 ⟨-128, by decide⟩),
    .sequence .plain [.char '1']) (List.mem_cons_of_mem _ (List.mem_cons_of_mem _
      (List.mem_singleton_self _)))
  cases named
  cases value
  exact ⟨pairs, entries, rfl, keys, distinct, values, told, length, names, last⟩

end Data

end SqlTemplate
