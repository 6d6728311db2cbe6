import Mathlib.Data.List.DropRight
import SqlTemplate.Data
import SqlTemplate.Proofs.Entries
import SqlTemplate.Proofs.Steps

/-!
# Maps that are told in parts

A map is told in keys and values, in any order. What comes of it is said here from the parts alone,
without the map in the making.

* A part fails if its data does, a key also if it is of a kind that names no entry, and a value
  first of all if no key has been told since the last value (`Parts.Fails`).
* A name has the last value that was told under it, that is, behind a last key of that name
  (`Parts.LastTold`). Keys that no value follows leave nothing behind.

A map in the making goes with the parts told so far (`Parts.Drafted`), and each step keeps this up
(`Parts.traced_step`). The main statement is `Data.toValue_map_parts`.
-/

namespace SqlTemplate

/-! ## Keys -/

namespace Value

/-- The kinds of values that name an entry. -/
def keyKinds : List ValueKind := [.string, .char, .integer]

theorem keyName_eq_error_iff {v : Value} {e : EncodingError} :
    v.keyName = .error e ↔ v.kind ∉ keyKinds ∧ e = .badKey v.kind := by
  cases v <;> simp [keyName, kind, keyKinds, eq_comm]

end Value

/-- The name that data gives to an entry as its key. -/
def Data.keyName (key : Data) : Except EncodingError String := key.toValue.bind Value.keyName

/-! ## Parts -/

/-- The parts in which a map is told. -/
abbrev Parts := List (MapPart × Data)

namespace Parts

/-- The keys that have been told since the last value, or since the start. -/
def openKeys (parts : Parts) : Parts := parts.rtakeWhile fun part => part.1 = .key

/-- The last of all keys. -/
def lastKey? (parts : Parts) : Option Data :=
  (parts.filter fun part => part.1 = .key).getLast?.map Prod.snd

/-- The part at a place is a value that is told under a name: the last key before it has the
name. -/
structure ToldAt (parts : Parts) (i : Nat) (name : String) (v : Value) : Prop where
  value : ∃ value, parts[i]? = some (.value, value) ∧ value.toValue = .ok v
  key : ∃ key, lastKey? (parts.take i) = some key ∧ key.keyName = .ok name

/-- The last value that is told under a name. -/
def LastTold (parts : Parts) (name : String) (v : Value) : Prop :=
  ∃ i, parts.ToldAt i name v ∧ ∀ j, i < j → ∀ w, ¬parts.ToldAt j name w

/-- How a part fails behind the parts before it. -/
inductive Fails (before : Parts) : MapPart × Data → EncodingError → Prop
  | key {key : Data} {e : EncodingError} (fails : key.toValue = .error e) :
      Fails before (.key, key) e
  | badKey {key : Data} {v : Value} (told : key.toValue = .ok v) (bad : v.kind ∉ Value.keyKinds) :
      Fails before (.key, key) (.badKey v.kind)
  | unkeyed {value : Data} (none : before.openKeys = []) :
      Fails before (.value, value) .valueBeforeKey
  | value {value : Data} {e : EncodingError} (keyed : before.openKeys ≠ [])
      (fails : value.toValue = .error e) : Fails before (.value, value) e

/-- Parts none of which fails. -/
structure Sound (parts : Parts) : Prop where
  /-- each key is a string, a character or an integer -/
  keys : ∀ key, (.key, key) ∈ parts → ∃ v, key.toValue = .ok v ∧ v.kind ∈ Value.keyKinds
  /-- each value stands for one -/
  values : ∀ value, (.value, value) ∈ parts → ∃ v, value.toValue = .ok v
  /-- before each value a key has been told since the last one -/
  keyed : ∀ before value behind, parts = before ++ (.value, value) :: behind →
    openKeys before ≠ []

variable {parts before : Parts} {key value : Data} {name other : String} {v w : Value} {i : Nat}

/-! ### One more part -/

theorem openKeys_concat_key (parts : Parts) (key : Data) :
    openKeys (parts ++ [(.key, key)]) = parts.openKeys ++ [(.key, key)] := by
  rw [openKeys, List.rtakeWhile_concat_pos _ _ _ (by simp)]
  rfl

theorem openKeys_concat_value (parts : Parts) (value : Data) :
    openKeys (parts ++ [(.value, value)]) = [] := by
  rw [openKeys, List.rtakeWhile_concat_neg _ _ _ (by simp)]

theorem lastKey?_concat_key (parts : Parts) (key : Data) :
    lastKey? (parts ++ [(.key, key)]) = some key := by
  simp [lastKey?]

theorem ToldAt.lt_length (h : parts.ToldAt i name v) : i < parts.length := by
  obtain ⟨value, at_place, -⟩ := h.value
  exact (List.getElem?_eq_some_iff.mp at_place).1

/-- What is told in parts and one more behind them: what was told before, and the last part if it is
a value behind a key. -/
theorem toldAt_concat_iff {kind : MapPart} {data : Data} :
    ToldAt (parts ++ [(kind, data)]) i name v ↔
      parts.ToldAt i name v ∨ i = parts.length ∧ kind = .value ∧ data.toValue = .ok v ∧
        ∃ key, parts.lastKey? = some key ∧ key.keyName = .ok name := by
  rcases Nat.lt_trichotomy i parts.length with before | rfl | behind
  · have place : (parts ++ [(kind, data)])[i]? = parts[i]? := List.getElem?_append_left before
    have front : (parts ++ [(kind, data)]).take i = parts.take i :=
      List.take_append_of_le_length (Nat.le_of_lt before)
    constructor
    · intro told
      exact .inl ⟨place ▸ told.value, front ▸ told.key⟩
    · rintro (told | ⟨rfl, -⟩)
      · exact ⟨place ▸ told.value, front ▸ told.key⟩
      · exact absurd before (Nat.lt_irrefl _)
  · constructor
    · rintro ⟨⟨value, place, told⟩, named⟩
      rw [List.getElem?_concat_length] at place
      rw [List.take_left] at named
      cases place
      exact .inr ⟨rfl, rfl, told, named⟩
    · rintro (told | ⟨-, rfl, told, named⟩)
      · exact absurd told.lt_length (Nat.lt_irrefl _)
      · refine ⟨⟨data, List.getElem?_concat_length, told⟩, ?_⟩
        rwa [List.take_left]
  · constructor
    · intro told
      have := told.lt_length
      rw [List.length_append, List.length_singleton] at this
      omega
    · rintro (told | ⟨rfl, -⟩)
      · have := told.lt_length
        omega
      · exact absurd behind (Nat.lt_irrefl _)

/-- A key tells nothing under any name. -/
theorem lastTold_concat_key (parts : Parts) (key : Data) (name : String) (v : Value) :
    LastTold (parts ++ [(.key, key)]) name v ↔ parts.LastTold name v := by
  simp [LastTold, toldAt_concat_iff]

/-- A value is the last one that is told under the name of the last key. -/
theorem lastTold_concat_value (last : parts.lastKey? = some key) (named : key.keyName = .ok name)
    (told : value.toValue = .ok v) (other : String) (w : Value) :
    LastTold (parts ++ [(.value, value)]) other w ↔
      if name = other then v = w else parts.LastTold other w := by
  -- under another name nothing is told at the new place
  have here {other : String} {w : Value} {i : Nat} :
      ToldAt (parts ++ [(.value, value)]) i other w ↔
        parts.ToldAt i other w ∨ i = parts.length ∧ v = w ∧ name = other := by
    simp [toldAt_concat_iff, last, named, told]
  by_cases same : name = other
  · subst same
    rw [if_pos rfl]
    constructor
    · rintro ⟨i, at_place, latest⟩
      rcases here.mp at_place with earlier | ⟨-, rfl, -⟩
      · exact absurd (here.mpr (.inr ⟨rfl, rfl, rfl⟩)) (latest _ earlier.lt_length v)
      · rfl
    · rintro rfl
      refine ⟨parts.length, here.mpr (.inr ⟨rfl, rfl, rfl⟩), ?_⟩
      intro j later w again
      have := again.lt_length
      rw [List.length_append, List.length_singleton] at this
      omega
  · rw [if_neg same]
    simp [LastTold, here, same]

/-! ## Failing parts -/

theorem fails_key_iff {e : EncodingError} :
    Fails before (.key, key) e ↔ key.keyName = .error e := by
  rw [Data.keyName]
  constructor
  · rintro (fails | ⟨told, bad⟩)
    · rw [fails]
      rfl
    · rw [told]
      exact Value.keyName_eq_error_iff.mpr ⟨bad, rfl⟩
  · intro fails
    cases told : key.toValue with
    | error other =>
      rw [told] at fails
      cases fails
      exact .key told
    | ok v =>
      rw [told] at fails
      obtain ⟨bad, rfl⟩ := Value.keyName_eq_error_iff.mp fails
      exact .badKey told bad

/-- Parts are sound exactly if none of them fails behind those before it. -/
theorem sound_iff : parts.Sound ↔
    ∀ front part later, parts = front ++ part :: later → ∀ e, ¬Fails front part e := by
  constructor
  · rintro sound front part later rfl e fails
    have mem : part ∈ front ++ part :: later := List.mem_append_right _ (List.mem_cons_self ..)
    cases fails with
    | key fails =>
      obtain ⟨v, told, -⟩ := sound.keys _ mem
      cases fails.symm.trans told
    | badKey told bad =>
      obtain ⟨w, again, good⟩ := sound.keys _ mem
      cases told.symm.trans again
      exact bad good
    | unkeyed none => exact sound.keyed _ _ _ rfl none
    | value _ fails =>
      obtain ⟨v, told⟩ := sound.values _ mem
      cases fails.symm.trans told
  · intro none
    refine ⟨?_, ?_, ?_⟩
    · intro key mem
      obtain ⟨front, later, rfl⟩ := List.append_of_mem mem
      cases told : key.toValue with
      | error e => exact absurd (.key told) (none _ _ _ rfl e)
      | ok v =>
        refine ⟨v, rfl, ?_⟩
        by_contra bad
        exact none _ _ _ rfl _ (.badKey told bad)
    · intro value mem
      obtain ⟨front, later, rfl⟩ := List.append_of_mem mem
      cases told : value.toValue with
      | ok v => exact ⟨v, rfl⟩
      | error e =>
        by_cases keyed : openKeys front = []
        · exact absurd (.unkeyed keyed) (none _ _ _ rfl _)
        · exact absurd (.value keyed told) (none _ _ _ rfl e)
    · intro front value later whole unkeyed
      exact none _ _ _ whole _ (.unkeyed unkeyed)

/-! ## Maps in the making -/

/-- A map in the making goes with the parts that have been told. -/
structure Drafted (parts : Parts) (d : MapDraft) : Prop where
  /-- no name has two entries -/
  distinct : d.entries.names.Nodup
  /-- a name has the last value that was told under it -/
  found : ∀ name v, d.entries.find? name = some v ↔ parts.LastTold name v
  /-- a key is waiting if one has been told since the last value -/
  pending_none : d.pending = none ↔ parts.openKeys = []
  /-- the name that is waiting is that of the last key -/
  pending_some : ∀ name, d.pending = some name →
    ∃ key, parts.lastKey? = some key ∧ key.keyName = .ok name

theorem drafted_empty : Drafted [] .empty := by
  refine ⟨List.nodup_nil, ?_, iff_of_true rfl rfl, nofun⟩
  intro name v
  refine iff_of_false nofun ?_
  rintro ⟨i, told, -⟩
  exact absurd told.lt_length (Nat.not_lt_zero i)

end Parts

namespace MapDraft

/-- Takes a part. -/
def part (d : MapDraft) : MapPart × Data → Except EncodingError MapDraft
  | (.key, key) => key.toValue.bind d.key
  | (.value, value) => d.value value.toValue

/-- Parts are taken one after another. -/
theorem mapParts_eq_foldlM (d : MapDraft) (parts : Parts) :
    Data.mapParts d parts = parts.foldlM part d := by
  induction parts generalizing d with
  | nil => rfl
  | cons first rest ih =>
    obtain ⟨_ | _, data⟩ := first
    · rw [Data.mapParts, List.foldlM_cons]
      simp only [← ih, part]
      cases data.toValue <;> rfl
    · rw [Data.mapParts, List.foldlM_cons]
      simp only [← ih, part]

theorem value_of_none {d : MapDraft} (h : d.pending = none) (value : Except EncodingError Value) :
    d.value value = .error .valueBeforeKey := by
  rw [MapDraft.value, h]

theorem value_of_some {d : MapDraft} {name : String} (h : d.pending = some name)
    (value : Except EncodingError Value) :
    d.value value = value.map fun v => ⟨d.entries.put name v, none⟩ := by
  rw [MapDraft.value, h]

theorem part_key (d : MapDraft) (key : Data) :
    d.part (.key, key) = key.keyName.map fun name => { d with pending := some name } := by
  rw [part, Data.keyName]
  cases key.toValue <;> rfl

end MapDraft

namespace Parts

open MapDraft (part)

/-- A part that is taken is one more that the map goes with, and a part that is not taken fails
behind those before it. -/
theorem traced_part : Traced MapDraft.part Drafted Fails := by
  refine ⟨?_, ?_⟩
  · rintro before d next ⟨_ | _, data⟩ drafted ok
    · rw [MapDraft.part_key] at ok
      obtain ⟨name, named, rfl⟩ := map_eq_ok ok
      refine ⟨drafted.distinct, ?_, ?_, ?_⟩
      · intro other v
        rw [lastTold_concat_key]
        exact drafted.found other v
      · rw [openKeys_concat_key]
        exact iff_of_false nofun (by simp)
      · rintro _ ⟨⟩
        exact ⟨data, lastKey?_concat_key before data, named⟩
    · rw [MapDraft.part] at ok
      cases waiting : d.pending with
      | none =>
        rw [MapDraft.value_of_none waiting] at ok
        cases ok
      | some name =>
        rw [MapDraft.value_of_some waiting] at ok
        obtain ⟨v, told, rfl⟩ := map_eq_ok ok
        obtain ⟨key, last, named⟩ := drafted.pending_some name waiting
        refine ⟨Entries.nodup_names_put drafted.distinct name v, ?_, ?_, nofun⟩
        · intro other w
          rw [lastTold_concat_value last named told, Entries.find?_put]
          split
          · exact Option.some_inj
          · exact drafted.found other w
        · exact iff_of_true rfl (openKeys_concat_value before data)
  · rintro before d ⟨_ | _, data⟩ e drafted
    · rw [MapDraft.part_key, map_eq_error_iff, fails_key_iff]
    · rw [MapDraft.part]
      cases waiting : d.pending with
      | none =>
        have unkeyed := drafted.pending_none.mp waiting
        rw [MapDraft.value_of_none waiting]
        constructor
        · rintro ⟨⟩
          exact .unkeyed unkeyed
        · rintro (_ | _ | _ | ⟨keyed, -⟩)
          · rfl
          · exact absurd unkeyed keyed
      | some name =>
        have keyed : openKeys before ≠ [] := by
          rw [Ne, ← drafted.pending_none, waiting]
          nofun
        rw [MapDraft.value_of_some waiting, map_eq_error_iff]
        constructor
        · exact .value keyed
        · rintro (_ | _ | unkeyed | ⟨-, fails⟩)
          · exact absurd unkeyed keyed
          · exact fails

end Parts

/-- A map that is told in parts stands for a value exactly if each key is a string, a character or
an integer, each value stands for one, and before each value a key has been told since the last one.
The value is then a map in which a name has the last value that was told under it, and no other
names have one. Otherwise it fails as the first part does that fails, and a value without a key
does so whether or not it stands for a value. -/
theorem Data.toValue_map_parts (parts : Parts) :
    ((∃ v, (Data.map parts).toValue = .ok v) ↔ parts.Sound) ∧
    (∀ v, (Data.map parts).toValue = .ok v → ∃ entries : Entries Value, v = .map entries ∧
      entries.names.Nodup ∧ ∀ name w, entries.find? name = some w ↔ parts.LastTold name w) ∧
    ∀ e, (Data.map parts).toValue = .error e ↔ FirstFailure Parts.Fails [] parts e := by
  have run : (Data.map parts).toValue =
      (parts.foldlM MapDraft.part .empty).map fun d => .map d.entries := by
    rw [Data.toValue, MapDraft.mapParts_eq_foldlM]
  have start := Parts.drafted_empty
  refine ⟨?_, ?_, ?_⟩
  · rw [Parts.sound_iff, run]
    refine Iff.trans ?_ (Parts.traced_part.exists_foldlM_eq_ok_iff start)
    cases parts.foldlM MapDraft.part .empty <;> simp [Except.map]
  · intro v ok
    rw [run] at ok
    obtain ⟨d, ended, rfl⟩ := map_eq_ok ok
    have drafted := Parts.traced_part.holds_foldlM start ended
    exact ⟨d.entries, rfl, drafted.distinct, drafted.found⟩
  · intro e
    rw [← Parts.traced_part.foldlM_eq_error_iff start, run, map_eq_error_iff]

/-- A character and a number share a name, a key is told again before its value, and another one at
the end without a value. Where a value comes without a key, it does not matter that it fails. -/
theorem Data.toValue_map_parts_shared :
    ∃ parts : Parts, parts = [(.key, .string "a"), (.key, .int .u8 ⟨1, by decide⟩),
        (.value, .bool true), (.key, .char '1'), (.value, .bool false), (.key, .string "c")] ∧
      parts.Sound ∧ parts.LastTold "1" (.bool false) ∧ (∀ w, ¬parts.LastTold "a" w) ∧
      FirstFailure Parts.Fails [] (parts ++ [(.value, .empty .unit), (.value, .failing "no value")])
        .valueBeforeKey := by
  let parts : Parts := [(.key, .string "a"), (.key, .int .u8 ⟨1, by decide⟩),
    (.value, .bool true), (.key, .char '1'), (.value, .bool false), (.key, .string "c")]
  have told : (Data.map parts).toValue = .ok (.map [("1", .bool false)]) := by
    rfl
  obtain ⟨ok, found, -⟩ := Data.toValue_map_parts parts
  obtain ⟨entries, same, -, found⟩ := found _ told
  obtain rfl := Value.map.inj same
  refine ⟨parts, rfl, ok.mp ⟨_, told⟩, ?_, ?_, ?_⟩
  · exact (found "1" (.bool false)).mp rfl
  · intro w last
    cases (found "a" w).mpr last
  · exact ((Data.toValue_map_parts _).2.2 _).mp rfl

end SqlTemplate
