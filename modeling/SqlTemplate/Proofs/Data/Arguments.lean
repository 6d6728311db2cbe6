import SqlTemplate.Argument
import SqlTemplate.Proofs.Data.Pairs

/-!
# Arguments that tell themselves

An argument becomes a value in two ways: directly, by its type (`ArgumentType.toValue`), or by
telling itself as data, which is then taken as a value (`Data.toValue`). The two ways lead to the
same value for all types that are built from scalars by options, lists, maps and records
(`ArgumentType.toValue_told`). Dates, times and decimals are left out, since they tell themselves as
strings.

How the types tell themselves is not part of the library. `Told` says what is known of it: one
equation for each way to build a type.
-/

namespace SqlTemplate

/-! ## Types and what they tell -/

mutual

/-- Whether a type is built from scalars by options, lists, maps and records. The fields of a record
that are ignored do not matter. -/
def ArgumentType.isPlain : ArgumentType → Bool
  | .unit => true
  | .bool => true
  | .char => true
  | .string => true
  | .int _ => true
  | .float32 => true
  | .float64 => true
  | .option type => type.isPlain
  | .list type => type.isPlain
  | .map type => type.isPlain
  | .record fields => fields.isPlain
  | _ => false

/-- Whether the fields of a record have types that are built so. -/
def RecordType.isPlain : RecordType → Bool
  | .nil => true
  | .cons field type rest => (field.ignored || type.isPlain) && rest.isPlain

end

/-- The fields that a record tells: its fields in order, under their keys and without the ignored
ones. -/
def RecordType.told (tell : (type : ArgumentType) → type.Carrier → Data) :
    (fields : RecordType) → fields.Carrier → List (String × Data)
  | .nil, _ => []
  | .cons field type rest, (a, record) =>
    if field.ignored then rest.told tell record
    else (field.key, tell type a) :: rest.told tell record

/-- The types tell themselves as usual. -/
structure Told (tell : (type : ArgumentType) → type.Carrier → Data) : Prop where
  unit (a : Unit) : tell .unit a = .empty .unit
  bool (b : Bool) : tell .bool b = .bool b
  char (c : Char) : tell .char c = .char c
  string (s : String) : tell .string s = .string s
  int (width : IntWidth) (n : width.Carrier) : tell (.int width) n = .int width n
  float32 (bits : UInt32) : tell .float32 bits = .float32 bits
  float64 (bits : UInt64) : tell .float64 bits = .float64 bits
  none (type : ArgumentType) : tell (.option type) none = .empty .absent
  some (type : ArgumentType) (a : type.Carrier) :
    tell (.option type) (some a) = .wrapped .present (tell type a)
  list (type : ArgumentType) (elements : List type.Carrier) :
    tell (.list type) elements = .sequence .plain (elements.map (tell type))
  /-- the entries one after another, each with its name for a key -/
  map (type : ArgumentType) (entries : Entries type.Carrier) :
    tell (.map type) entries = .ofPairs (entries.map fun (name, a) => (.string name, tell type a))
  record (fields : RecordType) (record : fields.Carrier) :
    tell (.record fields) record = .record .named (fields.told tell record)

/-! ## Data that is told element by element -/

namespace Data

variable {α : Type} {tell : α → Data} {value : α → Value}

theorem elementValues_map (h : ∀ a, (tell a).toValue = .ok (value a)) (elements : List α) :
    elementValues (elements.map tell) = .ok (elements.map value) := by
  induction elements with
  | nil => rfl
  | cons a rest ih =>
    rw [List.map_cons, elementValues, h, ih]
    rfl

/-- A sequence stands for the list of what its elements stand for. -/
theorem toValue_sequence (h : ∀ a, (tell a).toValue = .ok (value a)) (form : SequenceForm)
    (elements : List α) :
    (sequence form (elements.map tell)).toValue = .ok (.list (elements.map value)) := by
  rw [toValue, elementValues_map h]
  rfl

/-- A map that is told pair by pair stands for the entries in which a later one takes the place of
an earlier one of the same name. -/
theorem toValue_ofPairs (h : ∀ a, (tell a).toValue = .ok (value a)) (pairs : Entries α) :
    (ofPairs (pairs.map fun (name, a) => (string name, tell a))).toValue =
      .ok (.map (Entries.ofList (pairs.map fun (name, a) => (name, value a)))) := by
  apply toValue_ofPairs_of_entries
  apply List.forall₂_map_left_iff.mpr
  apply List.forall₂_map_right_iff.mpr
  apply List.forall₂_same.mpr
  intro pair _
  exact ⟨rfl, h pair.2⟩

end Data

/-! ## The two ways -/

section Told

variable {tell : (type : ArgumentType) → type.Carrier → Data}

mutual

theorem toValue_tell (h : Told tell) : ∀ type : ArgumentType, type.isPlain = true →
    ∀ a : type.Carrier, (tell type a).toValue = .ok (type.toValue a)
  | .unit, _, a => congrArg Data.toValue (h.unit a)
  | .bool, _, b => congrArg Data.toValue (h.bool b)
  | .char, _, c => congrArg Data.toValue (h.char c)
  | .string, _, s => congrArg Data.toValue (h.string s)
  | .int width, _, n => congrArg Data.toValue (h.int width n)
  | .float32, _, bits => congrArg Data.toValue (h.float32 bits)
  | .float64, _, bits => congrArg Data.toValue (h.float64 bits)
  | .option type, _, none => congrArg Data.toValue (h.none type)
  | .option type, plain, some a =>
    (congrArg Data.toValue (h.some type a)).trans (toValue_tell h type plain a)
  | .list type, plain, elements => by
    have elementwise := toValue_tell h type plain
    exact (congrArg Data.toValue (h.list type elements)).trans
      (Data.toValue_sequence elementwise .plain elements)
  | .map type, plain, entries => by
    have entrywise := toValue_tell h type plain
    exact (congrArg Data.toValue (h.map type entries)).trans
      (Data.toValue_ofPairs entrywise entries)
  | .record fields, plain, record => by
    have fieldwise := fieldEntries_told h fields plain record []
    exact (congrArg Data.toValue (h.record fields record)).trans
      (congrArg (Except.map Value.map) fieldwise)

theorem fieldEntries_told (h : Told tell) : ∀ fields : RecordType, fields.isPlain = true →
    ∀ (record : fields.Carrier) (entries : Entries Value),
      Data.fieldEntries entries (fields.told tell record) =
        .ok ((fields.toPairs record).foldl (fun entries (name, v) => entries.put name v) entries)
  | .nil, _, _, _ => rfl
  | .cons field type rest, plain, (a, record), entries => by
    rw [RecordType.isPlain, Bool.and_eq_true] at plain
    rw [RecordType.told, RecordType.toPairs]
    cases ignored : field.ignored with
    | true => exact fieldEntries_told h rest plain.2 record entries
    | false =>
      rw [ignored, Bool.false_or] at plain
      rw [if_neg Bool.false_ne_true, if_neg Bool.false_ne_true, Data.fieldEntries,
        toValue_tell h type plain.1]
      exact fieldEntries_told h rest plain.2 record _

end

/-- An argument of a plain type tells itself as data that stands for a value, and that is the value
which the argument becomes. So do the fields of a record that have plain types. -/
theorem ArgumentType.toValue_told (h : Told tell) :
    (∀ type : ArgumentType, type.isPlain = true → ∀ a : type.Carrier,
      (tell type a).toValue = .ok (type.toValue a)) ∧
    ∀ fields : RecordType, fields.isPlain = true → ∀ record : fields.Carrier,
      (Data.record .named (fields.told tell record)).toValue =
        .ok ((ArgumentType.record fields).toValue record) := by
  refine ⟨toValue_tell h, fun fields plain record => ?_⟩
  have fieldwise := fieldEntries_told h fields plain record []
  exact congrArg (Except.map Value.map) fieldwise

end Told

/-! ## A usual way to tell -/

mutual

/-- What an argument of a plain type usually tells. -/
def ArgumentType.usual : (type : ArgumentType) → type.Carrier → Data
  | .unit, _ => .empty .unit
  | .bool, b => .bool b
  | .char, c => .char c
  | .string, s => .string s
  | .int width, n => .int width n
  | .float32, bits => .float32 bits
  | .float64, bits => .float64 bits
  | .option type, argument =>
    match argument with
    | none => .empty .absent
    | some a => .wrapped .present (type.usual a)
  | .list type, elements => .sequence .plain (elements.map type.usual)
  | .map type, entries => .ofPairs (entries.map fun (name, a) => (.string name, type.usual a))
  | .record fields, record => .record .named (fields.usual record)
  | _, _ => .failing "not a plain type"

/-- What the fields of a record usually tell. -/
def RecordType.usual : (fields : RecordType) → fields.Carrier → List (String × Data)
  | .nil, _ => []
  | .cons field type rest, (a, record) =>
    if field.ignored then rest.usual record else (field.key, type.usual a) :: rest.usual record

end

theorem RecordType.usual_eq_told : ∀ (fields : RecordType) (record : fields.Carrier),
    fields.usual record = fields.told ArgumentType.usual record
  | .nil, _ => rfl
  | .cons field type rest, (a, record) => by
    rw [RecordType.usual, RecordType.told, usual_eq_told rest record]

theorem told_usual : Told ArgumentType.usual where
  unit _ := rfl
  bool _ := rfl
  char _ := rfl
  string _ := rfl
  int _ _ := rfl
  float32 _ := rfl
  float64 _ := rfl
  none _ := rfl
  some _ _ := rfl
  list _ _ := rfl
  map _ _ := rfl
  record fields record := congrArg (Data.record .named) (fields.usual_eq_told record)

/-- A field without a value, one that is renamed, one that is ignored, and one with a map of
lists. -/
theorem ArgumentType.toValue_told_record :
    ∃ (fields : RecordType) (record : fields.Carrier), Told ArgumentType.usual ∧
      fields.isPlain = true ∧
      fields.told ArgumentType.usual record = [("id", .empty .absent),
        ("user_ids", .sequence .plain [.int .i32 ⟨2, by decide⟩, .int .i32 ⟨3, by decide⟩]),
        ("tags", .map [(.key, .string "k"), (.value, .sequence .plain [.char 'é'])])] ∧
      (Data.record .named (fields.told ArgumentType.usual record)).toValue =
        .ok (.map [("id", .null),
          ("user_ids", .list [.int .i32 ⟨2, by decide⟩, .int .i32 ⟨3, by decide⟩]),
          ("tags", .map [("k", .list [.char 'é'])])]) := by
  let fields : RecordType :=
    .cons ⟨"id", none, false⟩ (.option (.int .i64))
      (.cons ⟨"ids", some "user_ids", false⟩ (.list (.int .i32))
        (.cons ⟨"cursor", none, true⟩ .date
          (.cons ⟨"tags", none, false⟩ (.map (.list .char)) .nil)))
  let record : fields.Carrier :=
    (none, [⟨2, by decide⟩, ⟨3, by decide⟩], "2024-02-29", [("k", ['é'])], ())
  exact ⟨fields, record, told_usual, rfl, rfl,
    (ArgumentType.toValue_told told_usual).2 fields rfl record⟩

end SqlTemplate
