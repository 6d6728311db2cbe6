import SqlTemplate.Data

/-!
# Typed arguments

The types that arguments are built from: scalars, and options, lists, maps and records of other
types. `ArgumentType.toValue` turns an argument of a type into a value.

A record becomes a map with an entry for each of its fields. A field is named by its key, which is
the name of the field unless the field is renamed; a field that is ignored has no entry.
-/

namespace SqlTemplate

/-- How a field of a record becomes an entry. -/
structure Field where
  /-- the name of the field -/
  name : String
  /-- the key of its entry, if it is not the name -/
  renamed : Option String
  /-- whether it has no entry -/
  ignored : Bool
  deriving DecidableEq, Repr

/-- The key of a field's entry. -/
def Field.key (f : Field) : String := f.renamed.getD f.name

mutual

/-- The types of arguments. -/
inductive ArgumentType where
  | unit
  | bool
  | char
  | string
  | int (width : IntWidth)
  | float32
  | float64
  | date
  | time
  | dateTime
  | dateTimeUtc
  | decimal
  /-- values themselves -/
  | value
  | option (type : ArgumentType)
  | list (type : ArgumentType)
  | map (type : ArgumentType)
  | record (fields : RecordType)
  deriving Repr

/-- The fields of a record, with their types. -/
inductive RecordType where
  | nil
  | cons (field : Field) (type : ArgumentType) (rest : RecordType)
  deriving Repr

end

/-! ## Arguments of a type -/

mutual

/-- The arguments of a type. -/
def ArgumentType.Carrier : ArgumentType → Type
  | .unit => Unit
  | .bool => Bool
  | .char => Char
  | .string => String
  | .int width => width.Carrier
  | .float32 => UInt32
  | .float64 => UInt64
  | .date => String
  | .time => String
  | .dateTime => String
  | .dateTimeUtc => String
  | .decimal => String
  | .value => Value
  | .option type => Option type.Carrier
  | .list type => List type.Carrier
  | .map type => Entries type.Carrier
  | .record fields => fields.Carrier

/-- The records with the given fields. -/
def RecordType.Carrier : RecordType → Type
  | .nil => Unit
  | .cons _ type rest => type.Carrier × rest.Carrier

end

/-! ## Arguments as values -/

mutual

/-- The value that an argument becomes. -/
def ArgumentType.toValue : (type : ArgumentType) → type.Carrier → Value
  | .unit, _ => .null
  | .bool, b => .bool b
  | .char, c => .char c
  | .string, s => .string s
  | .int width, n => .int width n
  | .float32, bits => .float32 bits
  | .float64, bits => .float64 bits
  | .date, written => .date written
  | .time, written => .time written
  | .dateTime, written => .dateTime written
  | .dateTimeUtc, written => .dateTimeUtc written
  | .decimal, written => .decimal written
  | .value, v => v
  | .option type, argument =>
    match argument with
    | none => .null
    | some a => type.toValue a
  | .list type, elements => .list (elements.map type.toValue)
  | .map type, entries =>
    .map (Entries.ofList (entries.map fun (name, a) => (name, type.toValue a)))
  | .record fields, record => .map (Entries.ofList (fields.toPairs record))

/-- The names and values that the fields of a record become, in order. -/
def RecordType.toPairs : (fields : RecordType) → fields.Carrier → List (String × Value)
  | .nil, _ => []
  | .cons field type rest, (a, record) =>
    if field.ignored then rest.toPairs record
    else (field.key, type.toValue a) :: rest.toPairs record

end

end SqlTemplate
