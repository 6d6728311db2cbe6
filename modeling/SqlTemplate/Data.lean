import SqlTemplate.Text.Decimal
import SqlTemplate.Value

/-!
# Self-describing data

Data that tells its own structure as it is gone through: scalars, nothing, wrappers, sequences,
records and maps. `Data.toValue` takes it as a value.

* The form in which something is nothing, a wrapper, a sequence or a record leaves no trace.
* A map is told in *parts*, keys and values one after another. A value belongs to the last key
  before it; a key that another key or the end follows has no entry.
* A key has to be a string, a character or an integer, which names an entry by its text. A later
  entry of the same name takes the place of the earlier one.
* The parts are taken in order and the first failure is the failure of the whole.
-/

namespace SqlTemplate

/-! ## The data -/

/-- The forms of nothing. -/
inductive EmptyForm where
  /-- a value that is not there -/
  | absent
  /-- the one value of a type without contents -/
  | unit
  /-- the same, of a type with a name -/
  | named
  deriving DecidableEq, Repr

/-- The forms of a wrapper around other data. -/
inductive WrapperForm where
  /-- a value that might not have been there -/
  | present
  /-- a type with a name -/
  | named
  /-- one of several variants -/
  | variant (variant : String)
  deriving DecidableEq, Repr

/-- The forms of a sequence. -/
inductive SequenceForm where
  /-- any number of elements -/
  | plain
  /-- a fixed number of elements -/
  | tuple
  /-- a fixed number of elements, in a type with a name -/
  | named
  /-- a fixed number of elements, in one of several variants -/
  | variant (variant : String)
  deriving DecidableEq, Repr

/-- The forms of a record. -/
inductive RecordForm where
  /-- a type with a name -/
  | named
  /-- one of several variants -/
  | variant (variant : String)
  deriving DecidableEq, Repr

/-- The parts in which a map is told. -/
inductive MapPart where
  | key
  | value
  deriving DecidableEq, Repr

/-- Data that tells its own structure. -/
inductive Data where
  | bool (b : Bool)
  | char (c : Char)
  | string (s : String)
  | int (width : IntWidth) (n : width.Carrier)
  | float32 (bits : UInt32)
  | float64 (bits : UInt64)
  | bytes (contents : List UInt8)
  | empty (form : EmptyForm)
  | wrapped (form : WrapperForm) (inner : Data)
  /-- a variant that holds nothing but its name -/
  | unitVariant (variant : String)
  | sequence (form : SequenceForm) (elements : List Data)
  | record (form : RecordForm) (fields : List (String × Data))
  /-- a map, told in parts -/
  | map (parts : List (MapPart × Data))
  /-- data that fails to tell itself -/
  | failing (message : String)
  deriving Repr

namespace Data

/-- A map that is told pair by pair. -/
def ofPairs (pairs : List (Data × Data)) : Data :=
  .map (pairs.flatMap fun (key, value) => [(.key, key), (.value, value)])

end Data

/-! ## Failures -/

/-- Why data stands for no value. -/
inductive EncodingError where
  /-- a key that is neither a string nor a character nor an integer -/
  | badKey (kind : ValueKind)
  /-- a value in a map without a key of its own -/
  | valueBeforeKey
  /-- data that failed to tell itself -/
  | custom (message : String)
  deriving DecidableEq, Repr

/-- The wording of a failure. -/
def EncodingError.message : EncodingError → String
  | .badKey kind => "Map key must be a string or integer, got " ++ kind.name
  | .valueBeforeKey => "Map value serialized before its key"
  | .custom message => message

/-! ## Maps in the making -/

/-- The name that a key gives to its entry. -/
def Value.keyName : Value → Except EncodingError String
  | .string s => .ok s
  | .char c => .ok c.toString
  | .int _ n => .ok (Text.integer n.val)
  | v => .error (.badKey v.kind)

/-- A map of which some parts have been told. -/
structure MapDraft where
  /-- the entries so far -/
  entries : Entries Value
  /-- the name of the last key, if no value has followed it -/
  pending : Option String
  deriving Repr

namespace MapDraft

/-- No part has been told. -/
def empty : MapDraft := ⟨[], none⟩

/-- Takes a key. -/
def key (d : MapDraft) (key : Value) : Except EncodingError MapDraft :=
  key.keyName.map fun name => { d with pending := some name }

/-- Takes a value, which is looked at only if it has a key. -/
def value (d : MapDraft) (value : Except EncodingError Value) : Except EncodingError MapDraft :=
  match d.pending with
  | none => .error .valueBeforeKey
  | some name => value.map fun v => ⟨d.entries.put name v, none⟩

end MapDraft

/-! ## Data as values -/

namespace Data

mutual

/-- The value that data stands for. -/
def toValue : Data → Except EncodingError Value
  | .bool b => .ok (.bool b)
  | .char c => .ok (.char c)
  | .string s => .ok (.string s)
  | .int width n => .ok (.int width n)
  | .float32 bits => .ok (.float32 bits)
  | .float64 bits => .ok (.float64 bits)
  | .bytes contents => .ok (.bytes contents)
  | .empty _ => .ok .null
  | .wrapped _ inner => inner.toValue
  | .unitVariant variant => .ok (.string variant)
  | .sequence _ elements => (elementValues elements).map .list
  | .record _ fields => (fieldEntries [] fields).map .map
  | .map parts => (mapParts .empty parts).map fun d => .map d.entries
  | .failing message => .error (.custom message)

/-- The values that the elements of a sequence stand for. -/
def elementValues : List Data → Except EncodingError (List Value)
  | [] => .ok []
  | element :: rest => do
    let v ← element.toValue
    return v :: (← elementValues rest)

/-- The entries of a record behind the ones of its earlier fields. -/
def fieldEntries (entries : Entries Value) :
    List (String × Data) → Except EncodingError (Entries Value)
  | [] => .ok entries
  | (name, field) :: rest => do fieldEntries (entries.put name (← field.toValue)) rest

/-- The map behind the parts that have been told. -/
def mapParts (d : MapDraft) : List (MapPart × Data) → Except EncodingError MapDraft
  | [] => .ok d
  | (.key, key) :: rest => do mapParts (← d.key (← key.toValue)) rest
  | (.value, value) :: rest => do mapParts (← d.value value.toValue) rest

end

end Data

end SqlTemplate
