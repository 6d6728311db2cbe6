import SqlTemplate.Entries

/-!
# Values

The values that a query is rendered with. Arguments are usually a map from names to values; any
other value stands for a map without entries. A name is *present* when the map has an entry for it
that is not null, so a null entry and a missing one are the same (`Value.present?`).

The library passes values through and looks inside only for the entries of a map, the elements of a
list and the kind of a value. Numbers with a fraction are kept as their bits, and dates, times and
decimals as they are written.
-/

namespace SqlTemplate

/-! ## Integers of a width -/

/-- The widths of integers. -/
inductive IntWidth where
  | i8
  | i16
  | i32
  | i64
  | i128
  | u8
  | u16
  | u32
  | u64
  | u128
  deriving DecidableEq, Repr

namespace IntWidth

/-- The least integer of a width. -/
def least : IntWidth → Int
  | .i8 => -Int.pow 2 7
  | .i16 => -Int.pow 2 15
  | .i32 => -Int.pow 2 31
  | .i64 => -Int.pow 2 63
  | .i128 => -Int.pow 2 127
  | _ => 0

/-- The greatest integer of a width. -/
def greatest : IntWidth → Int
  | .i8 => Int.pow 2 7 - 1
  | .i16 => Int.pow 2 15 - 1
  | .i32 => Int.pow 2 31 - 1
  | .i64 => Int.pow 2 63 - 1
  | .i128 => Int.pow 2 127 - 1
  | .u8 => Int.pow 2 8 - 1
  | .u16 => Int.pow 2 16 - 1
  | .u32 => Int.pow 2 32 - 1
  | .u64 => Int.pow 2 64 - 1
  | .u128 => Int.pow 2 128 - 1

/-- The integers of a width. -/
def Carrier (w : IntWidth) : Type := { n : Int // w.least ≤ n ∧ n ≤ w.greatest }

instance (w : IntWidth) : DecidableEq w.Carrier :=
  inferInstanceAs (DecidableEq { n : Int // w.least ≤ n ∧ n ≤ w.greatest })

instance (w : IntWidth) : Repr w.Carrier := ⟨fun n => reprPrec n.val⟩

/-- An integer as one of a width, if it is within the width's range. -/
def ofInt? (w : IntWidth) (n : Int) : Option w.Carrier :=
  if h : w.least ≤ n ∧ n ≤ w.greatest then some ⟨n, h⟩ else none

end IntWidth

/-! ## Values and their kinds -/

/-- A value that can be bound to a placeholder. -/
inductive Value where
  | null
  | bool (b : Bool)
  | char (c : Char)
  | string (s : String)
  | int (width : IntWidth) (n : width.Carrier)
  /-- a number of single precision, by its bits -/
  | float32 (bits : UInt32)
  /-- a number of double precision, by its bits -/
  | float64 (bits : UInt64)
  | bytes (contents : List UInt8)
  | date (written : String)
  | time (written : String)
  | dateTime (written : String)
  /-- a date and time of the zone UTC -/
  | dateTimeUtc (written : String)
  | decimal (written : String)
  | list (elements : List Value)
  | map (entries : List (String × Value))
  deriving Repr

/-- The kinds of values, as an error message tells them apart. -/
inductive ValueKind where
  | null
  | bool
  | char
  | string
  | integer
  | float
  | bytes
  | date
  | time
  | datetime
  | decimal
  | list
  | map
  deriving DecidableEq, Repr

/-- The name of a kind. -/
def ValueKind.name : ValueKind → String
  | .null => "null"
  | .bool => "bool"
  | .char => "char"
  | .string => "string"
  | .integer => "integer"
  | .float => "float"
  | .bytes => "bytes"
  | .date => "date"
  | .time => "time"
  | .datetime => "datetime"
  | .decimal => "decimal"
  | .list => "list"
  | .map => "map"

namespace Value

/-- The kind of a value. All widths of integers are one kind, and so are both widths of floats and
both kinds of date and time. -/
def kind : Value → ValueKind
  | .null => .null
  | .bool _ => .bool
  | .char _ => .char
  | .string _ => .string
  | .int .. => .integer
  | .float32 _ => .float
  | .float64 _ => .float
  | .bytes _ => .bytes
  | .date _ => .date
  | .time _ => .time
  | .dateTime _ => .datetime
  | .dateTimeUtc _ => .datetime
  | .decimal _ => .decimal
  | .list _ => .list
  | .map _ => .map

/-- Whether a value is null. -/
def isNull : Value → Bool
  | .null => true
  | _ => false

@[simp] theorem isNull_eq_true_iff {v : Value} : v.isNull = true ↔ v = .null := by
  cases v <;> simp [isNull]

/-! ## Looking up names -/

/-- The value of a name in the arguments, if the name is present: the arguments are a map that has
an entry for it, and the entry is not null. -/
def present? (arguments : Value) (name : String) : Option Value :=
  match arguments with
  | .map entries => (Entries.find? name entries).filter fun v => !v.isNull
  | _ => none

/-- The value that a reference to the name binds: null for an absent name. -/
def boundTo (arguments : Value) (name : String) : Value := (arguments.present? name).getD .null

/-- A value that is present is not null. -/
theorem ne_null_of_present? {arguments v : Value} {name : String}
    (h : arguments.present? name = some v) : v ≠ .null := by
  cases arguments <;> simp only [present?, reduceCtorEq] at h
  have := (Option.filter_eq_some_iff.mp h).2
  rintro rfl
  cases this

/-- An absent name binds null. -/
theorem boundTo_eq_null_iff {arguments : Value} {name : String} :
    arguments.boundTo name = .null ↔ arguments.present? name = none := by
  unfold boundTo
  cases h : arguments.present? name with
  | none => simp
  | some v => simpa using ne_null_of_present? h

/-- Null has no names, like all arguments that are no map. -/
theorem present?_null (name : String) : Value.null.present? name = none := rfl

end Value

end SqlTemplate
