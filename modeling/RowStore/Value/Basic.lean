import RowStore.Double.Text

/-!
  Values and field types — what a field may hold.

  Every field type has one encoded width, so all rows of a table are equally
  long. A value fits a type when it can be stored there: null anywhere, an
  integer also in a bigint, a text when its bytes are not too many.
-/

namespace RowStore

/-- The type of a field. A text type says how many bytes a text may have. -/
inductive FieldType where
  | boolean
  | integer
  | bigint
  | double
  | text (limit : UInt16)
  deriving DecidableEq, Repr, Inhabited

namespace FieldType

/-- Encoded bytes of a field. A text has a two-byte length in front. -/
def width : FieldType → Nat
  | .boolean => 1
  | .integer => 4
  | .bigint => 8
  | .double => 8
  | .text limit => 2 + limit.toNat

def name : FieldType → String
  | .boolean => "BOOLEAN"
  | .integer => "INTEGER"
  | .bigint => "BIGINT"
  | .double => "DOUBLE"
  | .text limit => s!"TEXT({limit.toNat})"

end FieldType

/-- A value of a field. -/
inductive Value where
  | null
  | boolean (b : Bool)
  | integer (n : Int32)
  | bigint (n : Int64)
  | double (x : Double)
  | text (s : String)
  deriving DecidableEq, Repr, Inhabited

namespace Value

def isNull : Value → Bool
  | .null => true
  | _ => false

/-- Whether the value can be stored in a field of the type. -/
def fits : Value → FieldType → Bool
  | .null, _ => true
  | .boolean _, .boolean => true
  | .integer _, .integer => true
  | .integer _, .bigint => true
  | .bigint _, .bigint => true
  | .double _, .double => true
  | .text s, .text limit => s.utf8ByteSize ≤ limit.toNat
  | _, _ => false

/-- Equality of values: doubles compare as numbers, so a NaN differs from itself,
and values of two kinds are never equal. -/
def eq : Value → Value → Bool
  | .double x, .double y => x.ieeeEq y
  | v, w => v == w

/-- The value as messages show it. -/
def display : Value → String
  | .null => "NULL"
  | .boolean b => if b then "true" else "false"
  | .integer n => toString n.toInt
  | .bigint n => toString n.toInt
  | .double x => x.text
  | .text s => s!"'{s}'"

end Value

end RowStore
