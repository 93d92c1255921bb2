import RowStore.Bytes.Bitmap
import RowStore.Value.Basic

/-!
  Schemas — the ordered fields that every row of a table has.

  Two schemas are equal when their field lists are. A row begins with one null
  bit for each field; `rowSize` is the width of every encoded row.
-/

namespace RowStore

/-- A field of a schema. -/
structure Field where
  name : String
  type : FieldType
  nullable : Bool
  deriving DecidableEq, Repr, Inhabited

/-- The fields of a table's rows, in order. -/
structure Schema where
  fields : List Field
  deriving DecidableEq, Repr, Inhabited

namespace Schema

/-- The number of fields. -/
def arity (s : Schema) : Nat := s.fields.length

def field? (s : Schema) (index : Nat) : Option Field := s.fields[index]?

/-- The first field of that name. -/
def index? (s : Schema) (name : String) : Option Nat :=
  s.fields.findIdx? (·.name == name)

/-- Bytes of a row's null bitmap. -/
def nullBytes (s : Schema) : Nat := Bytes.Bitmap.size s.arity

/-- Bytes of a row's fields. -/
def fieldBytes (s : Schema) : Nat := s.fields.foldr (fun f n => f.type.width + n) 0

/-- Bytes of an encoded row. -/
def rowSize (s : Schema) : Nat := s.nullBytes + s.fieldBytes

/-- The fields of `s` and then those of `t`. -/
def append (s t : Schema) : Schema := ⟨s.fields ++ t.fields⟩

@[simp] theorem arity_append (s t : Schema) : (s.append t).arity = s.arity + t.arity :=
  List.length_append

@[simp] theorem fieldBytes_append (s t : Schema) :
    (s.append t).fieldBytes = s.fieldBytes + t.fieldBytes := by
  simp only [append, fieldBytes, List.foldr_append]
  induction s.fields with
  | nil => simp
  | cons f fs ih => simp only [List.foldr_cons, ih, Nat.add_assoc]

end Schema

end RowStore
