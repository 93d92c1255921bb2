import RowStore.Ident
import RowStore.Error
import RowStore.Row.Schema

/-!
  Rows — one value for each field of a schema, and where the row is stored.

  That there are as many values as fields is part of the type, so every way to
  make or change a row keeps it. Equality looks at schema and values only: the
  same row stored in two places is equal to itself.
-/

namespace RowStore

/-- A row over a schema. Once stored it carries its record id. -/
structure Row where
  schema : Schema
  values : List Value
  record : Option RecordId
  length_values : values.length = schema.arity
  deriving DecidableEq

namespace Row

/-- A row with these values, not stored anywhere. -/
def ofValues (schema : Schema) (values : List Value) : Except StoreError Row :=
  if h : values.length = schema.arity then .ok ⟨schema, values, none, h⟩
  else .error .arityMismatch

/-- A row whose values are given field by field, not stored anywhere. -/
def ofFields (schema : Schema) (value : Field → Value) : Row :=
  ⟨schema, schema.fields.map value, none, List.length_map value⟩

def value? (r : Row) (index : Nat) : Option Value := r.values[index]?

/-- The value of the first field of that name. -/
def valueNamed? (r : Row) (name : String) : Option Value :=
  (r.schema.index? name).bind r.value?

/-- The row with another value in one field; none if there is no such field. -/
def set? (r : Row) (index : Nat) (v : Value) : Option Row :=
  if index < r.values.length then
    some { r with
      values := r.values.set index v
      length_values := by rw [List.length_set, r.length_values] }
  else none

/-- The row stored at `record`, or nowhere. -/
def storedAt (r : Row) (record : Option RecordId) : Row := { r with record := record }

/-- Whether two rows have one schema and equal values. -/
def eq (r s : Row) : Bool :=
  r.schema == s.schema && (r.values.zip s.values).all fun (v, w) => v.eq w

/-- The values, with tabs between. -/
def display (r : Row) : String := "\t".intercalate (r.values.map Value.display)

@[simp] theorem storedAt_storedAt (r : Row) (a b : Option RecordId) :
    (r.storedAt a).storedAt b = r.storedAt b := rfl

end Row

/-- A row being filled field by field. -/
structure RowBuilder where
  row : Row
  /-- The field that the next value goes to. -/
  next : Nat

namespace RowBuilder

/-- Every field null. -/
def start (schema : Schema) : RowBuilder where
  row := ⟨schema, schema.fields.map fun _ => .null, none, List.length_map _⟩
  next := 0

/-- Puts a value into the next field; beyond the last field it is dropped. -/
def push (b : RowBuilder) (v : Value) : RowBuilder :=
  match b.row.set? b.next v with
  | some row => ⟨row, b.next + 1⟩
  | none => b

/-- Puts a value into the field of that name, if there is one. -/
def set (b : RowBuilder) (name : String) (v : Value) : RowBuilder :=
  match (b.row.schema.index? name).bind fun i => b.row.set? i v with
  | some row => { b with row := row }
  | none => b

end RowBuilder

end RowStore
