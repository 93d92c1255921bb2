import RowStore.Row.Basic
import RowStore.Value.Codec

/-!
  Row encodings — a null bitmap and then every field at its width.

  A null is marked by its bit and still takes its width in zeros. A row is not
  encodable if a value does not fit its field or a field that must not be null
  is. Reading trusts the null bits: a marked field is null whatever its bytes.
-/

namespace RowStore.Row

open Bytes

/-- The bytes of one field of a row. -/
def encodeField (f : Field) (v : Value) : Option Bytes :=
  if v.isNull && !f.nullable then none else v.encode f.type

/-- The bytes of the fields, one after the other. -/
def encodeFields : List Field → List Value → Option Bytes
  | f :: fs, v :: vs =>
    (encodeField f v).bind fun head => (encodeFields fs vs).map (head ++ ·)
  | _, _ => some []

/-- The bytes of a row; none if it cannot be stored. -/
def encode (r : Row) : Option Bytes :=
  (encodeFields r.schema.fields r.values).map (Bitmap.pack (r.values.map Value.isNull) ++ ·)

/-- The value of one field: null if its bit says so, else read from its bytes. -/
def decodeField (f : Field) (isNull : Bool) (data : Bytes) : Option Value :=
  if isNull then some .null else Value.decode f.type data

/-- The values of the fields, each from its own width of bytes. -/
def decodeFields : List Field → List Bool → Bytes → Option (List Value)
  | [], _, _ => some []
  | _ :: _, [], _ => none
  | f :: fs, isNull :: nulls, data =>
    (decodeField f isNull (data.take f.type.width)).bind fun v =>
      (decodeFields fs nulls (data.drop f.type.width)).map (v :: ·)

theorem length_of_decodeFields {fs : List Field} {nulls : List Bool} {data : Bytes}
    {vs : List Value} (h : decodeFields fs nulls data = some vs) : vs.length = fs.length := by
  induction fs generalizing nulls data vs with
  | nil => simp [decodeFields] at h; simp [h]
  | cons f fs ih =>
    cases nulls with
    | nil => simp [decodeFields] at h
    | cons b nulls =>
      obtain ⟨v, -, h⟩ := Option.bind_eq_some_iff.mp h
      obtain ⟨vs', hvs, rfl⟩ := Option.map_eq_some_iff.mp h
      simp [ih hvs]

/-- The row at the front of the bytes; none if they are too few or a text claims
more bytes than its field has. -/
def decode (schema : Schema) (data : Bytes) : Option Row :=
  if data.length < schema.rowSize then none
  else
    let nulls := Bitmap.unpack (data.take schema.nullBytes)
    match h : decodeFields schema.fields nulls (data.drop schema.nullBytes) with
    | some values => some ⟨schema, values, none, length_of_decodeFields h⟩
    | none => none

end RowStore.Row
