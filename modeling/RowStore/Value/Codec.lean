import RowStore.Bytes.LittleEndian
import RowStore.Text.Utf8
import RowStore.Value.Basic

/-!
  Field encodings — a value as exactly as many bytes as its field type is wide.

  Numbers are little-endian, a null is all zeros and an integer in a bigint field
  is widened. A text is its byte length, its bytes and zeros up to the limit.
  Main statements: encoding succeeds exactly for values that fit
  (`isSome_encode`), and gives exactly the width (`length_of_encode`).
-/

namespace RowStore.Value

open Bytes

/-- The bytes of a value in a field of the type; none if it does not fit. -/
def encode : Value → FieldType → Option Bytes
  | .null, t => some (zeros t.width)
  | .boolean b, .boolean => some [if b then 1 else 0]
  | .integer n, .integer => some (LittleEndian.write 4 n.toUInt32.toNat)
  | .integer n, .bigint => some (LittleEndian.write 8 n.toInt64.toUInt64.toNat)
  | .bigint n, .bigint => some (LittleEndian.write 8 n.toUInt64.toNat)
  | .double x, .double => some (LittleEndian.write 8 x.bits.toNat)
  | .text s, .text limit =>
    if s.utf8ByteSize ≤ limit.toNat then
      some (LittleEndian.write 2 s.utf8ByteSize ++ fit limit.toNat (Text.encode s))
    else none
  | _, _ => none

/-- The value at the front of the bytes, for a field of the type. A text whose
length is over the limit is refused; any byte but zero is true. -/
def decode (t : FieldType) (data : Bytes) : Option Value :=
  if data.length < t.width then none
  else match t with
    | .boolean => some (.boolean (data.take 1 != [0]))
    | .integer => some (.integer (UInt32.ofNat (LittleEndian.number (data.take 4))).toInt32)
    | .bigint => some (.bigint (UInt64.ofNat (LittleEndian.number (data.take 8))).toInt64)
    | .double => some (.double ⟨UInt64.ofNat (LittleEndian.number (data.take 8))⟩)
    | .text limit =>
      let length := LittleEndian.number (data.take 2)
      if limit.toNat < length then none
      else some (.text (Text.decode ((data.drop 2).take length)))

theorem isSome_encode (v : Value) (t : FieldType) : (v.encode t).isSome = v.fits t := by
  cases v <;> cases t <;> try rfl
  simp only [encode, fits]
  split
  · rename_i h
    simp [h]
  · rename_i h
    simp [h]

theorem length_of_encode {v : Value} {t : FieldType} {bytes : Bytes}
    (h : v.encode t = some bytes) : bytes.length = t.width := by
  unfold encode at h
  split at h <;> (try split at h) <;> simp_all [FieldType.width] <;> subst h <;> simp

end RowStore.Value
