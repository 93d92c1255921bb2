import RowStore.Bytes.Block
import RowStore.Proofs.Row.Decoding

/-!
  Accepting rows — which bytes are read as a row, and that only they are looked at.

  A row is read field by field, each from its own width of bytes, its null bit from the
  bytes in front. `Row.read` does so with every access checked, and no check ever fails
  (`Row.read_eq`): null bits and fields end within the width of the row. Of all values only
  a text can be refused, so bytes of that width are read as a row exactly if every text
  whose null bit is clear claims no more bytes than its field has (`isSome_decode_iff`).
-/

namespace RowStore

namespace Bytes

/-- The bytes from `start` up to `stop`; none unless they are inside the data. -/
def between? (data : Bytes) (start stop : Nat) : Option Bytes :=
  if start ≤ stop ∧ stop ≤ data.length then some ((data.drop start).take (stop - start)) else none

theorem between?_of_le {data : Bytes} {start stop : Nat} (h₁ : start ≤ stop)
    (h₂ : stop ≤ data.length) :
    between? data start stop = some ((data.drop start).take (stop - start)) :=
  if_pos ⟨h₁, h₂⟩

theorem between?_zero {data : Bytes} {stop : Nat} (h : stop ≤ data.length) :
    between? data 0 stop = some (data.take stop) :=
  between?_of_le (Nat.zero_le stop) h

/-- Bit `i` of the bits that begin at a byte. -/
def bitAt (data : Bytes) (start i : Nat) : Bool :=
  (data.getD (start + i / 8) 0).toNat.testBit (i % 8)

/-- The number of 16 bits at a byte, the low one first. -/
def lengthAt (data : Bytes) (start : Nat) : Nat :=
  (data.getD start 0).toNat + 256 * (data.getD (start + 1) 0).toNat

theorem number_take_two (data : Bytes) : LittleEndian.number (data.take 2) = lengthAt data 0 := by
  match data with
  | [] => rfl
  | [_] => rfl
  | _ :: _ :: _ => rfl

theorem lengthAt_drop (data : Bytes) (n start : Nat) :
    lengthAt (data.drop n) start = lengthAt data (n + start) := by
  rw [lengthAt, lengthAt, getD_drop, getD_drop, Nat.add_assoc]

theorem lengthAt_take {data : Bytes} {n : Nat} (h : 2 ≤ n) :
    lengthAt (data.take n) 0 = lengthAt data 0 := by
  rw [lengthAt, lengthAt, getD_take, getD_take, if_pos (by omega), if_pos (by omega)]

theorem bitAt_take {data : Bytes} {n i : Nat} (h : i / 8 < n) :
    bitAt (data.take n) 0 i = bitAt data 0 i := by
  rw [bitAt, bitAt, getD_take, if_pos (by omega)]

namespace Bitmap

theorem getElem?_unpack (bytes : Bytes) (i : Nat) :
    (unpack bytes)[i]? = (bytes[i / 8]?).map fun b => b.toNat.testBit (i % 8) := by
  induction bytes generalizing i with
  | nil => rfl
  | cons b rest ih =>
    rw [unpack_cons]
    by_cases hi : i < 8
    · have hdiv : i / 8 = 0 := by omega
      have hmod : i % 8 = i := by omega
      rw [List.getElem?_append_left (by rw [length_bits]; exact hi), hdiv, hmod]
      simp [bits, hi]
    · have hdiv : i / 8 = (i - 8) / 8 + 1 := by omega
      have hmod : i % 8 = (i - 8) % 8 := by omega
      rw [List.getElem?_append_right (by rw [length_bits]; omega), length_bits, ih, hdiv, hmod]
      rfl

/-- A bit of the bitmap is in one of its bytes. -/
theorem getElem?_unpack_of_lt {bytes : Bytes} {i : Nat} (hi : i < 8 * bytes.length) :
    ∃ b, bytes[i / 8]? = some b ∧ (unpack bytes)[i]? = some (b.toNat.testBit (i % 8)) ∧
      b.toNat.testBit (i % 8) = bitAt bytes 0 i := by
  have hlt : i / 8 < bytes.length := by omega
  have hbyte := List.getElem?_eq_getElem hlt
  refine ⟨_, hbyte, by rw [getElem?_unpack, hbyte, Option.map_some], ?_⟩
  rw [bitAt, Nat.zero_add, List.getD_eq_getElem?_getD, hbyte, Option.getD_some]

end Bitmap

end Bytes

open Bytes

namespace Value

/-- The value at the front of the bytes, none if it is refused, every access checked: none at
all if one is outside the bytes. -/
def read (t : FieldType) (data : Bytes) : Option (Option Value) :=
  if data.length < t.width then some none
  else match t with
    | .boolean => (between? data 0 1).map fun head => some (.boolean (head != [0]))
    | .integer => (between? data 0 4).map fun head =>
        some (.integer (UInt32.ofNat (LittleEndian.number head)).toInt32)
    | .bigint => (between? data 0 8).map fun head =>
        some (.bigint (UInt64.ofNat (LittleEndian.number head)).toInt64)
    | .double => (between? data 0 8).map fun head =>
        some (.double ⟨UInt64.ofNat (LittleEndian.number head)⟩)
    | .text limit => (between? data 0 2).bind fun head =>
        let length := LittleEndian.number head
        if limit.toNat < length then some none
        else (between? data 2 (2 + length)).map fun body => some (.text (Text.decode body))

/-- No access of a value is outside its bytes. -/
theorem read_eq (t : FieldType) (data : Bytes) : read t data = some (decode t data) := by
  unfold read decode
  split
  · rfl
  rename_i hwidth
  have hle : t.width ≤ data.length := Nat.le_of_not_lt hwidth
  cases t with
  | boolean =>
    have hhead : between? data 0 1 = some (data.take 1) := between?_zero hle
    simp only [hhead, Option.map_some]
  | integer =>
    have hhead : between? data 0 4 = some (data.take 4) := between?_zero hle
    simp only [hhead, Option.map_some]
  | bigint =>
    have hhead : between? data 0 8 = some (data.take 8) := between?_zero hle
    simp only [hhead, Option.map_some]
  | double =>
    have hhead : between? data 0 8 = some (data.take 8) := between?_zero hle
    simp only [hhead, Option.map_some]
  | text limit =>
    have hle : 2 + limit.toNat ≤ data.length := hle
    simp only [between?_zero (Nat.le_of_add_right_le hle), Option.bind_some]
    split
    · rfl
    · rename_i hlimit
      rw [between?_of_le (Nat.le_add_right 2 _) (by omega), Nat.add_sub_cancel_left]
      rfl

theorem isSome_decode_iff {t : FieldType} {data : Bytes} (h : t.width ≤ data.length) :
    (decode t data).isSome = true ↔ ∀ limit, t = .text limit → lengthAt data 0 ≤ limit.toNat := by
  unfold decode
  rw [if_neg (Nat.not_lt.mpr h)]
  cases t with
  | text limit =>
    simp only [number_take_two, FieldType.text.injEq, forall_eq']
    split
    · rename_i hlt
      exact iff_of_false (by simp) (Nat.not_le.mpr hlt)
    · rename_i hle
      exact iff_of_true rfl (Nat.le_of_not_lt hle)
  | _ => simp

end Value

namespace Row

/-! ## Reading with every access checked -/

/-- The value of field number `i`, whose bytes begin at `start`. -/
def readField (nulls data : Bytes) (f : Field) (i start : Nat) : Option (Option Value) :=
  (nulls[i / 8]?).bind fun byte =>
    if byte.toNat.testBit (i % 8) then some (some .null)
    else (between? data start (start + f.type.width)).bind (Value.read f.type)

/-- The values of the fields from number `i` on, whose bytes begin at `start`. -/
def readFields (nulls data : Bytes) : List Field → Nat → Nat → Option (Option (List Value))
  | [], _, _ => some (some [])
  | f :: fs, i, start =>
    (readField nulls data f i start).bind fun
      | none => some none
      | some v => (readFields nulls data fs (i + 1) (start + f.type.width)).map (Option.map (v :: ·))

/-- The row at the front of the bytes, none if it is refused, every access checked. -/
def read (schema : Schema) (data : Bytes) : Option (Option Row) :=
  if data.length < schema.rowSize then some none
  else (between? data 0 schema.nullBytes).bind fun nulls =>
    (readFields nulls data schema.fields 0 schema.nullBytes).map fun values =>
      values.bind fun vs => (ofValues schema vs).toOption

/-- The width of all fields. -/
def width (fs : List Field) : Nat := fs.foldr (fun f n => f.type.width + n) 0

@[simp] theorem width_cons (f : Field) (fs : List Field) :
    width (f :: fs) = f.type.width + width fs := rfl

theorem readField_eq {nulls data : Bytes} {f : Field} {i start : Nat}
    (hn : i < 8 * nulls.length) (hd : start + f.type.width ≤ data.length) :
    readField nulls data f i start =
      some (decodeField f (bitAt nulls 0 i) ((data.drop start).take f.type.width)) := by
  obtain ⟨b, hbyte, -, hbit⟩ := Bitmap.getElem?_unpack_of_lt hn
  rw [readField, hbyte, Option.bind_some, hbit, decodeField]
  split
  · rfl
  · rw [between?_of_le (Nat.le_add_right _ _) hd, Option.bind_some, Value.read_eq,
      Nat.add_sub_cancel_left]

theorem readFields_eq {nulls data : Bytes} {fs : List Field} {i start : Nat}
    (hn : i + fs.length ≤ 8 * nulls.length) (hd : start + width fs ≤ data.length) :
    readFields nulls data fs i start =
      some (decodeFields fs ((Bitmap.unpack nulls).drop i) (data.drop start)) := by
  induction fs generalizing i start with
  | nil => rfl
  | cons f fs ih =>
    rw [List.length_cons] at hn
    rw [width_cons] at hd
    have hi : i < 8 * nulls.length := by omega
    obtain ⟨b, -, hunpack, hbit⟩ := Bitmap.getElem?_unpack_of_lt hi
    have hdrop : (Bitmap.unpack nulls).drop i =
        bitAt nulls 0 i :: (Bitmap.unpack nulls).drop (i + 1) := by
      obtain ⟨hlt, hget⟩ := List.getElem?_eq_some_iff.mp hunpack
      rw [List.drop_eq_getElem_cons hlt, hget, hbit]
    rw [readFields, readField_eq hi (by omega), hdrop, decodeFields, List.drop_drop]
    cases decodeField f (bitAt nulls 0 i) ((data.drop start).take f.type.width) with
    | none => rfl
    | some v =>
      have hrest : readFields nulls data fs (i + 1) (start + f.type.width) = _ :=
        ih (by omega) (by omega)
      simp only [Option.bind_some, hrest, Option.map_some]

theorem toOption_ofValues {schema : Schema} {vs : List Value} (h : vs.length = schema.arity) :
    (ofValues schema vs).toOption = some ⟨schema, vs, none, h⟩ := by
  rw [ofValues, dif_pos h]
  rfl

theorem decode_eq_bind {schema : Schema} {data : Bytes} (h : schema.rowSize ≤ data.length) :
    decode schema data =
      (decodeFields schema.fields (Bitmap.unpack (data.take schema.nullBytes))
        (data.drop schema.nullBytes)).bind fun vs => (ofValues schema vs).toOption := by
  unfold decode
  rw [if_neg (Nat.not_lt.mpr h)]
  dsimp only
  split
  · rename_i vs hvs
    exact (Option.bind_eq_some_iff.mpr
      ⟨vs, hvs, toOption_ofValues (length_of_decodeFields hvs)⟩).symm
  · rename_i hnone
    rw [hnone]
    rfl

/-- The null bits of a row take whole bytes. -/
theorem arity_le (schema : Schema) : schema.fields.length ≤ 8 * schema.nullBytes := by
  rw [Schema.nullBytes, Bitmap.size, Schema.arity]
  omega

theorem length_take_nullBytes {schema : Schema} {data : Bytes} (h : schema.rowSize ≤ data.length) :
    (data.take schema.nullBytes).length = schema.nullBytes :=
  List.length_take_of_le (Nat.le_trans (Nat.le_add_right _ _) h)

/-- No access of a row is outside its bytes. -/
theorem read_eq (schema : Schema) (data : Bytes) : read schema data = some (decode schema data) := by
  by_cases hsize : data.length < schema.rowSize
  · rw [read, decode, if_pos hsize, if_pos hsize]
  have hle : schema.rowSize ≤ data.length := Nat.le_of_not_lt hsize
  have hfields : schema.nullBytes + width schema.fields ≤ data.length := hle
  have hbits : 0 + schema.fields.length ≤ 8 * (data.take schema.nullBytes).length := by
    rw [length_take_nullBytes hle, Nat.zero_add]
    exact arity_le schema
  rw [read, if_neg hsize, between?_zero (by omega), Option.bind_some,
    readFields_eq hbits hfields, List.drop_zero, Option.map_some, decode_eq_bind hle]

/-! ## Acceptance -/

/-- Where field `k` begins behind the null bits. -/
def fieldStart (fs : List Field) (k : Nat) : Nat := width (fs.take k)

/-- Of the row at a byte, no text whose null bit is clear claims more bytes than its field has. -/
def TextsFit (schema : Schema) (data : Bytes) (start : Nat) : Prop :=
  ∀ k f limit, schema.fields[k]? = some f → f.type = .text limit → bitAt data start k = false →
    lengthAt data (start + schema.nullBytes + fieldStart schema.fields k) ≤ limit.toNat

/-- A field is among the fields. -/
theorem fieldStart_add_le {fs : List Field} {k : Nat} {f : Field} (h : fs[k]? = some f) :
    fieldStart fs k + f.type.width ≤ width fs := by
  induction fs generalizing k with
  | nil => simp at h
  | cons g fs ih =>
    cases k with
    | zero =>
      obtain rfl := Option.some.inj h
      simp [fieldStart, width]
    | succ k =>
      have hle := ih (k := k) h
      simp only [fieldStart, List.take_succ_cons, width_cons] at hle ⊢
      omega

/-- Whether the texts fit is told by the bytes of the row. -/
theorem textsFit_slice {schema : Schema} {data : Bytes} {start : Nat} :
    TextsFit schema ((data.drop start).take schema.rowSize) 0 ↔ TextsFit schema data start := by
  refine forall₃_congr fun k f limit => forall₂_congr fun hf ht => ?_
  have hk := Nat.lt_of_lt_of_le (List.getElem?_eq_some_iff.mp hf).1 (arity_le schema)
  have hfield := fieldStart_add_le hf
  have hrow : schema.rowSize = schema.nullBytes + width schema.fields := rfl
  rw [ht] at hfield
  simp only [FieldType.width] at hfield
  simp only [bitAt, lengthAt, getD_take, getD_drop, Nat.zero_add]
  rw [if_pos (by omega), if_pos (by omega), if_pos (by omega)]
  simp only [Nat.add_assoc]

theorem isSome_decodeField_iff {f : Field} {isNull : Bool} {data : Bytes}
    (h : f.type.width ≤ data.length) :
    (decodeField f isNull (data.take f.type.width)).isSome = true ↔
      ∀ limit, f.type = .text limit → isNull = false → lengthAt data 0 ≤ limit.toNat := by
  unfold decodeField
  cases isNull with
  | true => simp
  | false =>
    have hwidth : f.type.width ≤ (data.take f.type.width).length := by
      rw [List.length_take]
      omega
    rw [if_neg Bool.false_ne_true, Value.isSome_decode_iff hwidth]
    refine forall₂_congr fun limit ht => ?_
    have htwo : 2 ≤ f.type.width := by
      rw [ht]
      exact Nat.le_add_right 2 _
    rw [lengthAt_take htwo]
    simp

theorem isSome_decodeFields_iff {fs : List Field} {nulls : List Bool} {data : Bytes}
    (hn : fs.length ≤ nulls.length) (hd : width fs ≤ data.length) :
    (decodeFields fs nulls data).isSome = true ↔ ∀ k f limit, fs[k]? = some f →
      f.type = .text limit → nulls[k]? = some false →
        lengthAt data (fieldStart fs k) ≤ limit.toNat := by
  induction fs generalizing nulls data with
  | nil => simp [decodeFields]
  | cons f fs ih =>
    cases nulls with
    | nil => simp at hn
    | cons isNull nulls =>
      rw [width_cons] at hd
      have hhead : (decodeField f isNull (data.take f.type.width)).isSome = true ↔ _ :=
        isSome_decodeField_iff (by omega)
      have htail : (decodeFields fs nulls (data.drop f.type.width)).isSome = true ↔ _ :=
        ih (by simpa using hn) (by rw [List.length_drop]; omega)
      have hsplit : (decodeFields (f :: fs) (isNull :: nulls) data).isSome = true ↔
          (decodeField f isNull (data.take f.type.width)).isSome = true ∧
            (decodeFields fs nulls (data.drop f.type.width)).isSome = true := by
        rw [decodeFields]
        cases decodeField f isNull (data.take f.type.width) <;> simp
      rw [hsplit, hhead, htail]
      constructor
      · rintro ⟨hhead, htail⟩ k g limit hg ht hnull
        cases k with
        | zero =>
          obtain rfl := Option.some.inj hg
          exact hhead limit ht (Option.some.inj hnull)
        | succ k =>
          have hle := htail k g limit hg ht hnull
          rw [lengthAt_drop] at hle
          exact hle
      · intro h
        refine ⟨fun limit ht hnull => h 0 f limit rfl ht (congrArg some hnull), ?_⟩
        intro k g limit hg ht hnull
        rw [lengthAt_drop]
        exact h (k + 1) g limit hg ht hnull

/-- Bytes of the width of a row are read as a row exactly if its texts fit. -/
theorem isSome_decode_iff {schema : Schema} {data : Bytes} (h : schema.rowSize ≤ data.length) :
    (decode schema data).isSome = true ↔ TextsFit schema data 0 := by
  have hnulls := length_take_nullBytes h
  have hfields : schema.nullBytes + width schema.fields ≤ data.length := h
  have hbits : schema.fields.length ≤ (Bitmap.unpack (data.take schema.nullBytes)).length := by
    rw [Bitmap.length_unpack, hnulls]
    exact arity_le schema
  have hvalues : (decode schema data).isSome = (decodeFields schema.fields
      (Bitmap.unpack (data.take schema.nullBytes)) (data.drop schema.nullBytes)).isSome := by
    rw [decode_eq_bind h]
    cases hvs : decodeFields schema.fields (Bitmap.unpack (data.take schema.nullBytes))
      (data.drop schema.nullBytes) with
    | none => rfl
    | some vs => rw [Option.bind_some, toOption_ofValues (length_of_decodeFields hvs)]; rfl
  rw [hvalues, isSome_decodeFields_iff hbits (by rw [List.length_drop]; omega)]
  refine forall₃_congr fun k f limit => forall₂_congr fun hf ht => ?_
  have hk : k < 8 * (data.take schema.nullBytes).length := by
    rw [hnulls]
    exact Nat.lt_of_lt_of_le (List.getElem?_eq_some_iff.mp hf).1 (arity_le schema)
  obtain ⟨b, -, hunpack, hbit⟩ := Bitmap.getElem?_unpack_of_lt hk
  rw [hunpack, hbit, bitAt_take (by omega), Option.some.injEq, lengthAt_drop, Nat.zero_add]

end Row

end RowStore
