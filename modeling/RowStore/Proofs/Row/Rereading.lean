import RowStore.Row.Codec

/-!
  Rereading rows — what was encoded decodes, and encodes to the same bytes again.

  A row is read as it was written, but for an integer in a bigint field, which comes back
  as a bigint (`reread`). The row that is read has the same bytes (`encode_reread`), so
  nothing changes on a page that is written, read and written again. Null bits survive
  because a packed list of bits unpacks to itself, followed by clear bits (`unpack_pack`).
  Main statement: the bytes of a row, whatever follows them, are read as the row reread
  (`decode_encode`).
-/

namespace RowStore

namespace Bytes.Bitmap

/-! ## Bits -/

/-- The number whose binary digits are the bits, lowest first. -/
def number (bs : List Bool) : Nat := bs.foldr (fun b n => b.toNat + 2 * n) 0

theorem number_lt (bs : List Bool) : number bs < Nat.pow 2 bs.length := by
  induction bs with
  | nil => decide
  | cons b bs ih =>
    have hb : b.toNat ≤ 1 := by cases b <;> decide
    have hn : number (b :: bs) = b.toNat + 2 * number bs := rfl
    have hpow : Nat.pow 2 (b :: bs).length = Nat.pow 2 bs.length * 2 := rfl
    rw [hn, hpow]
    omega

theorem testBit_number (bs : List Bool) (i : Nat) : (number bs).testBit i = bs.getD i false := by
  induction bs generalizing i with
  | nil =>
    have hn : number [] = 0 := rfl
    rw [hn, Nat.zero_testBit]
    rfl
  | cons b bs ih =>
    have hn : number (b :: bs) = b.toNat + 2 * number bs := rfl
    rw [hn]
    cases i with
    | zero =>
      have hmod : (b.toNat + 2 * number bs) % 2 = b.toNat := by
        have hb : b.toNat < 2 := Bool.toNat_lt b
        omega
      rw [Nat.testBit_zero, hmod]
      cases b <;> rfl
    | succ i =>
      have hdiv : (b.toNat + 2 * number bs) / 2 = number bs := by
        have hb : b.toNat < 2 := Bool.toNat_lt b
        omega
      rw [Nat.testBit_succ, hdiv, ih]
      rfl

/-- At most eight bits are the first of their byte. -/
theorem bits_byte {bs : List Bool} (h : bs.length ≤ 8) :
    bits (byte bs) = bs ++ List.replicate (8 - bs.length) false := by
  have hlt : number bs < 256 :=
    Nat.lt_of_lt_of_le (number_lt bs) (Nat.pow_le_pow_right (by decide) h)
  have hnum : (byte bs).toNat = number bs := by
    show (UInt8.ofNat (number bs)).toNat = number bs
    rw [UInt8.toNat_ofNat', Nat.mod_eq_of_lt hlt]
  apply List.ext_getElem?
  intro i
  by_cases hi : i < 8
  · have hl : (bits (byte bs))[i]? = some ((number bs).testBit i) := by
      simp [bits, hnum, hi]
    rw [hl, testBit_number, List.getElem?_append]
    split
    · rename_i hlen
      simp [List.getD_eq_getElem?_getD, hlen]
    · rename_i hlen
      rw [List.getElem?_replicate, if_pos (by omega), List.getD_eq_getElem?_getD,
        List.getElem?_eq_none (by omega)]
      rfl
  · rw [List.getElem?_eq_none (by simp; omega), List.getElem?_eq_none (by simp; omega)]

theorem pack_eq {bs : List Bool} (h : bs ≠ []) : pack bs = byte (bs.take 8) :: pack (bs.drop 8) := by
  have hpos : 0 < bs.length := List.length_pos_iff.mpr h
  have hsize : size bs.length = size (bs.drop 8).length + 1 := by
    simp only [size, List.length_drop]
    omega
  unfold pack
  rw [hsize, chunks_succ, List.map_cons]

/-- A packed list of bits unpacks to itself and clear bits. -/
theorem unpack_pack (bs : List Bool) :
    unpack (pack bs) = bs ++ List.replicate (8 * size bs.length - bs.length) false := by
  induction hn : bs.length using Nat.strongRecOn generalizing bs with
  | ind n ih =>
    by_cases hnil : bs = []
    · subst hnil
      subst hn
      rfl
    · have hpos : 0 < bs.length := List.length_pos_iff.mpr hnil
      have hdrop : (bs.drop 8).length = n - 8 := by rw [List.length_drop, hn]
      have hrest := ih (n - 8) (by omega) (bs.drop 8) hdrop
      have htop : (bs.take 8).length ≤ 8 := List.length_take_le 8 bs
      rw [pack_eq hnil, unpack_cons, hrest, bits_byte htop]
      by_cases hle : bs.length ≤ 8
      · have htake : bs.take 8 = bs := List.take_of_length_le hle
        have hnone : bs.drop 8 = [] := List.drop_of_length_le hle
        have hcount : 8 * size n - n = 8 - bs.length + (8 * size (n - 8) - (n - 8)) := by
          simp only [size]
          omega
        rw [htake, hnone, List.nil_append, List.append_assoc, List.replicate_append_replicate,
          hcount]
      · have hlen : (bs.take 8).length = 8 := by
          rw [List.length_take]
          omega
        have hcount : 8 * size (n - 8) - (n - 8) = 8 * size n - n := by
          simp only [size]
          omega
        rw [hlen, Nat.sub_self, List.replicate_zero, List.append_nil, ← List.append_assoc,
          List.take_append_drop, hcount]

end Bytes.Bitmap

open Bytes

/-! ## Values -/

namespace Value

/-- The value as a field of the type gives it back. -/
def reread : FieldType → Value → Value
  | .bigint, .integer n => .bigint n.toInt64
  | _, v => v

@[simp] theorem isNull_reread (t : FieldType) (v : Value) : (reread t v).isNull = v.isNull := by
  unfold reread
  split <;> rfl

@[simp] theorem encode_reread (t : FieldType) (v : Value) :
    (reread t v).encode t = v.encode t := by
  unfold reread
  split <;> rfl

/-- Only an integer in a bigint field comes back as another value. -/
theorem reread_eq_self_iff {t : FieldType} {v : Value} :
    reread t v = v ↔ ¬ (t = .bigint ∧ ∃ n, v = .integer n) := by
  unfold reread
  split
  · simp
  · rename_i hne
    refine ⟨fun _ hx => ?_, fun _ => rfl⟩
    obtain ⟨ht, n, hv⟩ := hx
    exact hne n ht hv

theorem number_take_write (width : Nat) {n : Nat} (h : n < Nat.pow 256 width) (rest : Bytes) :
    LittleEndian.number ((LittleEndian.write width n ++ rest).take width) = n := by
  calc LittleEndian.number ((LittleEndian.write width n ++ rest).take width)
      = LittleEndian.number (LittleEndian.write width n) := by
        rw [List.take_left' (LittleEndian.length_write width n)]
    _ = n % Nat.pow 256 width := LittleEndian.number_write width n
    _ = n := Nat.mod_eq_of_lt h

theorem number_take_write_self (width : Nat) {n : Nat} (h : n < Nat.pow 256 width) :
    LittleEndian.number ((LittleEndian.write width n).take width) = n := by
  have hr := number_take_write width h []
  rwa [List.append_nil] at hr

/-- The text is found again behind its length. -/
theorem text_write {s : String} {limit : Nat} (h : s.utf8ByteSize ≤ limit) :
    ((LittleEndian.write 2 s.utf8ByteSize ++ fit limit (Text.encode s)).drop 2).take
      s.utf8ByteSize = Text.encode s := by
  have hall : (Text.encode s).take limit = Text.encode s :=
    List.take_of_length_le (by rw [Text.length_encode]; exact h)
  rw [List.drop_left' (LittleEndian.length_write 2 _), fit, hall,
    List.take_left' (Text.length_encode s)]

theorem decode_encode {v : Value} {t : FieldType} {bytes : Bytes} (hn : v.isNull = false)
    (h : v.encode t = some bytes) : decode t bytes = some (reread t v) := by
  have hlen := length_of_encode h
  have hge : ¬ bytes.length < t.width := by omega
  unfold decode
  rw [if_neg hge]
  cases v with
  | null => simp [isNull] at hn
  | boolean b =>
    cases t with
    | boolean =>
      obtain rfl := Option.some.inj h
      cases b <;> rfl
    | _ => simp [encode] at h
  | integer n =>
    cases t with
    | integer =>
      obtain rfl := Option.some.inj h
      have hnum := number_take_write_self 4 n.toUInt32.toNat_lt
      simp only [hnum, UInt32.ofNat_toNat]
      rfl
    | bigint =>
      obtain rfl := Option.some.inj h
      have hnum := number_take_write_self 8 n.toInt64.toUInt64.toNat_lt
      simp only [hnum, UInt64.ofNat_toNat]
      rfl
    | _ => simp [encode] at h
  | bigint n =>
    cases t with
    | bigint =>
      obtain rfl := Option.some.inj h
      have hnum := number_take_write_self 8 n.toUInt64.toNat_lt
      simp only [hnum, UInt64.ofNat_toNat]
      rfl
    | _ => simp [encode] at h
  | double x =>
    cases t with
    | double =>
      obtain rfl := Option.some.inj h
      have hnum := number_take_write_self 8 x.bits.toNat_lt
      simp only [hnum, UInt64.ofNat_toNat]
      rfl
    | _ => simp [encode] at h
  | text s =>
    cases t with
    | text limit =>
      simp only [encode] at h
      split at h
      · rename_i hle
        obtain rfl := Option.some.inj h
        have hlt : s.utf8ByteSize < Nat.pow 256 2 := Nat.lt_of_le_of_lt hle limit.toNat_lt
        have hnum := number_take_write 2 hlt (fit limit.toNat (Text.encode s))
        simp only [hnum, if_neg (Nat.not_lt.mpr hle), text_write hle, Text.decode_encode]
        rfl
      · simp at h
    | _ => simp [encode] at h

end Value

/-! ## Rows -/

namespace Row

/-- Values as the fields give them back. -/
def rereadFields (fs : List Field) (vs : List Value) : List Value :=
  List.zipWith (fun f v => Value.reread f.type v) fs vs

theorem rereadFields_cons (f : Field) (fs : List Field) (v : Value) (vs : List Value) :
    rereadFields (f :: fs) (v :: vs) = Value.reread f.type v :: rereadFields fs vs := rfl

/-- The row as its bytes give it back. -/
def reread (r : Row) : Row :=
  { r with
    values := rereadFields r.schema.fields r.values
    length_values := by
      rw [rereadFields, List.length_zipWith, r.length_values]
      exact Nat.min_self _ }

theorem value_of_encodeField {f : Field} {v : Value} {bytes : Bytes}
    (h : encodeField f v = some bytes) : v.encode f.type = some bytes := by
  unfold encodeField at h
  split at h
  · simp at h
  · exact h

theorem encodeField_reread (f : Field) (v : Value) :
    encodeField f (Value.reread f.type v) = encodeField f v := by
  rw [encodeField, encodeField, Value.isNull_reread, Value.encode_reread]

theorem encodeFields_reread (fs : List Field) (vs : List Value) :
    encodeFields fs (rereadFields fs vs) = encodeFields fs vs := by
  induction fs generalizing vs with
  | nil => rfl
  | cons f fs ih =>
    cases vs with
    | nil => rfl
    | cons v vs =>
      rw [rereadFields_cons, encodeFields, encodeFields, encodeField_reread, ih vs]

theorem nulls_reread {fs : List Field} {vs : List Value} (h : vs.length = fs.length) :
    (rereadFields fs vs).map Value.isNull = vs.map Value.isNull := by
  induction fs generalizing vs with
  | nil => rw [List.length_eq_zero_iff.mp h, rereadFields, List.zipWith_nil_left]
  | cons f fs ih =>
    cases vs with
    | nil => rfl
    | cons v vs =>
      have hlen : vs.length = fs.length := by simpa using h
      have hrest := ih hlen
      rw [rereadFields_cons, List.map_cons, List.map_cons, Value.isNull_reread, hrest]

@[simp] theorem schema_reread (r : Row) : r.reread.schema = r.schema := rfl

@[simp] theorem record_reread (r : Row) : r.reread.record = r.record := rfl

/-- The row that is read has the bytes of the row that was written. -/
@[simp] theorem encode_reread (r : Row) : r.reread.encode = r.encode := by
  have hlen : r.values.length = r.schema.fields.length := r.length_values
  have hnulls := nulls_reread hlen
  show (encodeFields r.schema.fields (rereadFields r.schema.fields r.values)).map
      (Bitmap.pack ((rereadFields r.schema.fields r.values).map Value.isNull) ++ ·) = _
  rw [encodeFields_reread, hnulls]
  rfl

/-- Each value of the row that is read is that of the row that was written, reread. -/
theorem value?_reread (r : Row) (i : Nat) :
    r.reread.value? i =
      (r.schema.field? i).bind fun f => (r.value? i).map (Value.reread f.type) := by
  show (List.zipWith (fun f v => Value.reread f.type v) r.schema.fields r.values)[i]? =
    (r.schema.fields[i]?).bind fun f => (r.values[i]?).map (Value.reread f.type)
  rw [List.getElem?_zipWith]
  cases r.schema.fields[i]? with
  | none => rfl
  | some f => cases r.values[i]? <;> rfl

theorem reread_eq_self {r : Row} (h : ∀ i f v, r.schema.field? i = some f →
    r.value? i = some v → Value.reread f.type v = v) : r.reread = r := by
  have hvalues : rereadFields r.schema.fields r.values = r.values := by
    apply List.ext_getElem?
    intro i
    rw [rereadFields, List.getElem?_zipWith]
    cases hf : r.schema.fields[i]? with
    | none =>
      have hlen := r.length_values
      have hge : r.values.length ≤ i := hlen ▸ List.getElem?_eq_none_iff.mp hf
      rw [List.getElem?_eq_none hge]
    | some f =>
      cases hv : r.values[i]? with
      | none => rfl
      | some v => exact congrArg some (h i f v hf hv)
  obtain ⟨schema, values, record, hlen⟩ := r
  simpa only [reread, mk.injEq, true_and, and_true] using hvalues

/-- A row with an integer in a bigint field. -/
def Narrow (r : Row) : Prop :=
  ∃ i f n, r.schema.field? i = some f ∧ f.type = .bigint ∧ r.value? i = some (.integer n)

/-- Every other row comes back as it was. -/
theorem reread_eq_self_iff {r : Row} : r.reread = r ↔ ¬ r.Narrow := by
  constructor
  · rintro hsame ⟨i, f, n, hf, ht, hv⟩
    have hvalue := r.value?_reread i
    rw [hsame, hf, hv, Option.bind_some, Option.map_some] at hvalue
    exact Value.reread_eq_self_iff.mp (Option.some.inj hvalue).symm ⟨ht, n, rfl⟩
  · intro hn
    apply reread_eq_self
    intro i f v hf hv
    rw [Value.reread_eq_self_iff]
    rintro ⟨ht, n, rfl⟩
    exact hn ⟨i, f, n, hf, ht, hv⟩

theorem length_of_encodeFields {fs : List Field} {vs : List Value} {bytes : Bytes}
    (hlen : vs.length = fs.length) (h : encodeFields fs vs = some bytes) :
    bytes.length = fs.foldr (fun f n => f.type.width + n) 0 := by
  induction fs generalizing vs bytes with
  | nil =>
    obtain rfl := List.length_eq_zero_iff.mp hlen
    obtain rfl := Option.some.inj h
    rfl
  | cons f fs ih =>
    cases vs with
    | nil => simp at hlen
    | cons v vs =>
      obtain ⟨head, hhead, h⟩ := Option.bind_eq_some_iff.mp h
      obtain ⟨tail, htail, rfl⟩ := Option.map_eq_some_iff.mp h
      rw [List.length_append, Value.length_of_encode (value_of_encodeField hhead),
        List.foldr_cons, ih (by simpa using hlen) htail]

theorem decodeField_encodeField {f : Field} {v : Value} {bytes : Bytes}
    (h : encodeField f v = some bytes) :
    decodeField f v.isNull bytes = some (Value.reread f.type v) := by
  cases hn : v.isNull with
  | true =>
    have hnull : v = .null := by cases v <;> simp_all [Value.isNull]
    subst hnull
    show some Value.null = some (Value.reread f.type .null)
    cases f.type <;> rfl
  | false => exact Value.decode_encode hn (value_of_encodeField h)

/-- Fields are read one by one from bytes that may go on. -/
theorem decodeFields_encodeFields {fs : List Field} {vs : List Value} {bytes : Bytes}
    (hlen : vs.length = fs.length) (h : encodeFields fs vs = some bytes) (nulls : List Bool)
    (rest : Bytes) :
    decodeFields fs (vs.map Value.isNull ++ nulls) (bytes ++ rest) =
      some (rereadFields fs vs) := by
  induction fs generalizing vs bytes with
  | nil =>
    obtain rfl := List.length_eq_zero_iff.mp hlen
    rfl
  | cons f fs ih =>
    cases vs with
    | nil => simp at hlen
    | cons v vs =>
      obtain ⟨head, hhead, h⟩ := Option.bind_eq_some_iff.mp h
      obtain ⟨tail, htail, rfl⟩ := Option.map_eq_some_iff.mp h
      have hwidth := Value.length_of_encode (value_of_encodeField hhead)
      have hw := decodeField_encodeField hhead
      have hws := ih (by simpa using hlen) htail
      simp only [List.map_cons, List.cons_append, decodeFields, List.append_assoc,
        List.take_left' hwidth, List.drop_left' hwidth, hw, hws, Option.bind_some,
        Option.map_some]
      rfl

theorem length_of_encode {r : Row} {bytes : Bytes} (h : r.encode = some bytes) :
    bytes.length = r.schema.rowSize := by
  obtain ⟨body, hbody, rfl⟩ := Option.map_eq_some_iff.mp h
  rw [List.length_append, length_of_encodeFields r.length_values hbody, Bitmap.length_pack,
    List.length_map, r.length_values]
  rfl

/-- The bytes of a row, whatever follows them, are read as the row reread. -/
theorem decode_encode {r : Row} {bytes : Bytes} (h : r.encode = some bytes) (rest : Bytes) :
    decode r.schema (bytes ++ rest) = some (r.reread.storedAt none) := by
  have hlen := length_of_encode h
  obtain ⟨body, hbody, rfl⟩ := Option.map_eq_some_iff.mp h
  have hnulls : (Bitmap.pack (r.values.map Value.isNull)).length = r.schema.nullBytes := by
    rw [Bitmap.length_pack, List.length_map, r.length_values]
    rfl
  have hfields := decodeFields_encodeFields r.length_values hbody
    (List.replicate (8 * Bitmap.size (r.values.map Value.isNull).length -
      (r.values.map Value.isNull).length) false) rest
  rw [← Bitmap.unpack_pack] at hfields
  -- header and body are found again by their lengths
  have hread : decodeFields r.schema.fields
      (Bitmap.unpack
        ((Bitmap.pack (r.values.map Value.isNull) ++ body ++ rest).take r.schema.nullBytes))
      ((Bitmap.pack (r.values.map Value.isNull) ++ body ++ rest).drop r.schema.nullBytes) =
        some (rereadFields r.schema.fields r.values) := by
    rw [List.append_assoc, List.take_left' hnulls, List.drop_left' hnulls]
    exact hfields
  have hge : ¬ (Bitmap.pack (r.values.map Value.isNull) ++ body ++ rest).length <
      r.schema.rowSize := by
    rw [List.length_append, hlen]
    omega
  unfold decode
  rw [if_neg hge]
  simp only
  split
  · rename_i values hvalues
    rw [hread] at hvalues
    obtain rfl := Option.some.inj hvalues
    rfl
  · rename_i hnone
    rw [hread] at hnone
    simp at hnone

end Row

/-! ## What a field gives back -/

/-- What a field of the type gives back for a value: the value, but for an integer in a
bigint field the bigint of the same number. -/
def Value.GivesBack (t : FieldType) (v w : Value) : Prop :=
  match t, v with
  | .bigint, .integer n => ∃ m, w = .bigint m ∧ m.toInt = n.toInt
  | _, _ => w = v

theorem Value.givesBack_reread (t : FieldType) (v : Value) : GivesBack t v (reread t v) := by
  unfold GivesBack
  split
  · rename_i n
    exact ⟨n.toInt64, rfl, Int32.toInt_toInt64 n⟩
  · rename_i hne
    unfold reread
    split
    · rename_i n
      exact absurd rfl (hne n rfl)
    · rfl

/-- A row that is given back for another: of the same schema, stored at the same place,
and with what the fields give back for its values. -/
structure Row.GivesBack (r s : Row) : Prop where
  schema : s.schema = r.schema
  record : s.record = r.record
  values : ∀ i f, r.schema.field? i = some f →
    ∃ v w, r.value? i = some v ∧ s.value? i = some w ∧ Value.GivesBack f.type v w

theorem Row.givesBack_reread (r : Row) : r.GivesBack r.reread where
  schema := rfl
  record := rfl
  values i f hf := by
    have hlt : i < r.values.length := by
      rw [r.length_values]
      exact (List.getElem?_eq_some_iff.mp hf).1
    have hv : r.value? i = some r.values[i] := List.getElem?_eq_getElem hlt
    refine ⟨_, _, hv, ?_, Value.givesBack_reread f.type _⟩
    rw [value?_reread, hf, hv]
    rfl

end RowStore
