import RowStore.Proofs.Row.Rereading

/-!
  Storing rows — which rows have bytes, and what the bytes give back.

  A field takes a value that fits its type, and a null only if it may be null. A row has
  bytes exactly if every field takes its value (`isSome_encode`), by induction over the
  fields. Main statement: the bytes are as many as the schema says, and whatever follows
  them, they are read as a row with what the fields give back for the values
  (`encode_decode`).
-/

namespace RowStore

/-- Whether a value may stand in a field. -/
def Field.Takes (f : Field) (v : Value) : Prop :=
  v.fits f.type = true ∧ (v = .null → f.nullable = true)

instance (f : Field) (v : Value) : Decidable (f.Takes v) :=
  inferInstanceAs (Decidable (_ ∧ _))

theorem Value.isNull_eq_true_iff {v : Value} : v.isNull = true ↔ v = .null := by
  cases v <;> simp [isNull]

namespace Row

/-- A row whose values may stand in its fields. -/
def Storable (r : Row) : Prop :=
  ∀ i f v, r.schema.field? i = some f → r.value? i = some v → f.Takes v

theorem isSome_encodeField (f : Field) (v : Value) :
    (encodeField f v).isSome = true ↔ f.Takes v := by
  unfold encodeField
  split
  · rename_i hnull
    obtain ⟨hv, hf⟩ := (Bool.and_eq_true _ _).mp hnull
    have hnone : f.nullable = false := by simpa using hf
    simp [Field.Takes, Value.isNull_eq_true_iff.mp hv, hnone]
  · rename_i hnull
    rw [Value.isSome_encode]
    refine ⟨fun hfits => ⟨hfits, ?_⟩, fun h => h.1⟩
    rintro rfl
    simpa [Value.isNull] using hnull

theorem isSome_encodeFields {fs : List Field} {vs : List Value} (hlen : vs.length = fs.length) :
    (encodeFields fs vs).isSome = true ↔
      ∀ (i : Nat) (f : Field) (v : Value), fs[i]? = some f → vs[i]? = some v → f.Takes v := by
  induction fs generalizing vs with
  | nil => simp [encodeFields]
  | cons f fs ih =>
    cases vs with
    | nil => simp at hlen
    | cons v vs =>
      have hlen' : vs.length = fs.length := by simpa using hlen
      have hrest := ih hlen'
      have hsplit : (encodeFields (f :: fs) (v :: vs)).isSome = true ↔
          (encodeField f v).isSome = true ∧ (encodeFields fs vs).isSome = true := by
        rw [encodeFields]
        cases encodeField f v <;> simp
      rw [hsplit, isSome_encodeField, hrest]
      constructor
      · rintro ⟨hhead, htail⟩ i g w hg hw
        cases i with
        | zero =>
          obtain rfl := Option.some.inj hg
          obtain rfl := Option.some.inj hw
          exact hhead
        | succ i => exact htail i g w hg hw
      · intro hall
        exact ⟨hall 0 f v rfl rfl, fun i g w hg hw => hall (i + 1) g w hg hw⟩

/-- A row has bytes exactly if every field takes its value. -/
theorem isSome_encode (r : Row) : r.encode.isSome = true ↔ r.Storable := by
  rw [encode, Option.isSome_map]
  exact isSome_encodeFields r.length_values

instance (r : Row) : Decidable r.Storable := decidable_of_iff _ r.isSome_encode

/-- A row has bytes exactly if every field takes its value: the value fits the type, and
it is null only where that is allowed. The bytes are as many as the schema says, and
whatever follows them, they are read as a row with what the fields give back for the
values. Each value has bytes exactly if it fits, as many as its type is wide. -/
theorem encode_decode (r : Row) :
    (r.encode.isSome = true ↔ r.Storable) ∧
      (∀ bytes, r.encode = some bytes → bytes.length = r.schema.rowSize ∧
        ∀ rest, ∃ s, decode r.schema (bytes ++ rest) = some s ∧
          (r.storedAt none).GivesBack s) ∧
      ∀ (v : Value) (t : FieldType), ((v.encode t).isSome = true ↔ v.fits t = true) ∧
        ∀ bytes, v.encode t = some bytes → bytes.length = t.width := by
  refine ⟨r.isSome_encode, ?_, ?_⟩
  · intro bytes h
    refine ⟨length_of_encode h, fun rest => ⟨_, decode_encode h rest, ?_⟩⟩
    exact (r.storedAt none).givesBack_reread
  · intro v t
    exact ⟨by rw [Value.isSome_encode], fun bytes h => Value.length_of_encode h⟩

/-- A row of nine fields, whose null bits take two bytes. -/
def wide : Row where
  schema := ⟨[⟨"n", .bigint, false⟩, ⟨"s", .text 3, false⟩, ⟨"x", .double, true⟩] ++
    List.replicate 6 ⟨"b", .boolean, true⟩⟩
  values := [.integer (-5), .text "é", .double ⟨0x7ff8000000000001⟩] ++ List.replicate 6 .null
  record := none
  length_values := rfl

theorem encode_decode_wide :
    wide.Storable ∧ ∃ bytes s, wide.encode = some bytes ∧ bytes.length = 29 ∧
      decode wide.schema (bytes ++ [1]) = some s ∧
      ∃ w, s.value? 0 = some w ∧ Value.GivesBack .bigint (.integer (-5)) w := by
  obtain ⟨hstorable, hbytes, -⟩ := encode_decode wide
  have hsome : wide.encode.isSome = true := by decide +kernel
  obtain ⟨bytes, h⟩ := Option.isSome_iff_exists.mp hsome
  obtain ⟨hlen, hread⟩ := hbytes bytes h
  obtain ⟨s, hs, hback⟩ := hread [1]
  obtain ⟨v, w, hv, hw, hvw⟩ := hback.values 0 ⟨"n", .bigint, false⟩ rfl
  obtain rfl : .integer (-5) = v := Option.some.inj hv
  exact ⟨hstorable.mp hsome, bytes, s, h, hlen, hs, w, hw, hvw⟩

end Row

end RowStore
