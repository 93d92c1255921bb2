import RowStore.Proofs.Row.Storing

/-!
  Decoding rows — what any bytes are read as.

  Bytes need not have been written by anybody. A field that is read is null or holds a value
  of its type (`Field.Spells`), yet it does not always take that value: its null bit may be
  set where no null is allowed, and a text of ill-formed bytes, each part of them replaced by
  three, may have become longer than the field. A row with such a value is `Flawed`. Main
  statement: a row that was read can be stored exactly if it is not flawed
  (`storable_iff_of_decode`), and it is given back as it is (`reread_of_decode`).
-/

namespace RowStore

open Bytes

namespace Value

/-- A text of more bytes than a field of the type has. -/
def Overlong (v : Value) (t : FieldType) : Prop :=
  ∃ s limit, v = .text s ∧ t = .text limit ∧ limit.toNat < s.utf8ByteSize

theorem Overlong.not_fits {v : Value} {t : FieldType} (h : v.Overlong t) : v.fits t = false := by
  obtain ⟨s, limit, rfl, rfl, hlt⟩ := h
  simpa [fits] using hlt

/-- What is read fits its field, unless it is a text that is too long for it. -/
theorem fits_of_decode {t : FieldType} {data : Bytes} {v : Value} (h : decode t data = some v) :
    v.isNull = false ∧ reread t v = v ∧ (v.fits t = true ∨ v.Overlong t) := by
  unfold decode at h
  split at h
  · simp at h
  cases t with
  | text limit =>
    simp only at h
    split at h
    · simp at h
    obtain rfl := Option.some.inj h
    refine ⟨rfl, rfl, ?_⟩
    generalize Text.decode _ = s
    by_cases hs : s.utf8ByteSize ≤ limit.toNat
    · exact .inl (decide_eq_true hs)
    · exact .inr ⟨s, limit, rfl, rfl, Nat.lt_of_not_le hs⟩
  | _ =>
    obtain rfl := Option.some.inj h
    exact ⟨rfl, rfl, .inl rfl⟩

/-- Two bytes that are no text are read as two replacement characters, which take six. -/
example : (decode (.text 2) [2, 0, 0xFF, 0xFF]).map (·.fits (.text 2)) = some false := by
  decide +kernel

end Value

namespace Field

/-- The values that some bytes spell in a field. -/
def Spells (f : Field) (v : Value) : Prop :=
  v = .null ∨ ∃ data, Value.decode f.type data = some v

/-- A value that cannot stand in a field although bytes may spell it there. -/
def Misspells (f : Field) (v : Value) : Prop :=
  (v = .null ∧ f.nullable = false) ∨ v.Overlong f.type

theorem Misspells.not_takes {f : Field} {v : Value} (h : f.Misspells v) : ¬ f.Takes v := by
  rintro ⟨hfits, hnull⟩
  rcases h with ⟨hv, hf⟩ | hlong
  · rw [hnull hv] at hf
    simp at hf
  · rw [hlong.not_fits] at hfits
    simp at hfits

theorem Spells.takes_or {f : Field} {v : Value} (h : f.Spells v) : f.Takes v ∨ f.Misspells v := by
  rcases h with rfl | ⟨data, hdata⟩
  · cases hf : f.nullable with
    | true => exact .inl ⟨rfl, fun _ => hf⟩
    | false => exact .inr (.inl ⟨rfl, hf⟩)
  · obtain ⟨hnull, -, hfits | hlong⟩ := Value.fits_of_decode hdata
    · refine .inl ⟨hfits, ?_⟩
      rintro rfl
      simp [Value.isNull] at hnull
    · exact .inr (.inr hlong)

theorem Spells.reread {f : Field} {v : Value} (h : f.Spells v) : Value.reread f.type v = v := by
  rcases h with rfl | ⟨data, hdata⟩
  · cases f.type <;> rfl
  · exact (Value.fits_of_decode hdata).2.1

end Field

namespace Row

/-- A row with a value that cannot stand in its field although bytes may spell it there. -/
def Flawed (r : Row) : Prop :=
  ∃ i f v, r.schema.field? i = some f ∧ r.value? i = some v ∧ f.Misspells v

theorem Flawed.not_storable {r : Row} (h : r.Flawed) : ¬ r.Storable := by
  obtain ⟨i, f, v, hf, hv, hmiss⟩ := h
  exact fun hs => hmiss.not_takes (hs i f v hf hv)

theorem decodeFields_spells {fs : List Field} {nulls : List Bool} {data : Bytes}
    {vs : List Value} (h : decodeFields fs nulls data = some vs) {i : Nat} {f : Field}
    {v : Value} (hf : fs[i]? = some f) (hv : vs[i]? = some v) : f.Spells v := by
  induction fs generalizing nulls data vs i with
  | nil => simp at hf
  | cons g fs ih =>
    cases nulls with
    | nil => simp [decodeFields] at h
    | cons b nulls =>
      obtain ⟨w, hw, h⟩ := Option.bind_eq_some_iff.mp h
      obtain ⟨ws, hws, rfl⟩ := Option.map_eq_some_iff.mp h
      cases i with
      | succ i => exact ih hws hf hv
      | zero =>
        obtain rfl := Option.some.inj hf
        obtain rfl := Option.some.inj hv
        cases b with
        | true => exact .inl (Option.some.inj hw).symm
        | false => exact .inr ⟨_, hw⟩

theorem decode_eq_some {schema : Schema} {data : Bytes} {row : Row}
    (h : decode schema data = some row) : row.schema = schema ∧ row.record = none ∧
      ∃ nulls body, decodeFields schema.fields nulls body = some row.values := by
  unfold decode at h
  split at h
  · simp at h
  · simp only at h
    split at h
    · rename_i vs hvs
      obtain rfl := Option.some.inj h
      exact ⟨rfl, rfl, _, _, hvs⟩
    · simp at h

theorem schema_of_decode {schema : Schema} {data : Bytes} {row : Row}
    (h : decode schema data = some row) : row.schema = schema :=
  (decode_eq_some h).1

theorem spells_of_decode {schema : Schema} {data : Bytes} {row : Row}
    (h : decode schema data = some row) {i : Nat} {f : Field} {v : Value}
    (hf : row.schema.field? i = some f) (hv : row.value? i = some v) : f.Spells v := by
  obtain ⟨rfl, -, nulls, body, hread⟩ := decode_eq_some h
  exact decodeFields_spells hread hf hv

/-- A row that was read can be stored exactly if it is not flawed. -/
theorem storable_iff_of_decode {schema : Schema} {data : Bytes} {row : Row}
    (h : decode schema data = some row) : row.Storable ↔ ¬ row.Flawed := by
  refine ⟨fun hs hflaw => hflaw.not_storable hs, fun hn i f v hf hv => ?_⟩
  rcases (spells_of_decode h hf hv).takes_or with htakes | hmiss
  · exact htakes
  · exact absurd ⟨i, f, v, hf, hv, hmiss⟩ hn

/-- Reading loses nothing of a row that was read. -/
theorem reread_of_decode {schema : Schema} {data : Bytes} {row : Row}
    (h : decode schema data = some row) : row.reread = row :=
  reread_eq_self fun _ _ _ hf hv => (spells_of_decode h hf hv).reread

end Row

end RowStore
