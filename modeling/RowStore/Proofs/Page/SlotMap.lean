import RowStore.Proofs.Page.Listing
import RowStore.Proofs.Page.Rewriting

/-!
  Slot map — a page is a finite map from slots to rows.

  A page says twice which slots are used, in its bitmap and in its slots, and every call
  changes both. A call fills a free slot, frees a used one or leaves both alone, so a page
  stays `Mapped` (`Mapped.operations`). Main statement: on a page that was read from any
  image, after any calls, bit and row of every slot agree, an insertion takes the least free
  slot, a deletion frees the slot of the record, each fails exactly for the reasons it names
  and then changes nothing, and a deletion of what was just inserted gives the page back
  (`slotMap_operations`).
-/

namespace RowStore

namespace Page

/-! ## Calls -/

/-- What a call with a row answers, and the row and the page behind it. -/
structure Reply (α : Type) where
  answer : Except StoreError α
  row : Row
  page : Page

/-- Stores a row. The answer is the record that the row then carries. -/
def inserting (p : Page) (r : Row) : Reply (Option RecordId) :=
  match p.insert r with
  | .ok (stored, q) => ⟨.ok stored.record, stored, q⟩
  | .error e => ⟨.error e, r, p⟩

/-- Frees the slot of a row. -/
def deleting (p : Page) (r : Row) : Reply Unit :=
  match p.delete r with
  | .ok q => ⟨.ok (), r, q⟩
  | .error e => ⟨.error e, r, p⟩

/-- A call that may change a page. -/
inductive Operation where
  | insert (r : Row)
  | delete (r : Row)
  | mark (txn : Option TxnId)
  | settle

/-- The page after a call. One that fails leaves it as it was. -/
def operate (p : Page) : Operation → Page
  | .insert r => (p.inserting r).page
  | .delete r => (p.deleting r).page
  | .mark txn => p.markedBy txn
  | .settle =>
    match p.settle with
    | .ok q => q
    | .error _ => p

/-- The page after calls in turn. -/
def operations (p : Page) (ops : List Operation) : Page := ops.foldl operate p

/-! ## What calls do -/

/-- Page `q` is page `p` with another row, or none, in one slot: its bit says so, and no other
slot and no other bit, those behind the last slot included, has changed. -/
structure Rewritten (p q : Page) (slot : Nat) (cell : Option Row) : Prop where
  lt : slot < p.slotCount
  row : q.row? slot = cell
  bit : q.used[slot]? = some cell.isSome
  slots : ∀ i, i ≠ slot → q.slots[i]? = p.slots[i]?
  bits : ∀ i, i ≠ slot → q.used[i]? = p.used[i]?
  rest : q = { p with used := q.used, slots := q.slots }

/-- The ways an insertion of a row goes. -/
inductive Stores (p : Page) (r : Row) : Reply (Option RecordId) → Prop
  | mismatched (hschema : r.schema ≠ p.schema) : Stores p r ⟨.error .schemaMismatch, r, p⟩
  | unencodable (hschema : r.schema = p.schema) (hstorable : ¬ r.Storable) :
      Stores p r ⟨.error (.unencodable r.display), r, p⟩
  | full (hschema : r.schema = p.schema) (hstorable : r.Storable)
      (hfull : ∀ i, i < p.slotCount → (p.row? i).isSome = true) :
      Stores p r ⟨.error (.pageFull p.id), r, p⟩
  | stored {slot : Nat} {q : Page} (hschema : r.schema = p.schema) (hstorable : r.Storable)
      (hfree : p.row? slot = none) (hleast : ∀ i, i < slot → (p.row? i).isSome = true)
      (hq : Rewritten p q slot (some (r.storedAt (some (recordOf p.id slot))))) :
      Stores p r ⟨.ok (some (recordOf p.id slot)), r.storedAt (some (recordOf p.id slot)), q⟩

/-- The ways a deletion of a row goes. -/
inductive Frees (p : Page) (r : Row) : Reply Unit → Prop
  | unrecorded (hrecord : r.record = none) : Frees p r ⟨.error .missingRecordId, r, p⟩
  | elsewhere {record : RecordId} (hrecord : r.record = some record)
      (hpage : record.page ≠ p.id) : Frees p r ⟨.error (.wrongPage record p.id), r, p⟩
  | outside {record : RecordId} (hrecord : r.record = some record) (hpage : record.page = p.id)
      (hslot : p.slotCount ≤ record.slot.toNat) :
      Frees p r ⟨.error (.invalidSlot p.id record.slot), r, p⟩
  | vacant {record : RecordId} (hrecord : r.record = some record) (hpage : record.page = p.id)
      (hslot : record.slot.toNat < p.slotCount) (hrow : p.row? record.slot.toNat = none) :
      Frees p r ⟨.error (.emptySlot p.id record.slot), r, p⟩
  | freed {record : RecordId} {stored : Row} {q : Page} (hrecord : r.record = some record)
      (hpage : record.page = p.id) (hrow : p.row? record.slot.toNat = some stored)
      (hq : Rewritten p q record.slot.toNat none) : Frees p r ⟨.ok (), r, q⟩

/-- A page that maps its slots to rows of its schema. -/
structure SlotMap (id : PageId) (schema : Schema) (size : Nat) (p : Page) : Prop where
  id_eq : p.id = id
  schema_eq : p.schema = schema
  slotCount_eq : p.slotCount = Layout.slotCount schema.rowSize size
  /-- The bit of a slot is set exactly if the slot holds a row. -/
  bit : ∀ i, i < p.slotCount → (p.used[i]? = some true ↔ ∃ r, p.row? i = some r)
  /-- A row has the schema of the page, and its record names the slot in 16 bits. -/
  stored : ∀ i r, p.row? i = some r →
    r.schema = schema ∧ ∃ slot : UInt16, slot.toNat = i ∧ r.record = some ⟨id, slot⟩
  count : p.freeCount + p.rows.length = p.slotCount
  inserts : ∀ r, Stores p r (p.inserting r)
  insert_fails : ∀ r, (∃ e, (p.inserting r).answer = .error e) ↔
    r.schema ≠ p.schema ∨ ¬ r.Storable ∨ ∀ i, i < p.slotCount → (p.row? i).isSome = true
  deletes : ∀ r, Frees p r (p.deleting r)
  delete_fails : ∀ r, (∃ e, (p.deleting r).answer = .error e) ↔
    r.record = none ∨ ∃ record, r.record = some record ∧
      (record.page ≠ p.id ∨ p.slotCount ≤ record.slot.toNat ∨ p.row? record.slot.toNat = none)
  /-- What was just inserted can be deleted, which gives back the page and so its image. -/
  restores : ∀ r record, (p.inserting r).answer = .ok record →
    (p.inserting r).page.deleting (p.inserting r).row = ⟨.ok (), (p.inserting r).row, p⟩

theorem withSlot_rewritten {p : Page} (ht : p.Tidy) {slot : Nat} (hlt : slot < p.slotCount)
    (row : Option Row) : Rewritten p (p.withSlot slot row) slot row where
  lt := hlt
  row := by rw [row?_withSlot hlt, if_pos rfl]
  bit := by
    have hbit : slot < p.used.size := Nat.lt_of_lt_of_le hlt ht.bits
    simp [Page.withSlot, hbit]
  slots i hi := by
    show (p.slots.setIfInBounds slot row)[i]? = _
    rw [Array.getElem?_setIfInBounds, if_neg (Ne.symm hi)]
  bits i hi := by
    show (p.used.setIfInBounds slot row.isSome)[i]? = _
    rw [Array.getElem?_setIfInBounds, if_neg (Ne.symm hi)]
  rest := rfl

/-! ## What calls keep -/

/-- A page that an image can be read as, its rows labelled with their slots. -/
structure Mapped (id : PageId) (schema : Schema) (size : Nat) (p : Page) : Prop where
  formed : p.Formed
  labelled : p.Labelled
  id_eq : p.id = id
  schema_eq : p.schema = schema
  size_eq : p.size = size

section Mapped
variable {id : PageId} {schema : Schema} {size : Nat} {p : Page}

theorem mapped_ofImage {b : Block} (h : ofImage id schema b = .ok p) :
    p.Mapped id schema b.size := by
  refine ⟨formed_ofImage h, labelled_ofImage h, id_ofImage h, ?_, ?_⟩
  · obtain ⟨slots, rows, -, -, rfl⟩ := ofImage_eq_ok h
    rfl
  · obtain ⟨slots, rows, -, -, rfl⟩ := ofImage_eq_ok h
    rfl

theorem Mapped.edit (h : p.Mapped id schema size) (e : Edit) : (p.edit e).Mapped id schema size := by
  rcases p.edit_cases e with heq | ⟨slot, row, hlt, hrow, heq⟩
  · rw [heq]
    exact h
  · rw [heq]
    exact ⟨h.formed.withSlot hlt fun r hr => (hrow r hr).1,
      h.labelled.withSlot hlt fun r hr => (hrow r hr).2.2, h.id_eq, h.schema_eq, h.size_eq⟩

theorem page_inserting (p : Page) (r : Row) : (p.inserting r).page = p.edit (.insert r) := by
  simp only [inserting, Page.edit]
  cases p.insert r <;> rfl

theorem page_deleting (p : Page) (r : Row) : (p.deleting r).page = p.edit (.delete r) := by
  simp only [deleting, Page.edit]
  cases p.delete r <;> rfl

theorem Mapped.operate (h : p.Mapped id schema size) (op : Operation) :
    (p.operate op).Mapped id schema size := by
  cases op with
  | insert r =>
    show (p.inserting r).page.Mapped id schema size
    rw [page_inserting]
    exact h.edit _
  | delete r =>
    show (p.deleting r).page.Mapped id schema size
    rw [page_deleting]
    exact h.edit _
  | mark txn => exact ⟨h.formed.markedBy txn, h.labelled, h.id_eq, h.schema_eq, h.size_eq⟩
  | settle =>
    unfold Page.operate
    simp only
    split
    · rename_i q hq
      obtain ⟨b, -, rfl⟩ := Store.settle_eq_ok hq
      have hf := h.formed
      exact ⟨⟨hf.slots, hf.bits, hf.filled, hf.schema⟩, h.labelled, h.id_eq, h.schema_eq, h.size_eq⟩
    · exact h

theorem Mapped.operations (h : p.Mapped id schema size) (ops : List Operation) :
    (p.operations ops).Mapped id schema size := by
  induction ops generalizing p with
  | nil => exact h
  | cons op ops ih => exact ih (h.operate op)

end Mapped

/-! ## The map -/

section Formed
variable {p : Page}

theorem Formed.tidy (h : p.Formed) : p.Tidy where
  bits := by
    rw [h.bits]
    exact slots_le_bits p.slotCount
  filled := h.filled

/-- Every slot is free or holds one of the rows. -/
theorem Tidy.count (h : p.Tidy) : p.freeCount + p.rows.length = p.slotCount := by
  have hfree : p.freeCount = (List.range p.slotCount).countP fun i => !(p.row? i).isSome := by
    refine List.countP_congr fun i hi => ?_
    rw [h.filled i (List.mem_range.mp hi)]
  have hall := List.length_eq_countP_add_countP (fun i => (p.row? i).isSome)
    (l := List.range p.slotCount)
  simp only [List.length_range, Bool.not_eq_true, Bool.decide_eq_false] at hall
  rw [hfree, rows_eq, List.length_filterMap_eq_countP]
  omega

theorem Tidy.getElem?_used (h : p.Tidy) {i : Nat} (hi : i < p.slotCount) :
    p.used[i]? = some (p.row? i).isSome := by
  have hbit : i < p.used.size := Nat.lt_of_lt_of_le hi h.bits
  rw [← h.filled i hi, isUsed, decide_eq_true hi, Bool.true_and, Array.getD_eq_getD_getElem?,
    Array.getElem?_eq_getElem hbit]
  rfl

theorem Tidy.free {i : Nat} (h : p.Tidy) (hi : i < p.slotCount) (hu : p.isUsed i = false) :
    p.row? i = none := by
  rw [h.filled i hi] at hu
  exact Option.isNone_iff_eq_none.mp (Option.isSome_eq_false_iff.mp hu)

theorem insert_of_schema_ne {r : Row} (h : r.schema ≠ p.schema) :
    p.insert r = .error .schemaMismatch := by
  simp [Page.insert, slotFrom, h]

theorem insert_of_not_storable {r : Row} (hs : r.schema = p.schema) (h : ¬ r.Storable) :
    p.insert r = .error (.unencodable r.display) := by
  have hnone : r.encode.isNone = true := by
    rw [← Option.not_isSome, Bool.not_eq_true', ← Bool.not_eq_true, r.isSome_encode]
    exact h
  simp [Page.insert, slotFrom, hs, hnone]

theorem insert_of_firstFree? {r : Row} (hs : r.schema = p.schema) (h : r.Storable) :
    p.insert r = match p.firstFree? with
      | none => .error (.pageFull p.id)
      | some slot => .ok (p.put slot r) := by
  have hsome : r.encode.isNone = false := by
    rw [← Option.not_isSome, r.isSome_encode.mpr h]
    rfl
  simp only [Page.insert, slotFrom, firstFree?, hs, hsome, bne_self_eq_false, Bool.false_eq_true,
    if_false, Nat.sub_zero]
  cases clearFrom p.used 0 p.slotCount <;> rfl

/-- An insertion is refused for the first reason that applies, or it takes the least free
slot. -/
theorem Tidy.inserts (h : p.Tidy) (r : Row) : Stores p r (p.inserting r) := by
  unfold inserting
  by_cases hschema : r.schema = p.schema
  case neg =>
    rw [insert_of_schema_ne hschema]
    exact .mismatched hschema
  by_cases hstorable : r.Storable
  case neg =>
    rw [insert_of_not_storable hschema hstorable]
    exact .unencodable hschema hstorable
  rw [insert_of_firstFree? hschema hstorable]
  cases hfirst : p.firstFree? with
  | none =>
    refine .full hschema hstorable fun i hi => ?_
    have hroom : p.hasRoom = false := congrArg Option.isSome hfirst
    rw [← h.filled i hi]
    exact hasRoom_eq_false_iff.mp hroom i hi
  | some slot =>
    obtain ⟨hlt, hfree, hleast⟩ := firstFree?_eq_some_iff.mp hfirst
    refine .stored hschema hstorable (h.free hlt hfree) (fun i hi => ?_)
      (withSlot_rewritten h hlt (some _))
    rw [← h.filled i (Nat.lt_trans hi hlt)]
    exact hleast i hi

theorem delete_of_isUsed {r : Row} {record : RecordId} (hrecord : r.record = some record)
    (hpage : record.page = p.id) (hlt : record.slot.toNat < p.slotCount)
    (hused : p.isUsed record.slot.toNat = true) :
    p.delete r = .ok (p.withSlot record.slot.toNat none) := by
  simp only [Page.delete, hrecord, erase, hpage, ne_eq, not_true_eq_false, if_false,
    Nat.not_le.mpr hlt, hused, Bool.not_true, Bool.false_eq_true]
  rfl

/-- A deletion is refused for the first reason that applies, or it frees the slot that the
record names. -/
theorem Tidy.deletes (h : p.Tidy) (r : Row) : Frees p r (p.deleting r) := by
  unfold deleting
  cases hrecord : r.record with
  | none =>
    rw [Page.delete, hrecord]
    exact .unrecorded hrecord
  | some record =>
    by_cases hpage : record.page = p.id
    case neg =>
      simp only [Page.delete, hrecord, erase, hpage, ne_eq, not_false_eq_true, if_true]
      exact .elsewhere hrecord hpage
    by_cases hlt : record.slot.toNat < p.slotCount
    case neg =>
      have hge : p.slotCount ≤ record.slot.toNat := Nat.le_of_not_lt hlt
      simp only [Page.delete, hrecord, erase, hpage, ne_eq, not_true_eq_false, if_false, hge,
        if_true]
      exact .outside hrecord hpage hge
    have hused := h.filled _ hlt
    cases hrow : p.row? record.slot.toNat with
    | none =>
      rw [hrow] at hused
      simp only [Page.delete, hrecord, erase, hpage, ne_eq, not_true_eq_false, if_false,
        Nat.not_le.mpr hlt, hused, Option.isSome_none, Bool.not_false, if_true]
      exact .vacant hrecord hpage hlt hrow
    | some stored =>
      rw [hrow] at hused
      rw [delete_of_isUsed hrecord hpage hlt hused]
      exact .freed hrecord hpage hrow (withSlot_rewritten h hlt none)

theorem Stores.fails_iff {r : Row} {x : Reply (Option RecordId)} (h : Stores p r x) :
    (∃ e, x.answer = .error e) ↔
      r.schema ≠ p.schema ∨ ¬ r.Storable ∨ ∀ i, i < p.slotCount → (p.row? i).isSome = true := by
  cases h with
  | mismatched hschema => exact iff_of_true ⟨_, rfl⟩ (.inl hschema)
  | unencodable _ hstorable => exact iff_of_true ⟨_, rfl⟩ (.inr (.inl hstorable))
  | full _ _ hfull => exact iff_of_true ⟨_, rfl⟩ (.inr (.inr hfull))
  | stored hschema hstorable hfree _ hq =>
    refine iff_of_false (by simp) ?_
    rintro (h | h | h)
    · exact h hschema
    · exact h hstorable
    · have hfull := h _ hq.lt
      simp [hfree] at hfull

theorem Frees.fails_iff {r : Row} {x : Reply Unit} (h : Frees p r x) :
    (∃ e, x.answer = .error e) ↔
      r.record = none ∨ ∃ record, r.record = some record ∧
        (record.page ≠ p.id ∨ p.slotCount ≤ record.slot.toNat ∨
          p.row? record.slot.toNat = none) := by
  cases h with
  | unrecorded hrecord => exact iff_of_true ⟨_, rfl⟩ (.inl hrecord)
  | elsewhere hrecord hpage => exact iff_of_true ⟨_, rfl⟩ (.inr ⟨_, hrecord, .inl hpage⟩)
  | outside hrecord _ hslot => exact iff_of_true ⟨_, rfl⟩ (.inr ⟨_, hrecord, .inr (.inl hslot)⟩)
  | vacant hrecord _ _ hrow => exact iff_of_true ⟨_, rfl⟩ (.inr ⟨_, hrecord, .inr (.inr hrow)⟩)
  | freed hrecord hpage hrow hq =>
    refine iff_of_false (by simp) ?_
    rintro (hnone | ⟨record, hsome, h⟩)
    · simp [hrecord] at hnone
    obtain rfl := Option.some.inj (hrecord.symm.trans hsome)
    rcases h with h | h | h
    · exact h hpage
    · exact absurd hq.lt (Nat.not_lt.mpr h)
    · simp [hrow] at h

theorem setIfInBounds_of_getElem? {α : Type} {xs : Array α} {i : Nat} {x : α}
    (h : xs[i]? = some x) : xs.setIfInBounds i x = xs := by
  apply Array.ext_getElem?
  intro j
  rw [Array.getElem?_setIfInBounds]
  split
  · rename_i hj
    rw [if_pos (Array.getElem?_eq_some_iff.mp h).1, ← hj, h]
  · rfl

/-- Freeing a slot that was free before it was filled gives back the page. -/
theorem Tidy.free_withSlot (h : p.Tidy) {slot : Nat} (hlt : slot < p.slotCount)
    (hrow : p.row? slot = none) (row : Option Row) : (p.withSlot slot row).withSlot slot none = p := by
  have hbit : p.used[slot]? = some false := by
    rw [h.getElem?_used hlt, hrow]
    rfl
  have hcell : p.slots[slot]? = some none := by
    rw [← Array.getElem?_toList, getElem?_slots hlt, hrow]
  show { p with
    used := (p.used.setIfInBounds slot row.isSome).setIfInBounds slot false
    slots := (p.slots.setIfInBounds slot row).setIfInBounds slot none } = p
  rw [Array.setIfInBounds_setIfInBounds, Array.setIfInBounds_setIfInBounds,
    setIfInBounds_of_getElem? hbit, setIfInBounds_of_getElem? hcell]

/-- The record of an inserted row leads to its slot, so the row can be deleted. -/
theorem Formed.restores (h : p.Formed) {r : Row} {record : Option RecordId}
    (hi : (p.inserting r).answer = .ok record) :
    (p.inserting r).page.deleting (p.inserting r).row = ⟨.ok (), (p.inserting r).row, p⟩ := by
  unfold inserting at hi ⊢
  cases hins : p.insert r with
  | error e => simp [hins] at hi
  | ok x =>
    obtain ⟨stored, q⟩ := x
    obtain ⟨slot, hfirst, -, -, rfl, rfl⟩ := insert_withSlot hins
    obtain ⟨hlt, hfree, -⟩ := firstFree?_eq_some_iff.mp hfirst
    simp only
    generalize hstored : r.storedAt (some (recordOf p.id slot)) = stored
    have hrecord : stored.record = some (recordOf p.id slot) := hstored ▸ rfl
    have hnumber : (recordOf p.id slot).slot.toNat = slot := h.toNat_slot hlt
    have hpage : (recordOf p.id slot).page = (p.withSlot slot (some stored)).id := rfl
    have hdelete : (p.withSlot slot (some stored)).delete stored = .ok p := by
      rw [delete_of_isUsed hrecord hpage, hnumber,
        h.tidy.free_withSlot hlt (h.tidy.free hlt hfree) (some stored)]
      · rw [hnumber, slotCount_withSlot]
        exact hlt
      · rw [hnumber, isUsed_withSlot hlt h.tidy.bits, if_pos rfl]
        rfl
    simp only [deleting, hdelete]

end Formed

theorem Mapped.slotMap {id : PageId} {schema : Schema} {size : Nat} {p : Page}
    (h : p.Mapped id schema size) : p.SlotMap id schema size where
  id_eq := h.id_eq
  schema_eq := h.schema_eq
  slotCount_eq := by
    have hcount := slotsFor_eq_ok h.formed.slots
    rwa [h.schema_eq, h.size_eq] at hcount
  bit i hi := by
    rw [h.formed.tidy.getElem?_used hi, Option.some.injEq, Option.isSome_iff_exists]
  stored i r hr := by
    have hi : i < p.slotCount := by
      refine Nat.lt_of_not_le fun hge => ?_
      simp [row?_of_ge hge] at hr
    refine ⟨h.schema_eq ▸ h.formed.schema i r hr, UInt16.ofNat i, h.formed.toNat_slot hi, ?_⟩
    rw [h.labelled i r hr, h.id_eq]
    rfl
  count := h.formed.tidy.count
  inserts := h.formed.tidy.inserts
  insert_fails r := (h.formed.tidy.inserts r).fails_iff
  deletes := h.formed.tidy.deletes
  delete_fails r := (h.formed.tidy.deletes r).fails_iff
  restores _ _ hi := h.formed.restores hi

/-- A page that was read from any image maps its slots to rows, whatever calls it went
through. -/
theorem slotMap_operations {id : PageId} {schema : Schema} {b : Block} {p : Page}
    (h : ofImage id schema b = .ok p) (ops : List Operation) :
    (p.operations ops).SlotMap id schema b.size :=
  ((mapped_ofImage h).operations ops).slotMap

/-- An image of 64 bytes with a row in the second of its two slots and the bit of a sixth one
set. -/
def stray : Block := Block.ofBytes 64 [0x22]

/-- Fills the first slot, frees the second, and has an insertion of another schema refused. -/
def strayCalls : List Operation :=
  [.insert ⟨mixed, [.bigint 7, .null, .null], none, rfl⟩, .mark (some ⟨3⟩), .settle,
    .delete ⟨mixed, [.bigint 0, .null, .null], some ⟨⟨1, 0⟩, 1⟩, rfl⟩,
    .insert ⟨⟨[]⟩, [], none, rfl⟩]

theorem slotMap_stray : ∃ p, ofImage ⟨1, 0⟩ mixed stray = .ok p ∧
    (p.operations strayCalls).SlotMap ⟨1, 0⟩ mixed 64 ∧
    (p.operations strayCalls).slotCount = 2 ∧ (p.operations strayCalls).freeCount = 1 ∧
    (p.operations strayCalls).used[5]? = some true := by
  have hread : ((ofImage ⟨1, 0⟩ mixed stray).toOption.map fun p =>
      let q := p.operations strayCalls
      (q.slotCount, q.freeCount, q.used[5]?)) = some (2, 1, some true) := by decide +kernel
  cases h : ofImage ⟨1, 0⟩ mixed stray with
  | error e => simp [h, Except.toOption] at hread
  | ok p =>
    simp only [h, Except.toOption, Option.map_some, Option.some.injEq, Prod.mk.injEq] at hread
    exact ⟨p, rfl, slotMap_operations h strayCalls, hread⟩

end Page

end RowStore
