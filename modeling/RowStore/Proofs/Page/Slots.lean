import RowStore.Proofs.Store.Editing

/-!
  Slots — bitmap and rows of a page say the same.

  A page is tidy if every slot has a bit and a slot is used exactly if it holds a row.
  What is read from an image is tidy (`tidy_ofImage`), and so is what an edit makes of a
  tidy page (`Edited.tidy`). An edit always changes the rows of the page
  (`Edited.slots_ne`).
-/

namespace RowStore

/-! ## Reading a list -/

theorem mapM_eq_ok {α β : Type} {f : α → Except StoreError β} {xs : List α} {ys : List β}
    (h : xs.mapM f = .ok ys) : ys.length = xs.length ∧
      ∀ (i : Nat) (x : α), xs[i]? = some x → ∃ y, ys[i]? = some y ∧ f x = .ok y := by
  induction xs generalizing ys with
  | nil =>
    obtain rfl := Except.ok.inj h
    exact ⟨rfl, fun i x hx => by simp at hx⟩
  | cons a xs ih =>
    simp only [List.mapM_cons, bind, Except.bind] at h
    split at h
    · simp at h
    rename_i b hb
    split at h
    · simp at h
    rename_i bs hbs
    obtain rfl := Except.ok.inj h
    obtain ⟨hlen, hall⟩ := ih hbs
    refine ⟨by simp [hlen], ?_⟩
    intro i x hx
    cases i with
    | zero =>
      obtain rfl := Option.some.inj hx
      exact ⟨b, rfl, hb⟩
    | succ i => exact hall i x hx

namespace Page

/-- Every slot has a bit, and a slot is used exactly if it holds a row. -/
structure Tidy (p : Page) : Prop where
  bits : p.slotCount ≤ p.used.size
  filled : ∀ i, i < p.slotCount → p.isUsed i = (p.row? i).isSome

/-! ## Pages from images -/

theorem length_bitmap (slots : Nat) (b : Block) :
    (bitmap slots b).length = 8 * Layout.headerSize slots := by
  simp [bitmap]

theorem slots_le_bits (slots : Nat) : slots ≤ 8 * Layout.headerSize slots := by
  unfold Layout.headerSize Bytes.Bitmap.size
  omega

theorem length_cells (slots rowSize : Nat) (b : Block) :
    (cells slots rowSize b).length = slots := by
  have := slots_le_bits slots
  simp only [cells, List.length_zipIdx, List.length_zip, length_bitmap, Bytes.length_chunks]
  omega

/-- The bit of a slot, its bytes and its number. -/
theorem cells_getElem? (rowSize : Nat) (b : Block) {slots i : Nat} (hi : i < slots) :
    ∃ bit data, (bitmap slots b)[i]? = some bit ∧
      (Bytes.chunks rowSize slots (b.bytes.drop (Layout.headerSize slots)))[i]? = some data ∧
      (cells slots rowSize b)[i]? = some ((bit, data), i) := by
  have hbit : i < (bitmap slots b).length := by
    rw [length_bitmap]
    exact Nat.lt_of_lt_of_le hi (slots_le_bits slots)
  have hdata : i < (Bytes.chunks rowSize slots
      (b.bytes.drop (Layout.headerSize slots))).length := by
    rw [Bytes.length_chunks]
    exact hi
  have hbit' := List.getElem?_eq_getElem hbit
  have hdata' := List.getElem?_eq_getElem hdata
  refine ⟨_, _, hbit', hdata', ?_⟩
  have hzip := List.getElem?_zip_eq_some.mpr (And.intro hbit' hdata' :
    (bitmap slots b)[i]? = some ((bitmap slots b)[i], _).1 ∧ _ = some ((bitmap slots b)[i], _).2)
  rw [cells, List.getElem?_zipIdx, hzip]
  simp

theorem readSlot_isSome {id : PageId} {schema : Schema} {bit : Bool} {data : Bytes} {slot : Nat}
    {row : Option Row} (h : readSlot id schema ((bit, data), slot) = .ok row) :
    row.isSome = bit := by
  cases bit with
  | false =>
    obtain rfl := Except.ok.inj h
    rfl
  | true =>
    simp only [readSlot] at h
    split at h
    · obtain rfl := Except.ok.inj h
      rfl
    · simp at h

theorem tidy_ofImage {id : PageId} {schema : Schema} {b : Block} {p : Page}
    (h : ofImage id schema b = .ok p) : p.Tidy := by
  obtain ⟨slots, rows, -, hrows, rfl⟩ := ofImage_eq_ok h
  obtain ⟨hlen, hall⟩ := mapM_eq_ok hrows
  rw [length_cells] at hlen
  refine ⟨?_, ?_⟩
  · show rows.toArray.size ≤ (bitmap slots b).toArray.size
    rw [List.size_toArray, List.size_toArray, hlen, length_bitmap]
    exact slots_le_bits slots
  · intro i hi
    have hi' : i < slots := by simpa [slotCount, hlen] using hi
    obtain ⟨bit, data, hbit, -, hcell⟩ := cells_getElem? schema.rowSize b hi'
    obtain ⟨row, hrow, hread⟩ := hall i _ hcell
    have hused : (bitmap slots b).toArray.getD i false = bit := by
      simp [Array.getD_eq_getD_getElem?, hbit]
    have hjoin : (rows.toArray[i]?).join = row := by
      rw [List.getElem?_toArray, hrow]
      rfl
    show (decide (i < rows.toArray.size) && (bitmap slots b).toArray.getD i false) =
      (rows.toArray[i]?).join.isSome
    have hlt : i < rows.toArray.size := hi
    rw [hused, hjoin, readSlot_isSome hread, decide_eq_true hlt, Bool.true_and]

/-! ## Full pages -/

theorem clearFrom_eq_none_iff {used : Array Bool} {slot more : Nat} :
    clearFrom used slot more = none ↔
      ∀ i, slot ≤ i → i < slot + more → used.getD i false = true := by
  induction more generalizing slot with
  | zero => exact iff_of_true rfl fun i h₁ h₂ => absurd h₂ (Nat.not_lt_of_le h₁)
  | succ more ih =>
    rw [clearFrom]
    split
    · rename_i hs
      rw [ih]
      constructor
      · intro h i h₁ h₂
        rcases Nat.eq_or_lt_of_le h₁ with rfl | h₁
        · exact hs
        · exact h i h₁ (by omega)
      · exact fun h i h₁ h₂ => h i (by omega) (by omega)
    · rename_i hs
      exact iff_of_false (by simp) fun h => hs (h slot (Nat.le_refl _) (by omega))

/-- A page without room has every slot used. -/
theorem hasRoom_eq_false_iff {p : Page} :
    p.hasRoom = false ↔ ∀ i, i < p.slotCount → p.isUsed i = true := by
  rw [hasRoom, Option.isSome_eq_false_iff, Option.isNone_iff_eq_none, firstFree?,
    clearFrom_eq_none_iff]
  refine forall_congr' fun i => ?_
  rw [Nat.zero_add, isUsed]
  constructor
  · intro h hi
    rw [h (Nat.zero_le i) hi, decide_eq_true hi]
    rfl
  · intro h _ hi
    have hused := h hi
    rw [decide_eq_true hi, Bool.true_and] at hused
    exact hused

/-! ## Edits -/

section Edit
variable {p : Page} {slot : Nat}

/-- The page with a slot filled or freed. -/
def withSlot (p : Page) (slot : Nat) (row : Option Row) : Page :=
  { p with
    used := p.used.setIfInBounds slot row.isSome
    slots := p.slots.setIfInBounds slot row }

@[simp] theorem slotCount_withSlot (row : Option Row) :
    (p.withSlot slot row).slotCount = p.slotCount := by
  simp [withSlot, slotCount]

theorem row?_withSlot (h : slot < p.slotCount) (row : Option Row) (i : Nat) :
    (p.withSlot slot row).row? i = if i = slot then row else p.row? i := by
  simp only [row?, withSlot, Array.getElem?_setIfInBounds]
  split
  · rename_i hi
    have h' : slot < p.slots.size := h
    rw [if_pos h', if_pos hi.symm]
    rfl
  · rename_i hi
    rw [if_neg (Ne.symm hi)]

theorem isUsed_withSlot (h : slot < p.slotCount) (hb : p.slotCount ≤ p.used.size)
    (row : Option Row) (i : Nat) :
    (p.withSlot slot row).isUsed i = if i = slot then row.isSome else p.isUsed i := by
  unfold isUsed
  rw [slotCount_withSlot]
  simp only [withSlot, Array.getD_eq_getD_getElem?, Array.getElem?_setIfInBounds]
  split
  · rename_i hi
    subst hi
    simp [h, Nat.lt_of_lt_of_le h hb]
  · rename_i hi
    rw [if_neg (Ne.symm hi)]

theorem Tidy.withSlot (ht : p.Tidy) (h : slot < p.slotCount) (row : Option Row) :
    (p.withSlot slot row).Tidy := by
  refine ⟨?_, ?_⟩
  · rw [slotCount_withSlot]
    simpa [Page.withSlot] using ht.bits
  · intro i hi
    rw [slotCount_withSlot] at hi
    rw [isUsed_withSlot h ht.bits, row?_withSlot h]
    split
    · rfl
    · exact ht.filled i hi

theorem Tidy.markedBy (ht : p.Tidy) (txn : Option TxnId) : (p.markedBy txn).Tidy :=
  ⟨ht.bits, ht.filled⟩

/-- The rows of the page are labelled with their slots. -/
def Labelled (p : Page) : Prop := ∀ i r, p.row? i = some r → r.record = some (recordOf p.id i)

theorem Labelled.withSlot (hl : p.Labelled) (h : slot < p.slotCount) {row : Option Row}
    (hrow : ∀ r, row = some r → r.record = some (recordOf p.id slot)) :
    (p.withSlot slot row).Labelled := by
  intro i r hr
  rw [row?_withSlot h] at hr
  split at hr
  · rename_i hi
    rw [hi]
    exact hrow r hr
  · exact hl i r hr

theorem slotFrom_eq_ok {r : Row} (h : p.slotFrom 0 r = .ok slot) :
    r.schema = p.schema ∧ r.encode.isSome = true ∧ p.firstFree? = some slot := by
  unfold slotFrom at h
  split at h
  · simp at h
  rename_i hschema
  split at h
  · simp at h
  rename_i hencode
  split at h
  · simp at h
  rename_i slot' hfree
  obtain rfl := Except.ok.inj h
  refine ⟨by simpa using hschema, ?_, hfree⟩
  rw [Option.isSome_iff_ne_none]
  simpa using hencode

/-- An insertion fills the lowest free slot with the row, labelled with the slot. -/
theorem insert_withSlot {r stored : Row} {q : Page} (h : p.insert r = .ok (stored, q)) :
    ∃ slot, p.firstFree? = some slot ∧ r.schema = p.schema ∧ r.encode.isSome = true ∧
      stored = r.storedAt (some (recordOf p.id slot)) ∧ q = p.withSlot slot (some stored) := by
  obtain ⟨slot, hslot, hput⟩ := insert_eq_ok h
  obtain ⟨rfl, rfl⟩ := Prod.mk.inj hput
  obtain ⟨hschema, hencode, hfree⟩ := slotFrom_eq_ok hslot
  exact ⟨slot, hfree, hschema, hencode, rfl, rfl⟩

/-- A deletion frees the slot that the row's record id names. -/
theorem delete_withSlot {r : Row} {q : Page} (h : p.delete r = .ok q) :
    ∃ record, r.record = some record ∧ record.slot.toNat < p.slotCount ∧
      p.isUsed record.slot.toNat = true ∧ q = p.withSlot record.slot.toNat none := by
  obtain ⟨record, hrecord, -, hlt, hused, rfl⟩ := delete_eq_ok h
  exact ⟨record, hrecord, hlt, hused, rfl⟩

end Edit

end Page

namespace Store

open Page

/-- An edit fills a free slot with a row of the schema that can be encoded and is labelled
with the slot, or it frees a used one. -/
theorem Edited.cases {txn : TxnId} {p q : Page} (h : Edited txn p q) :
    ∃ slot row, slot < p.slotCount ∧ p.isUsed slot = !row.isSome ∧
      (∀ r, row = some r → r.schema = p.schema ∧ r.encode.isSome = true ∧
        r.record = some (Page.recordOf p.id slot)) ∧
      q = (p.withSlot slot row).markedBy (some txn) := by
  obtain ⟨r, p', hp, rfl⟩ := h
  rcases hp with ⟨stored, hi⟩ | hd
  · obtain ⟨slot, hfree, hschema, hencode, rfl, rfl⟩ := insert_withSlot hi
    obtain ⟨hlt, hused, -⟩ := firstFree?_eq_some_iff.mp hfree
    refine ⟨slot, some (r.storedAt (some (Page.recordOf p.id slot))), hlt, hused, ?_, rfl⟩
    intro r' hr'
    obtain rfl := Option.some.inj hr'
    exact ⟨hschema, hencode, rfl⟩
  · obtain ⟨record, -, hlt, hused, rfl⟩ := delete_withSlot hd
    exact ⟨record.slot.toNat, none, hlt, hused, by simp, rfl⟩

theorem Edited.slotCount_eq {txn : TxnId} {p q : Page} (h : Edited txn p q) :
    q.slotCount = p.slotCount := by
  obtain ⟨slot, row, -, -, -, rfl⟩ := h.cases
  exact slotCount_withSlot row

theorem Edited.tidy {txn : TxnId} {p q : Page} (h : Edited txn p q) (ht : p.Tidy) : q.Tidy := by
  obtain ⟨slot, row, hlt, -, -, rfl⟩ := h.cases
  exact (ht.withSlot hlt row).markedBy _

theorem Edited.labelled {txn : TxnId} {p q : Page} (h : Edited txn p q) (hl : p.Labelled) :
    q.Labelled := by
  obtain ⟨slot, row, hlt, -, hrow, rfl⟩ := h.cases
  exact hl.withSlot hlt fun r hr => (hrow r hr).2.2

/-- An edit is never without effect. -/
theorem Edited.slots_ne {txn : TxnId} {p q : Page} (h : Edited txn p q) (ht : p.Tidy) :
    q.slots ≠ p.slots := by
  obtain ⟨slot, row, hlt, hused, -, rfl⟩ := h.cases
  intro heq
  have hrow : (p.withSlot slot row).row? slot = p.row? slot := by
    show ((p.withSlot slot row).markedBy (some txn)).slots[slot]?.join = _
    rw [heq]
    rfl
  rw [row?_withSlot hlt, if_pos rfl] at hrow
  have hfilled := ht.filled slot hlt
  rw [hused, ← hrow] at hfilled
  cases h : row.isSome <;> simp [h] at hfilled

end Store

end RowStore
