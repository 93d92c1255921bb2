import RowStore.Proofs.Page.Rereading
import RowStore.Proofs.Row.Decoding

/-!
  Formed pages — what any image is read as.

  An image may hold anything. What it is read as is `Formed` (`formed_ofImage`): like a
  sound page, but that its rows need not be encodable. An edit leaves a page formed, and if
  a formed page has an image it is sound, so that image is read as it was written
  (`Formed.rereads`).
-/

namespace RowStore

namespace Page

/-- All rows of a page that has an image can be encoded. -/
theorem encode_of_image {p : Page} {b : Block} (h : p.image = .ok b) {i : Nat} {r : Row}
    (hr : p.row? i = some r) : r.encode ≠ none := by
  unfold image at h
  cases hrows : p.slots.toList.mapM Page.writeSlot with
  | error e => simp [hrows, bind, Except.bind] at h
  | ok rows =>
    have hi : i < p.slotCount := by
      apply Decidable.byContradiction
      intro hge
      rw [row?_of_ge (Nat.le_of_not_lt hge)] at hr
      simp at hr
    have hcell := getElem?_slots hi
    rw [hr] at hcell
    obtain ⟨bytes, -, hwrite⟩ := (mapM_eq_ok hrows).2 i _ hcell
    intro hnone
    simp [Page.writeSlot, hnone] at hwrite

theorem Formed.sound {p : Page} {b : Block} (h : p.Formed) (hb : p.image = .ok b) : p.Sound where
  slots := h.slots
  bits := h.bits
  filled := h.filled
  rows i r hr := ⟨h.schema i r hr, encode_of_image hb hr⟩

/-- What was written is read as a page with the same image. -/
theorem Formed.rereads {p : Page} {b : Block} (h : p.Formed) (hb : p.image = .ok b) :
    ofImage p.id p.schema b = .ok p.reread ∧ p.reread.image = .ok b := by
  have hsound := h.sound hb
  obtain rfl := Except.ok.inj (hsound.image.symm.trans hb)
  exact ⟨hsound.ofImage_block, hsound.image_reread⟩

theorem decode_of_readSlot {id : PageId} {schema : Schema} {bit : Bool} {data : Bytes}
    {slot : Nat} {r : Row} (h : readSlot id schema ((bit, data), slot) = .ok (some r)) :
    ∃ bytes row, Row.decode schema bytes = some row ∧
      r = row.storedAt (some (recordOf id slot)) := by
  cases bit with
  | false => simp [readSlot] at h
  | true =>
    simp only [readSlot] at h
    split at h
    · rename_i row hrow
      exact ⟨_, row, hrow, (Option.some.inj (Except.ok.inj h)).symm⟩
    · simp at h

/-- The rows of a page that was read are rows that were read, labelled with their slots. -/
theorem decode_of_ofImage {id : PageId} {schema : Schema} {b : Block} {p : Page}
    (h : ofImage id schema b = .ok p) {i : Nat} {r : Row} (hr : p.row? i = some r) :
    ∃ bytes row, Row.decode schema bytes = some row ∧
      r = row.storedAt (some (recordOf id i)) := by
  obtain ⟨slots, rows, -, hrows, rfl⟩ := ofImage_eq_ok h
  obtain ⟨hlen, hall⟩ := mapM_eq_ok hrows
  rw [length_cells] at hlen
  have hjoin : (rows.toArray[i]?).join = some r := hr
  rw [List.getElem?_toArray] at hjoin
  have hcell : rows[i]? = some (some r) := Option.join_eq_some_iff.mp hjoin
  have hi : i < slots := hlen ▸ (List.getElem?_eq_some_iff.mp hcell).1
  obtain ⟨bit, data, -, -, hx⟩ := cells_getElem? schema.rowSize b hi
  obtain ⟨read, hread, hslot⟩ := hall i _ hx
  obtain rfl := Option.some.inj (hread.symm.trans hcell)
  exact decode_of_readSlot hslot

theorem labelled_ofImage {id : PageId} {schema : Schema} {b : Block} {p : Page}
    (h : ofImage id schema b = .ok p) : p.Labelled := by
  intro i r hr
  obtain ⟨bytes, row, -, rfl⟩ := decode_of_ofImage h hr
  rw [id_ofImage h]
  rfl

theorem formed_ofImage {id : PageId} {schema : Schema} {b : Block} {p : Page}
    (h : ofImage id schema b = .ok p) : p.Formed := by
  have htidy := tidy_ofImage h
  have hschema : ∀ i r, p.row? i = some r → r.schema = schema := by
    intro i r hr
    obtain ⟨bytes, row, hrow, rfl⟩ := decode_of_ofImage h hr
    show row.schema = schema
    exact Row.schema_of_decode hrow
  obtain ⟨slots, rows, hslots, hrows, rfl⟩ := ofImage_eq_ok h
  obtain ⟨hlen, -⟩ := mapM_eq_ok hrows
  rw [length_cells] at hlen
  have hcount : rows.toArray.size = slots := hlen
  refine ⟨?_, ?_, htidy.filled, hschema⟩
  · show slotsFor id schema b.size = .ok rows.toArray.size
    rw [hcount]
    exact hslots
  · show (bitmap slots b).toArray.size = 8 * Layout.headerSize rows.toArray.size
    rw [hcount, List.size_toArray, length_bitmap]

theorem Formed.slotCount_le {p : Page} (h : p.Formed) : p.slotCount ≤ Layout.maxSlots :=
  (slotsFor_eq_ok_iff.mp h.slots).2.2

theorem Formed.toNat_slot {p : Page} (h : p.Formed) {slot : Nat} (hlt : slot < p.slotCount) :
    (UInt16.ofNat slot).toNat = slot :=
  Layout.toNat_slot (Nat.lt_of_lt_of_le hlt h.slotCount_le)

theorem Formed.markedBy {p : Page} (h : p.Formed) (txn : Option TxnId) : (p.markedBy txn).Formed :=
  ⟨h.slots, h.bits, h.filled, h.schema⟩

/-- The last clean point does not matter. -/
theorem Formed.settled {p : Page} (h : p.Formed) (b : Block) :
    Formed { p with before := b, dirtier := none } := ⟨h.slots, h.bits, h.filled, h.schema⟩

end Page

theorem Store.Edited.formed {txn : TxnId} {p q : Page} (h : Edited txn p q) (hp : p.Formed) :
    q.Formed := by
  obtain ⟨slot, row, hlt, -, hrow, rfl⟩ := h.cases
  exact (hp.withSlot hlt fun r hr => (hrow r hr).1).markedBy _

end RowStore
