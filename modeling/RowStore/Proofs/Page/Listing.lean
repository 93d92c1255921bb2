import RowStore.Proofs.Page.Slots

/-!
  Listing — the rows of a page in slot order.

  A page gives the rows in its slots from the first slot on (`rows_eq`). On a labelled page each
  of them carries the record id of its slot (`Labelled.map_shown`), and the record ids ascend as
  long as 16 bits number the slots (`Addressed.ascending`).
-/

namespace RowStore

/-- A record on an earlier page, or in an earlier slot of the same page. -/
def RecordId.Precedes (a b : RecordId) : Prop :=
  a.page.page < b.page.page ∨ a.page = b.page ∧ a.slot < b.slot

namespace Row

/-- What can be seen of a row: where it is stored, and its bytes. -/
def shown (r : Row) : Option RecordId × Option Bytes := (r.record, r.encode)

/-- A row that is stored before another. -/
def Precedes (r s : Row) : Prop :=
  ∃ a b, r.record = some a ∧ s.record = some b ∧ a.Precedes b

/-- No row precedes one of the same record. -/
theorem Precedes.ne {r s : Row} (h : r.Precedes s) : r.record ≠ s.record := by
  obtain ⟨a, b, hr, hs, hab⟩ := h
  rw [hr, hs]
  intro he
  obtain rfl := Option.some.inj he
  rcases hab with hlt | ⟨-, hlt⟩
  · exact Nat.lt_irrefl _ hlt
  · exact UInt16.lt_irrefl _ hlt

end Row

namespace Page

variable {p : Page}

theorem rows_eq (p : Page) : p.rows = (List.range p.slotCount).filterMap p.row? := by
  have hslots : p.slots.toList = (List.range p.slotCount).map p.row? := by
    apply List.ext_getElem
    · simp [slotCount]
    · intro i h₁ h₂
      have hlt : i < p.slots.size := by simpa using h₁
      simp [row?, hlt]
  rw [rows, hslots, List.filterMap_map]
  rfl

/-- Where the used slots of a page are, and the bytes of the rows in them. -/
def listing (p : Page) : List (Option RecordId × Option Bytes) :=
  (List.range p.slotCount).filterMap fun i =>
    (p.row? i).map fun r => (some (recordOf p.id i), r.encode)

theorem Labelled.map_shown (h : p.Labelled) : p.rows.map Row.shown = p.listing := by
  rw [rows_eq, List.map_filterMap, listing]
  apply List.filterMap_congr
  intro i _
  cases hr : p.row? i with
  | none => rfl
  | some r =>
    show some (r.record, r.encode) = some (some (recordOf p.id i), r.encode)
    rw [h i r hr]

/-- Every row of the page carries the record id of its slot, and 16 bits number the slots. -/
structure Addressed (p : Page) : Prop where
  labelled : p.Labelled
  numbered : p.slotCount ≤ Layout.maxSlots

/-- The record id of a row leads back to it. -/
theorem Addressed.record (h : p.Addressed) {r : Row} (hr : r ∈ p.rows) :
    ∃ a, r.record = some a ∧ a.page = p.id ∧ p.row? a.slot.toNat = some r := by
  rw [rows_eq] at hr
  obtain ⟨slot, hmem, hslot⟩ := List.mem_filterMap.mp hr
  have hnumber : (UInt16.ofNat slot).toNat = slot :=
    Layout.toNat_slot (Nat.lt_of_lt_of_le (List.mem_range.mp hmem) h.numbered)
  exact ⟨recordOf p.id slot, h.labelled slot r hslot, rfl, hnumber.symm ▸ hslot⟩

theorem Addressed.ascending (h : p.Addressed) : p.rows.Pairwise Row.Precedes := by
  rw [rows_eq, List.pairwise_filterMap]
  refine List.pairwise_lt_range.imp_of_mem ?_
  intro i j hi hj hlt r hr s hs
  refine ⟨_, _, h.labelled i r hr, h.labelled j s hs, .inr ⟨rfl, ?_⟩⟩
  -- the numbers of the slots do not wrap around
  have hj := Nat.lt_of_lt_of_le (List.mem_range.mp hj) h.numbered
  show UInt16.ofNat i < UInt16.ofNat j
  rwa [UInt16.lt_iff_toNat_lt, Layout.toNat_slot (Nat.lt_trans hlt hj), Layout.toNat_slot hj]

end Page

end RowStore
