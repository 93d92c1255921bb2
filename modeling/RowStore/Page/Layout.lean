import RowStore.Bytes.Bitmap
import RowStore.Error
import RowStore.Row.Schema

/-!
  Page layout — how many rows of a schema a page of a given size holds.

  A page is a bitmap with one bit for each slot, the slots, and padding. A slot
  costs its row and one bit, hence `slotCount`. Slots are numbered by 16 bits, so
  a page has at most 65536 of them and may not have none.
-/

namespace RowStore.Layout

/-- The most slots that 16-bit slot numbers tell apart. -/
def maxSlots : Nat := 65536

/-- 16 bits keep the number of a slot. -/
theorem toNat_slot {slot : Nat} (h : slot < maxSlots) : (UInt16.ofNat slot).toNat = slot := by
  rw [UInt16.toNat_ofNat']
  exact Nat.mod_eq_of_lt h

/-- Slots of `rowSize` bytes in a page of `pageSize` bytes. -/
def slotCount (rowSize pageSize : Nat) : Nat := pageSize * 8 / (rowSize * 8 + 1)

/-- Bytes of the bitmap for that many slots. -/
def headerSize (slots : Nat) : Nat := Bytes.Bitmap.size slots

/-- Refuses a page size that gives no slot or more than can be numbered. -/
def check (pageSize slots : Nat) : Except StoreError Unit :=
  if slots == 0 || maxSlots < slots then .error (.unsupportedPageSize pageSize slots) else .ok ()

theorem check_eq_ok_iff {pageSize slots : Nat} :
    check pageSize slots = .ok () ↔ 0 < slots ∧ slots ≤ maxSlots := by
  unfold check
  split
  · rename_i h
    refine iff_of_false (by simp) fun ⟨hpos, hle⟩ => ?_
    rw [Bool.or_eq_true, beq_iff_eq, decide_eq_true_eq] at h
    exact h.elim (Nat.ne_of_gt hpos) (Nat.not_lt.mpr hle)
  · rename_i h
    rw [Bool.or_eq_true, beq_iff_eq, decide_eq_true_eq, not_or, Nat.not_lt] at h
    exact iff_of_true rfl ⟨Nat.pos_of_ne_zero h.1, h.2⟩

/-- To round the bitmap up to whole bytes costs no slot. -/
theorem fits_iff {rowSize pageSize n : Nat} :
    headerSize n + n * rowSize ≤ pageSize ↔ n ≤ slotCount rowSize pageSize := by
  have hbits : n * (rowSize * 8 + 1) = n * rowSize * 8 + n := by
    rw [Nat.mul_add, Nat.mul_one, Nat.mul_assoc]
  calc headerSize n + n * rowSize ≤ pageSize
    _ ↔ n * rowSize * 8 + n ≤ pageSize * 8 := by
      unfold headerSize Bytes.Bitmap.size
      omega
    _ ↔ n ≤ slotCount rowSize pageSize := by
      rw [slotCount, Nat.le_div_iff_mul_le (Nat.succ_pos _), hbits]

/-- Bitmap and slots fit into the page. -/
theorem header_add_slots_le (rowSize pageSize : Nat) :
    headerSize (slotCount rowSize pageSize) + slotCount rowSize pageSize * rowSize ≤ pageSize :=
  fits_iff.mpr (Nat.le_refl _)

end RowStore.Layout
