import Mathlib.Algebra.Order.Floor.Div
import Mathlib.GroupTheory.GroupAction.Ring
import Mathlib.Order.CompletePartialOrder
import Mathlib.Order.Interval.Set.Disjoint
import RowStore.Disk.HeapFile
import RowStore.Proofs.Page.SlotMap

/-!
  Capacity — how many slots a page has, and what tells them apart.

  The number of slots is computed in bits, but the bitmap takes whole bytes. It is still the
  greatest number that fits (`slotCount_isGreatest`), with the bitmap and every slot in bytes
  of their own (`partitions`). Slots are numbered in 16 bits, and a page size is accepted
  exactly if that numbers them without repetition (`check_eq_ok_iff_injOn`). Main statement:
  all of this, and that the rows of a page carry different record ids (`slots_told_apart`).
-/

namespace RowStore

namespace Layout

/-! ## Bytes -/

/-- The bytes of the bitmap in a page. -/
def bitmapBytes (slots : Nat) : Set Nat := Set.Ico 0 (headerSize slots)

/-- The bytes of a slot in a page. -/
def slotBytes (rowSize slots slot : Nat) : Set Nat :=
  Set.Ico (headerSize slots + slot * rowSize) (headerSize slots + (slot + 1) * rowSize)

/-- A page is cut into a bitmap with a bit for every slot, and the slots. -/
structure Partitions (rowSize pageSize slots : Nat) : Prop where
  bits : ∀ i, i < slots → i / 8 ∈ bitmapBytes slots
  bitmap_inside : bitmapBytes slots ⊆ Set.Iio pageSize
  slot_inside : ∀ i, i < slots → slotBytes rowSize slots i ⊆ Set.Iio pageSize
  bitmap_apart : ∀ i, Disjoint (bitmapBytes slots) (slotBytes rowSize slots i)
  slots_apart : ∀ i j, i ≠ j → Disjoint (slotBytes rowSize slots i) (slotBytes rowSize slots j)

section Bytes
variable {rowSize pageSize slots n i j : Nat}

theorem headerSize_eq (n : Nat) : headerSize n = n ⌈/⌉ 8 :=
  (Nat.ceilDiv_eq_add_pred_div n 8).symm

theorem slotCount_isGreatest (rowSize pageSize : Nat) :
    IsGreatest {n | n ⌈/⌉ 8 + n * rowSize ≤ pageSize} (slotCount rowSize pageSize) := by
  constructor
  · rw [Set.mem_ofPred_eq, ← headerSize_eq]
    exact fits_iff.mpr (Nat.le_refl _)
  · intro n hn
    rw [Set.mem_ofPred_eq, ← headerSize_eq] at hn
    exact fits_iff.mp hn

/-- A slot ends before a later one begins. -/
theorem slotBytes_disjoint_of_lt (h : i < j) :
    Disjoint (slotBytes rowSize slots i) (slotBytes rowSize slots j) := by
  have hmul : (i + 1) * rowSize ≤ j * rowSize := Nat.mul_le_mul_right rowSize h
  rw [slotBytes, slotBytes, Set.Ico_disjoint_Ico]
  exact Nat.le_trans (Nat.min_le_left _ _)
    (Nat.le_trans (Nat.add_le_add_left hmul _) (Nat.le_max_right _ _))

theorem partitions (rowSize pageSize : Nat) :
    Partitions rowSize pageSize (slotCount rowSize pageSize) := by
  have hfits := header_add_slots_le rowSize pageSize
  generalize slotCount rowSize pageSize = slots at hfits
  refine ⟨fun i hi => ?_, fun x hx => ?_, fun i hi x hx => ?_, fun i => ?_, fun i j hij => ?_⟩
  · have hbits := Page.slots_le_bits slots
    exact ⟨Nat.zero_le _, by omega⟩
  · exact Nat.lt_of_lt_of_le hx.2 (Nat.le_trans (Nat.le_add_right _ _) hfits)
  · have hmul : (i + 1) * rowSize ≤ slots * rowSize := Nat.mul_le_mul_right rowSize hi
    exact Nat.lt_of_lt_of_le hx.2 (Nat.le_trans (Nat.add_le_add_left hmul _) hfits)
  · rw [bitmapBytes, slotBytes, Set.Ico_disjoint_Ico]
    exact Nat.le_trans (Nat.min_le_left _ _)
      (Nat.le_trans (Nat.le_add_right _ _) (Nat.le_max_right _ _))
  · rcases Nat.lt_or_gt_of_ne hij with h | h
    · exact slotBytes_disjoint_of_lt h
    · exact (slotBytes_disjoint_of_lt h).symm

end Bytes

/-! ## Numbers -/

section Numbers
variable {pageSize slots : Nat}

/-- 16 bits tell 65536 slots apart, and not one more. -/
theorem ofNat_injOn_iff : Set.InjOn UInt16.ofNat (Set.Iio slots) ↔ slots ≤ maxSlots := by
  constructor
  · intro h
    apply Nat.le_of_not_lt
    intro hlt
    have hzero : 0 ∈ Set.Iio slots := Nat.lt_trans (by decide) hlt
    have hsame : UInt16.ofNat 0 = UInt16.ofNat 65536 := by decide
    exact absurd (h hzero hlt hsame) (by decide)
  · intro h i hi j hj hij
    have hnat := congrArg UInt16.toNat hij
    rwa [toNat_slot (Nat.lt_of_lt_of_le hi h), toNat_slot (Nat.lt_of_lt_of_le hj h)] at hnat

/-- A number of slots is accepted if there is a slot and the slots can be numbered. -/
theorem check_eq_ok_iff_injOn :
    check pageSize slots = .ok () ↔ 0 < slots ∧ Set.InjOn UInt16.ofNat (Set.Iio slots) := by
  rw [check_eq_ok_iff, ofNat_injOn_iff]

end Numbers

end Layout

/-! ## Record ids -/

theorem Page.recordOf_injOn {id : PageId} {slots : Nat} (h : slots ≤ Layout.maxSlots) :
    Set.InjOn (Page.recordOf id) (Set.Iio slots) := fun _ hi _ hj hij =>
  Layout.ofNat_injOn_iff.mpr h hi hj (congrArg RecordId.slot hij)

theorem Page.Mapped.told_apart {id : PageId} {schema : Schema} {size : Nat} {p : Page}
    (h : p.Mapped id schema size) {i j : Nat} {r s : Row} (hr : p.row? i = some r)
    (hs : p.row? j = some s) (hrs : r.record = s.record) : i = j := by
  have hlt {k : Nat} {t : Row} (ht : p.row? k = some t) : k < p.slotCount := by
    refine Nat.lt_of_not_le fun hge => ?_
    simp [row?_of_ge hge] at ht
  rw [h.labelled i r hr, h.labelled j s hs] at hrs
  exact recordOf_injOn h.formed.slotCount_le (hlt hr) (hlt hs) (Option.some.inj hrs)

/-- For rows of any size in a page of any size, the number of slots is the greatest for which
the bitmap, in whole bytes, and the slots fit, and each of them has bytes of its own. It is
accepted exactly if it is positive and 16 bits number that many slots without repetition. So
the slots of a heap file that can be opened have different record ids, and so do the rows in
different slots of any page that can be read, whatever calls it goes through. -/
theorem slots_told_apart :
    (∀ rowSize pageSize,
      IsGreatest {n | n ⌈/⌉ 8 + n * rowSize ≤ pageSize} (Layout.slotCount rowSize pageSize) ∧
        Layout.Partitions rowSize pageSize (Layout.slotCount rowSize pageSize)) ∧
    (∀ pageSize slots, Layout.check pageSize slots = .ok () ↔
      0 < slots ∧ Set.InjOn UInt16.ofNat (Set.Iio slots)) ∧
    (∀ schema pageSize, HeapFile.checkPageSize schema pageSize = .ok () → ∀ id,
      Set.InjOn (Page.recordOf id) (Set.Iio (Layout.slotCount schema.rowSize pageSize))) ∧
    ∀ id schema b p, Page.ofImage id schema b = .ok p → ∀ ops,
      (p.operations ops).slotCount = Layout.slotCount schema.rowSize b.size ∧
        ∀ i j r s, (p.operations ops).row? i = some r → (p.operations ops).row? j = some s →
          r.record = s.record → i = j := by
  refine ⟨fun rowSize pageSize => ⟨Layout.slotCount_isGreatest _ _, Layout.partitions _ _⟩,
    fun _ _ => Layout.check_eq_ok_iff_injOn, ?_, ?_⟩
  · intro schema pageSize h id
    exact Page.recordOf_injOn (Layout.check_eq_ok_iff.mp h).2
  · intro id schema b p h ops
    have hmapped := (Page.mapped_ofImage h).operations ops
    exact ⟨hmapped.slotMap.slotCount_eq, fun i j r s => hmapped.told_apart⟩

/-- A page of a boolean has at most 65536 slots, 139264 bytes have room for just as many, and
three bytes more are too many. -/
theorem slots_told_apart_widest :
    HeapFile.checkPageSize ⟨[⟨"flag", .boolean, false⟩]⟩ 139264 = .ok () ∧
    Layout.slotCount 2 139264 = 65536 ∧
    Set.InjOn (Page.recordOf ⟨1, 0⟩) (Set.Iio (Layout.slotCount 2 139264)) ∧
    HeapFile.checkPageSize ⟨[⟨"flag", .boolean, false⟩]⟩ 139267 =
      .error (.unsupportedPageSize 139267 65537) := by
  have h : HeapFile.checkPageSize ⟨[⟨"flag", .boolean, false⟩]⟩ 139264 = .ok () := by decide +kernel
  exact ⟨h, by decide, slots_told_apart.2.2.1 _ _ h ⟨1, 0⟩, by decide +kernel⟩

end RowStore
