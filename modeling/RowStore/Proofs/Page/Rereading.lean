import RowStore.Proofs.Page.Slots
import RowStore.Proofs.Row.Rereading

/-!
  Rereading pages — an image that was written is read as a page with that image.

  A page is `Sound` if its size gives as many slots as it has, its bitmap has whole bytes,
  and its rows are of its schema and can be encoded. Such a page has an image
  (`Sound.image`), its image is read as the page with every row reread
  (`Sound.ofImage_block`), which is sound and has the same image (`Sound.image_reread`),
  and an edit leaves it sound (`Edited.sound`). So images that begin as zeros and are only
  ever written from pages are never changed by reading.
-/

namespace RowStore

namespace Bytes

/-! ## Pieces -/

theorem getD_chunks {width count i j : Nat} {xs piece : Bytes}
    (h : (chunks width count xs)[i]? = some piece) (hj : j < width) :
    piece.getD j 0 = xs.getD (i * width + j) 0 := by
  induction count generalizing i xs with
  | zero => simp at h
  | succ count ih =>
    rw [chunks_succ] at h
    cases i with
    | zero =>
      obtain rfl := Option.some.inj h
      rw [getD_take, if_pos hj, Nat.zero_mul, Nat.zero_add]
    | succ i =>
      have hrest := ih h
      rw [hrest, getD_drop]
      congr 1
      rw [Nat.succ_mul]
      omega

theorem getD_flatMap_fit {width i j : Nat} {pieces : List Bytes} {piece : Bytes}
    (h : pieces[i]? = some piece) (hj : j < width) :
    (pieces.flatMap (fit width)).getD (i * width + j) 0 = piece.getD j 0 := by
  induction pieces generalizing i with
  | nil => simp at h
  | cons p pieces ih =>
    rw [List.flatMap_cons, getD_append, length_fit]
    cases i with
    | zero =>
      obtain rfl := Option.some.inj h
      rw [Nat.zero_mul, Nat.zero_add, if_pos hj, getD_fit, if_pos hj]
    | succ i =>
      have hle : ¬ (i + 1) * width + j < width := by
        rw [Nat.succ_mul]
        omega
      have hsub : (i + 1) * width + j - width = i * width + j := by
        rw [Nat.succ_mul]
        omega
      rw [if_neg hle, hsub]
      exact ih h

/-- Bytes of a length are told apart by their positions. -/
theorem eq_of_length {as bs : Bytes} (hl : as.length = bs.length)
    (h : ∀ i, i < bs.length → as.getD i 0 = bs.getD i 0) : as = bs := by
  apply List.ext_getElem hl
  intro i hi hj
  have hg := h i hj
  simpa [List.getD_eq_getElem?_getD, hi, hj] using hg

end Bytes

open Bytes

/-! ## Lists read one by one -/

theorem mapM_of_forall {α β : Type} {f : α → Except StoreError β} {xs : List α}
    {R : Nat → β → Prop} (h : ∀ i x, xs[i]? = some x → ∃ y, f x = .ok y ∧ R i y) :
    ∃ ys, xs.mapM f = .ok ys ∧ ys.length = xs.length ∧ ∀ i y, ys[i]? = some y → R i y := by
  induction xs generalizing R with
  | nil => exact ⟨[], rfl, rfl, by simp⟩
  | cons x xs ih =>
    obtain ⟨y, hy, hR⟩ := h 0 x rfl
    obtain ⟨ys, hys, hlen, hall⟩ := ih fun i x hx => h (i + 1) x hx
    refine ⟨y :: ys, ?_, by simp [hlen], ?_⟩
    · simp [List.mapM_cons, hy, hys, bind, Except.bind, pure, Except.pure]
    · intro i z hz
      cases i with
      | zero =>
        obtain rfl := Option.some.inj hz
        exact hR
      | succ i => exact hall i z hz

theorem mapM_eq_map {α β : Type} {f : α → Except StoreError β} {g : α → β} {xs : List α}
    (h : ∀ x ∈ xs, f x = .ok (g x)) : xs.mapM f = .ok (xs.map g) := by
  induction xs with
  | nil => rfl
  | cons x xs ih =>
    have hx := h x List.mem_cons_self
    have hrest := ih fun y hy => h y (List.mem_cons_of_mem x hy)
    simp [List.mapM_cons, hx, hrest, bind, Except.bind, pure, Except.pure]

namespace Page

/-! ## Sound pages -/

/-- A page that has an image and is read from it again. -/
structure Sound (p : Page) : Prop where
  slots : slotsFor p.id p.schema p.size = .ok p.slotCount
  bits : p.used.size = 8 * Layout.headerSize p.slotCount
  filled : ∀ i, i < p.slotCount → p.isUsed i = (p.row? i).isSome
  rows : ∀ i r, p.row? i = some r → r.schema = p.schema ∧ r.encode ≠ none

theorem slotsFor_eq_ok_iff {id : PageId} {schema : Schema} {size slots : Nat} :
    slotsFor id schema size = .ok slots ↔
      slots = Layout.slotCount schema.rowSize size ∧ 0 < slots ∧ slots ≤ Layout.maxSlots := by
  unfold slotsFor
  simp only
  generalize Layout.slotCount schema.rowSize size = n
  have hcheck := @Layout.check_eq_ok_iff size n
  split
  · rename_i hzero
    refine iff_of_false (by simp) ?_
    rintro ⟨rfl, hpos, -⟩
    exact Nat.ne_of_gt hpos (beq_iff_eq.mp hzero)
  · cases hc : Layout.check size n with
    | error e =>
      refine iff_of_false (by simp [Except.map]) ?_
      rintro ⟨rfl, h⟩
      simp [hcheck.mpr h] at hc
    | ok =>
      constructor
      · intro h
        obtain rfl := Except.ok.inj h
        exact ⟨rfl, hcheck.mp hc⟩
      · rintro ⟨rfl, -⟩
        rfl

theorem slotsFor_eq_ok {id : PageId} {schema : Schema} {size slots : Nat}
    (h : slotsFor id schema size = .ok slots) :
    slots = Layout.slotCount schema.rowSize size :=
  (slotsFor_eq_ok_iff.mp h).1

/-- Bitmap and slots fit into the page. -/
theorem Sound.fits {p : Page} (h : p.Sound) :
    Layout.headerSize p.slotCount + p.slotCount * p.schema.rowSize ≤ p.size := by
  rw [slotsFor_eq_ok h.slots]
  exact Layout.header_add_slots_le _ _

/-- The bytes that a slot is written as. -/
def slotBytes : Option Row → Bytes
  | none => []
  | some r => r.encode.getD []

theorem row?_of_getElem? {p : Page} {i : Nat} {cell : Option Row}
    (h : p.slots.toList[i]? = some cell) : p.row? i = cell := by
  rw [Array.getElem?_toList] at h
  rw [row?, h]
  rfl

theorem getElem?_slots {p : Page} {i : Nat} (hi : i < p.slotCount) :
    p.slots.toList[i]? = some (p.row? i) := by
  have hlt : i < p.slots.size := hi
  rw [Array.getElem?_toList, row?, Array.getElem?_eq_getElem hlt]
  rfl

theorem Sound.encoded {p : Page} (h : p.Sound) {i : Nat} {r : Row} (hr : p.row? i = some r) :
    ∃ bytes, r.encode = some bytes ∧ bytes.length = p.schema.rowSize := by
  obtain ⟨hschema, hencode⟩ := h.rows i r hr
  obtain ⟨bytes, hbytes⟩ := Option.ne_none_iff_exists'.mp hencode
  refine ⟨bytes, hbytes, ?_⟩
  rw [← hschema]
  exact Row.length_of_encode hbytes

theorem Sound.writeSlot {p : Page} (h : p.Sound) {cell : Option Row}
    (hc : cell ∈ p.slots.toList) :
    writeSlot cell = .ok (slotBytes cell) ∧ (slotBytes cell).length ≤ p.schema.rowSize := by
  obtain ⟨i, hi⟩ := List.mem_iff_getElem?.mp hc
  cases cell with
  | none => exact ⟨rfl, Nat.zero_le _⟩
  | some r =>
    obtain ⟨bytes, hbytes, hlen⟩ := h.encoded (row?_of_getElem? hi)
    refine ⟨by simp [Page.writeSlot, slotBytes, hbytes], ?_⟩
    simp only [slotBytes, hbytes, Option.getD_some]
    exact Nat.le_of_eq hlen

/-- The bytes of the rows, slot by slot. -/
def body (p : Page) : Bytes := join p.schema.rowSize (p.slots.toList.map slotBytes)

/-- The block that a sound page is written as. -/
def block (p : Page) : Block := Block.ofBytes p.size (Bitmap.pack p.used.toList ++ p.body)

theorem Sound.image {p : Page} (h : p.Sound) : p.image = .ok p.block := by
  have hrows : p.slots.toList.mapM Page.writeSlot = .ok (p.slots.toList.map slotBytes) :=
    mapM_eq_map fun cell hc => (h.writeSlot hc).1
  unfold Page.image
  rw [hrows]
  rfl

/-! ## Bytes of an image -/

theorem Sound.length_pack {p : Page} (h : p.Sound) :
    (Bitmap.pack p.used.toList).length = Layout.headerSize p.slotCount := by
  rw [Bitmap.length_pack, Array.length_toList, h.bits, Bitmap.size]
  omega

theorem Sound.byteAt_header {p : Page} (h : p.Sound) {i : Nat}
    (hi : i < Layout.headerSize p.slotCount) :
    p.block.byteAt i = (Bitmap.pack p.used.toList).getD i 0 := by
  have hfits := h.fits
  rw [block, Block.byteAt_ofBytes, if_pos (by omega), getD_append, h.length_pack, if_pos hi]

theorem Sound.byteAt_slot {p : Page} (h : p.Sound) {i j : Nat} {cell : Option Row}
    (hc : p.slots.toList[i]? = some cell) (hj : j < p.schema.rowSize) :
    p.block.byteAt (Layout.headerSize p.slotCount + (i * p.schema.rowSize + j)) =
      (slotBytes cell).getD j 0 := by
  have hlt : i < p.slotCount := (List.getElem?_eq_some_iff.mp hc).1
  have hrow : i * p.schema.rowSize + p.schema.rowSize ≤ p.slotCount * p.schema.rowSize := by
    rw [← Nat.succ_mul]
    exact Nat.mul_le_mul_right _ hlt
  have hfits := h.fits
  have hpiece : (p.slots.toList.map slotBytes)[i]? = some (slotBytes cell) := by
    rw [List.getElem?_map, hc]
    rfl
  have hwidth : ∀ bytes ∈ p.slots.toList.map slotBytes, bytes.length ≤ p.schema.rowSize := by
    intro bytes hb
    obtain ⟨c, hmem, rfl⟩ := List.mem_map.mp hb
    exact (h.writeSlot hmem).2
  rw [block, Block.byteAt_ofBytes, if_pos (by omega), getD_append, h.length_pack,
    if_neg (by omega), Nat.add_sub_cancel_left, body, getD_join hwidth,
    getD_flatMap_fit hpiece hj]

/-! ## Reading it again -/

theorem Sound.bitmap {p : Page} (h : p.Sound) : bitmap p.slotCount p.block = p.used.toList := by
  have hfit : fit (Layout.headerSize p.slotCount) p.block.bytes = Bitmap.pack p.used.toList := by
    apply eq_of_length
    · rw [length_fit, h.length_pack]
    · intro i hi
      rw [h.length_pack] at hi
      rw [getD_fit, if_pos hi]
      exact h.byteAt_header hi
  have hnone : 8 * Bitmap.size p.used.toList.length - p.used.toList.length = 0 := by
    rw [Array.length_toList, h.bits, Bitmap.size]
    omega
  rw [Page.bitmap, hfit, Bitmap.unpack_pack, hnone, List.replicate_zero, List.append_nil]

/-- What a slot is read as, from what it was written as. -/
def rereadSlot (id : PageId) (slot : Nat) (cell : Option Row) : Option Row :=
  cell.map fun r => r.reread.storedAt (some (recordOf id slot))

/-- The page as its image gives it back. -/
def reread (p : Page) : Page where
  id := p.id
  schema := p.schema
  size := p.size
  used := p.used
  slots := p.slots.mapIdx (rereadSlot p.id)
  dirtier := none
  before := p.block

theorem slotCount_reread (p : Page) : p.reread.slotCount = p.slotCount := Array.size_mapIdx

theorem isUsed_reread (p : Page) (i : Nat) : p.reread.isUsed i = p.isUsed i := by
  rw [isUsed, isUsed, slotCount_reread]
  rfl

theorem row?_reread (p : Page) (i : Nat) :
    p.reread.row? i = rereadSlot p.id i (p.row? i) := by
  show (p.slots.mapIdx (rereadSlot p.id))[i]?.join = rereadSlot p.id i (p.slots[i]?.join)
  rw [Array.getElem?_mapIdx]
  cases p.slots[i]? <;> rfl

/-- A labelled row comes back in its slot. -/
theorem Labelled.row?_reread {p : Page} (h : p.Labelled) {i : Nat} {r : Row}
    (hr : p.row? i = some r) : p.reread.row? i = some r.reread := by
  have hrecord := h i r hr
  rw [Page.row?_reread, hr, rereadSlot, Option.map_some, ← hrecord]
  rfl

theorem slotBytes_rereadSlot (id : PageId) (i : Nat) (cell : Option Row) :
    slotBytes (rereadSlot id i cell) = slotBytes cell := by
  cases cell with
  | none => rfl
  | some r => exact congrArg (·.getD []) r.encode_reread

theorem row?_of_ge {p : Page} {i : Nat} (h : p.slotCount ≤ i) : p.row? i = none := by
  have hsize : p.slots.size ≤ i := h
  rw [row?, Array.getElem?_eq_none hsize]
  rfl

theorem readSlot_of_decode (id : PageId) {schema : Schema} {data : Bytes} {row : Row} (i : Nat)
    (h : Row.decode schema (fit schema.rowSize data) = some row) :
    Page.readSlot id schema ((true, data), i) =
      .ok (some (row.storedAt (some (recordOf id i)))) := by
  simp only [Page.readSlot, h]

/-- The bytes of a slot are read as its row reread, or as none. -/
theorem Sound.readSlot {p : Page} (h : p.Sound) {i : Nat} {x : (Bool × Bytes) × Nat}
    (hx : (cells p.slotCount p.schema.rowSize p.block)[i]? = some x) :
    readSlot p.id p.schema x = .ok (rereadSlot p.id i (p.row? i)) := by
  have hi : i < p.slotCount := by
    have hlt := (List.getElem?_eq_some_iff.mp hx).1
    rwa [length_cells] at hlt
  obtain ⟨bit, data, hbit, hdata, hcell⟩ := cells_getElem? p.schema.rowSize p.block hi
  rw [hcell] at hx
  obtain rfl := Option.some.inj hx
  have hslot := getElem?_slots hi
  have hused : bit = (p.row? i).isSome := by
    rw [h.bitmap, Array.getElem?_toList] at hbit
    rw [← h.filled i hi, isUsed, Array.getD_eq_getD_getElem?, hbit, decide_eq_true hi]
    rfl
  cases hr : p.row? i with
  | none =>
    rw [hr] at hused
    subst hused
    rfl
  | some r =>
    rw [hr] at hused hslot
    subst hused
    obtain ⟨bytes, hbytes, hlen⟩ := h.encoded hr
    have hread := Row.decode_encode hbytes []
    rw [(h.rows i r hr).1, List.append_nil] at hread
    have hfit : fit p.schema.rowSize data = bytes := by
      apply eq_of_length
      · rw [length_fit, hlen]
      · intro j hj
        rw [hlen] at hj
        have hbyte := h.byteAt_slot hslot hj
        simp only [slotBytes, hbytes, Option.getD_some] at hbyte
        rw [getD_fit, if_pos hj, getD_chunks hdata hj, getD_drop, ← hbyte]
        rfl
    rw [← hfit] at hread
    calc Page.readSlot p.id p.schema ((true, data), i)
        = .ok (some ((r.reread.storedAt none).storedAt (some (recordOf p.id i)))) :=
          readSlot_of_decode p.id i hread
      _ = .ok (rereadSlot p.id i (some r)) := by rw [Row.storedAt_storedAt]; rfl

/-- The image of a sound page is read as the page reread. -/
theorem Sound.ofImage_block {p : Page} (h : p.Sound) :
    ofImage p.id p.schema p.block = .ok p.reread := by
  obtain ⟨rows, hrows, hlen, hall⟩ := mapM_of_forall
    (R := fun i row => row = rereadSlot p.id i (p.row? i)) fun i x hx => ⟨_, h.readSlot hx, rfl⟩
  rw [length_cells] at hlen
  have hslots : rows.toArray = p.reread.slots := by
    apply Array.ext'
    apply List.ext_getElem?
    intro i
    by_cases hi : i < p.slotCount
    · have hlt : i < rows.length := by omega
      have hrow := hall i _ (List.getElem?_eq_getElem hlt)
      rw [getElem?_slots (slotCount_reread p ▸ hi), row?_reread, ← hrow,
        ← List.getElem?_eq_getElem hlt]
    · have hreread : p.reread.slots.toList.length ≤ i := by
        have hcount := slotCount_reread p
        have hle : p.reread.slotCount ≤ i := by omega
        exact hle
      have hle : rows.length ≤ i := by omega
      rw [List.getElem?_eq_none hreread, List.getElem?_eq_none hle]
  have hcount : slotsFor p.id p.schema p.block.size = .ok p.slotCount := h.slots
  unfold ofImage
  simp only [bind, Except.bind, hcount, hrows, h.bitmap, hslots]
  rfl

theorem Sound.reread {p : Page} (h : p.Sound) : p.reread.Sound where
  slots := by
    rw [slotCount_reread]
    exact h.slots
  bits := by
    rw [slotCount_reread]
    exact h.bits
  filled i hi := by
    rw [slotCount_reread] at hi
    rw [isUsed_reread, row?_reread, h.filled i hi, rereadSlot, Option.isSome_map]
  rows i r hr := by
    rw [row?_reread] at hr
    obtain ⟨row, hrow, rfl⟩ := Option.map_eq_some_iff.mp hr
    obtain ⟨hschema, hencode⟩ := h.rows i row hrow
    refine ⟨hschema, ?_⟩
    show row.reread.encode ≠ none
    rwa [Row.encode_reread]

theorem block_reread (p : Page) : p.reread.block = p.block := by
  have hcells : p.reread.slots.toList.map slotBytes = p.slots.toList.map slotBytes := by
    apply List.ext_getElem?
    intro i
    rw [List.getElem?_map, List.getElem?_map, Array.getElem?_toList, Array.getElem?_toList]
    show ((p.slots.mapIdx (rereadSlot p.id))[i]?).map slotBytes = _
    rw [Array.getElem?_mapIdx]
    cases p.slots[i]? with
    | none => rfl
    | some cell => exact congrArg some (slotBytes_rereadSlot p.id i cell)
  rw [block, block, body, body, hcells]
  rfl

/-- The page that is read has the image that was written. -/
theorem Sound.image_reread {p : Page} (h : p.Sound) : p.reread.image = .ok p.block := by
  rw [h.reread.image, block_reread]

/-! ## Blank pages and edits -/

theorem unpack_zeros (n : Nat) : Bitmap.unpack (zeros n) = List.replicate (8 * n) false := by
  induction n with
  | zero => rfl
  | succ n ih =>
    have hz : zeros (n + 1) = 0 :: zeros n := rfl
    have hbits : Bitmap.bits 0 = List.replicate 8 false := by decide
    rw [hz, Bitmap.unpack_cons, ih, hbits, List.replicate_append_replicate]
    congr 1
    omega

theorem join_replicate_nil (width n : Nat) : join width (List.replicate n []) = [] := by
  induction n with
  | zero => rfl
  | succ n ih =>
    rw [List.replicate_succ, join_cons, ih]
    rfl

/-- A page with every slot free. -/
def vacant (id : PageId) (schema : Schema) (size slots : Nat) : Page where
  id
  schema
  size
  used := (List.replicate (8 * Layout.headerSize slots) false).toArray
  slots := (List.replicate slots none).toArray
  dirtier := none
  before := Block.blank size

theorem sound_vacant {id : PageId} {schema : Schema} {size slots : Nat}
    (h : slotsFor id schema size = .ok slots) : (vacant id schema size slots).Sound := by
  have hcount : (vacant id schema size slots).slotCount = slots := by
    show (List.replicate slots (none : Option Row)).toArray.size = slots
    simp
  have hrow (i : Nat) : (vacant id schema size slots).row? i = none := by
    show (List.replicate slots (none : Option Row)).toArray[i]?.join = none
    rw [List.getElem?_toArray, List.getElem?_replicate]
    split <;> rfl
  refine ⟨by rw [hcount]; exact h, ?_, ?_, ?_⟩
  · rw [hcount]
    show (List.replicate (8 * Layout.headerSize slots) false).toArray.size = _
    simp
  · intro i _
    have hbit : (vacant id schema size slots).used.getD i false = false := by
      show (List.replicate (8 * Layout.headerSize slots) false).toArray.getD i false = false
      rw [Array.getD_eq_getD_getElem?, List.getElem?_toArray, List.getElem?_replicate]
      split <;> rfl
    rw [isUsed, hbit, hrow, Bool.and_false]
    rfl
  · intro i r hr
    rw [hrow] at hr
    simp at hr

theorem block_vacant (id : PageId) (schema : Schema) (size slots : Nat) :
    (vacant id schema size slots).block = Block.blank size := by
  have hpack : Bitmap.pack (vacant id schema size slots).used.toList =
      zeros (Layout.headerSize slots) := by
    rw [← Bitmap.pack_unpack (zeros (Layout.headerSize slots)), unpack_zeros]
    rfl
  have hbody : (vacant id schema size slots).body = [] := by
    have hcells : (List.replicate slots (none : Option Row)).map slotBytes =
        List.replicate slots [] := List.map_replicate
    show join schema.rowSize ((List.replicate slots (none : Option Row)).map slotBytes) = []
    rw [hcells, join_replicate_nil]
  rw [block, hpack, hbody]
  apply Block.ext_byteAt (by rfl)
  intro i
  rw [Block.byteAt_ofBytes, Block.byteAt_blank, List.append_nil]
  split
  · simp only [zeros, List.getD_eq_getElem?_getD, List.getElem?_replicate]
    split <;> rfl
  · rfl

/-- A page that an image can be read as, whatever its rows are. -/
structure Formed (p : Page) : Prop where
  slots : slotsFor p.id p.schema p.size = .ok p.slotCount
  bits : p.used.size = 8 * Layout.headerSize p.slotCount
  filled : ∀ i, i < p.slotCount → p.isUsed i = (p.row? i).isSome
  schema : ∀ i r, p.row? i = some r → r.schema = p.schema

theorem Sound.formed {p : Page} (h : p.Sound) : p.Formed :=
  ⟨h.slots, h.bits, h.filled, fun i r hr => (h.rows i r hr).1⟩

theorem Formed.withSlot {p : Page} (h : p.Formed) {slot : Nat} (hlt : slot < p.slotCount)
    {row : Option Row} (hrow : ∀ r, row = some r → r.schema = p.schema) :
    (p.withSlot slot row).Formed := by
  have htidy : p.Tidy := ⟨by rw [h.bits]; exact slots_le_bits p.slotCount, h.filled⟩
  refine ⟨by rw [slotCount_withSlot]; exact h.slots, ?_, (htidy.withSlot hlt row).filled, ?_⟩
  · rw [slotCount_withSlot]
    show (p.used.setIfInBounds slot row.isSome).size = _
    rw [Array.size_setIfInBounds]
    exact h.bits
  · intro i r hr
    rw [row?_withSlot hlt] at hr
    split at hr
    · exact hrow r hr
    · exact h.schema i r hr

/-- A slot can be filled with a row of the schema that can be encoded, or freed. -/
theorem Sound.withSlot {p : Page} (h : p.Sound) {slot : Nat} (hlt : slot < p.slotCount)
    {row : Option Row} (hrow : ∀ r, row = some r → r.schema = p.schema ∧ r.encode.isSome = true) :
    (p.withSlot slot row).Sound := by
  have hformed := h.formed.withSlot hlt fun r hr => (hrow r hr).1
  refine ⟨hformed.slots, hformed.bits, hformed.filled, fun i r hr => ⟨hformed.schema i r hr, ?_⟩⟩
  rw [row?_withSlot hlt] at hr
  split at hr
  · exact Option.isSome_iff_ne_none.mp (hrow r hr).2
  · exact (h.rows i r hr).2

theorem Sound.markedBy {p : Page} (h : p.Sound) (txn : Option TxnId) : (p.markedBy txn).Sound :=
  ⟨h.slots, h.bits, h.filled, h.rows⟩

/-- An image that is read as a sound page with this image. -/
def Readable (id : PageId) (schema : Schema) (b : Block) : Prop :=
  ∃ p, ofImage id schema b = .ok p ∧ p.Sound ∧ p.image = .ok b

theorem readable_blank {id : PageId} {schema : Schema} {size slots : Nat}
    (h : slotsFor id schema size = .ok slots) : Readable id schema (Block.blank size) := by
  have hsound := sound_vacant h
  refine ⟨_, ?_, hsound.reread, ?_⟩
  · rw [← block_vacant id schema size slots]
    exact hsound.ofImage_block
  · rw [hsound.image_reread, block_vacant]

theorem Sound.readable {p : Page} {b : Block} (h : p.Sound) (hb : p.image = .ok b) :
    Readable p.id p.schema b := by
  obtain rfl := Except.ok.inj (h.image.symm.trans hb)
  exact ⟨p.reread, h.ofImage_block, h.reread, h.image_reread⟩

end Page

theorem Store.Edited.sound {txn : TxnId} {p q : Page} (h : Edited txn p q) (hp : p.Sound) :
    q.Sound := by
  obtain ⟨slot, row, hlt, -, hrow, rfl⟩ := h.cases
  exact (hp.withSlot hlt fun r hr => ⟨(hrow r hr).1, (hrow r hr).2.1⟩).markedBy _

end RowStore
