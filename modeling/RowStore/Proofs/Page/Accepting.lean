import RowStore.Proofs.Page.Listing
import RowStore.Proofs.Page.RoundTrip
import RowStore.Proofs.Row.Accepting

/-!
  Accepting pages — which bytes are read as a page, and which of them matter.

  A page is read from the bitmap in front and from the bytes of each used slot. `Page.read`
  does so with every access checked. Main statement: no check ever fails, bytes are read as
  a page exactly if their number gives between 1 and 65536 slots and the texts in the used
  slots fit, zeros are read as a page without rows, and only the bits of the slots and the
  bytes of the used ones tell what the slots hold (`read_ofBytes`).
-/

namespace RowStore

/-! ## Lists read one by one -/

theorem mapM_of_map_eq {α β γ : Type} {f : α → Except StoreError γ} {g : β → Except StoreError γ}
    {xs : List α} {ys : List β} (h : xs.map f = ys.map g) : xs.mapM f = ys.mapM g :=
  calc xs.mapM f = (xs.map f).mapM id := (List.mapM_map (f := f) (g := id)).symm
    _ = (ys.map g).mapM id := by rw [h]
    _ = ys.mapM g := List.mapM_map (f := g) (g := id)

theorem mapM_isOk_iff {α β : Type} {f : α → Except StoreError β} {xs : List α} :
    (∃ ys, xs.mapM f = .ok ys) ↔ ∀ x ∈ xs, ∃ y, f x = .ok y := by
  constructor
  · rintro ⟨ys, hys⟩ x hx
    obtain ⟨i, hi⟩ := List.mem_iff_getElem?.mp hx
    obtain ⟨y, -, hy⟩ := (mapM_eq_ok hys).2 i x hi
    exact ⟨y, hy⟩
  · intro h
    have hall (i : Nat) (x : α) (hx : xs[i]? = some x) : ∃ y, f x = .ok y ∧ True :=
      (h x (List.mem_of_getElem? hx)).imp fun y hy => ⟨hy, trivial⟩
    obtain ⟨ys, hys, -⟩ := mapM_of_forall (R := fun _ _ => True) hall
    exact ⟨ys, hys⟩

namespace Page

open Bytes

/-- The page that bytes spell. -/
def ofBytes (id : PageId) (schema : Schema) (data : Bytes) : Except StoreError Page :=
  ofImage id schema (Block.ofBytes data.length data)

/-- Where a slot begins in a page of `size` bytes. -/
def slotStart (schema : Schema) (size slot : Nat) : Nat :=
  Layout.headerSize (Layout.slotCount schema.rowSize size) + slot * schema.rowSize

/-! ## Reading with every access checked -/

/-- What a slot holds, every access checked: none if one is outside the bytes. -/
def readCell (id : PageId) (schema : Schema) (header data : Bytes) (slot : Nat) :
    Option (Except StoreError (Option Row)) :=
  (header[slot / 8]?).bind fun byte =>
    if byte.toNat.testBit (slot % 8) then
      let start := slotStart schema data.length slot
      (between? data start (start + schema.rowSize)).bind fun bytes =>
        (Row.read schema bytes).map fun
          | some r => .ok (some (r.storedAt (some (recordOf id slot))))
          | none => .error (.corruptSlot id slot)
    else some (.ok none)

/-- What slots hold, read in turn until one is refused. -/
def readCells (id : PageId) (schema : Schema) (header data : Bytes) :
    List Nat → Option (Except StoreError (List (Option Row)))
  | [] => some (.ok [])
  | slot :: slots =>
    (readCell id schema header data slot).bind fun
      | .error e => some (.error e)
      | .ok cell => (readCells id schema header data slots).map (Except.map (cell :: ·))

/-- The page that bytes spell, every access checked. -/
def read (id : PageId) (schema : Schema) (data : Bytes) : Option (Except StoreError Page) :=
  match slotsFor id schema data.length with
  | .error e => some (.error e)
  | .ok slots =>
    (between? data 0 (Layout.headerSize slots)).bind fun header =>
      (readCells id schema header data (List.range slots)).map <| Except.map fun rows => {
        id, schema, size := data.length
        used := (Bitmap.unpack header).toArray
        slots := rows.toArray
        dirtier := none
        before := Block.ofBytes data.length data }

section Read
variable {id : PageId} {schema : Schema} {data : Bytes} {slots slot : Nat}

/-- What a slot holds. -/
def cellOf (id : PageId) (schema : Schema) (data : Bytes) (slot : Nat) :
    Except StoreError (Option Row) :=
  readSlot id schema ((bitAt data 0 slot,
    (data.drop (slotStart schema data.length slot)).take schema.rowSize), slot)

theorem slot_le (h : slot < Layout.slotCount schema.rowSize data.length) :
    slotStart schema data.length slot + schema.rowSize ≤ data.length := by
  have hpage := Layout.header_add_slots_le schema.rowSize data.length
  have hslot := Nat.mul_le_mul_right schema.rowSize (Nat.succ_le_of_lt h)
  rw [Nat.succ_mul] at hslot
  unfold slotStart
  omega

theorem headerSize_le (schema : Schema) (data : Bytes) :
    Layout.headerSize (Layout.slotCount schema.rowSize data.length) ≤ data.length :=
  Nat.le_trans (Nat.le_add_right _ _) (Layout.header_add_slots_le _ _)

theorem length_slot (h : slot < Layout.slotCount schema.rowSize data.length) :
    ((data.drop (slotStart schema data.length slot)).take schema.rowSize).length =
      schema.rowSize := by
  have hle := slot_le h
  rw [List.length_take, List.length_drop]
  omega

theorem fit_of_length {n : Nat} {bytes : Bytes} (h : bytes.length = n) : fit n bytes = bytes := by
  rw [fit, h, Nat.sub_self, List.take_of_length_le (Nat.le_of_eq h)]
  exact List.append_nil bytes

theorem readCell_eq (h : slot < Layout.slotCount schema.rowSize data.length) :
    readCell id schema
      (data.take (Layout.headerSize (Layout.slotCount schema.rowSize data.length))) data slot =
      some (cellOf id schema data slot) := by
  have hheader := headerSize_le schema data
  have hbits := slots_le_bits (Layout.slotCount schema.rowSize data.length)
  generalize hn : Layout.headerSize (Layout.slotCount schema.rowSize data.length) = n at *
  have hslot : slot < 8 * (data.take n).length := by
    rw [List.length_take_of_le hheader]
    omega
  obtain ⟨byte, hbyte, -, hbit⟩ := Bitmap.getElem?_unpack_of_lt hslot
  rw [readCell, hbyte, Option.bind_some, hbit, bitAt_take (by omega), cellOf]
  cases bitAt data 0 slot with
  | false => rfl
  | true =>
    cases hrow : Row.decode schema
        ((data.drop (slotStart schema data.length slot)).take schema.rowSize) <;>
      simp only [if_true, between?_of_le (Nat.le_add_right _ _) (slot_le h), Option.bind_some,
        Nat.add_sub_cancel_left, Row.read_eq, Option.map_some, readSlot,
        fit_of_length (length_slot h), hrow]

theorem readCells_eq {header : Bytes} {f : Nat → Except StoreError (Option Row)} {xs : List Nat}
    (h : ∀ x ∈ xs, readCell id schema header data x = some (f x)) :
    readCells id schema header data xs = some (xs.mapM f) := by
  induction xs with
  | nil => rfl
  | cons x xs ih =>
    rw [readCells, h x List.mem_cons_self, Option.bind_some,
      ih fun y hy => h y (List.mem_cons_of_mem x hy), List.mapM_cons]
    cases f x with
    | error e => rfl
    | ok cell => cases xs.mapM f <;> rfl

/-- A block of bytes keeps each of them. -/
theorem getD_block (data : Bytes) (i : Nat) :
    (Block.ofBytes data.length data).bytes.getD i 0 = data.getD i 0 := by
  have hbyte := Block.byteAt_ofBytes data.length data i
  rw [Block.byteAt] at hbyte
  rw [hbyte]
  split
  · rfl
  · rw [getD_of_length_le (by omega)]

theorem bitmap_ofBytes {n : Nat} (h : Layout.headerSize n ≤ data.length) :
    bitmap n (Block.ofBytes data.length data) =
      Bitmap.unpack (data.take (Layout.headerSize n)) := by
  rw [bitmap]
  congr 1
  apply eq_of_length
  · rw [length_fit, List.length_take_of_le h]
  · intro i _
    rw [getD_fit, getD_take, getD_block]

/-- A slot is read from its bit and its bytes. -/
theorem readSlot_cells (id : PageId) (h : slot < Layout.slotCount schema.rowSize data.length) :
    ∃ x, (cells (Layout.slotCount schema.rowSize data.length) schema.rowSize
        (Block.ofBytes data.length data))[slot]? = some x ∧
      readSlot id schema x = cellOf id schema data slot := by
  obtain ⟨bit, piece, hbit, hpiece, hcell⟩ :=
    cells_getElem? schema.rowSize (Block.ofBytes data.length data) h
  refine ⟨_, hcell, ?_⟩
  have hheader := headerSize_le schema data
  have hbits := slots_le_bits (Layout.slotCount schema.rowSize data.length)
  have hlt : slot < 8 * (data.take (Layout.headerSize
      (Layout.slotCount schema.rowSize data.length))).length := by
    rw [List.length_take_of_le hheader]
    omega
  obtain ⟨byte, -, hunpack, hbyte⟩ := Bitmap.getElem?_unpack_of_lt hlt
  rw [bitmap_ofBytes hheader, hunpack, hbyte, bitAt_take (by omega)] at hbit
  have hbytes : fit schema.rowSize piece =
      fit schema.rowSize ((data.drop (slotStart schema data.length slot)).take schema.rowSize) := by
    rw [fit_of_length (length_slot h)]
    apply eq_of_length
    · rw [length_fit, length_slot h]
    · intro j hj
      rw [length_slot h] at hj
      rw [getD_fit, if_pos hj, getD_chunks hpiece hj, getD_drop, getD_block, getD_take, if_pos hj,
        getD_drop, slotStart, Nat.add_assoc]
  obtain rfl : bitAt data 0 slot = bit := Option.some.inj hbit
  rw [cellOf]
  cases bitAt data 0 slot with
  | false => rfl
  | true => simp only [readSlot, hbytes]

/-- Bytes are read slot by slot. -/
theorem ofBytes_eq (id : PageId) (schema : Schema) (data : Bytes) :
    ofBytes id schema data = (slotsFor id schema data.length).bind fun slots =>
      ((List.range slots).mapM (cellOf id schema data)).map fun rows => {
        id, schema, size := data.length
        used := (Bitmap.unpack (data.take (Layout.headerSize slots))).toArray
        slots := rows.toArray
        dirtier := none
        before := Block.ofBytes data.length data } := by
  rw [ofBytes, ofImage, Block.size_ofBytes]
  cases hslots : slotsFor id schema data.length with
  | error e => rfl
  | ok slots =>
    obtain rfl := slotsFor_eq_ok hslots
    have hcells : (cells (Layout.slotCount schema.rowSize data.length) schema.rowSize
        (Block.ofBytes data.length data)).map (readSlot id schema) =
        (List.range (Layout.slotCount schema.rowSize data.length)).map (cellOf id schema data) := by
      apply List.ext_getElem?
      intro i
      by_cases hi : i < Layout.slotCount schema.rowSize data.length
      · obtain ⟨x, hx, hread⟩ := readSlot_cells id hi
        simp [hx, hread, hi]
      · simp [length_cells, hi]
    simp only [bind, Except.bind, mapM_of_map_eq hcells, bitmap_ofBytes (headerSize_le schema data)]
    cases (List.range _).mapM (cellOf id schema data) <;> rfl

/-- No access of a page is outside its bytes. -/
theorem read_eq (id : PageId) (schema : Schema) (data : Bytes) :
    read id schema data = some (ofBytes id schema data) := by
  rw [read, ofBytes_eq]
  cases hslots : slotsFor id schema data.length with
  | error e => rfl
  | ok slots =>
    obtain rfl := slotsFor_eq_ok hslots
    have hcells : readCells id schema
        (data.take (Layout.headerSize (Layout.slotCount schema.rowSize data.length))) data
        (List.range (Layout.slotCount schema.rowSize data.length)) =
        some ((List.range _).mapM (cellOf id schema data)) :=
      readCells_eq fun x hx => readCell_eq (List.mem_range.mp hx)
    simp only [between?_zero (headerSize_le schema data), Option.bind_some, hcells,
      Option.map_some]
    rfl

/-! ## Acceptance -/

/-- The number of bytes gives a number of slots that a page may have, and in every used slot
the texts fit. -/
structure Accepts (schema : Schema) (data : Bytes) : Prop where
  least : 1 ≤ Layout.slotCount schema.rowSize data.length
  most : Layout.slotCount schema.rowSize data.length ≤ 65536
  texts : ∀ slot, slot < Layout.slotCount schema.rowSize data.length → bitAt data 0 slot = true →
    Row.TextsFit schema data (slotStart schema data.length slot)

theorem slotsFor_isOk_iff {size : Nat} : (∃ n, slotsFor id schema size = .ok n) ↔
    1 ≤ Layout.slotCount schema.rowSize size ∧ Layout.slotCount schema.rowSize size ≤ 65536 := by
  simp only [slotsFor_eq_ok_iff, exists_eq_left]
  rfl

theorem cellOf_isOk_iff (h : slot < Layout.slotCount schema.rowSize data.length) :
    (∃ cell, cellOf id schema data slot = .ok cell) ↔ (bitAt data 0 slot = true →
      Row.TextsFit schema data (slotStart schema data.length slot)) := by
  rw [← Row.textsFit_slice, ← Row.isSome_decode_iff (Nat.le_of_eq (length_slot h).symm), cellOf]
  cases bitAt data 0 slot with
  | false => simp [readSlot]
  | true =>
    simp only [readSlot, fit_of_length (length_slot h), true_imp_iff]
    cases Row.decode schema _ <;> simp

/-- Bytes are read as a page exactly if they are accepted. -/
theorem ofBytes_isOk_iff : (∃ p, ofBytes id schema data = .ok p) ↔ Accepts schema data := by
  have hcells : (∃ rows, (List.range (Layout.slotCount schema.rowSize data.length)).mapM
      (cellOf id schema data) = .ok rows) ↔
      ∀ slot, slot < Layout.slotCount schema.rowSize data.length → bitAt data 0 slot = true →
        Row.TextsFit schema data (slotStart schema data.length slot) := by
    rw [mapM_isOk_iff]
    refine forall_congr' fun slot => ?_
    rw [List.mem_range]
    exact forall_congr' fun h => cellOf_isOk_iff h
  have hslots : (∃ n, slotsFor id schema data.length = .ok n) ↔ _ := slotsFor_isOk_iff
  rw [ofBytes_eq]
  cases hn : slotsFor id schema data.length with
  | error e =>
    rw [hn] at hslots
    refine iff_of_false (by simp [Except.bind]) fun h => ?_
    obtain ⟨n, hn⟩ := hslots.mpr ⟨h.least, h.most⟩
    simp at hn
  | ok n =>
    obtain ⟨hleast, hmost⟩ := hslots.mp ⟨n, hn⟩
    obtain rfl := slotsFor_eq_ok hn
    have hok : Accepts schema data ↔ _ := ⟨fun h => h.texts, fun h => ⟨hleast, hmost, h⟩⟩
    rw [hok, ← hcells]
    simp only [Except.bind]
    cases (List.range _).mapM (cellOf id schema data) <;> simp [Except.map]

/-! ## What matters -/

/-- Bytes with the same bits of the slots and the same bytes in the used ones. -/
structure SameSlots (schema : Schema) (data other : Bytes) : Prop where
  length : other.length = data.length
  bits : ∀ slot, slot < Layout.slotCount schema.rowSize data.length →
    bitAt other 0 slot = bitAt data 0 slot
  bytes : ∀ slot, slot < Layout.slotCount schema.rowSize data.length → bitAt data 0 slot = true →
    ∀ j, j < schema.rowSize → other.getD (slotStart schema data.length slot + j) 0 =
      data.getD (slotStart schema data.length slot + j) 0

theorem SameSlots.cellOf {other : Bytes} (h : SameSlots schema data other)
    (hlt : slot < Layout.slotCount schema.rowSize data.length) :
    cellOf id schema other slot = cellOf id schema data slot := by
  rw [Page.cellOf, Page.cellOf, h.bits slot hlt, h.length]
  cases hbit : bitAt data 0 slot with
  | false => rfl
  | true =>
    have hbytes : (other.drop (slotStart schema data.length slot)).take schema.rowSize =
        (data.drop (slotStart schema data.length slot)).take schema.rowSize := by
      apply eq_of_length
      · simp [h.length]
      · intro j hj
        rw [length_slot hlt] at hj
        rw [getD_take, getD_take, if_pos hj, if_pos hj, getD_drop, getD_drop]
        exact h.bytes slot hlt hbit j hj
    rw [hbytes]

/-- The slots of a page hold what their bits and bytes spell. -/
theorem map_slots_ofBytes : (ofBytes id schema data).map Page.slots =
    (slotsFor id schema data.length).bind fun slots =>
      ((List.range slots).mapM (cellOf id schema data)).map List.toArray := by
  rw [ofBytes_eq]
  cases slotsFor id schema data.length with
  | error e => rfl
  | ok n =>
    simp only [Except.bind]
    cases (List.range n).mapM (cellOf id schema data) <;> rfl

theorem SameSlots.map_slots {other : Bytes} (h : SameSlots schema data other) :
    (ofBytes id schema other).map Page.slots = (ofBytes id schema data).map Page.slots := by
  rw [map_slots_ofBytes, map_slots_ofBytes, h.length]
  cases hslots : slotsFor id schema data.length with
  | error e => rfl
  | ok n =>
    obtain rfl := slotsFor_eq_ok hslots
    have hcells : (List.range (Layout.slotCount schema.rowSize data.length)).map
        (Page.cellOf id schema other) =
        (List.range (Layout.slotCount schema.rowSize data.length)).map
          (Page.cellOf id schema data) :=
      List.map_congr_left fun slot hslot => h.cellOf (List.mem_range.mp hslot)
    simp only [Except.bind, mapM_of_map_eq hcells]

theorem ofBytes_zeros {size : Nat} (h : 1 ≤ Layout.slotCount schema.rowSize size)
    (hmax : Layout.slotCount schema.rowSize size ≤ 65536) :
    ∃ p, ofBytes id schema (zeros size) = .ok p ∧ p.rows = [] := by
  have hslots : ∃ n, slotsFor id schema size = .ok n := slotsFor_isOk_iff.mpr ⟨h, hmax⟩
  obtain ⟨n, hn⟩ := hslots
  have hblank : Block.ofBytes (zeros size).length (zeros size) = Block.blank size := by
    rw [length_zeros]
    refine Block.ext_byteAt rfl fun i => ?_
    rw [Block.byteAt_ofBytes, Block.byteAt_blank]
    simp only [zeros, List.getD_eq_getElem?_getD, List.getElem?_replicate]
    split <;> simp
  have hread := (sound_vacant hn).ofImage_block
  rw [block_vacant] at hread
  refine ⟨_, by rw [ofBytes, hblank]; exact hread, ?_⟩
  rw [rows_eq, List.filterMap_eq_nil_iff]
  intro i _
  have hfree : (vacant id schema size n).row? i = none := by
    simp only [row?, vacant, List.getElem?_toArray, List.getElem?_replicate]
    split <;> rfl
  rw [row?_reread, hfree]
  rfl

/-- Reading bytes as a page never leaves them, and succeeds exactly if they are accepted. Zeros
are a page without rows, and only the bits of the slots and the bytes of the used ones tell
what the slots hold, or why they cannot be read. -/
theorem read_ofBytes (id : PageId) (schema : Schema) (data : Bytes) :
    read id schema data = some (ofBytes id schema data) ∧
      ((∃ p, ofBytes id schema data = .ok p) ↔ Accepts schema data) ∧
      (∀ size, 1 ≤ Layout.slotCount schema.rowSize size →
        Layout.slotCount schema.rowSize size ≤ 65536 →
        ∃ p, ofBytes id schema (zeros size) = .ok p ∧ p.rows = []) ∧
      ∀ other, SameSlots schema data other →
        (ofBytes id schema other).map Page.slots = (ofBytes id schema data).map Page.slots :=
  ⟨read_eq id schema data, ofBytes_isOk_iff, fun _ => ofBytes_zeros, fun _ h => h.map_slots⟩

/-- A page with a row whose text claims four bytes in a field of three. -/
def overlong : Bytes := fit 64 [1, 0, 0, 0, 0, 0, 0, 0, 0, 0, 4]

/-- A page with both slots free, a bit behind them and other bytes in the second. -/
def littered : Bytes := 0x20 :: (zeros 30 ++ List.replicate 33 0xFF)

theorem read_ofBytes_mixed :
    read ⟨1, 0⟩ mixed overlong = some (ofBytes ⟨1, 0⟩ mixed overlong) ∧
      (¬ ∃ p, ofBytes ⟨1, 0⟩ mixed overlong = .ok p) ∧
      SameSlots mixed (zeros 64) littered ∧
      ∃ p, ofBytes ⟨1, 0⟩ mixed (zeros 64) = .ok p ∧ p.rows = [] ∧
        (ofBytes ⟨1, 0⟩ mixed littered).map Page.slots = .ok p.slots := by
  obtain ⟨hread, haccepts, hzeros, -⟩ := read_ofBytes ⟨1, 0⟩ mixed overlong
  obtain ⟨-, -, -, hsame⟩ := read_ofBytes ⟨1, 0⟩ mixed (zeros 64)
  have hlittered : SameSlots mixed (zeros 64) littered :=
    ⟨by decide +kernel, by decide +kernel, by decide +kernel⟩
  obtain ⟨p, hp, hrows⟩ := hzeros 64 (by decide +kernel) (by decide +kernel)
  refine ⟨hread, fun h => ?_, hlittered, p, hp, hrows, by rw [hsame littered hlittered, hp]; rfl⟩
  have hle := (haccepts.mp h).texts 0 (by decide +kernel) (by decide +kernel) 1 ⟨"s", .text 3, true⟩
    3 rfl rfl (by decide +kernel)
  exact absurd hle (by decide +kernel)

end Read

end Page

end RowStore
