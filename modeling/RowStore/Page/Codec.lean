import RowStore.Page.Basic

/-!
  Page images — a page as a block of its size.

  `ofImage` reads a page of whatever size the block has; it fails when the size
  gives no slot or too many, or when a used slot does not hold a row. `image` is
  the way back and fails only when a stored row cannot be encoded. An image of
  zeros is a page with every slot free.
-/

namespace RowStore.Page

open Bytes

/-- What one slot holds, from its bit and its bytes. -/
def readSlot (id : PageId) (schema : Schema) :
    (Bool × Bytes) × Nat → Except StoreError (Option Row)
  | ((false, _), _) => .ok none
  | ((true, data), slot) =>
    match Row.decode schema (fit schema.rowSize data) with
    | some r => .ok (some (r.storedAt (some (recordOf id slot))))
    | none => .error (.corruptSlot id slot)

/-- The bits of the bitmap at the front of an image. -/
def bitmap (slots : Nat) (image : Block) : List Bool :=
  Bitmap.unpack (fit (Layout.headerSize slots) image.bytes)

/-- Each slot's bit, number and bytes up to the last of the image that is not zero. -/
def cells (slots rowSize : Nat) (image : Block) : List ((Bool × Bytes) × Nat) :=
  let rows := chunks rowSize slots (image.bytes.drop (Layout.headerSize slots))
  ((bitmap slots image).zip rows).zipIdx

/-- The slots of a page of `size` bytes, if a page may have that size. -/
def slotsFor (id : PageId) (schema : Schema) (size : Nat) : Except StoreError Nat :=
  let slots := Layout.slotCount schema.rowSize size
  if slots == 0 then
    .error (.invalidPageImage id (Layout.headerSize slots + schema.rowSize) size)
  else (Layout.check size slots).map fun _ => slots

/-- The page that an image spells, clean. -/
def ofImage (id : PageId) (schema : Schema) (image : Block) : Except StoreError Page := do
  let size := image.size
  let slots ← slotsFor id schema size
  let rows ← (cells slots schema.rowSize image).mapM (readSlot id schema)
  return {
    id, schema, size
    used := (bitmap slots image).toArray
    slots := rows.toArray
    dirtier := none
    before := image }

/-- A page of `size` bytes with every slot free. -/
def empty (id : PageId) (schema : Schema) (size : Nat) : Except StoreError Page := do
  let _ ← slotsFor id schema size
  ofImage id schema (Block.blank size)

/-- The bytes of one slot. Those of a free slot are zeros and left out. -/
def writeSlot : Option Row → Except StoreError Bytes
  | none => .ok []
  | some r =>
    match r.encode with
    | some bytes => .ok bytes
    | none => .error (.unencodable r.display)

/-- The block of the page. -/
def image (p : Page) : Except StoreError Block := do
  let rows ← p.slots.toList.mapM writeSlot
  return Block.ofBytes p.size (Bitmap.pack p.used.toList ++ join p.schema.rowSize rows)

/-- The page as it was at its last clean point. -/
def beforeImage (p : Page) : Except StoreError Page := ofImage p.id p.schema p.before

/-- The page with its present contents as its last clean point. -/
def settle (p : Page) : Except StoreError Page := do
  let image ← p.image
  return { p with before := image }

end RowStore.Page
