import RowStore.Disk.Volume
import RowStore.Page.Codec

/-!
  Heap files — a file read as an array of pages.

  Page `n` occupies the `pageSize` bytes from `n * pageSize` on. Page numbers are
  32 bits wide: the count of whole pages is taken modulo `pageNumbers`. Reading and
  writing refuse a page of another table, and writing a page of another size; every
  access refuses a page that would end past the last position of a file.
-/

namespace RowStore

/-- The number of an open heap file. -/
abbrev HandleNo := Nat

/-- An open file that holds the rows of one table, and how often it was read and
written. -/
structure HeapFile where
  table : TableId
  file : FileNo
  path : Path
  schema : Schema
  pageSize : Nat
  reads : Nat
  writes : Nat
  deriving DecidableEq, Inhabited

namespace HeapFile

/-- Refuses a page size that a page of this schema cannot have. -/
def checkPageSize (schema : Schema) (pageSize : Nat) : Except StoreError Unit :=
  Layout.check pageSize (Layout.slotCount schema.rowSize pageSize)

/-- The count of whole pages, in 32 bits. -/
def pageCount (h : HeapFile) (f : File) : Nat := f.size / h.pageSize % pageNumbers

/-- Where a page begins, if a file can hold it. -/
def place (h : HeapFile) (id : PageId) : Except StoreError Nat :=
  let start := id.offset h.pageSize
  match File.checkEnd (start + h.pageSize) with
  | .ok () => .ok start
  | .error fault => .error (.io fault)

/-- The bytes of a page. Every byte has to be in the file. -/
def readImage (h : HeapFile) (f : File) (id : PageId) : Except StoreError Block :=
  if id.table ≠ h.table then .error (.tableNotFound id.table)
  else do
    let start ← h.place id
    match f.read? start h.pageSize with
    | some image => .ok image
    | none => .error (.io .unexpectedEnd)

/-- The page that the file holds under this number. -/
def readPage (h : HeapFile) (f : File) (id : PageId) : Except StoreError Page := do
  let image ← h.readImage f id
  Page.ofImage id h.schema image

/-- The file with the page's image at its place. -/
def writePage (h : HeapFile) (f : File) (p : Page) : Except StoreError File :=
  if p.id.table ≠ h.table then .error (.tableNotFound p.id.table)
  else if p.size ≠ h.pageSize then .error (.invalidPageImage p.id h.pageSize p.size)
  else do
    let image ← p.image
    let start ← h.place p.id
    return f.write start image

/-- The page after the last whole page. -/
def nextPage (h : HeapFile) (f : File) : PageId := ⟨h.table, h.pageCount f⟩

/-- The file with an empty page after its last whole page. -/
def allocate (h : HeapFile) (f : File) : Except StoreError File := do
  let start ← h.place (h.nextPage f)
  return f.write start (Block.blank h.pageSize)

end HeapFile

end RowStore
