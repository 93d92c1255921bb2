import RowStore.Store.Basic

/-!
  Files of the store — opening heap files and moving pages between file and memory.

  A heap file is known by the place of its file among those opened so far, so two
  handles on one file have one table number. Every page that is read counts, also
  one that then turns out not to be a page.
-/

namespace RowStore.Store

/-- A result of the file system. -/
def ofVolume {α : Type} : Except IoFault α → StoreM α
  | .ok a => pure a
  | .error fault => throw (.io fault)

/-! ## Heap files -/

/-- The table number of a file, a new one if it was never opened. -/
def tableOf (no : FileNo) : StoreM TableId := do
  let opened := (← get).opened
  match opened.idxOf? no with
  | some i => return i + 1
  | none =>
    modify fun s => { s with opened := opened ++ [no] }
    return opened.length + 1

/-- Opens a heap file and makes the file if there is none. A page size that gives
no usable page is refused before the file is touched. -/
def openHeap (path : String) (schema : Schema) (pageSize : Nat) : StoreM HandleNo := do
  StoreM.ofExcept (HeapFile.checkPageSize schema pageSize)
  let (path, no, volume) ← ofVolume ((← get).volume.openFile path)
  modify fun s => { s with volume := volume }
  let table ← tableOf no
  let handle := (← get).handles.size
  let h : HeapFile := { table, file := no, path, schema, pageSize, reads := 0, writes := 0 }
  modify fun s => { s with handles := s.handles.push h }
  return handle

/-- An open heap file. -/
def heapFile (handle : HandleNo) : StoreM HeapFile := return (← get).handles.getD handle default

/-- The contents of the file behind a heap file. -/
def contents (h : HeapFile) : StoreM File := return (← get).volume.file h.file

/-- The count of whole pages of a heap file. -/
def pageCount (handle : HandleNo) : StoreM Nat := do
  let h ← heapFile handle
  return h.pageCount (← contents h)

/-- Changes what is known of a heap file. -/
def updateHandle (handle : HandleNo) (f : HeapFile → HeapFile) : StoreM Unit :=
  modify fun s => { s with handles := s.handles.modify handle f }

/-- Replaces the contents of a heap file and counts a write. -/
def setContents (handle : HandleNo) (h : HeapFile) (f : File) : StoreM Unit := do
  modify fun s => { s with volume := s.volume.setFile h.file f }
  updateHandle handle fun h => { h with writes := h.writes + 1 }

/-- Reads a page from its file. -/
def readPage (handle : HandleNo) (id : PageId) : StoreM Page := do
  let h ← heapFile handle
  let image ← StoreM.ofExcept (h.readImage (← contents h) id)
  updateHandle handle fun h => { h with reads := h.reads + 1 }
  StoreM.ofExcept (Page.ofImage id h.schema image)

/-- Writes a page to its file. -/
def writePage (handle : HandleNo) (p : Page) : StoreM Unit := do
  let h ← heapFile handle
  let f ← StoreM.ofExcept (h.writePage (← contents h) p)
  setContents handle h f

/-- Appends an empty page to a heap file, at once and past the pool. -/
def allocatePage (handle : HandleNo) : StoreM PageId := do
  let h ← heapFile handle
  let f ← contents h
  let grown ← StoreM.ofExcept (h.allocate f)
  setContents handle h grown
  return h.nextPage f

/-! ## The catalog -/

/-- Registers a heap file as the table `name`. -/
def addTable (handle : HandleNo) (name primaryKey : String) : StoreM TableId := do
  let h ← heapFile handle
  modify fun s => { s with catalog := s.catalog.add ⟨handle, h.table⟩ name primaryKey }
  return h.table

/-- Forgets every table. Heap files stay open. -/
def clearCatalog : StoreM Unit := modify fun s => { s with catalog := .empty }

/-- The heap file of a registered table. -/
def tableFile (table : TableId) : StoreM HandleNo := do
  let entry ← StoreM.ofExcept ((← get).catalog.entry table)
  return entry.file.handle

/-! ## Files beside the heap files -/

def makeDirectory (path : String) : StoreM Unit := do
  let (volume, made) := (← get).volume.makeDirectory path
  modify fun s => { s with volume := volume }
  ofVolume made

/-- Changes the contents of the file at a path, made empty first if there is none,
refused if the change ends at a `stop` that has no position. -/
def updateFile (path : String) (stop : Nat) (f : File → File) : StoreM Unit := do
  let (_, no, volume) ← ofVolume ((← get).volume.openFile path)
  modify fun s => { s with volume := volume }
  ofVolume (File.checkEnd stop)
  modify fun s => { s with volume := volume.setFile no (f (volume.file no)) }

/-- Cuts or extends the file at a path. -/
def resizeFile (path : String) (size : Nat) : StoreM Unit := updateFile path size (·.resize size)

/-- Writes bytes into the file at a path. -/
def writeFile (path : String) (start : Nat) (bytes : Bytes) : StoreM Unit :=
  updateFile path (start + bytes.length) (·.write start (Block.ofBytes bytes.length bytes))

/-- The contents of the file at a path that has to exist. -/
def fileAt (path : String) : StoreM File := do
  let volume := (← get).volume
  let no ← ofVolume (volume.findFile path)
  return volume.file no

end RowStore.Store
