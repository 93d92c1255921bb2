import RowStore.Store.Register

/-!
  Inserting rows — the first page with room, or a new one.

  An insertion fetches the pages of its table one by one and puts the row into the
  first that has a free slot; when all are full the file grows. It can be stopped at
  any page (`seek`), other calls can be made, and it can go on (`resume`). Unless the
  file is cut short meanwhile no page is fetched twice, so the page numbers bound the
  fetches.
-/

namespace RowStore

/-- An insertion under way: the pages from `next` to before `stop` are still to be
tried. -/
structure Insertion where
  handle : HandleNo
  txn : TxnId
  row : Row
  next : Nat
  stop : Nat

namespace Insertion

open Store

/-- An insertion that has tried no page. -/
def start (handle : HandleNo) (txn : TxnId) (row : Row) : StoreM Insertion := do
  let h ← heapFile handle
  if row.schema ≠ h.schema then throw .schemaMismatch
  return { handle, txn, row, next := 0, stop := ← pageCount handle }

/-- Appends a page and goes on behind the pages tried. -/
def growOnce (i : Insertion) : StoreM Insertion := do
  let _ ← allocatePage i.handle
  return { i with next := i.stop, stop := ← pageCount i.handle }

/-- Appends a page to try. In a file that was cut short meanwhile it takes a second
one to get there; if that does not help either, no page number is left. -/
def grow (i : Insertion) : StoreM Insertion := do
  let i ← i.growOnce
  if i.next < i.stop then return i
  let i ← i.growOnce
  if i.next < i.stop then return i
  throw (.noPageNumber (← heapFile i.handle).table)

/-- Fetches the next page to try, growing the file if there is none. -/
def fetch (i : Insertion) : StoreM (FrameNo × Insertion) := do
  let i ← if i.next < i.stop then pure i else i.grow
  let h ← heapFile i.handle
  let f ← getPage i.txn ⟨h.table, i.next⟩ .write
  return (f, { i with next := i.next + 1 })

/-- Fetches at most `fuel` pages, up to the first that has room or is in a frame where
the insertion is to stop. -/
def seek (stopAt : FrameNo → Bool) : Nat → Insertion → StoreM (FrameNo × Insertion)
  | 0, i => do throw (.noPageNumber (← heapFile i.handle).table)
  | fuel + 1, i => do
    let (f, i) ← i.fetch
    if stopAt f || (← page f).hasRoom then return (f, i)
    seek stopAt fuel i

/-- Puts the row into a page with room. Gives the instance of the page and the row as
stored. -/
def place (i : Insertion) (f : FrameNo) : StoreM (FrameNo × Row) := do
  let (stored, p) ← StoreM.ofExcept ((← page f).insert i.row)
  setPage f (p.markedBy (some i.txn))
  return (f, stored)

/-- Puts the row into the first page with room. -/
def finish (i : Insertion) : StoreM (FrameNo × Row) := do
  let (f, i) ← i.seek (fun _ => false) pageNumbers
  i.place f

/-- Goes on with the page that was fetched last. -/
def resume (i : Insertion) (f : FrameNo) : StoreM (FrameNo × Row) := do
  if (← page f).hasRoom then i.place f else i.finish

end Insertion

namespace Store

/-- Puts a row into a heap file. Gives the instance of the page that received it,
dirty but not registered, and the row as stored. -/
def heapInsert (handle : HandleNo) (txn : TxnId) (row : Row) : StoreM (FrameNo × Row) := do
  let i ← Insertion.start handle txn row
  i.finish

/-- Adds a row to a table. -/
def insertRow (txn : TxnId) (table : TableId) (row : Row) (s : Store) : Outcome :=
  registered txn row (do heapInsert (← tableFile table) txn row) s

/-- Adds `more` rows of a series in turn, `added` of them being added already. Gives
how many were added and why the next one was not. -/
def insertMore (txn : TxnId) (table : TableId) (series : Nat → Row) (added : Nat) :
    Nat → Store → Nat × Option StoreError × Store
  | 0, s => (added, none, s)
  | more + 1, s =>
    let o := insertRow txn table (series added) s
    match o.result with
    | .error e => (added, some e, o.store)
    | .ok _ => insertMore txn table series (added + 1) more o.store

/-- Adds the first `count` rows of a series in turn. -/
def insertAll (txn : TxnId) (table : TableId) (series : Nat → Row) (count : Nat) (s : Store) :
    Nat × Option StoreError × Store :=
  insertMore txn table series 0 count s

end Store

end RowStore
