import RowStore.Store.Register

/-!
  Deleting rows — the slot that the row's record id names.

  A deletion fetches one page and frees one slot; the row then has no record id.
  Like an insertion it can be stopped between the two.
-/

namespace RowStore.Store

/-- The record of a row. -/
def recordOf (row : Row) : StoreM RecordId :=
  match row.record with
  | some record => pure record
  | none => throw .missingRecordId

/-- Fetches the page that holds a row of a heap file. -/
def fetchForDelete (handle : HandleNo) (txn : TxnId) (row : Row) : StoreM FrameNo := do
  let record ← recordOf row
  let h ← heapFile handle
  if record.page.table ≠ h.table then throw (.wrongTable record h.table)
  getPage txn record.page .write

/-- Frees the row's slot in a fetched page. Gives the row as it is then. -/
def eraseFrom (f : FrameNo) (txn : TxnId) (row : Row) : StoreM (FrameNo × Row) := do
  let p ← StoreM.ofExcept ((← page f).delete row)
  setPage f (p.markedBy (some txn))
  return (f, row.storedAt none)

/-- Removes a row from a heap file. Gives the changed instance of its page, dirty
but not registered, and the row without its record. -/
def heapDelete (handle : HandleNo) (txn : TxnId) (row : Row) : StoreM (FrameNo × Row) := do
  let f ← fetchForDelete handle txn row
  eraseFrom f txn row

/-- Removes a row from the table that its record id names. -/
def deleteRow (txn : TxnId) (row : Row) (s : Store) : Outcome :=
  registered txn row (do
    let record ← recordOf row
    heapDelete (← tableFile record.page.table) txn row) s

end RowStore.Store
