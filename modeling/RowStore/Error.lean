import RowStore.Ident

/-!
  Errors — every way a call on the store can fail, and the words for it.

  A `StoreError` is a cause with the values that make it concrete; `message` is
  the only place where the wording is written. `isAbort` singles out the one
  outcome that a transaction answers by giving up and starting again.
-/

namespace RowStore

/-- What the file system or the log device reports. -/
inductive IoFault where
  | unexpectedEnd
  | notFound
  | isDirectory
  | notDirectory
  | alreadyExists
  | nameTooLong
  | invalidName
  | invalidPosition
  | device (text : String)
  deriving DecidableEq, Repr, Inhabited

def IoFault.text : IoFault → String
  | .unexpectedEnd => "failed to fill whole buffer"
  | .notFound => "No such file or directory (os error 2)"
  | .isDirectory => "Is a directory (os error 21)"
  | .notDirectory => "Not a directory (os error 20)"
  | .alreadyExists => "File exists (os error 17)"
  | .nameTooLong => "File name too long (os error 36)"
  | .invalidName => "file name contained an unexpected NUL byte"
  | .invalidPosition => "Invalid argument (os error 22)"
  | .device text => text

inductive StoreError where
  | io (fault : IoFault)
  /-- The lock was not granted within the wait bound. -/
  | aborted (txn : TxnId) (page : PageId)
  /-- Every resident page is dirty, so none can make room. -/
  | poolFull (maxPages : Nat)
  | tableNotFound (table : TableId)
  | tableNameNotFound (name : String)
  | schemaMismatch
  /-- A row of these values does not fit its schema. -/
  | unencodable (values : String)
  /-- A used slot does not hold a row. -/
  | corruptSlot (page : PageId) (slot : Nat)
  | missingRecordId
  | wrongTable (record : RecordId) (table : TableId)
  | wrongPage (record : RecordId) (page : PageId)
  | invalidSlot (page : PageId) (slot : UInt16)
  | emptySlot (page : PageId) (slot : UInt16)
  | pageFull (page : PageId)
  | unsupportedPageSize (pageSize slots : Nat)
  | invalidPageImage (page : PageId) (expected actual : Nat)
  /-- A row was given more or fewer values than its schema has fields. -/
  | arityMismatch
  /-- The table cannot grow: its next page has no number. -/
  | noPageNumber (table : TableId)
  deriving DecidableEq, Repr, Inhabited

namespace StoreError

def message : StoreError → String
  | .io fault => s!"I/O error: {fault.text}"
  | .aborted txn page =>
    s!"{txn.text} aborted: lock on {page.text} not granted within the wait bound"
  | .poolFull maxPages => s!"Buffer pool is full: all {maxPages} resident pages are dirty"
  | .tableNotFound table => s!"Table {table} not found"
  | .tableNameNotFound name => s!"Table named '{name}' not found"
  | .schemaMismatch => "Tuple does not match the table's tuple descriptor"
  | .unencodable values => s!"Tuple could not be encoded: {values}"
  | .corruptSlot page slot =>
    s!"Tuple could not be encoded: corrupt slot {slot} on {page.text}"
  | .missingRecordId => "Tuple has no record id"
  | .wrongTable record table => s!"Record {record.text} does not belong to table {table}"
  | .wrongPage record page => s!"Record {record.text} is not stored on {page.text}"
  | .invalidSlot page slot => s!"Invalid slot {slot.toNat} on {page.text}"
  | .emptySlot page slot => s!"Slot {slot.toNat} on {page.text} is empty"
  | .pageFull page => s!"{page.text} has no free slot"
  | .unsupportedPageSize pageSize slots =>
    s!"Page size {pageSize} gives {slots} slots; a page holds 1 to 65536"
  | .invalidPageImage page expected actual =>
    s!"Page image for {page.text} is {actual} bytes, expected {expected}"
  | .arityMismatch => "Value count must match field count"
  | .noPageNumber table => s!"Table {table} has no page number left"

/-- Whether the transaction has to abort and be tried again. -/
def isAbort : StoreError → Bool
  | .aborted .. => true
  | _ => false

end StoreError

end RowStore
