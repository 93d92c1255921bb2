import RowStore.Store.Fetch

/-!
  Completing transactions — log, force, write, and only then clean.

  A commit writes the transaction's dirty pages in load order and stops at the
  first that fails: that page and those after it are dropped from the pool, so the
  next reader finds what the file holds. An abort drops them all. Either way the
  transaction ends without locks. Flushing writes pages and leaves them dirty.
-/

namespace RowStore.Store

/-- Logs the update of a page, forces the log, and writes the page to its file. -/
def writeThrough (txn : TxnId) (p : Page) : StoreM Unit := do
  let handle ← tableFile p.id.table
  let before ← StoreM.ofExcept p.beforeImage
  logWrite txn before p
  logForce
  writePage handle p

/-- Writes a dirty page and makes it clean. -/
def commitPage (txn : TxnId) (f : FrameNo) : StoreM Unit := do
  let p ← page f
  writeThrough txn p
  let p ← StoreM.ofExcept p.settle
  setPage f (p.markedBy none)

/-- Ends the residency of pages. -/
def dropPages (pages : List (PageId × FrameNo)) : StoreM Unit :=
  modify fun s => { s with table := pages.foldl (fun t (page, _) => t.remove page) s.table }

/-- Commits pages in turn. The first that fails is dropped with all after it, and
its error is the result. -/
def commitPages (txn : TxnId) : List (PageId × FrameNo) → StoreM (Option StoreError)
  | [] => return none
  | (page, f) :: rest => do
    match ← (commitPage txn f).attempt with
    | .ok _ => commitPages txn rest
    | .error e =>
      dropPages ((page, f) :: rest)
      return some e

/-- Ends a transaction, with its changes or without them. -/
def complete (txn : TxnId) (commit : Bool) : StoreM Unit := do
  let s ← get
  let dirty := s.table.dirtiedBy s.frames txn
  let failure ← if commit then commitPages txn dirty else do
    dropPages dirty
    pure none
  modify fun s => { s with
    locks := s.locks.releaseAll txn
    table := s.table.forgetTxn txn }
  match failure with
  | none => return ()
  | some e => throw e

/-- Writes pages for the transactions that made them dirty, up to the first that
fails. They stay dirty. -/
def flushEach : List (PageId × FrameNo) → StoreM Unit
  | [] => return ()
  | (_, f) :: rest => do
    let p ← page f
    match p.dirtier with
    | some txn => writeThrough txn p
    | none => pure ()
    flushEach rest

/-- Writes every dirty resident page. -/
def flushAll : StoreM Unit := do
  let s ← get
  flushEach (s.table.dirtyPages s.frames)

/-- Writes the resident pages that a transaction made dirty. -/
def flush (txn : TxnId) : StoreM Unit := do
  let s ← get
  flushEach (s.table.dirtiedBy s.frames txn)

end RowStore.Store
