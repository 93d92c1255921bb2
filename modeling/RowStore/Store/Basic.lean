import RowStore.Catalog
import RowStore.Lock.Manager
import RowStore.Log
import RowStore.Pool.PageTable

/-!
  The store — everything that a call can read or change, as one value.

  A call is a `StoreM` action: it ends with a result or an error, and with a store
  either way, since an error does not undo what came before it. Waiting is not
  part of the state: a lock request that would have to wait fails as it does when
  its wait bound runs out.
-/

namespace RowStore

structure Store where
  volume : Volume
  /-- The files opened as tables. A table's number counts from one in here. -/
  opened : List FileNo
  handles : Array HeapFile
  catalog : Catalog
  log : Log
  locks : LockManager
  frames : Frames
  /-- The resident pages. -/
  table : PageTable
  /-- How many pages may be resident. -/
  maxPages : Nat
  /-- The number of the newest transaction. -/
  lastTxn : Nat
  deriving Inhabited

/-- A call on the store. -/
abbrev StoreM := EStateM StoreError Store

/-- A result that does not need the store. -/
def StoreM.ofExcept {α : Type} : Except StoreError α → StoreM α
  | .ok a => pure a
  | .error e => throw e

/-- Runs a call and gives its outcome as a result. -/
def StoreM.attempt {α : Type} (call : StoreM α) : StoreM (Except StoreError α) := fun s =>
  match call s with
  | .ok a s => .ok (.ok a) s
  | .error e s => .ok (.error e) s

namespace Store

/-- A store with nothing in it. -/
def new (maxPages : Nat) (log : Log) : Store where
  volume := .empty
  opened := []
  handles := #[]
  catalog := .empty
  log := log
  locks := .empty
  frames := #[]
  table := .empty
  maxPages := maxPages
  lastTxn := 0

/-! ## Transactions and page instances -/

/-- A new transaction. -/
def begin : StoreM TxnId := do
  modify fun s => { s with lastTxn := s.lastTxn + 1 }
  return ⟨(← get).lastTxn⟩

/-- Puts a page into a new frame. -/
def newFrame (p : Page) : StoreM FrameNo := do
  let f := (← get).frames.size
  modify fun s => { s with frames := s.frames.push p }
  return f

/-- The page in a frame. -/
def page (f : FrameNo) : StoreM Page := return (← get).frames.page f

/-- Replaces the page in a frame. -/
def setPage (f : FrameNo) (p : Page) : StoreM Unit :=
  modify fun s => { s with frames := s.frames.setPage f p }

/-! ## The log -/

/-- Logs the update of a page from one image to another. -/
def logWrite (txn : TxnId) (before after : Page) : StoreM Unit := do
  let (result, log) := (← get).log.write txn before after
  modify fun s => { s with log := log }
  StoreM.ofExcept result

/-- Makes everything logged so far durable. -/
def logForce : StoreM Unit := do
  let (result, log) := (← get).log.force
  modify fun s => { s with log := log }
  StoreM.ofExcept result

end Store

end RowStore
