import RowStore.Store.Files

/-!
  Fetching pages — the lock first, then the resident instance.

  A fetch has two halves: the lock is granted (`lockPage`), and the page is looked
  up or loaded (`load`). Between them another call may evict the page and strip
  the lock, so whoever goes on later goes through `loadLocked`, which does nothing
  unless the lock is still there. A full pool evicts the first clean page and takes
  it from all its holders.
-/

namespace RowStore.Store

/-- Locks a page. The request fails if it would have to wait. -/
def lockPage (txn : TxnId) (page : PageId) (access : Access) : StoreM Unit := do
  match (← get).locks.acquire? txn page access with
  | some locks => modify fun s => { s with locks := locks }
  | none => throw (.aborted txn page)

/-- Ends the residency of the first clean page and takes it from its holders. -/
def evict : StoreM Unit := do
  let s ← get
  match s.table.victim? s.frames with
  | none => throw (.poolFull s.maxPages)
  | some page =>
    modify fun s => { s with
      table := (s.table.remove page).unrelatePage page
      locks := s.locks.releasePage page }

/-- Evicts at most `fuel` pages, until one more may become resident. -/
def evictUpTo : Nat → StoreM Unit
  | 0 => pure ()
  | fuel + 1 => do
    let s ← get
    if s.table.size < s.maxPages then pure ()
    else
      evict
      evictUpTo fuel

/-- Makes room for one more resident page. Every eviction ends one residency, so
one try more than there are resident pages ends with room or an error. -/
def makeRoom : StoreM Unit := do
  evictUpTo ((← get).table.size + 1)

/-- Makes a frame the resident instance of a page. -/
def makeResident (page : PageId) (f : FrameNo) : StoreM Unit :=
  modify fun s => { s with table := s.table.insert page f }

/-- Notes that a transaction has used a page. -/
def relate (txn : TxnId) (page : PageId) : StoreM Unit :=
  modify fun s => { s with table := s.table.relate txn page }

/-- The resident instance of a page, read from its table's file if there is none. -/
def load (txn : TxnId) (page : PageId) : StoreM FrameNo := do
  match (← get).table.frame? page with
  | some f =>
    relate txn page
    return f
  | none =>
    makeRoom
    let handle ← tableFile page.table
    let p ← readPage handle page
    let f ← newFrame p
    makeResident page f
    relate txn page
    return f

/-- Whether a transaction holds a page in a mode that is enough for `access`. -/
def covered (s : Store) (txn : TxnId) (page : PageId) (access : Access) : Bool :=
  match s.locks.mode? txn page with
  | some held => held.covers access
  | none => false

/-- Loads a page if the transaction still holds it; otherwise does nothing. -/
def loadLocked (txn : TxnId) (page : PageId) (access : Access) : StoreM (Option FrameNo) := do
  if covered (← get) txn page access then
    let f ← load txn page
    return some f
  else return none

/-- The instance of a page that a transaction may use, locked for it. -/
def getPage (txn : TxnId) (page : PageId) (access : Access) : StoreM FrameNo := do
  lockPage txn page access
  load txn page

/-- Goes on with a fetch whose lock was granted some time ago: if the lock was lost
meanwhile, the fetch begins again. -/
def resumeGetPage (txn : TxnId) (page : PageId) (access : Access) : StoreM FrameNo := do
  match ← loadLocked txn page access with
  | some f => return f
  | none => getPage txn page access

/-- Releases a page before its transaction ends. -/
def releasePage (txn : TxnId) (page : PageId) : StoreM Unit :=
  modify fun s => { s with
    locks := s.locks.release txn page
    table := s.table.unrelate txn page }

/-- Ends the residency of a page without writing it. Locks stay. -/
def discardPage (page : PageId) : StoreM Unit :=
  modify fun s => { s with table := s.table.remove page }

end RowStore.Store
