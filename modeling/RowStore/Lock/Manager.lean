import Std.Data.ExtTreeMap
import RowStore.Lock.Record

/-!
  The lock manager — page locks of many transactions.

  Beside the record of each page it keeps an index of what each transaction
  holds, by which everything can be released at once. Records are made when a
  page is first locked and dropped when nobody holds it; the index has no
  transaction without locks.
-/

namespace RowStore

/-- What each transaction holds. -/
abbrev HeldIndex := Std.ExtTreeMap TxnId (Std.ExtTreeMap PageId Access)

namespace HeldIndex

def mode? (held : HeldIndex) (txn : TxnId) (page : PageId) : Option Access :=
  held[txn]?.bind (·[page]?)

/-- Notes that a transaction holds a page. -/
def note (held : HeldIndex) (txn : TxnId) (page : PageId) (access : Access) : HeldIndex :=
  held.insert txn ((held.getD txn ∅).insert page access)

/-- Forgets that a transaction holds a page, and the transaction with its last. -/
def forget (held : HeldIndex) (txn : TxnId) (page : PageId) : HeldIndex :=
  match held[txn]? with
  | none => held
  | some pages =>
    let rest := pages.erase page
    if rest.isEmpty then held.erase txn else held.insert txn rest

end HeldIndex

structure LockManager where
  records : Std.ExtTreeMap PageId LockRecord
  held : HeldIndex

namespace LockManager

def empty : LockManager := ⟨∅, ∅⟩

instance : Inhabited LockManager := ⟨empty⟩

/-- The record of a page; a page without one has no holders. -/
def record (m : LockManager) (page : PageId) : LockRecord := m.records.getD page .idle

/-- Puts a page's record in place, or drops it when nobody holds the page. -/
def setRecord (m : LockManager) (page : PageId) (r : LockRecord) : LockManager :=
  { m with records := if r.isIdle then m.records.erase page else m.records.insert page r }

/-- What a transaction holds on a page, by the index. -/
def mode? (m : LockManager) (txn : TxnId) (page : PageId) : Option Access :=
  m.held.mode? txn page

/-- Whether a transaction holds a page, by the index. -/
def holds (m : LockManager) (txn : TxnId) (page : PageId) : Bool := (m.mode? txn page).isSome

/-- The pages that a transaction holds, each once. -/
def pagesOf (m : LockManager) (txn : TxnId) : List PageId := (m.held.getD txn ∅).keys

/-- All locks, by transaction and page. -/
def holdings (m : LockManager) : List (TxnId × PageId × Access) :=
  m.held.toList.flatMap fun (txn, pages) => pages.toList.map fun (page, a) => (txn, page, a)

/-- Locks a page for a transaction; none if the request has to wait. -/
def acquire? (m : LockManager) (txn : TxnId) (page : PageId) (access : Access) :
    Option LockManager :=
  (m.record page |>.grant? txn access).map fun r =>
    { m.setRecord page r with held := m.held.note txn page ((r.mode? txn).getD access) }

/-- Releases what a transaction holds on a page. -/
def release (m : LockManager) (txn : TxnId) (page : PageId) : LockManager :=
  let r := m.record page
  if (r.mode? txn).isSome then
    { m.setRecord page (r.without txn) with held := m.held.forget txn page }
  else m

/-- Releases everything that a transaction holds. -/
def releaseAll (m : LockManager) (txn : TxnId) : LockManager :=
  (m.pagesOf txn).foldl (fun m page => m.release txn page) m

/-- The holders of a page. -/
def holdersOf (m : LockManager) (page : PageId) : List TxnId := (m.record page).holders

/-- Takes a page from all its holders. -/
def releasePage (m : LockManager) (page : PageId) : LockManager :=
  { m.setRecord page .idle with
    held := (m.holdersOf page).foldl (fun held txn => held.forget txn page) m.held }

end LockManager

end RowStore
