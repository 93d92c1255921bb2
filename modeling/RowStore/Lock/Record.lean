import Std.Data.ExtTreeSet
import RowStore.Ident

/-!
  Lock records — who holds one page.

  A page has one writer or any number of readers. A request is granted when it is
  compatible with the holders; a sole reader becomes the writer in place, and a
  writer already has what a reader asks for.
-/

namespace RowStore

/-- The holders of one page's lock. -/
structure LockRecord where
  readers : Std.ExtTreeSet TxnId
  writer : Option TxnId

namespace LockRecord

/-- Nobody holds the page. -/
def idle : LockRecord := ⟨∅, none⟩

instance : Inhabited LockRecord := ⟨idle⟩

def isIdle (r : LockRecord) : Bool := r.writer.isNone && r.readers.isEmpty

/-- What a transaction holds. -/
def mode? (r : LockRecord) (txn : TxnId) : Option Access :=
  if r.writer == some txn then some .write
  else if r.readers.contains txn then some .read
  else none

/-- Whether nobody but the transaction reads the page. -/
def noOtherReader (r : LockRecord) (txn : TxnId) : Bool :=
  r.readers.isEmpty || (r.readers.size == 1 && r.readers.contains txn)

/-- The record after a request is granted; none if it has to wait. -/
def grant? (r : LockRecord) (txn : TxnId) (access : Access) : Option LockRecord :=
  match access, r.writer with
  | _, some w => if w == txn then some r else none
  | .read, none => some { r with readers := r.readers.insert txn }
  | .write, none => if r.noOtherReader txn then some ⟨∅, some txn⟩ else none

/-- The record without the transaction. -/
def without (r : LockRecord) (txn : TxnId) : LockRecord :=
  { readers := r.readers.erase txn
    writer := if r.writer == some txn then none else r.writer }

/-- Everyone who holds the page, each once. -/
def holders (r : LockRecord) : List TxnId := r.writer.toList ++ r.readers.toList

end LockRecord

end RowStore
