import RowStore.Page.Codec

/-!
  The log — page updates, written ahead of the pages themselves.

  A memory log keeps every record and marks all of them when it is forced. A log
  sink hands its calls to a memory log, drops them, or fails at any calls it likes;
  it counts calls whatever becomes of them.
-/

namespace RowStore

/-- One update of a page. -/
structure LogRecord where
  txn : TxnId
  page : PageId
  before : Block
  after : Block
  forced : Bool
  deriving DecidableEq, Inhabited

/-- The records kept so far, oldest first, and how often they were forced. -/
structure MemoryLog where
  records : List LogRecord
  forces : Nat
  deriving DecidableEq, Inhabited

namespace MemoryLog

def empty : MemoryLog := ⟨[], 0⟩

/-- Appends a record that no force has covered yet. -/
def append (l : MemoryLog) (txn : TxnId) (page : PageId) (before after : Block) : MemoryLog :=
  { l with records := l.records ++ [⟨txn, page, before, after, false⟩] }

/-- Marks every record. -/
def force (l : MemoryLog) : MemoryLog :=
  { records := l.records.map ({ · with forced := true }), forces := l.forces + 1 }

def allForced (l : MemoryLog) : Bool := l.records.all (·.forced)

end MemoryLog

/-- Where update records go. -/
structure Log where
  /-- Whether records are kept at all. -/
  keeps : Bool
  /-- The error of each write that fails, by its number, counted from one. -/
  failingWrite : Nat → Option StoreError
  /-- The error of each force that fails, by its number, counted from one. -/
  failingForce : Nat → Option StoreError
  writeCalls : Nat
  forceCalls : Nat
  memory : MemoryLog
  deriving Inhabited

namespace Log

/-- The failures of a device at one chosen call. -/
def failureAt (call : Option Nat) (text : String) (n : Nat) : Option StoreError :=
  if call == some n then some (.io (.device text)) else none

/-- A log that keeps every record, but fails at one chosen write and one chosen force. -/
def failingAt (write force : Option Nat) : Log :=
  ⟨true, failureAt write "log write failed", failureAt force "log force failed", 0, 0, .empty⟩

/-- A log that keeps every record. -/
def keeping : Log := failingAt none none

/-- A log that drops every record. -/
def dropping : Log := { keeping with keeps := false }

/-- Logs the update of a page from one image to another. -/
def write (l : Log) (txn : TxnId) (before after : Page) : Except StoreError Unit × Log :=
  let l := { l with writeCalls := l.writeCalls + 1 }
  match l.failingWrite l.writeCalls with
  | some e => (.error e, l)
  | none =>
    if !l.keeps then (.ok (), l)
    else match before.image, after.image with
      | .error e, _ => (.error e, l)
      | .ok _, .error e => (.error e, l)
      | .ok b, .ok a => (.ok (), { l with memory := l.memory.append txn after.id b a })

/-- Makes everything logged so far durable. -/
def force (l : Log) : Except StoreError Unit × Log :=
  let l := { l with forceCalls := l.forceCalls + 1 }
  match l.failingForce l.forceCalls with
  | some e => (.error e, l)
  | none =>
    if !l.keeps then (.ok (), l)
    else (.ok (), { l with memory := l.memory.force })

end Log

end RowStore
