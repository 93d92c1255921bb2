import RowStore.Lock.Manager

/-!
  Lock sections — calls of many threads on one lock manager, cut where others can
  come between.

  A call is a series of sections, and in each of them the thread holds the mutexes
  it needs: it takes a reference to the page's record, making the record if need
  be; it changes the record together with the index; it reclaims the record; it
  drops its reference. Between two sections any other thread may run. A record is
  reclaimed only when nobody holds its page and the table and the thread itself
  have the only references to it.

  `manager` shows a system as a lock manager.
-/

namespace RowStore

/-- The number of a lock record, fixed when the record is made. -/
abbrev RecordNo := Nat

/-- What a thread asks of one page. -/
inductive PageCall where
  | lock (txn : TxnId) (access : Access)
  | release (txn : TxnId)
  /-- Takes the page from all its holders. -/
  | strip
  deriving DecidableEq, Repr

/-- What a thread does next with the record it refers to. -/
inductive Stage where
  /-- It looks at the record for the first time. -/
  | entering
  /-- Its request is blocked; when it wakes it tries again. -/
  | waiting
  /-- It gives the record up if it can. -/
  | reclaiming
  /-- It drops its reference. -/
  | leaving
  deriving DecidableEq, Repr

/-- A call that has its reference. -/
structure InFlight where
  page : PageId
  call : PageCall
  record : RecordNo
  stage : Stage
  deriving DecidableEq, Repr

/-- A call of a thread, with its reference or before it. -/
inductive Work where
  | start (page : PageId) (call : PageCall)
  | going (now : InFlight)
  deriving DecidableEq, Repr

/-- The record that a thread refers to. -/
def Work.record? : Work → Option RecordNo
  | .start .. => none
  | .going now => some now.record

/-- What a thread still has to do, in order. -/
abbrev Thread := List Work

/-- The records that a thread refers to, at most one of them at a time. -/
def Thread.refs (t : Thread) : List RecordNo := t.filterMap Work.record?

/-- Threads, and the state of the lock manager they share. -/
structure LockSystem where
  /-- All records made so far, reclaimed ones included. -/
  records : Array LockRecord
  table : Std.ExtTreeMap PageId RecordNo
  held : HeldIndex
  threads : List Thread

namespace LockSystem

/-- A system in which nothing is locked and no thread has anything to do. -/
def idle (threads : Nat) : LockSystem := ⟨#[], ∅, ∅, List.replicate threads []⟩

def record (s : LockSystem) (no : RecordNo) : LockRecord := s.records.getD no .idle

def setRecord (s : LockSystem) (no : RecordNo) (r : LockRecord) : LockSystem :=
  { s with records := s.records.setIfInBounds no r }

/-- Replaces what a thread has to do. -/
def setThread (s : LockSystem) (i : Nat) (t : Thread) : LockSystem :=
  { s with threads := s.threads.set i t }

/-- The references to a record: one for each thread that has it and one from the
table, where it can only be filed under its own page. -/
def refCount (s : LockSystem) (page : PageId) (no : RecordNo) : Nat :=
  (s.threads.flatMap Thread.refs).count no + if s.table[page]? == some no then 1 else 0

/-- The number of a page's record, a new one if it has none. -/
def fetchRecord (s : LockSystem) (page : PageId) : RecordNo × LockSystem :=
  match s.table[page]? with
  | some no => (no, s)
  | none => (s.records.size,
      { s with records := s.records.push .idle, table := s.table.insert page s.records.size })

/-- Grants a request on a record and notes it in the index; none if it is blocked. -/
def grant? (s : LockSystem) (page : PageId) (no : RecordNo) (txn : TxnId) (access : Access) :
    Option LockSystem :=
  ((s.record no).grant? txn access).map fun r =>
    { s.setRecord no r with held := s.held.note txn page ((r.mode? txn).getD access) }

/-- Releases what a transaction holds by a record. -/
def release (s : LockSystem) (page : PageId) (no : RecordNo) (txn : TxnId) : LockSystem :=
  if ((s.record no).mode? txn).isSome then
    { s.setRecord no ((s.record no).without txn) with held := s.held.forget txn page }
  else s

/-- Takes a page from all its holders. -/
def strip (s : LockSystem) (page : PageId) (no : RecordNo) : LockSystem :=
  { s.setRecord no .idle with
    held := (s.record no).holders.foldl (fun held txn => held.forget txn page) s.held }

/-- Drops a record from the table, unless somebody holds the page or another
reference is left. -/
def reclaim (s : LockSystem) (page : PageId) (no : RecordNo) : LockSystem :=
  if s.refCount page no ≤ 2 ∧ (s.record no).isIdle ∧ s.table[page]? = some no then
    { s with table := s.table.erase page }
  else s

/-! ## Sections -/

/-- The next section of a call that has its reference: the state after it, and the
call after it unless it is over. A blocked request tries again whenever it wakes
and gives up when its wait is over. -/
def proceed (s : LockSystem) (now : InFlight) (waitOver : Bool) :
    LockSystem × Option InFlight :=
  match now.stage, now.call with
  | .entering, .lock txn access =>
    match s.grant? now.page now.record txn access with
    | some s => (s, some { now with stage := .leaving })
    | none => (s, some { now with stage := .waiting })
  | .entering, .release txn =>
    (s.release now.page now.record txn, some { now with stage := .reclaiming })
  | .entering, .strip => (s.strip now.page now.record, some { now with stage := .reclaiming })
  | .waiting, .lock txn access =>
    match s.grant? now.page now.record txn access with
    | some s => (s, some { now with stage := .leaving })
    | none => (s, some { now with stage := if waitOver then .reclaiming else .waiting })
  | .waiting, _ => (s, some { now with stage := .reclaiming })
  | .reclaiming, _ => (s.reclaim now.page now.record, some { now with stage := .leaving })
  | .leaving, _ => (s, none)

/-- Takes the reference that a call starts with. Only a request makes a record; other
calls are over when there is none. -/
def enter (s : LockSystem) (page : PageId) (call : PageCall) : LockSystem × Option InFlight :=
  match call with
  | .lock .. =>
    let (no, s) := s.fetchRecord page
    (s, some ⟨page, call, no, .entering⟩)
  | _ => (s, (s.table[page]?).map (⟨page, call, ·, .entering⟩))

/-- Runs the next section of a thread; none if the thread has nothing to do. -/
def run (s : LockSystem) (i : Nat) (waitOver : Bool) : Option LockSystem :=
  match s.threads[i]? with
  | some (work :: rest) =>
    let (s, now) := match work with
      | .start page call => s.enter page call
      | .going now => s.proceed now waitOver
    some (s.setThread i ((now.map Work.going).toList ++ rest))
  | _ => none

/-- One step: a thread without work calls for one page, or releases everything that a
transaction holds by the index; or a thread runs its next section. -/
inductive Step (s : LockSystem) : LockSystem → Prop
  | call (i : Nat) (page : PageId) (call : PageCall) :
    s.threads[i]? = some [] → Step s (s.setThread i [.start page call])
  | releaseAll (i : Nat) (txn : TxnId) : s.threads[i]? = some [] →
    Step s (s.setThread i
      ((s.held.getD txn ∅).keys.map fun page => .start page (.release txn)))
  | run (i : Nat) (waitOver : Bool) (s' : LockSystem) : s.run i waitOver = some s' → Step s s'

/-- The systems that threads can bring about from one in which nothing is locked. -/
inductive Reachable : LockSystem → Prop
  | idle (threads : Nat) : Reachable (.idle threads)
  | step {s s' : LockSystem} : Reachable s → Step s s' → Reachable s'

/-- The lock manager that a system shows: the records that somebody holds, and the
index. -/
def manager (s : LockSystem) : LockManager where
  records := s.table.filterMap fun _ no =>
    if (s.record no).isIdle then none else some (s.record no)
  held := s.held

end LockSystem

end RowStore
