import RowStore.Store.Fetch

/-!
  Scans — the rows of a heap file, page by page and slot by slot.

  A scan copies the rows of one page at a time, fetched for reading. It yields
  nothing unless it is open; an error is yielded once and closes it. The count of
  pages is asked for again before each page, so pages added meanwhile are seen.
-/

namespace RowStore

/-- A walk over a heap file: the page to fetch next and the rows still to be given
of the page fetched last. -/
structure Scan where
  handle : HandleNo
  txn : TxnId
  isOpen : Bool
  next : Nat
  buffered : List Row

namespace Scan

/-- A scan that is not open yet. -/
def new (handle : HandleNo) (txn : TxnId) : Scan := ⟨handle, txn, false, 0, []⟩

/-- Places the scan before the first row. -/
def restart (s : Scan) : Scan := { s with isOpen := true, next := 0, buffered := [] }

/-- Starts over, if the scan is open. -/
def rewind (s : Scan) : Scan := if s.isOpen then s.restart else s

def close (s : Scan) : Scan := { s with isOpen := false, buffered := [] }

/-- What a scan gives when asked for a row, with the scan and the store after it. -/
structure Yield where
  item : Option (Except StoreError Row)
  scan : Scan
  store : Store

/-- Gives the next row, fetching at most `fuel` pages to find one. -/
def advance : Nat → Scan → Store → Yield
  | 0, s, st => ⟨none, s, st⟩
  | fuel + 1, s, st =>
    match s.buffered with
    | row :: rest => ⟨some (.ok row), { s with buffered := rest }, st⟩
    | [] =>
      let h := st.handles.getD s.handle default
      if h.pageCount (st.volume.file h.file) ≤ s.next then ⟨none, s, st⟩
      else
        match Store.getPage s.txn ⟨h.table, s.next⟩ .read st with
        | .error e st => ⟨some (.error e), s.close, st⟩
        | .ok f st =>
          advance fuel { s with next := s.next + 1, buffered := (st.frames.page f).rows } st

/-- Gives the next row of an open scan. As many fetches as there are page numbers and
one more step are enough. -/
def yield (s : Scan) (st : Store) : Yield :=
  if s.isOpen then s.advance (pageNumbers + 1) st else ⟨none, s, st⟩

/-- What `count` requests for a row give, one after the other. -/
def yields : Nat → Scan → Store → List (Option (Except StoreError Row)) × Scan × Store
  | 0, s, st => ([], s, st)
  | count + 1, s, st =>
    let y := s.yield st
    let (items, s, st) := yields count y.scan y.store
    (y.item :: items, s, st)

/-- Asks for rows until there are none or `fuel` were asked for; counts rows and
errors. -/
def countUpTo : Nat → Nat → Nat → Scan → Store → Nat × Nat × Scan × Store
  | 0, rows, errors, s, st => (rows, errors, s, st)
  | fuel + 1, rows, errors, s, st =>
    let y := s.yield st
    match y.item with
    | none => (rows, errors, y.scan, y.store)
    | some (.ok _) => countUpTo fuel (rows + 1) errors y.scan y.store
    | some (.error _) => countUpTo fuel rows (errors + 1) y.scan y.store

/-- Counts the rows and the errors that are left. No table has more rows than there
are page numbers with all slots on each page. -/
def count (s : Scan) (st : Store) : Nat × Nat × Scan × Store :=
  countUpTo (pageNumbers * Layout.maxSlots + 1) 0 0 s st

end Scan

end RowStore
