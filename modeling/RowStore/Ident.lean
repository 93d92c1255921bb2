/-!
  Identifiers — how tables, pages, slots and transactions are named.

  A page is named by its table and its number in that table's file; a record by
  its page and a 16-bit slot. Transactions, pages and records carry a total order
  whose `eq` is equality, so the first two can key the ordered maps of the lock
  manager and the page table.
-/

namespace RowStore

/-- A table's number. -/
abbrev TableId := Nat

/-- A transaction. All its state is kept by the store; the number is only a key. -/
structure TxnId where
  num : Nat
  deriving DecidableEq, Repr, Inhabited

/-- A page of a table, numbered from the start of the table's file. -/
structure PageId where
  table : TableId
  page : Nat
  deriving DecidableEq, Repr, Inhabited

/-- The storage address of a row. -/
structure RecordId where
  page : PageId
  slot : UInt16
  deriving DecidableEq, Repr, Inhabited

/-- What a transaction wants from a page: to read it beside other readers, or to
have it alone. -/
inductive Access where
  | read
  | write
  deriving DecidableEq, Repr, Inhabited

/-- Whether holding `held` is enough for someone who needs `wanted`. -/
def Access.covers (held wanted : Access) : Bool :=
  held == .write || wanted == .read

/-- How many page numbers there are: they are 32 bits wide. -/
def pageNumbers : Nat := 4294967296

/-- The byte at which a page begins in its table's file. -/
def PageId.offset (id : PageId) (pageSize : Nat) : Nat := id.page * pageSize

/-! ## Orders -/

instance : Ord TxnId where
  compare := compareOn TxnId.num

instance : Ord PageId where
  compare := compareLex (compareOn PageId.table) (compareOn PageId.page)

instance : Ord RecordId where
  compare := compareLex (compareOn RecordId.page) (compareOn RecordId.slot)

instance : Std.TransOrd TxnId := inferInstanceAs (Std.TransCmp (compareOn TxnId.num))

instance : Std.TransOrd PageId :=
  inferInstanceAs (Std.TransCmp (compareLex (compareOn PageId.table) (compareOn PageId.page)))

instance : Std.LawfulEqOrd TxnId where
  eq_of_compare {a b} h := by
    have h : compare a.num b.num = .eq := h
    cases a; cases b
    exact congrArg TxnId.mk (Nat.compare_eq_eq.mp h)

instance : Std.LawfulEqOrd PageId where
  eq_of_compare {a b} h := by
    have h : (compare a.table b.table).then (compare a.page b.page) = .eq := h
    obtain ⟨ht, hp⟩ := Ordering.then_eq_eq.mp h
    cases a; cases b
    exact congr (congrArg PageId.mk (Nat.compare_eq_eq.mp ht)) (Nat.compare_eq_eq.mp hp)

/-! ## Names in messages -/

def TxnId.text (t : TxnId) : String := s!"Txn({t.num})"

def PageId.text (p : PageId) : String := s!"PageId({p.table}, {p.page})"

def RecordId.text (r : RecordId) : String := s!"{r.page.text}#{r.slot.toNat}"

end RowStore
