import RowStore.Store.Fetch

/-!
  Registering a change — making a changed instance the resident one.

  A change is made in a frame before it is known whether the transaction still has
  the page. Registration decides: the exclusive lock must be there, and if another
  instance became resident meanwhile, it must be clean and start from the same
  image. Otherwise the transaction has to abort.
-/

namespace RowStore.Store

/-- Makes a changed instance resident and dirty, if nobody else can have changed
the page since it was fetched. -/
def register (txn : TxnId) (f : FrameNo) : StoreM Unit := do
  let s ← get
  let p := s.frames.page f
  if s.locks.mode? txn p.id ≠ some .write then throw (.aborted txn p.id)
  match s.table.frame? p.id with
  | none =>
    makeRoom
    makeResident p.id f
  | some g =>
    if g ≠ f then
      let current := s.frames.page g
      if current.isDirty || current.before != p.before then throw (.aborted txn p.id)
      makeResident p.id f
  relate txn p.id
  setPage f ((← page f).markedBy (some txn))

/-- What became of a call that changes the caller's row. -/
structure Outcome where
  result : Except StoreError Unit
  row : Row
  store : Store

/-- Makes a change and registers it. A change that fails leaves the row as it was;
one that is made but not registered does not. -/
def registered (txn : TxnId) (row : Row) (change : StoreM (FrameNo × Row)) (s : Store) :
    Outcome :=
  match change s with
  | .error e s => ⟨.error e, row, s⟩
  | .ok (f, changed) s =>
    match register txn f s with
    | .error e s => ⟨.error e, changed, s⟩
    | .ok _ s => ⟨.ok (), changed, s⟩

end RowStore.Store
