import RowStore.Proofs.Store.Registering

/-!
  Editing — insertions and deletions as one search, one change and one registration.

  An `Edit` is an insertion or a deletion; the call is its search, the change and the
  registration (`Edit.run_eq`). Nothing can come in between when the call is run as a
  whole, so the page that was found is still resident and locked, one page is changed and
  the change is accepted; a call that fails has changed none (`Edit.run_edits`).
-/

namespace RowStore

namespace Store

/-- A change of one page that a caller asks for. -/
inductive Edit where
  | insertion (table : TableId) (row : Row)
  | deletion (row : Row)

theorem recordOf_run (row : Row) (s : Store) :
    recordOf row s = match row.record with
      | some record => .ok record s
      | none => .error .missingRecordId s := by
  unfold recordOf
  cases row.record <;> rfl

theorem recordOf_cases (row : Row) (s : Store) :
    (∃ e, recordOf row s = .error e s) ∨ ∃ record, recordOf row s = .ok record s := by
  have hrun := recordOf_run row s
  split at hrun
  · exact .inr ⟨_, hrun⟩
  · exact .inl ⟨_, hrun⟩

theorem Traced.recordOf {E : Event → Prop} {s : Store} (row : Row) :
    Traced E (Store.recordOf row) s fun _ u => u = s := by
  have hrun := recordOf_run row s
  split at hrun
  · exact .of_run hrun .nil (by simp) rfl
  · exact .of_error hrun .nil (by simp)

namespace Edit

/-- The caller's row. -/
def row : Edit → Row
  | .insertion _ row => row
  | .deletion row => row

/-- The caller's row and the page after the edit. -/
def apply : Edit → Page → Except StoreError (Row × Page)
  | .insertion _ row, p => p.insert row
  | .deletion row, p =>
    match p.delete row with
    | .ok q => .ok (row.storedAt none, q)
    | .error e => .error e

/-- Fetches the page that is to be changed. -/
def search (txn : TxnId) : Edit → StoreM FrameNo
  | .insertion table row => do
    let k ← tableFile table
    let i ← Insertion.start k txn row
    i.find
  | .deletion row => do
    let record ← recordOf row
    let k ← tableFile record.page.table
    fetchForDelete k txn row

/-- Changes the page in a frame. -/
def change (e : Edit) (txn : TxnId) (f : FrameNo) : StoreM (FrameNo × Row) := do
  let (row, p) ← StoreM.ofExcept (e.apply (← page f))
  setPage f (p.markedBy (some txn))
  return (f, row)

/-- The edit as one call. -/
def run (txn : TxnId) (s : Store) : Edit → Outcome
  | .insertion table row => insertRow txn table row s
  | .deletion row => deleteRow txn row s

theorem change_run (e : Edit) (txn : TxnId) (f : FrameNo) (s : Store) :
    e.change txn f s = match e.apply (s.frames.page f) with
      | .ok (row, p) => .ok (f, row)
          { s with frames := s.frames.setPage f (p.markedBy (some txn)) }
      | .error err => .error err s := by
  unfold change
  simp only [bind_run, page_run, ofExcept_run]
  cases e.apply (s.frames.page f) <;> rfl

theorem place_eq (i : Insertion) (table : TableId) (f : FrameNo) :
    i.place f = (insertion table i.row).change i.txn f := rfl

theorem eraseFrom_eq (f : FrameNo) (txn : TxnId) (row : Row) :
    eraseFrom f txn row = (deletion row).change txn f := by
  funext s
  rw [change_run]
  unfold eraseFrom apply
  simp only [bind_run, page_run, ofExcept_run]
  cases (s.frames.page f).delete row <;> rfl

theorem finish_run (i : Insertion) (table : TableId) (s : Store) :
    i.finish s = (i.find >>= (insertion table i.row).change i.txn) s := by
  unfold Insertion.finish Insertion.find
  simp only [bind_run]
  cases hs : i.seek (fun _ => false) pageNumbers s with
  | error err u => rfl
  | ok r u =>
    obtain ⟨f, j⟩ := r
    have hsame := Insertion.seek_same hs
    simp only [pure_run, place_eq j table f, hsame.row, hsame.txn]

/-- The call is its search, the change and its registration. -/
theorem run_eq (e : Edit) (txn : TxnId) (s : Store) :
    e.run txn s = registered txn e.row (e.search txn >>= e.change txn) s := by
  cases e with
  | deletion row =>
    apply registered_congr
    show (recordOf row >>= fun record => tableFile record.page.table >>= fun k =>
      heapDelete k txn row) s = ((recordOf row >>= fun record =>
        tableFile record.page.table >>= fun k => fetchForDelete k txn row) >>=
          (deletion row).change txn) s
    simp only [heapDelete, eraseFrom_eq, bind_run]
    cases recordOf row s with
    | error err u => rfl
    | ok record u =>
      simp only
      cases tableFile record.page.table u <;> rfl
  | insertion table row =>
    apply registered_congr
    show (tableFile table >>= fun k => heapInsert k txn row) s = ((tableFile table >>= fun k =>
      Insertion.start k txn row >>= Insertion.find) >>= (insertion table row).change txn) s
    simp only [heapInsert, bind_run, tableFile_run]
    cases s.handle? table with
    | none => rfl
    | some k =>
      simp only [Insertion.start_run]
      by_cases hschema : row.schema ≠ (s.heap k).schema
      · rw [if_pos hschema]
      · rw [if_neg hschema]
        simp only
        rw [finish_run _ table, bind_run]

theorem edited_of_apply (txn : TxnId) {e : Edit} {p q : Page} {row : Row}
    (h : e.apply p = .ok (row, q)) : Edited txn p (q.markedBy (some txn)) := by
  cases e with
  | insertion table r => exact ⟨r, q, .inl ⟨row, h⟩, rfl⟩
  | deletion r =>
    simp only [apply] at h
    split at h
    · rename_i q' hd
      obtain ⟨-, rfl⟩ := Prod.mk.inj (Except.ok.inj h)
      exact ⟨r, q', .inr hd, rfl⟩
    · simp at h

/-- The search leaves the page that is to be changed resident and locked for writing. -/
theorem search_traced {s : Store} (h : s.Shaped) (e : Edit) (txn : TxnId) :
    Traced (Event.Seek txn) (e.search txn) s fun f u => u.Shaped ∧ u.Owns txn f := by
  cases e with
  | insertion table row =>
    apply (Traced.tableFile table).bind
    intro k u hq
    obtain ⟨rfl, hk⟩ := hq
    apply (Insertion.start_traced u k txn row).bind
    intro i v hx
    obtain ⟨rfl, rfl, rfl⟩ := hx
    exact Insertion.find_traced h hk
  | deletion row =>
    apply (Traced.recordOf row).bind
    intro record u hr
    subst hr
    apply (Traced.tableFile record.page.table).bind
    intro k v hy
    obtain ⟨rfl, hk⟩ := hy
    unfold fetchForDelete
    apply (Traced.recordOf row).bind
    intro record' w hz
    subst hz
    apply Traced.bind_read (heapFile_run w k)
    split
    · exact Traced.bind .throw fun _ _ h => h
    · refine ((getPage_owns h txn record'.page).mono (fun _ he => he.seek) ?_)
      intro f u hv
      obtain ⟨hu, hown, -⟩ := hv
      exact ⟨hu, hown⟩

end Edit

/-! ## Whole calls -/

/-- What becomes of a change when nothing comes between the search for its page and its
registration: it changes the page that the search found, or it fails and has changed
none. -/
inductive Edits (search : StoreM FrameNo) (e : Edit) (txn : TxnId) (s : Store) :
    Except StoreError Unit → Store → Prop
  | changed {u : Store} {es : List Event} {f : FrameNo} {row : Row} {p : Page} :
    search s = .ok f u → Trace es s u → (∀ ev ∈ es, ev.Seek txn ∧ ¬ ev.Endless) →
    u.Shaped → u.Owns txn f → e.apply (u.frames.page f) = .ok (row, p) →
    Edits search e txn s (.ok ()) { u with
      frames := u.frames.setPage f (p.markedBy (some txn))
      table := u.table.relate txn (u.frames.page f).id }
  | failed {u : Store} {es : List Event} {err : StoreError} :
    u = s.after search → Trace es s u →
    (∀ ev ∈ es, ev.Seek txn ∧ (ev.Endless → ∃ table, err = .noPageNumber table)) →
    Edits search e txn s (.error err) u

section Registered
variable {s u : Store} {txn : TxnId} {search : StoreM FrameNo} {e : Edit} {f : FrameNo}

theorem registered_of_unfound {err : StoreError} (hs : search s = .error err u) (row : Row) :
    registered txn row (search >>= e.change txn) s = ⟨.error err, row, u⟩ := by
  apply registered_of_error
  rw [bind_run, hs]

theorem registered_of_unchanged {err : StoreError} (hs : search s = .ok f u)
    (ha : e.apply (u.frames.page f) = .error err) (row : Row) :
    registered txn row (search >>= e.change txn) s = ⟨.error err, row, u⟩ := by
  apply registered_of_error
  rw [bind_run, hs]
  simp only [Edit.change_run, ha]

/-- A page that was just found is still locked when the change is registered. -/
theorem registered_of_applied {row' : Row} {p : Page} (hs : search s = .ok f u) (hu : u.Shaped)
    (hown : u.Owns txn f) (ha : e.apply (u.frames.page f) = .ok (row', p)) (row : Row) :
    registered txn row (search >>= e.change txn) s = ⟨.ok (), row', { u with
      frames := u.frames.setPage f (p.markedBy (some txn))
      table := u.table.relate txn (u.frames.page f).id }⟩ := by
  let v : Store := { u with frames := u.frames.setPage f (p.markedBy (some txn)) }
  have hchange : (search >>= e.change txn) s = .ok (f, row') v := by
    rw [bind_run, hs]
    simp only [Edit.change_run, ha]
    rfl
  have hpage : v.frames.page f = p.markedBy (some txn) :=
    Frames.page_setPage_self (hu.filed hown.resident).1 _
  have hid : (v.frames.page f).id = (u.frames.page f).id := by
    rw [hpage]
    exact (Edit.edited_of_apply txn ha).kept.id
  -- the change has touched neither the page table nor the locks
  have hv : v.Owns txn f := by
    refine ⟨?_, ?_⟩
    · rw [hid]
      exact hown.resident
    · rw [hid]
      exact hown.locked
  have hr := register_of_owns hv (by rw [hpage]; rfl)
  rw [hid] at hr
  exact registered_of_accepted hchange hr

end Registered

/-- Whatever the search finds, one page is changed or none is. -/
theorem registered_edits {s : Store} {txn : TxnId} {search : StoreM FrameNo}
    (hsearch : Traced (Event.Seek txn) search s fun f u => u.Shaped ∧ u.Owns txn f)
    (e : Edit) (row : Row) :
    Edits search e txn s (registered txn row (search >>= e.change txn) s).result
      (registered txn row (search >>= e.change txn) s).store := by
  cases hs : search s with
  | error err u =>
    obtain ⟨es, ht, he⟩ := hsearch.error hs
    rw [registered_of_unfound hs]
    exact .failed (after_error hs).symm ht he
  | ok f u =>
    obtain ⟨⟨es, ht, he⟩, hu, hown⟩ := hsearch.ok hs
    cases ha : e.apply (u.frames.page f) with
    | error err =>
      rw [registered_of_unchanged hs ha]
      exact .failed (after_ok hs).symm ht fun ev hm =>
        ⟨(he ev hm).1, fun hn => absurd hn (he ev hm).2⟩
    | ok r =>
      obtain ⟨row', p⟩ := r
      rw [registered_of_applied hs hu hown ha]
      exact .changed hs ht he hu hown ha

theorem Edit.run_edits {s : Store} (h : s.Shaped) (e : Edit) (txn : TxnId) :
    Edits (e.search txn) e txn s (e.run txn s).result (e.run txn s).store := by
  rw [Edit.run_eq]
  exact registered_edits (Edit.search_traced h e txn) e e.row

end Store

end RowStore
