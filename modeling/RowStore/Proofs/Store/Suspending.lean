import RowStore.Proofs.Page.Slots
import RowStore.Proofs.Store.Calls

/-!
  Suspending — an insertion or a deletion that waits after it has fetched a page.

  `Suspended` is such a call with the frame that it has fetched. It goes on by changing
  the page in that frame and registering the change, or, if an insertion finds no room
  there, by fetching more pages (`finish_finished`). While it waits its frame keeps its
  page; as long as that page is resident there, the lock can be lost only to a completion
  or an early release, since no page is evicted that is resident (`Move.secured`).
-/

namespace RowStore.Store

/-- A call that changes a page, after it has fetched one. -/
inductive Suspended where
  | insertion (table : TableId) (i : Insertion) (f : FrameNo)
  | deletion (txn : TxnId) (row : Row) (f : FrameNo)

namespace Suspended

def txn : Suspended → TxnId
  | .insertion _ i _ => i.txn
  | .deletion txn _ _ => txn

/-- The frame of the page that was fetched last. -/
def frame : Suspended → FrameNo
  | .insertion _ _ f => f
  | .deletion _ _ f => f

def edit : Suspended → Edit
  | .insertion table i _ => .insertion table i.row
  | .deletion _ row _ => .deletion row

/-- An insertion that waits with the page of its next fetch. -/
def next (table : TableId) (i : Insertion) : StoreM Suspended := do
  let (f, j) ← i.fetch
  return insertion table j f

/-- Fetches the first page. -/
def begin (txn : TxnId) : Edit → StoreM Suspended
  | .insertion table row => do
    let k ← tableFile table
    let i ← Insertion.start k txn row
    next table i
  | .deletion row => do
    let f ← (Edit.deletion row).search txn
    return .deletion txn row f

/-- Changes the page that was fetched, or one that is fetched after it. -/
def change : Suspended → StoreM (FrameNo × Row)
  | .insertion _ i f => i.resume f
  | .deletion txn row f => eraseFrom f txn row

/-- Goes on to the end of the call. -/
def finish (w : Suspended) (s : Store) : Outcome := registered w.txn w.edit.row w.change s

/-- An insertion knows the file of its table. -/
def Knows (s : Store) : Suspended → Prop
  | .insertion table i _ => s.handle? table = some i.handle
  | .deletion _ _ _ => True

theorem Knows.congr {s u : Store} {w : Suspended} (h : w.Knows s)
    (hk : ∀ table, u.handle? table = s.handle? table) : w.Knows u := by
  cases w with
  | insertion table i f => exact (hk table).trans h
  | deletion txn row f => trivial

/-! ## Fetching -/

theorem next_traced {s : Store} (h : s.Shaped) {table : TableId} {i : Insertion}
    (hk : s.handle? table = some i.handle) :
    Traced (Event.Seek i.txn) (next table i) s fun w u =>
      w.txn = i.txn ∧ u.Shaped ∧ u.Owns w.txn w.frame ∧ w.Knows u := by
  have hfetch : Traced (Event.Seek i.txn) i.fetch s fun r u =>
      Insertion.Same i r.2 ∧ u.Shaped ∧ u.Owns i.txn r.1 ∧ u.handle? table = some r.2.handle := by
    apply (Insertion.fetch_traced h hk).mono_trace
    intro r u es ht hq
    obtain ⟨hsame, hu, hown, -⟩ := hq
    refine ⟨hsame, hu, hown, ?_⟩
    rw [ht.handle? table, hk, hsame.handle]
  apply hfetch.bind
  rintro ⟨f, j⟩ u ⟨hsame, hu, hown, hk'⟩
  have htxn : (insertion table j f).txn = i.txn := hsame.txn
  exact .pure ⟨htxn, hu, htxn ▸ hown, hk'⟩

theorem begin_traced {s : Store} (h : s.Shaped) (txn : TxnId) (e : Edit) :
    Traced (Event.Seek txn) (begin txn e) s fun w u =>
      w.txn = txn ∧ u.Shaped ∧ u.Owns w.txn w.frame ∧ w.Knows u := by
  cases e with
  | insertion table row =>
    apply (Traced.tableFile table).bind
    intro k u hq
    obtain ⟨rfl, hk⟩ := hq
    apply (Insertion.start_traced u k txn row).bind
    intro i v hx
    obtain ⟨rfl, rfl, rfl⟩ := hx
    exact next_traced h hk
  | deletion row =>
    apply ((Edit.deletion row).search_traced h txn).bind
    intro f u hr
    obtain ⟨hu, hown⟩ := hr
    exact .pure ⟨rfl, hu, hown, trivial⟩

/-! ## Going on -/

/-- What becomes of a call that goes on. Either the page that was fetched can be changed,
and the registration decides, or it cannot, and the call fails or looks further. -/
inductive Finished (w : Suspended) (s : Store) : Except StoreError Unit → Store → Prop
  | accepted {row : Row} {p : Page} {u : Store} :
    w.edit.apply (s.frames.page w.frame) = .ok (row, p) →
    Registered w.txn w.frame
      { s with frames := s.frames.setPage w.frame (p.markedBy (some w.txn)) } (.ok () u) →
    Finished w s (.ok ()) u
  | refused {row : Row} {p : Page} {u : Store} {err : StoreError} :
    w.edit.apply (s.frames.page w.frame) = .ok (row, p) →
    register w.txn w.frame
      { s with frames := s.frames.setPage w.frame (p.markedBy (some w.txn)) } = .error err u →
    Registered w.txn w.frame
      { s with frames := s.frames.setPage w.frame (p.markedBy (some w.txn)) } (.error err u) →
    Finished w s (.error err) u
  | elsewhere {search : StoreM FrameNo} {result : Except StoreError Unit} {u : Store} :
    (∀ r, w.edit.apply (s.frames.page w.frame) ≠ .ok r) →
    Edits search w.edit w.txn s result u → Finished w s result u
  | failed {err : StoreError} :
    (∀ r, w.edit.apply (s.frames.page w.frame) ≠ .ok r) → Finished w s (.error err) s

/-- A page that takes the row has room. -/
theorem hasRoom_of_insert {p q : Page} {row stored : Row} (h : p.insert row = .ok (stored, q)) :
    p.hasRoom = true := by
  obtain ⟨slot, hslot, -⟩ := Page.insert_eq_ok h
  obtain ⟨-, -, hfree⟩ := Page.slotFrom_eq_ok hslot
  rw [Page.hasRoom, hfree]
  rfl

theorem change_run (w : Suspended) (s : Store) :
    w.change s = w.edit.change w.txn w.frame s ∨
      ∃ table i f, w = insertion table i f ∧ (s.frames.page f).hasRoom = false ∧
        w.change s = (i.find >>= w.edit.change w.txn) s := by
  cases w with
  | deletion txn row f =>
    left
    show eraseFrom f txn row s = _
    rw [Edit.eraseFrom_eq]
    rfl
  | insertion table i f =>
    show i.resume f s = _ ∨ ∃ table' i' f', _
    unfold Insertion.resume
    rw [bind_run, page_run]
    simp only
    cases hroom : (s.frames.page f).hasRoom with
    | true => exact .inl rfl
    | false =>
      right
      refine ⟨table, i, f, rfl, hroom, ?_⟩
      show (if (s.frames.page f).hasRoom then i.place f else i.finish) s = _
      rw [hroom]
      exact Edit.finish_run i table s

/-- A change that the fetched page takes is made there. -/
theorem change_of_applied {w : Suspended} {s : Store} {row : Row} {p : Page}
    (ha : w.edit.apply (s.frames.page w.frame) = .ok (row, p)) :
    w.change s = .ok (w.frame, row)
      { s with frames := s.frames.setPage w.frame (p.markedBy (some w.txn)) } := by
  have hchange := w.edit.change_run w.txn w.frame s
  rw [ha] at hchange
  rcases w.change_run s with hrun | ⟨table, i, f, rfl, hroom, -⟩
  · exact hrun.trans hchange
  · exact absurd ((hasRoom_of_insert ha).symm.trans hroom) (by simp)

theorem finish_finished {s : Store} (h : s.Shaped) {w : Suspended} (hk : w.Knows s)
    (hf : w.frame < s.frames.size) : Finished w s (w.finish s).result (w.finish s).store := by
  unfold finish
  rcases w.change_run s with hrun | ⟨table, i, f, rfl, hroom, hrun⟩
  · -- the change is made in the frame that was fetched
    cases ha : w.edit.apply (s.frames.page w.frame) with
    | error err =>
      have hchange := w.edit.change_run w.txn w.frame s
      rw [ha] at hchange
      rw [registered_of_error (hrun.trans hchange)]
      exact .failed fun r hr => by rw [ha] at hr; simp at hr
    | ok r =>
      obtain ⟨row, p⟩ := r
      have hchange := change_of_applied ha
      let v : Store :=
        { s with frames := s.frames.setPage w.frame (p.markedBy (some w.txn)) }
      have hpage : v.frames.page w.frame = p.markedBy (some w.txn) :=
        Frames.page_setPage_self hf _
      have hid := (Edit.edited_of_apply w.txn ha).kept.id
      have hr : Registered w.txn w.frame v (register w.txn w.frame v) :=
        register_registered (h.setPage hid) (by simpa [v] using hf) (by rw [hpage]; rfl)
      cases hreg : register w.txn w.frame v with
      | ok a u =>
        rw [registered_of_accepted hchange hreg]
        rw [hreg] at hr
        exact .accepted ha hr
      | error err u =>
        rw [registered_of_refused hchange hreg]
        rw [hreg] at hr
        exact .refused ha hreg hr
  · -- the page has filled up meanwhile, so the row goes to another page
    have hnone : ∀ r, (Edit.insertion table i.row).apply (s.frames.page f) ≠ .ok r := by
      intro hq hr
      obtain ⟨row, q⟩ := hq
      rw [hasRoom_of_insert hr] at hroom
      simp at hroom
    have hedits := registered_edits (Insertion.find_traced h hk) (.insertion table i.row) i.row
    have hreg : registered i.txn i.row (insertion table i f).change s =
        registered i.txn i.row (i.find >>= (Edit.insertion table i.row).change i.txn) s :=
      registered_congr hrun
    show Finished _ s (registered i.txn i.row (insertion table i f).change s).result
      (registered i.txn i.row (insertion table i f).change s).store
    rw [hreg]
    exact .elsewhere hnone hedits

end Suspended

/-! ## Waiting -/

/-- As long as the frame is resident, the transaction has its page for writing. -/
structure Secured (s : Store) (txn : TxnId) (f : FrameNo) : Prop where
  made : f < s.frames.size
  locked : s.table.frame? (s.frames.page f).id = some f →
    s.locks.mode? txn (s.frames.page f).id = some .write

theorem Owns.secured {s : Store} (h : s.Shaped) {txn : TxnId} {f : FrameNo}
    (ho : s.Owns txn f) : s.Secured txn f :=
  ⟨(h.filed ho.resident).1, fun _ => ho.locked⟩

/-- The events after which a frame may be resident without the lock. -/
def Event.Exposes (txn : TxnId) (page : PageId) (f : FrameNo) (e : Event) : Prop :=
  (∃ u, e = .installed u f) ∨ e = .ended txn ∨ e = .released txn page

theorem Move.secured {e : Event} {s s' : Store} (hm : Move e s s') (h : s.Shaped) {txn : TxnId}
    {f : FrameNo} (hs : s.Secured txn f) (he : ¬ e.Exposes txn (s.frames.page f).id f) :
    s'.Secured txn f := by
  obtain ⟨hmade, hid⟩ := hm.frame_id hs.made
  refine ⟨hmade, ?_⟩
  intro hf
  rw [hid] at hf ⊢
  -- a frame that is resident now was so before, unless it was just installed
  have hlock : s.locks.mode? txn (s.frames.page f).id = some .write := by
    cases hm.enters hf with
    | stays hwas => exact hs.locked hwas
    | loaded _ hsize =>
      have hlt := hs.made
      rw [hsize] at hlt
      exact absurd hlt (Nat.lt_irrefl _)
    | installed => exact absurd (.inl ⟨_, rfl⟩) he
  refine hm.write_kept h hlock ?_
  intro hstrip
  rcases hstrip with rfl | rfl | rfl
  · cases hm
    exact (PageTable.frame?_of_remove hf).1 rfl
  · exact he (.inr (.inl rfl))
  · exact he (.inr (.inr rfl))

theorem Trace.secured {es : List Event} {s s' : Store} (ht : Trace es s s') (h : s.Shaped)
    {txn : TxnId} {f : FrameNo} (hs : s.Secured txn f)
    (he : ∀ e ∈ es, ¬ e.Exposes txn (s.frames.page f).id f) :
    s'.Secured txn f ∧ (s'.frames.page f).id = (s.frames.page f).id := by
  induction ht with
  | nil => exact ⟨hs, rfl⟩
  | cons hm _ ih =>
    obtain ⟨-, hid⟩ := hm.frame_id hs.made
    have hu := hm.secured h hs (he _ List.mem_cons_self)
    obtain ⟨hv, hid'⟩ := ih (hm.shaped h) hu fun e hmem => by
      rw [hid]
      exact he e (List.mem_cons_of_mem _ hmem)
    exact ⟨hv, hid'.trans hid⟩

end RowStore.Store
