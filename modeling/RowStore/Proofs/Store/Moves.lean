import RowStore.Store.Complete
import RowStore.Store.Delete
import RowStore.Store.Insert
import RowStore.Proofs.Lock.Modes
import RowStore.Proofs.Pool.Residency

/-!
  Moves — the small changes that every call on the store is made of.

  A `Move` changes the store at one point: a lock is granted, a page is evicted, a
  file grows, a dirty page is committed. Each names the event that it is and carries
  what the code has checked by then, so an invariant is proved once for each move and
  then holds along every `Trace` of moves. `Traced` says of a call that it is a trace
  of moves whatever its outcome, and what holds when it succeeds; it is closed under
  `pure`, `throw` and `bind`, so a call is traced piece by piece.
-/

namespace RowStore.Store

/-! ## Running calls -/

section Running
variable {α β : Type} (s : Store)

theorem bind_run (x : StoreM α) (f : α → StoreM β) :
    (x >>= f) s = match x s with
      | .ok a u => f a u
      | .error e u => .error e u := by
  show EStateM.bind x f s = _
  unfold EStateM.bind
  cases x s <;> rfl

theorem pure_run (a : α) : (pure a : StoreM α) s = .ok a s := rfl

theorem get_run : (get : StoreM Store) s = .ok s s := rfl

theorem modify_run (f : Store → Store) : (modify f : StoreM Unit) s = .ok () (f s) := rfl

theorem ofExcept_run (x : Except StoreError α) :
    StoreM.ofExcept x s = match x with
      | .ok a => .ok a s
      | .error e => .error e s := by
  cases x <;> rfl

theorem page_run (f : FrameNo) : page f s = .ok (s.frames.page f) s := rfl

/-- The store that a call leaves behind, whatever comes of it. -/
def after (x : StoreM α) : Store :=
  match x s with
  | .ok _ u => u
  | .error _ u => u

variable {s} in
theorem after_ok {x : StoreM α} {a : α} {u : Store} (h : x s = .ok a u) : s.after x = u := by
  rw [after, h]

variable {s} in
theorem after_error {x : StoreM α} {e : StoreError} {u : Store} (h : x s = .error e u) :
    s.after x = u := by
  rw [after, h]

theorem after_bind (x : StoreM α) (f : α → StoreM β) :
    after s (x >>= f) = match x s with
      | .ok a u => after u (f a)
      | .error _ u => u := by
  unfold after
  rw [bind_run]
  cases x s <;> rfl

variable {s} in
theorem after_bind_ok {x : StoreM α} {f : α → StoreM β} {a : α} {u : Store} (h : x s = .ok a u) :
    s.after (x >>= f) = u.after (f a) := by
  rw [after_bind, h]

variable {s} in
theorem after_bind_error {x : StoreM α} {f : α → StoreM β} {e : StoreError} {u : Store}
    (h : x s = .error e u) : s.after (x >>= f) = u := by
  rw [after_bind, h]

/-- What a call gives. -/
def given? (x : StoreM α) : Option α :=
  match x s with
  | .ok a _ => some a
  | .error _ _ => none

variable {s} in
theorem given?_eq_some_iff {x : StoreM α} {a : α} :
    s.given? x = some a ↔ ∃ u, x s = .ok a u := by
  rw [given?]
  cases x s <;> simp

/-- The error that a call ends with. -/
def error? (x : StoreM α) : Option StoreError :=
  match x s with
  | .ok _ _ => none
  | .error e _ => some e

variable {s} in
theorem error?_eq_some_iff {x : StoreM α} {e : StoreError} :
    s.error? x = some e ↔ ∃ u, x s = .error e u := by
  rw [error?]
  cases x s <;> simp

end Running

/-! ## What files hold -/

/-- The handle under which a table's file is registered. -/
def handle? (s : Store) (table : TableId) : Option HandleNo :=
  s.catalog.tables[table]?.map (·.file.handle)

/-- The heap file behind a handle. -/
def heap (s : Store) (k : HandleNo) : HeapFile := s.handles.getD k default

/-- What the file of a heap file holds. -/
def fileOf (s : Store) (k : HandleNo) : File := s.volume.file (s.heap k).file

/-- The whole pages of a file, however many page numbers there are. -/
def wholePages (s : Store) (k : HandleNo) : Nat := (s.fileOf k).size / (s.heap k).pageSize

theorem heapFile_run (s : Store) (k : HandleNo) : heapFile k s = .ok (s.heap k) s := rfl

theorem contents_run (s : Store) (k : HandleNo) :
    contents (s.heap k) s = .ok (s.fileOf k) s := rfl

theorem pageCount_run (s : Store) (k : HandleNo) :
    pageCount k s = .ok ((s.heap k).pageCount (s.fileOf k)) s := rfl

theorem tableFile_run (s : Store) (table : TableId) :
    tableFile table s = match s.handle? table with
      | some k => .ok k s
      | none => .error (.tableNotFound table) s := by
  unfold tableFile handle?
  simp only [bind_run, get_run, ofExcept_run, Catalog.entry]
  cases s.catalog.tables[table]? <;> rfl

theorem tableFile_cases (s : Store) (table : TableId) :
    (∃ e, tableFile table s = .error e s) ∨
      ∃ k, s.handle? table = some k ∧ tableFile table s = .ok k s := by
  have hrun := tableFile_run s table
  cases hk : s.handle? table with
  | none =>
    rw [hk] at hrun
    exact .inl ⟨_, hrun⟩
  | some k =>
    rw [hk] at hrun
    exact .inr ⟨k, rfl, hrun⟩

/-! ## Events and moves -/

inductive Event where
  | granted (txn : TxnId) (page : PageId) (access : Access)
  | evicted (page : PageId)
  /-- A transaction is associated with a page. -/
  | used (txn : TxnId) (page : PageId)
  /-- A read of a file is counted. -/
  | counted
  | loaded (page : PageId)
  /-- A file of `pages` whole pages is given another one. -/
  | grown (table : TableId) (pages : Nat)
  | changed (txn : TxnId) (frame : FrameNo)
  /-- A changed instance becomes the resident one. -/
  | installed (txn : TxnId) (frame : FrameNo)
  | logged
  /-- A dirty page is written and stays dirty. -/
  | flushed (page : PageId)
  /-- A dirty page is written and becomes clean. -/
  | committed (txn : TxnId) (page : PageId)
  /-- A page leaves the pool unwritten, locked as before. -/
  | dropped (page : PageId)
  | ended (txn : TxnId)
  | released (txn : TxnId) (page : PageId)
  deriving DecidableEq

/-- A page instance after a row was inserted or deleted by a transaction. -/
def Edited (txn : TxnId) (p q : Page) : Prop :=
  ∃ r p', ((∃ stored, p.insert r = .ok (stored, p')) ∨ p.delete r = .ok p') ∧
    q = p'.markedBy (some txn)

inductive Move : Event → Store → Store → Prop
  | granted {s : Store} {txn : TxnId} {page : PageId} {access : Access} {locks : LockManager} :
    s.locks.acquire? txn page access = some locks →
    Move (.granted txn page access) s { s with locks := locks }
  | evicted {s : Store} {page : PageId} :
    s.table.victim? s.frames = some page →
    Move (.evicted page) s { s with
      table := (s.table.remove page).unrelatePage page
      locks := s.locks.releasePage page }
  | used {s : Store} {txn : TxnId} {page : PageId} :
    s.locks.mode? txn page ≠ none →
    Move (.used txn page) s { s with table := s.table.relate txn page }
  | counted {s : Store} {k : HandleNo} :
    Move .counted s
      { s with handles := s.handles.modify k fun h => { h with reads := h.reads + 1 } }
  | loaded {s : Store} {page : PageId} {k : HandleNo} {p : Page} :
    s.table.frame? page = none → s.table.size < s.maxPages → s.handle? page.table = some k →
    (s.heap k).readPage (s.fileOf k) page = .ok p →
    Move (.loaded page) s { s with
      frames := s.frames.push p
      table := s.table.insert page s.frames.size }
  | grown {s s' : Store} {table : TableId} {k : HandleNo} {id : PageId} :
    s.handle? table = some k → allocatePage k s = .ok id s' →
    Move (.grown table (s.wholePages k)) s s'
  | changed {s : Store} {txn : TxnId} {f : FrameNo} {q : Page} :
    f < s.frames.size → Edited txn (s.frames.page f) q →
    (s.table.frame? q.id = some f → s.locks.mode? txn q.id = some .write) →
    Move (.changed txn f) s { s with frames := s.frames.setPage f q }
  | installed {s : Store} {txn : TxnId} {f : FrameNo} :
    f < s.frames.size → (s.frames.page f).dirtier = some txn →
    s.locks.mode? txn (s.frames.page f).id = some .write →
    (s.table.frame? (s.frames.page f).id = none ∧ s.table.size < s.maxPages ∨
      ∃ g, s.table.frame? (s.frames.page f).id = some g ∧ (s.frames.page g).dirtier = none ∧
        (s.frames.page g).before = (s.frames.page f).before) →
    Move (.installed txn f) s { s with table := s.table.insert (s.frames.page f).id f }
  | logged {s : Store} {log : Log} : Move .logged s { s with log := log }
  | flushed {s s' : Store} {page : PageId} {f : FrameNo} {k : HandleNo} :
    s.table.frame? page = some f → (s.frames.page f).dirtier ≠ none →
    s.handle? page.table = some k → writePage k (s.frames.page f) s = .ok () s' →
    Move (.flushed page) s s'
  | committed {s u : Store} {txn : TxnId} {page : PageId} {f : FrameNo} {k : HandleNo} {q : Page} :
    s.table.frame? page = some f → (s.frames.page f).dirtier = some txn →
    s.handle? page.table = some k → writePage k (s.frames.page f) s = .ok () u →
    (s.frames.page f).settle = .ok q →
    Move (.committed txn page) s { u with frames := u.frames.setPage f (q.markedBy none) }
  | dropped {s : Store} {page : PageId} :
    Move (.dropped page) s { s with table := s.table.remove page }
  | ended {s : Store} {txn : TxnId} :
    (∀ page f, s.table.frame? page = some f → (s.frames.page f).dirtier ≠ some txn) →
    Move (.ended txn) s { s with
      locks := s.locks.releaseAll txn
      table := s.table.forgetTxn txn }
  | released {s : Store} {txn : TxnId} {page : PageId} :
    Move (.released txn page) s { s with
      locks := s.locks.release txn page
      table := s.table.unrelate txn page }

inductive Trace : List Event → Store → Store → Prop
  | nil {s : Store} : Trace [] s s
  | cons {e : Event} {es : List Event} {s u v : Store} :
    Move e s u → Trace es u v → Trace (e :: es) s v

theorem Trace.single {e : Event} {s u : Store} (h : Move e s u) : Trace [e] s u := .cons h .nil

theorem Trace.append {es fs : List Event} {s u v : Store} (h₁ : Trace es s u) (h₂ : Trace fs u v) :
    Trace (es ++ fs) s v := by
  induction h₁ with
  | nil => exact h₂
  | cons hm _ ih => exact .cons hm (ih h₂)

/-- What every move keeps, every trace keeps. -/
theorem Trace.induct {P : Store → Prop} {es : List Event} {s u : Store}
    (hP : ∀ e ∈ es, ∀ {v w : Store}, Move e v w → P v → P w) (h : Trace es s u) (hs : P s) :
    P u := by
  induction h with
  | nil => exact hs
  | cons hm _ ih =>
    exact ih (fun e he => hP e (List.mem_cons_of_mem _ he)) (hP _ List.mem_cons_self hm hs)

/-! ## Calls as traces -/

/-- The growth that leaves the table without a number for its next page: an insertion
that gets there goes on for ever. -/
def Event.Endless : Event → Prop
  | .grown _ pages => pages + 1 = pageNumbers
  | _ => False

/-- Whatever comes of the call, it is a trace of the events in `E`; if it succeeds,
`Q` holds. A growth that uses up the page numbers ends in `noPageNumber`. -/
def Traced {α : Type} (E : Event → Prop) (x : StoreM α) (s : Store)
    (Q : α → Store → Prop) : Prop :=
  match x s with
  | .ok a u => (∃ es, Trace es s u ∧ ∀ e ∈ es, E e ∧ ¬ e.Endless) ∧ Q a u
  | .error err u => ∃ es, Trace es s u ∧
      ∀ e ∈ es, E e ∧ (e.Endless → ∃ table, err = .noPageNumber table)

namespace Traced

variable {α β : Type} {E F : Event → Prop} {s : Store}

theorem pure {a : α} {Q : α → Store → Prop} (h : Q a s) :
    Traced E (Pure.pure a : StoreM α) s Q :=
  ⟨⟨[], .nil, by simp⟩, h⟩

theorem throw {err : StoreError} {Q : α → Store → Prop} :
    Traced E (MonadExcept.throw err : StoreM α) s Q :=
  ⟨[], .nil, by simp⟩

/-- A call of which only the outcome counts. -/
theorem of_run {x : StoreM α} {a : α} {u : Store} {es : List Event} {Q : α → Store → Prop}
    (hx : x s = .ok a u) (ht : Trace es s u) (he : ∀ e ∈ es, E e ∧ ¬ e.Endless) (hq : Q a u) :
    Traced E x s Q := by
  rw [Traced, hx]
  exact ⟨⟨es, ht, he⟩, hq⟩

theorem of_error {x : StoreM α} {err : StoreError} {u : Store} {es : List Event}
    {Q : α → Store → Prop} (hx : x s = .error err u) (ht : Trace es s u)
    (he : ∀ e ∈ es, E e ∧ ¬ e.Endless) : Traced E x s Q := by
  rw [Traced, hx]
  exact ⟨es, ht, fun e hm => ⟨(he e hm).1, fun hn => absurd hn (he e hm).2⟩⟩

theorem mono {x : StoreM α} {Q R : α → Store → Prop} (h : Traced E x s Q)
    (hE : ∀ e, E e → F e) (hQ : ∀ a u, Q a u → R a u) : Traced F x s R := by
  unfold Traced at h ⊢
  split at h
  · obtain ⟨⟨es, ht, he⟩, hq⟩ := h
    exact ⟨⟨es, ht, fun e hm => ⟨hE e (he e hm).1, (he e hm).2⟩⟩, hQ _ _ hq⟩
  · obtain ⟨es, ht, he⟩ := h
    exact ⟨es, ht, fun e hm => ⟨hE e (he e hm).1, (he e hm).2⟩⟩

/-- What holds when the call succeeds may be read off its trace. -/
theorem mono_trace {x : StoreM α} {Q R : α → Store → Prop} (h : Traced E x s Q)
    (hQ : ∀ a u es, Trace es s u → Q a u → R a u) : Traced E x s R := by
  unfold Traced at h ⊢
  split at h
  · obtain ⟨⟨es, ht, he⟩, hq⟩ := h
    exact ⟨⟨es, ht, he⟩, hQ _ _ es ht hq⟩
  · exact h

theorem ok {x : StoreM α} {Q : α → Store → Prop} {a : α} {u : Store} (h : Traced E x s Q)
    (hx : x s = .ok a u) : (∃ es, Trace es s u ∧ ∀ e ∈ es, E e ∧ ¬ e.Endless) ∧ Q a u := by
  rw [Traced, hx] at h
  exact h

theorem error {x : StoreM α} {Q : α → Store → Prop} {err : StoreError} {u : Store}
    (h : Traced E x s Q) (hx : x s = .error err u) :
    ∃ es, Trace es s u ∧ ∀ e ∈ es, E e ∧ (e.Endless → ∃ table, err = .noPageNumber table) := by
  rw [Traced, hx] at h
  exact h

theorem bind {x : StoreM α} {f : α → StoreM β} {Q : α → Store → Prop} {R : β → Store → Prop}
    (hx : Traced E x s Q) (hf : ∀ a u, Q a u → Traced E (f a) u R) : Traced E (x >>= f) s R := by
  unfold Traced at hx ⊢
  rw [bind_run]
  cases hxs : x s with
  | error err u =>
    rw [hxs] at hx
    exact hx
  | ok a u =>
    rw [hxs] at hx
    obtain ⟨⟨es, ht, he⟩, hq⟩ := hx
    have hfa := hf a u hq
    unfold Traced at hfa
    show match f a u with
      | .ok b v => _
      | .error err v => _
    cases hfu : f a u with
    | ok b v =>
      rw [hfu] at hfa
      obtain ⟨⟨es', ht', he'⟩, hr⟩ := hfa
      refine ⟨⟨es ++ es', ht.append ht', ?_⟩, hr⟩
      intro e hm
      exact (List.mem_append.mp hm).elim (he e) (he' e)
    | error err v =>
      rw [hfu] at hfa
      obtain ⟨es', ht', he'⟩ := hfa
      refine ⟨es ++ es', ht.append ht', ?_⟩
      intro e hm
      rcases List.mem_append.mp hm with hm | hm
      · exact ⟨(he e hm).1, fun hn => absurd hn (he e hm).2⟩
      · exact he' e hm

theorem after {x : StoreM α} {Q : α → Store → Prop} (h : Traced E x s Q) :
    ∃ es, Trace es s (s.after x) ∧ ∀ e ∈ es, E e := by
  unfold Traced at h
  unfold Store.after
  split at h
  · obtain ⟨⟨es, ht, he⟩, -⟩ := h
    exact ⟨es, ht, fun e hm => (he e hm).1⟩
  · obtain ⟨es, ht, he⟩ := h
    exact ⟨es, ht, fun e hm => (he e hm).1⟩

/-- A read of the store before the rest of a call. -/
theorem bind_read {x : StoreM α} {f : α → StoreM β} {a : α} {R : β → Store → Prop}
    (hx : x s = .ok a s) (hf : Traced E (f a) s R) : Traced E (x >>= f) s R := by
  refine bind (Q := fun b u => b = a ∧ u = s) ?_ ?_
  · exact of_run hx .nil (by simp) ⟨rfl, rfl⟩
  · intro b u hb
    obtain ⟨rfl, rfl⟩ := hb
    exact hf

theorem tableFile (table : TableId) :
    Traced E (Store.tableFile table) s fun k u => u = s ∧ s.handle? table = some k := by
  unfold Traced
  rw [tableFile_run]
  cases s.handle? table with
  | none => exact ⟨[], .nil, by simp⟩
  | some k => exact ⟨⟨[], .nil, by simp⟩, rfl, rfl⟩

end Traced

end RowStore.Store
