import RowStore.Proofs.Disk.Images
import RowStore.Proofs.Store.Fetching

/-!
  Searching — how an insertion finds a page for its row.

  It fetches the pages of its table in turn and makes the file grow when they are used
  up. Whatever comes of it is a trace of fetches and growths, and a page that it finds is
  resident and locked for writing (`seek_traced`). A growth that uses up the page numbers
  ends in an error, never in a page (`grow_traced`).
-/

namespace RowStore

namespace Store

/-! ## Growing files -/

theorem fileOf_withFile {s : Store} {k : HandleNo} (hk : (s.heap k).file < s.volume.files.size)
    (f : File) : (s.withFile k f).fileOf k = f := by
  have hh : SameHeap ((s.withFile k f).heap k) (s.heap k) :=
    sameHeap_modify s _ k fun _ => ⟨rfl, rfl, rfl, rfl, rfl⟩
  rw [fileOf, hh.file]
  simp [withFile, Volume.file, Volume.setFile, hk]

theorem heap_withFile (s : Store) (k j : HandleNo) (f : File) :
    SameHeap ((s.withFile k f).heap j) (s.heap j) :=
  sameHeap_modify s _ j fun _ => ⟨rfl, rfl, rfl, rfl, rfl⟩

/-- Every other file is as it was. -/
theorem file_withFile_other {s : Store} {k : HandleNo} {no : FileNo} (h : no ≠ (s.heap k).file)
    (f : File) : (s.withFile k f).volume.file no = s.volume.file no := by
  simp [withFile, Volume.file, Volume.setFile, Array.getD_eq_getD_getElem?,
    Array.getElem?_setIfInBounds_ne h.symm]

theorem wholePages_withFile {s : Store} {k : HandleNo}
    (hk : (s.heap k).file < s.volume.files.size) (f : File) :
    (s.withFile k f).wholePages k = f.size / (s.heap k).pageSize := by
  rw [wholePages, fileOf_withFile hk, (heap_withFile s k k f).pageSize]

/-- A file that is not there has no pages. -/
theorem file_lt_of_wholePages {s : Store} {k : HandleNo} (h : 0 < s.wholePages k) :
    (s.heap k).file < s.volume.files.size := by
  apply Nat.lt_of_not_le
  intro hle
  have hf : s.fileOf k = File.empty := by simp [fileOf, Volume.file, hle]
  rw [wholePages, hf] at h
  simp [File.empty] at h

theorem pageSize_pos_of_wholePages {s : Store} {k : HandleNo} (h : 0 < s.wholePages k) :
    0 < (s.heap k).pageSize := by
  apply Nat.pos_of_ne_zero
  intro h0
  rw [wholePages, h0, Nat.div_zero] at h
  exact absurd h (Nat.lt_irrefl 0)

/-- The last growth that there is a number for. -/
theorem wholePages_of_last {s u : Store} {k : HandleNo} {id : PageId}
    (ha : allocatePage k s = .ok id u) (hn : s.wholePages k + 1 = pageNumbers) :
    u.wholePages k = pageNumbers ∧ (s.heap k).pageSize < File.positions := by
  obtain ⟨f, hf, rfl⟩ := allocatePage_eq_ok ha
  have hpos : 0 < s.wholePages k := by unfold pageNumbers at hn; omega
  have hfile := file_lt_of_wholePages hpos
  have hsize := pageSize_pos_of_wholePages hpos
  refine ⟨?_, ?_⟩
  · have hlt : (s.fileOf k).size / (s.heap k).pageSize < pageNumbers := by
      rw [← hn]
      exact Nat.lt_succ_self _
    rw [wholePages_withFile hfile, HeapFile.pages_allocate hsize hlt hf]
    exact hn
  · obtain ⟨hp, -⟩ := HeapFile.allocate_eq_ok_iff.mp hf
    omega

/-- A growth after that changes no count. -/
theorem wholePages_of_full {s : Store} {k : HandleNo} (hn : s.wholePages k = pageNumbers)
    (hp : (s.heap k).pageSize < File.positions) :
    ∃ id u, allocatePage k s = .ok id u ∧ u.wholePages k = pageNumbers := by
  obtain ⟨f, hf, hsize⟩ := HeapFile.allocate_of_full hn hp
  have hpos : 0 < s.wholePages k := by rw [hn]; decide
  refine ⟨(s.heap k).nextPage (s.fileOf k), s.withFile k f, ?_, ?_⟩
  · rw [allocatePage_run, hf]
  · rw [wholePages_withFile (file_lt_of_wholePages hpos), hsize]
    exact hn

theorem pageCount_of_full {s : Store} {k : HandleNo} (hn : s.wholePages k = pageNumbers) :
    (s.heap k).pageCount (s.fileOf k) = 0 := by
  show s.wholePages k % pageNumbers = 0
  rw [hn, Nat.mod_self]

/-- The events of a search for a page with room. -/
def Event.Seek (txn : TxnId) : Event → Prop
  | .grown _ _ => True
  | e => e.Fetch txn

theorem Event.Fetch.seek {txn : TxnId} {e : Event} (h : e.Fetch txn) : e.Seek txn := by
  cases e <;> simp_all [Event.Fetch, Event.Seek]

/-- The frame is the resident instance of its page, and the transaction has the page for
writing. -/
structure Owns (s : Store) (txn : TxnId) (f : FrameNo) : Prop where
  resident : s.table.frame? (s.frames.page f).id = some f
  locked : s.locks.mode? txn (s.frames.page f).id = some .write

theorem getPage_owns {s : Store} (h : s.Shaped) (txn : TxnId) (p : PageId) :
    Traced (Event.Fetch txn) (getPage txn p .write) s fun f u =>
      u.Shaped ∧ u.Owns txn f ∧ (u.frames.page f).id = p := by
  refine (getPage_traced h txn p .write).mono (fun _ he => he) ?_
  intro f u hq
  obtain ⟨hu, hf, held, hheld, hc⟩ := hq
  have hid := (hu.filed hf).2
  have hw : held = .write := by cases held <;> simp_all [Access.covers]
  exact ⟨hu, ⟨by rw [hid, hf], by rw [hid, hheld, hw]⟩, hid⟩

end Store

/-! ## Insertions -/

namespace Insertion

open Store

theorem start_run (s : Store) (k : HandleNo) (txn : TxnId) (row : Row) :
    start k txn row s =
      if row.schema ≠ (s.heap k).schema then .error .schemaMismatch s
      else .ok ⟨k, txn, row, 0, (s.heap k).pageCount (s.fileOf k)⟩ s := by
  unfold start
  rw [bind_run, heapFile_run]
  simp only
  split <;> rfl

theorem start_cases (s : Store) (k : HandleNo) (txn : TxnId) (row : Row) :
    (∃ e, start k txn row s = .error e s) ∨
      ∃ i, start k txn row s = .ok i s ∧ i.handle = k ∧ i.txn = txn := by
  have hrun := start_run s k txn row
  split at hrun
  · exact .inl ⟨_, hrun⟩
  · exact .inr ⟨_, hrun, rfl, rfl⟩

theorem start_traced {E : Event → Prop} (s : Store) (k : HandleNo) (txn : TxnId) (row : Row) :
    Traced E (start k txn row) s fun i u => u = s ∧ i.handle = k ∧ i.txn = txn := by
  rcases start_cases s k txn row with ⟨err, hi⟩ | ⟨i, hi, hhandle, htxn⟩
  · exact .of_error hi .nil (by simp)
  · exact .of_run hi .nil (by simp) ⟨rfl, hhandle, htxn⟩

/-- An insertion that has grown its file and goes on behind the pages tried. -/
def behind (i : Insertion) (u : Store) : Insertion :=
  { i with next := i.stop, stop := (u.heap i.handle).pageCount (u.fileOf i.handle) }

theorem growOnce_run (i : Insertion) (s : Store) :
    i.growOnce s = match allocatePage i.handle s with
      | .ok _ u => .ok (i.behind u) u
      | .error e u => .error e u := by
  unfold growOnce
  simp only [bind_run, pageCount_run]
  cases allocatePage i.handle s <;> rfl

theorem growOnce_cases (i : Insertion) (s : Store) :
    (∃ e, allocatePage i.handle s = .error e s ∧ i.growOnce s = .error e s) ∨
      ∃ id u, allocatePage i.handle s = .ok id u ∧ i.growOnce s = .ok (i.behind u) u := by
  have hrun := growOnce_run i s
  rw [allocatePage_run] at hrun ⊢
  cases ha : (s.heap i.handle).allocate (s.fileOf i.handle) with
  | error e =>
    rw [ha] at hrun
    exact .inl ⟨e, rfl, hrun⟩
  | ok f =>
    rw [ha] at hrun
    exact .inr ⟨_, _, rfl, hrun⟩

theorem grow_run (i : Insertion) (s : Store) :
    i.grow s = match i.growOnce s with
      | .error e u => .error e u
      | .ok j u =>
        if j.next < j.stop then .ok j u
        else match j.growOnce u with
          | .error e v => .error e v
          | .ok l v =>
            if l.next < l.stop then .ok l v
            else .error (.noPageNumber (v.heap l.handle).table) v := by
  unfold grow
  rw [bind_run]
  cases i.growOnce s with
  | error e u => rfl
  | ok j u =>
    simp only
    split
    · rfl
    · rw [bind_run]
      cases j.growOnce u with
      | error e v => rfl
      | ok l v =>
        simp only
        split <;> rfl

/-- Only the pages still to be tried differ. -/
structure Same (i j : Insertion) : Prop where
  handle : j.handle = i.handle
  txn : j.txn = i.txn
  row : j.row = i.row

theorem Same.trans {i j l : Insertion} (h₁ : Same i j) (h₂ : Same j l) : Same i l :=
  ⟨h₂.handle.trans h₁.handle, h₂.txn.trans h₁.txn, h₂.row.trans h₁.row⟩

/-- What growing a file leaves as it was. -/
structure Grown (s u : Store) : Prop where
  table : u.table = s.table
  locks : u.locks = s.locks
  frames : u.frames = s.frames
  maxPages : u.maxPages = s.maxPages

theorem Grown.refl (s : Store) : Grown s s := ⟨rfl, rfl, rfl, rfl⟩

theorem Grown.trans {s u v : Store} (h₁ : Grown s u) (h₂ : Grown u v) : Grown s v :=
  ⟨h₂.table.trans h₁.table, h₂.locks.trans h₁.locks, h₂.frames.trans h₁.frames,
    h₂.maxPages.trans h₁.maxPages⟩

theorem Grown.shaped {s u : Store} (h : Grown s u) (hs : s.Shaped) : u.Shaped :=
  hs.congr h.table h.locks h.frames h.maxPages

theorem grown_of_allocate {s u : Store} {k : HandleNo} {id : PageId}
    (ha : allocatePage k s = .ok id u) : Grown s u := by
  obtain ⟨f, -, rfl⟩ := allocatePage_eq_ok ha
  exact ⟨rfl, rfl, rfl, rfl⟩

/-- A growth that uses up the page numbers leaves none to go on with, and the growth
after it neither fails nor changes that. -/
theorem stop_of_last {i : Insertion} {s u : Store} {id : PageId}
    (ha : allocatePage i.handle s = .ok id u) (hn : s.wholePages i.handle + 1 = pageNumbers) :
    (i.behind u).stop = 0 ∧ ∃ id' v, allocatePage i.handle u = .ok id' v ∧
      ((i.behind u).behind v).stop = 0 := by
  obtain ⟨hw, hp⟩ := wholePages_of_last ha hn
  obtain ⟨f, -, rfl⟩ := allocatePage_eq_ok ha
  rw [← (heap_withFile s i.handle i.handle f).pageSize] at hp
  obtain ⟨id', v, hv, hwv⟩ := wholePages_of_full hw hp
  exact ⟨pageCount_of_full hw, id', v, hv, pageCount_of_full hwv⟩

/-- An insertion grows its file once or twice. If that uses up the page numbers, there
is no page to go on with. -/
theorem grow_traced {i : Insertion} {s : Store} {table : TableId}
    (hk : s.handle? table = some i.handle) :
    Traced (Event.Seek i.txn) i.grow s fun j u => Same i j ∧ Grown s u := by
  have hrun := grow_run i s
  rcases growOnce_cases i s with ⟨e, -, hi⟩ | ⟨id, u, ha, hi⟩
  · rw [hi] at hrun
    exact .of_error hrun .nil (by simp)
  rw [hi] at hrun
  -- the file has grown once
  have hm₁ : Move (.grown table (s.wholePages i.handle)) s u := .grown hk ha
  have hg₁ := grown_of_allocate ha
  simp only at hrun
  split at hrun
  · rename_i hj
    refine .of_run hrun (.single hm₁) ?_ ⟨⟨rfl, rfl, rfl⟩, hg₁⟩
    simp only [List.mem_singleton, forall_eq]
    refine ⟨trivial, ?_⟩
    intro hn
    rw [(stop_of_last ha hn).1] at hj
    exact absurd hj (Nat.not_lt_zero _)
  rcases growOnce_cases (i.behind u) u with ⟨e, hb, hj⟩ | ⟨id', v, hb, hj⟩
  · rw [hj] at hrun
    refine .of_error hrun (.single hm₁) ?_
    simp only [List.mem_singleton, forall_eq]
    refine ⟨trivial, ?_⟩
    intro hn
    obtain ⟨-, id', v, hv, -⟩ := stop_of_last ha hn
    have hb' : allocatePage i.handle u = .error e u := hb
    rw [hb'] at hv
    simp at hv
  rw [hj] at hrun
  have hk' : u.handle? table = some (i.behind u).handle := ((Trace.single hm₁).handle? table).trans hk
  -- and once more, as there was still no page to go on with
  have hm₂ : Move (.grown table (u.wholePages i.handle)) u v := .grown hk' hb
  have ht : Trace [.grown table (s.wholePages i.handle), .grown table (u.wholePages i.handle)]
      s v := .cons hm₁ (.single hm₂)
  simp only at hrun
  split at hrun
  · rename_i hl
    refine .of_run hrun ht ?_ ⟨⟨rfl, rfl, rfl⟩, hg₁.trans (grown_of_allocate hb)⟩
    have hstop : ((i.behind u).behind v).stop ≠ 0 := fun h0 => by omega
    simp only [List.mem_cons, List.not_mem_nil, or_false, forall_eq_or_imp, forall_eq]
    refine ⟨⟨trivial, ?_⟩, trivial, fun hn => hstop (stop_of_last hb hn).1⟩
    intro hn
    obtain ⟨-, id₂, w, hv, hw⟩ := stop_of_last ha hn
    have hb' : allocatePage i.handle u = .ok id' v := hb
    rw [hb'] at hv
    obtain ⟨-, rfl⟩ := EStateM.Result.ok.inj hv
    exact hstop hw
  · -- twice was not enough either, so the page numbers are used up
    unfold Traced
    rw [hrun]
    refine ⟨_, ht, ?_⟩
    intro e he
    simp only [List.mem_cons, List.not_mem_nil, or_false] at he
    rcases he with rfl | rfl <;> exact ⟨trivial, fun _ => ⟨_, rfl⟩⟩

theorem fetch_run (i : Insertion) (s : Store) :
    i.fetch s = ((if i.next < i.stop then pure i else i.grow) >>= fun j =>
      heapFile j.handle >>= fun h => getPage j.txn ⟨h.table, j.next⟩ .write >>= fun f =>
        pure (f, { j with next := j.next + 1 })) s := by
  unfold fetch
  split <;> rfl

/-- A fetch leaves a page of the table resident and locked for writing. -/
theorem fetch_traced {i : Insertion} {s : Store} {table : TableId} (h : s.Shaped)
    (hk : s.handle? table = some i.handle) :
    Traced (Event.Seek i.txn) i.fetch s fun r u =>
      Same i r.2 ∧ u.Shaped ∧ u.Owns i.txn r.1 ∧
        ∃ n, (u.frames.page r.1).id = ⟨(s.heap i.handle).table, n⟩ := by
  have hgrow : Traced (Event.Seek i.txn) (if i.next < i.stop then pure i else i.grow) s
      fun j u => Same i j ∧ u.Shaped ∧ SameHeap (u.heap i.handle) (s.heap i.handle) := by
    split
    · exact .pure ⟨⟨rfl, rfl, rfl⟩, h, .refl _⟩
    · apply (grow_traced hk).mono_trace
      intro j u es htr hq
      obtain ⟨hsame, hgrown⟩ := hq
      exact ⟨hsame, hgrown.shaped h, htr.heap i.handle⟩
  unfold Traced
  rw [fetch_run]
  apply hgrow.bind
  intro j u hx
  obtain ⟨hsame, hu, hheap⟩ := hx
  apply Traced.bind_read (heapFile_run u j.handle)
  rw [hsame.txn, hsame.handle]
  have hget := (getPage_owns hu i.txn ⟨(u.heap i.handle).table, j.next⟩).mono
    (fun _ he => he.seek) fun _ _ hq => hq
  apply hget.bind
  intro f v hr
  obtain ⟨hv, hown, hid⟩ := hr
  exact .pure ⟨⟨rfl, rfl, hsame.row⟩, hv, hown, j.next, by rw [hid, hheap.table]⟩

theorem seek_run (i : Insertion) (s : Store) (stopAt : FrameNo → Bool) (fuel : Nat) :
    i.seek stopAt (fuel + 1) s = match i.fetch s with
      | .error e u => .error e u
      | .ok (f, j) u =>
        if stopAt f || (u.frames.page f).hasRoom then .ok (f, j) u
        else j.seek stopAt fuel u := by
  rw [seek, bind_run]
  cases i.fetch s with
  | error e u => rfl
  | ok r u =>
    obtain ⟨f, j⟩ := r
    simp only [bind_run, page_run]
    split <;> rfl

theorem seek_traced {i : Insertion} {s : Store} {table : TableId} (h : s.Shaped)
    (hk : s.handle? table = some i.handle) (stopAt : FrameNo → Bool) (fuel : Nat) :
    Traced (Event.Seek i.txn) (i.seek stopAt fuel) s fun r u =>
      Same i r.2 ∧ u.Shaped ∧ u.Owns i.txn r.1 ∧
        ∃ n, (u.frames.page r.1).id = ⟨(s.heap i.handle).table, n⟩ := by
  induction fuel generalizing i s with
  | zero => exact .of_error rfl .nil (by simp)
  | succ fuel ih =>
    rw [seek]
    have hfetch : Traced (Event.Seek i.txn) i.fetch s fun r u =>
        (Same i r.2 ∧ u.Shaped ∧ u.Owns i.txn r.1 ∧
          ∃ n, (u.frames.page r.1).id = ⟨(s.heap i.handle).table, n⟩) ∧
        u.handle? table = some i.handle ∧ SameHeap (u.heap i.handle) (s.heap i.handle) := by
      apply (fetch_traced h hk).mono_trace
      intro r u es htr hq
      exact ⟨hq, (htr.handle? table).trans hk, htr.heap i.handle⟩
    apply hfetch.bind
    rintro ⟨f, j⟩ u ⟨⟨hsame, hu, hown, hid⟩, hk', hheap⟩
    apply Traced.bind_read (page_run u f)
    split
    · exact .pure ⟨hsame, hu, hown, hid⟩
    · have ih' := ih (i := j) hu (hk'.trans (congrArg some hsame.handle.symm))
      rw [hsame.txn] at ih'
      refine ih'.mono (fun _ he => he) ?_
      intro r v hx
      obtain ⟨hsame', hv, hown', n, hn⟩ := hx
      exact ⟨hsame.trans hsame', hv, hown', n, by rw [hn, hsame.handle, hheap.table]⟩

theorem growOnce_same {i j : Insertion} {s u : Store} (h : i.growOnce s = .ok j u) :
    Same i j := by
  rcases growOnce_cases i s with ⟨e, -, hi⟩ | ⟨id, v, -, hi⟩
  · rw [hi] at h
    simp at h
  · rw [hi] at h
    obtain ⟨rfl, -⟩ := EStateM.Result.ok.inj h
    exact ⟨rfl, rfl, rfl⟩

theorem grow_same {i j : Insertion} {s u : Store} (h : i.grow s = .ok j u) : Same i j := by
  rw [grow_run] at h
  split at h
  · simp at h
  · rename_i j₁ u₁ h₁
    split at h
    · obtain ⟨rfl, -⟩ := EStateM.Result.ok.inj h
      exact growOnce_same h₁
    · split at h
      · simp at h
      · rename_i j₂ u₂ h₂
        split at h
        · obtain ⟨rfl, -⟩ := EStateM.Result.ok.inj h
          exact (growOnce_same h₁).trans (growOnce_same h₂)
        · simp at h

theorem fetch_same {i j : Insertion} {s u : Store} {f : FrameNo} (h : i.fetch s = .ok (f, j) u) :
    Same i j := by
  rw [fetch_run, bind_run] at h
  split at h
  · rename_i l v hl
    have hsame : Same i l := by
      split at hl
      · obtain ⟨rfl, -⟩ := EStateM.Result.ok.inj hl
        exact ⟨rfl, rfl, rfl⟩
      · exact grow_same hl
    simp only [bind_run, heapFile_run] at h
    split at h
    · obtain ⟨hr, -⟩ := EStateM.Result.ok.inj h
      obtain ⟨-, rfl⟩ := Prod.mk.inj hr
      exact ⟨hsame.handle, hsame.txn, hsame.row⟩
    · simp at h
  · simp at h

theorem seek_same {i j : Insertion} {s u : Store} {stopAt : FrameNo → Bool} {fuel : Nat}
    {f : FrameNo} (h : i.seek stopAt fuel s = .ok (f, j) u) : Same i j := by
  induction fuel generalizing i s with
  | zero =>
    have h' : (EStateM.Result.error _ s : EStateM.Result StoreError Store _) = .ok (f, j) u := h
    simp at h'
  | succ fuel ih =>
    rw [seek_run] at h
    split at h
    · simp at h
    · rename_i g l v hl
      split at h
      · obtain ⟨hr, -⟩ := EStateM.Result.ok.inj h
        obtain ⟨-, rfl⟩ := Prod.mk.inj hr
        exact fetch_same hl
      · exact (fetch_same hl).trans (ih h)

/-- The first page with room, of those still to be tried. -/
def find (i : Insertion) : StoreM FrameNo := do
  let (f, _) ← i.seek (fun _ => false) pageNumbers
  return f

theorem find_traced {i : Insertion} {s : Store} {table : TableId} (h : s.Shaped)
    (hk : s.handle? table = some i.handle) :
    Traced (Event.Seek i.txn) i.find s fun f u => u.Shaped ∧ u.Owns i.txn f := by
  apply (seek_traced h hk _ pageNumbers).bind
  rintro ⟨f, j⟩ u ⟨-, hu, hown, -⟩
  exact .pure ⟨hu, hown⟩

end Insertion

end RowStore
