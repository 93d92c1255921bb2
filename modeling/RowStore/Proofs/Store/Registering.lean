import RowStore.Proofs.Store.Searching

/-!
  Registering — the cases of `register` for a changed instance.

  The lock decides first. Then there are three ways to be accepted: the instance is the
  resident one, it replaces a clean instance that starts from the same image, or the page
  is not resident and there is room. A change that is refused has at most evicted pages.
-/

namespace RowStore.Store

/-! ## Changes that were registered or not -/

section Outcomes

variable {s u v : Store} {txn : TxnId} {row changed : Row} {change : StoreM (FrameNo × Row)}
  {f : FrameNo} {err : StoreError}

/-- Only what the change does in this state counts. -/
theorem registered_congr {other : StoreM (FrameNo × Row)} (h : change s = other s) :
    registered txn row change s = registered txn row other s := by
  unfold registered
  rw [h]

theorem registered_of_error (hx : change s = .error err u) :
    registered txn row change s = ⟨.error err, row, u⟩ := by
  rw [registered, hx]

theorem registered_of_refused (hx : change s = .ok (f, changed) u)
    (hr : register txn f u = .error err v) :
    registered txn row change s = ⟨.error err, changed, v⟩ := by
  rw [registered, hx]
  simp only [hr]

theorem registered_of_accepted (hx : change s = .ok (f, changed) u)
    (hr : register txn f u = .ok () v) :
    registered txn row change s = ⟨.ok (), changed, v⟩ := by
  rw [registered, hx]
  simp only [hr]

end Outcomes

/-! ## Registration -/

/-- The last part of a registration. -/
def mark (txn : TxnId) (page : PageId) (f : FrameNo) : StoreM Unit := do
  relate txn page
  setPage f ((← Store.page f).markedBy (some txn))

theorem register_run (s : Store) (txn : TxnId) (f : FrameNo) :
    register txn f s =
      if s.locks.mode? txn (s.frames.page f).id ≠ some .write then
        .error (.aborted txn (s.frames.page f).id) s
      else match s.table.frame? (s.frames.page f).id with
      | none => (makeRoom >>= fun _ => makeResident (s.frames.page f).id f >>= fun _ =>
          mark txn (s.frames.page f).id f) s
      | some g =>
        if g ≠ f then
          if (s.frames.page g).isDirty || (s.frames.page g).before != (s.frames.page f).before
          then .error (.aborted txn (s.frames.page f).id) s
          else (makeResident (s.frames.page f).id f >>= fun _ =>
            mark txn (s.frames.page f).id f) s
        else mark txn (s.frames.page f).id f s := by
  unfold register mark
  rw [bind_run, get_run]
  simp only
  split
  · rfl
  · cases s.table.frame? (s.frames.page f).id with
    | none => rfl
    | some g =>
      simp only
      split
      · split <;> rfl
      · rfl

/-- An instance that its transaction has changed is already marked. -/
theorem mark_run {s : Store} {txn : TxnId} {f : FrameNo} (page : PageId)
    (hd : (s.frames.page f).dirtier = some txn) :
    mark txn page f s = .ok () { s with table := s.table.relate txn page } := by
  have hp : (s.frames.page f).markedBy (some txn) = s.frames.page f := by
    unfold Page.markedBy
    rw [← hd]
  show EStateM.Result.ok () { s with
    frames := s.frames.setPage f ((s.frames.page f).markedBy (some txn))
    table := s.table.relate txn page } = _
  rw [hp, Frames.setPage_page]

theorem register_of_owns {s : Store} {txn : TxnId} {f : FrameNo} (h : s.Owns txn f)
    (hd : (s.frames.page f).dirtier = some txn) :
    register txn f s =
      .ok () { s with table := s.table.relate txn (s.frames.page f).id } := by
  rw [register_run, if_neg (by simp [h.locked]), h.resident]
  simp only [ne_eq, not_true_eq_false, if_false]
  exact mark_run _ hd

/-- How a changed instance was accepted. -/
inductive Accepted (txn : TxnId) (f : FrameNo) (s u : Store) : Prop
  | same : s.table.frame? (s.frames.page f).id = some f →
    Trace [.used txn (s.frames.page f).id] s u → Accepted txn f s u
  | replaced {g : FrameNo} : s.table.frame? (s.frames.page f).id = some g → g ≠ f →
    (s.frames.page g).before = (s.frames.page f).before →
    Trace [.installed txn f, .used txn (s.frames.page f).id] s u → Accepted txn f s u
  | absent {es : List Event} : s.table.frame? (s.frames.page f).id = none →
    (∀ e ∈ es, ∃ q, e = .evicted q) →
    Trace (es ++ [.installed txn f, .used txn (s.frames.page f).id]) s u → Accepted txn f s u

/-- The registration of a changed instance: accepted under the exclusive lock, or refused
after at most a few evictions. -/
inductive Registered (txn : TxnId) (f : FrameNo) (s : Store) :
    EStateM.Result StoreError Store Unit → Prop
  | accepted {u : Store} : s.locks.mode? txn (s.frames.page f).id = some .write →
    Accepted txn f s u → Registered txn f s (.ok () u)
  | refused {u : Store} {err : StoreError} {es : List Event} : Trace es s u →
    (∀ e ∈ es, ∃ q, e = .evicted q) → Registered txn f s (.error err u)

/-- Once nothing is in the way the instance becomes resident. -/
theorem install_run {s : Store} {txn : TxnId} {f : FrameNo} (hf : f < s.frames.size)
    (hd : (s.frames.page f).dirtier = some txn)
    (hl : s.locks.mode? txn (s.frames.page f).id = some .write)
    (hr : s.table.frame? (s.frames.page f).id = none ∧ s.table.size < s.maxPages ∨
      ∃ g, s.table.frame? (s.frames.page f).id = some g ∧ (s.frames.page g).dirtier = none ∧
        (s.frames.page g).before = (s.frames.page f).before) :
    ∃ u, (makeResident (s.frames.page f).id f >>= fun _ =>
        mark txn (s.frames.page f).id f) s = .ok () u ∧
      Trace [.installed txn f, .used txn (s.frames.page f).id] s u := by
  have hm : Move (.installed txn f) s
      { s with table := s.table.insert (s.frames.page f).id f } := .installed hf hd hl hr
  refine ⟨_, mark_run (s := { s with table := s.table.insert (s.frames.page f).id f }) _ hd, ?_⟩
  refine .cons hm (.single (.used ?_))
  show s.locks.mode? txn (s.frames.page f).id ≠ none
  rw [hl]
  simp

/-- A changed instance whose page is not resident becomes resident if there is room. -/
theorem register_of_absent {s : Store} (h : s.Shaped) {txn : TxnId} {f : FrameNo}
    (hf : f < s.frames.size) (hd : (s.frames.page f).dirtier = some txn)
    (hl : s.locks.mode? txn (s.frames.page f).id = some .write)
    (hg : s.table.frame? (s.frames.page f).id = none) :
    Registered txn f s (register txn f s) := by
  have hrun := register_run s txn f
  rw [if_neg (by simp [hl]), hg] at hrun
  simp only [bind_run] at hrun
  have hroom := makeRoom_room h
  cases hm : makeRoom s with
  | error err v =>
    rw [hm] at hrun hroom
    rw [hrun]
    cases hroom with
    | full ht he _ => exact .refused ht he
  | ok a v =>
    rw [hm] at hrun hroom
    cases hroom with
    | @made _ es ht he hc hs =>
      have hpage : v.frames.page f = s.frames.page f := by rw [hc.frames]
      -- the page is not resident, so no eviction has touched its locks
      have hkept : v.table.frame? (v.frames.page f).id = none ∧
          v.locks.mode? txn (v.frames.page f).id = some .write := by
        rw [hpage]
        rcases hc.page (s.frames.page f).id with ⟨hf', hl'⟩ | ⟨g, hg', -⟩
        · exact ⟨hf'.trans hg, (hl' txn).trans hl⟩
        · rw [hg] at hg'
          simp at hg'
      obtain ⟨u, hu, htu⟩ := install_run (hc.frames ▸ hf) (by rw [hpage]; exact hd) hkept.2
        (.inl ⟨hkept.1, hs⟩)
      rw [hpage] at hu htu
      have hu' : register txn f s = .ok () u := hrun.trans hu
      rw [hu']
      exact .accepted hl (.absent hg he (ht.append htu))

theorem register_registered {s : Store} (h : s.Shaped) {txn : TxnId} {f : FrameNo}
    (hf : f < s.frames.size) (hd : (s.frames.page f).dirtier = some txn) :
    Registered txn f s (register txn f s) := by
  have hrun := register_run s txn f
  by_cases hl : s.locks.mode? txn (s.frames.page f).id = some .write
  · rw [if_neg (by simp [hl])] at hrun
    cases hg : s.table.frame? (s.frames.page f).id with
    | none => exact register_of_absent h hf hd hl hg
    | some g =>
      rw [hg] at hrun
      simp only at hrun
      split at hrun
      · rename_i hne
        split at hrun
        · rw [hrun]
          exact .refused .nil (by simp)
        · rename_i hsame
          simp only [Bool.or_eq_true, bne_iff_ne, not_or, ne_eq,
            Decidable.not_not] at hsame
          have hclean : (s.frames.page g).dirtier = none := by
            simpa [Page.isDirty] using hsame.1
          obtain ⟨u, hu, htu⟩ := install_run hf hd hl (.inr ⟨g, hg, hclean, hsame.2⟩)
          rw [hrun.trans hu]
          exact .accepted hl (.replaced hg hne hsame.2 htu)
      · rename_i heq
        obtain rfl : g = f := by simpa using heq
        rw [hrun, mark_run _ hd]
        exact .accepted hl (.same hg (.single (.used (by rw [hl]; simp))))
  · -- the lock went while the call was suspended
    rw [if_pos hl] at hrun
    rw [hrun]
    exact .refused .nil (by simp)

end RowStore.Store
