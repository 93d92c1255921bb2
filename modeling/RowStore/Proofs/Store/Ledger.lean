import RowStore.Proofs.Store.Preparing

/-!
  The ledger — what the pool stands for.

  A `Ledger` has for each page one committed image and at most one pending image with its
  owner. A transaction that ends has the pending images of some pages committed and the
  rest given up, page by page (`Ledger.finish_of_pages`). The ledger of a store
  (`Store.ledger`) takes the committed images from the files and the pending ones from the
  dirty resident pages.
-/

namespace RowStore

structure Ledger where
  committed : PageId → Block
  pending : PageId → Option (TxnId × Block)

namespace Ledger

/-- The image of a page that a transaction is shown. -/
def view (l : Ledger) (txn : TxnId) (page : PageId) : Block :=
  match l.pending page with
  | some (owner, image) => if owner = txn then image else l.committed page
  | none => l.committed page

/-- Whether a transaction owns the pending image of a page. -/
def owns (l : Ledger) (txn : TxnId) (page : PageId) : Bool :=
  match l.pending page with
  | some (owner, _) => owner == txn
  | none => false

/-- No other transaction has a pending image of the page. -/
def FreeFor (l : Ledger) (txn : TxnId) (page : PageId) : Prop :=
  ∀ owner image, l.pending page = some (owner, image) → owner = txn

/-- The pending image of a page becomes another. -/
def edit (l : Ledger) (txn : TxnId) (page : PageId) (image : Block) : Ledger :=
  { l with pending := fun q => if q = page then some (txn, image) else l.pending q }

/-- A transaction ends: its pending images of the pages in `saved` are committed, the
others are given up. -/
def finish (l : Ledger) (txn : TxnId) (saved : List PageId) : Ledger where
  committed q := if q ∈ saved then l.view txn q else l.committed q
  pending q := if l.owns txn q then none else l.pending q

theorem ext {l m : Ledger} (hc : ∀ page, l.committed page = m.committed page)
    (hp : ∀ page, l.pending page = m.pending page) : l = m := by
  cases l
  cases m
  congr
  · funext page
    exact hc page
  · funext page
    exact hp page

/-! ## Page by page -/

/-- The image of a page that was written last, by whomever. -/
def latest (l : Ledger) (page : PageId) : Block :=
  match l.pending page with
  | some (_, image) => image
  | none => l.committed page

/-- The pending image of a page is given up. -/
def drop (l : Ledger) (page : PageId) : Ledger :=
  { l with pending := fun q => if q = page then none else l.pending q }

/-- The pending image of a page becomes the committed one. -/
def commit (l : Ledger) (page : PageId) : Ledger where
  committed q := if q = page then l.latest q else l.committed q
  pending q := if q = page then none else l.pending q

theorem latest_commit (l : Ledger) (page q : PageId) : (l.commit page).latest q = l.latest q := by
  by_cases hq : q = page
  · simp only [commit, latest, if_pos hq]
  · simp only [commit, latest, if_neg hq]

theorem foldl_commit (pages : List PageId) (l : Ledger) (q : PageId) :
    (pages.foldl commit l).committed q = (if q ∈ pages then l.latest q else l.committed q) ∧
      (pages.foldl commit l).pending q = if q ∈ pages then none else l.pending q := by
  induction pages generalizing l with
  | nil => simp
  | cons page rest ih =>
    obtain ⟨hc, hp⟩ := ih (l.commit page)
    rw [latest_commit] at hc
    rw [List.foldl_cons, hc, hp]
    simp only [commit, List.mem_cons]
    by_cases hq : q = page
    · simp only [hq, true_or, if_true, ite_self, and_self]
    · simp only [hq, false_or, if_false, and_self]

theorem foldl_drop (pages : List PageId) (l : Ledger) (q : PageId) :
    (pages.foldl drop l).committed q = l.committed q ∧
      (pages.foldl drop l).pending q = if q ∈ pages then none else l.pending q := by
  induction pages generalizing l with
  | nil => simp
  | cons page rest ih =>
    obtain ⟨hc, hp⟩ := ih (l.drop page)
    rw [List.foldl_cons, hc, hp]
    simp only [drop, List.mem_cons, true_and]
    by_cases hq : q = page
    · simp only [hq, true_or, if_true, ite_self]
    · simp only [hq, false_or, if_false]

theorem view_of_owns {l : Ledger} {txn : TxnId} {page : PageId} (h : l.owns txn page = true) :
    l.view txn page = l.latest page := by
  unfold owns at h
  unfold view latest
  cases hp : l.pending page with
  | none => rfl
  | some x =>
    rw [hp] at h
    exact if_pos (eq_of_beq h)

/-- A transaction that goes through the pages that it owns, committing some and then giving
up the others, ends so. -/
theorem finish_of_pages {l : Ledger} {txn : TxnId} {done rest : List PageId}
    (h : ∀ q, q ∈ done ++ rest ↔ l.owns txn q = true) :
    rest.foldl drop (done.foldl commit l) = l.finish txn done := by
  apply ext
  · intro q
    rw [(foldl_drop rest _ q).1, (foldl_commit done l q).1]
    show _ = if q ∈ done then l.view txn q else l.committed q
    split
    · rename_i hq
      rw [view_of_owns ((h q).mp (List.mem_append_left _ hq))]
    · rfl
  · intro q
    rw [(foldl_drop rest _ q).2, (foldl_commit done l q).2]
    show _ = if l.owns txn q then none else l.pending q
    have hq := h q
    rw [List.mem_append] at hq
    by_cases ho : l.owns txn q = true
    · rw [if_pos ho]
      rcases hq.mpr ho with hd | hr
      · rw [if_pos hd, ite_self]
      · rw [if_pos hr]
    · rw [if_neg ho, if_neg fun hr => ho (hq.mp (.inr hr)),
        if_neg fun hd => ho (hq.mp (.inl hd))]

end Ledger

namespace Store

/-- The pending image of a page: that of its resident instance, if that is dirty. -/
def pending (s : Store) (page : PageId) : Option (TxnId × Block) :=
  match s.table.frame? page with
  | none => none
  | some f =>
    match (s.frames.page f).dirtier, (s.frames.page f).image with
    | some txn, .ok image => some (txn, image)
    | _, _ => none

/-- What a store stands for. -/
def ledger (s : Store) : Ledger := ⟨s.onDisk, s.pending⟩

theorem pending_of_absent {s : Store} {page : PageId} (h : s.table.frame? page = none) :
    s.pending page = none := by
  rw [Store.pending, h]

theorem pending_of_clean {s : Store} {page : PageId} {f : FrameNo}
    (hf : s.table.frame? page = some f) (hd : (s.frames.page f).dirtier = none) :
    s.pending page = none := by
  simp only [Store.pending, hf, hd]

/-- The pending images depend on the resident instances only. -/
theorem pending_congr {s s' : Store} {page : PageId}
    (ht : s'.table.frame? page = s.table.frame? page)
    (hf : ∀ f, s.table.frame? page = some f → s'.frames.page f = s.frames.page f) :
    s'.pending page = s.pending page := by
  unfold Store.pending
  rw [ht]
  cases hp : s.table.frame? page with
  | none => rfl
  | some f =>
    simp only
    rw [hf f hp]

/-- Frames and residency stay as they were. -/
theorem pending_of_same {s s' : Store} {page : PageId}
    (ht : ∀ q, s'.table.frame? q = s.table.frame? q) (hf : s'.frames = s.frames) :
    s'.pending page = s.pending page :=
  pending_congr (ht page) fun _ _ => by rw [hf]

end Store

end RowStore
