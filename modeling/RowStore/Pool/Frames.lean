import RowStore.Page.Basic

/-!
  Frames — page instances, numbered as they are made.

  A page that is loaded twice is in two frames, which may differ; whoever holds a
  frame's number sees every change made in that frame.
-/

namespace RowStore

/-- The number of a page instance. -/
abbrev FrameNo := Nat

/-- All page instances made so far. -/
abbrev Frames := Array Page

namespace Frames

/-- The page in a frame. -/
def page (fs : Frames) (f : FrameNo) : Page := fs.getD f default

/-- Replaces the page in a frame. -/
def setPage (fs : Frames) (f : FrameNo) (p : Page) : Frames := fs.setIfInBounds f p

theorem page_setPage_self {fs : Frames} {f : FrameNo} (h : f < fs.size) (p : Page) :
    (fs.setPage f p).page f = p := by
  simp [page, setPage, h]

theorem page_setPage_ne {fs : Frames} {f g : FrameNo} (h : f ≠ g) (p : Page) :
    (fs.setPage f p).page g = fs.page g := by
  simp [page, setPage, Array.getD_eq_getD_getElem?, Array.getElem?_setIfInBounds_ne h]

end Frames

end RowStore
