import RowStore.Pool.Frames
import RowStore.Pool.Relation

/-!
  The page table — which pages are resident, in which frames, in load order.

  A page that becomes resident goes to the end of the order and keeps its place
  when its frame is replaced. Dirty pages are listed in that order and the victim
  of an eviction is the first clean page in it.
-/

namespace RowStore

structure PageTable where
  /-- The resident pages in load order. -/
  order : List PageId
  frames : Std.ExtTreeMap PageId FrameNo
  relation : Relation

namespace PageTable

def empty : PageTable := ⟨[], ∅, .empty⟩

instance : Inhabited PageTable := ⟨empty⟩

/-- The number of resident pages. -/
def size (t : PageTable) : Nat := t.frames.size

def isEmpty (t : PageTable) : Bool := t.frames.isEmpty

def contains (t : PageTable) (page : PageId) : Bool := t.frames.contains page

/-- The frame of a resident page. -/
def frame? (t : PageTable) (page : PageId) : Option FrameNo := t.frames[page]?

/-- Makes a frame the resident instance of a page. -/
def insert (t : PageTable) (page : PageId) (frame : FrameNo) : PageTable :=
  { t with
    order := if t.contains page then t.order else t.order ++ [page]
    frames := t.frames.insert page frame }

/-- Ends the residency of a page. Who has used it is not forgotten. -/
def remove (t : PageTable) (page : PageId) : PageTable :=
  if t.contains page then
    { t with order := t.order.filter (· != page), frames := t.frames.erase page }
  else t

def relate (t : PageTable) (txn : TxnId) (page : PageId) : PageTable :=
  { t with relation := t.relation.add txn page }

def unrelate (t : PageTable) (txn : TxnId) (page : PageId) : PageTable :=
  { t with relation := t.relation.remove txn page }

def unrelatePage (t : PageTable) (page : PageId) : PageTable :=
  { t with relation := t.relation.removePage page }

def forgetTxn (t : PageTable) (txn : TxnId) : PageTable :=
  { t with relation := t.relation.removeTxn txn }

/-- The resident pages with their frames, in load order. -/
def resident (t : PageTable) : List (PageId × FrameNo) :=
  t.order.filterMap fun page => (t.frame? page).map (page, ·)

/-- The resident pages that a transaction made dirty. -/
def dirtiedBy (t : PageTable) (fs : Frames) (txn : TxnId) : List (PageId × FrameNo) :=
  t.resident.filter fun (_, f) => (fs.page f).dirtier == some txn

/-- The resident pages that anyone made dirty. -/
def dirtyPages (t : PageTable) (fs : Frames) : List (PageId × FrameNo) :=
  t.resident.filter fun (_, f) => (fs.page f).isDirty

/-- The first clean page. -/
def victim? (t : PageTable) (fs : Frames) : Option PageId :=
  (t.resident.find? fun (_, f) => !(fs.page f).isDirty).map Prod.fst

end PageTable

end RowStore
