import RowStore.Proofs.Store.Loading
import RowStore.Proofs.Store.Viewing

/-!
  Placing — which slot an insertion puts its row into.

  A search tries the pages of its table in turn and stops at the first that has a free
  slot; when all are full it appends a page, which has room, so it never grows the file
  twice (`seek_seeks`). Fetches on the way evict, load and lock pages, but show the same
  rows on each. Main statement: an insertion puts its row into the first free slot of the
  first page that has one, or into the first slot of a page that it appends, and no other
  slot changes; if it fails, no row has changed at all (`Chronicle.inserts_first`).
-/

namespace RowStore

namespace Store

/-! ## Fetches of a search -/

/-- A page that is shown with every slot used. -/
def Full (s : Store) (page : PageId) : Prop :=
  ∃ p, s.view page = some p ∧ ∀ i, i < p.slotCount → p.isUsed i = true

theorem Looks.full {s u : Store} (h : Looks none s u) {page : PageId}
    (hn : s.Numbered page.table) (hf : u.Full page) : s.Full page := by
  obtain ⟨q, hq, hused⟩ := hf
  obtain ⟨p, hp, hm⟩ := h.view_eq_some hn (by simp) hq
  refine ⟨p, hp, fun i hi => ?_⟩
  rw [← hm.used]
  exact hused i (hm.slotCount ▸ hi)

/-- A page that was added has room when it is fetched. -/
theorem Looks.hasRoom_added {s u : Store} {page : PageId} (h : Looks (some page) s u)
    {txn : TxnId} {f : FrameNo} (hown : u.Owns txn f) (hid : (u.frames.page f).id = page) :
    (u.frames.page f).hasRoom = true := by
  obtain ⟨-, -, p, -, -, -, -, -, -, hp, hblank⟩ := h.appended _ rfl
  rw [← hid, view_of_resident hown.resident] at hp
  rw [Option.some.inj hp, Page.hasRoom, hblank.firstFree?]
  rfl

section Fetching
variable {s u : Store} {txn : TxnId} {page : PageId}

theorem Mirrored.getPage_ok (h : s.Mirrored) {f : FrameNo}
    (hx : getPage txn page .write s = .ok f u) :
    Looks none s u ∧ u.Owns txn f ∧ (u.frames.page f).id = page := by
  obtain ⟨⟨es, ht, he⟩, -, hown, hid⟩ := (getPage_owns h.shaped txn page).ok hx
  exact ⟨ht.looks h fun e hm => (he e hm).1, hown, hid⟩

theorem Mirrored.getPage_error (h : s.Mirrored) {err : StoreError}
    (hx : getPage txn page .write s = .error err u) :
    Looks none s u ∧ ∀ t, err ≠ .noPageNumber t := by
  obtain ⟨es, ht, he⟩ := (getPage_owns h.shaped txn page).error hx
  refine ⟨ht.looks h fun e hm => (he e hm).1, fun t => ?_⟩
  rcases Store.getPage_error h.shaped hx with rfl | rfl | herr
  · simp
  · simp
  · exact herr.ne_noPageNumber t

end Fetching

theorem allocatePage_error {s u : Store} {k : HandleNo} {err : StoreError}
    (h : allocatePage k s = .error err u) : err.Unreadable := by
  rw [allocatePage_run] at h
  cases hp : (s.heap k).place ((s.heap k).nextPage (s.fileOf k)) with
  | error e =>
    simp only [HeapFile.allocate, hp, bind, Except.bind] at h
    rw [← (EStateM.Result.error.inj h).1]
    exact unreadable_of_place hp
  | ok start => simp [HeapFile.allocate, hp, bind, Except.bind, pure, Except.pure] at h

end Store

namespace Insertion

open Store

/-! ## Searches of an insertion -/

theorem reach_run (j : Insertion) (s : Store) :
    j.reach s = match getPage j.txn ⟨(s.heap j.handle).table, j.next⟩ .write s with
      | .ok f u => .ok (f, { j with next := j.next + 1 }) u
      | .error err u => .error err u := by
  unfold reach
  rw [bind_run, heapFile_run]
  simp only
  rw [bind_run]
  cases getPage j.txn ⟨(s.heap j.handle).table, j.next⟩ .write s <;> rfl

theorem fetch_of_lt {i : Insertion} (hlt : i.next < i.stop) (s : Store) :
    i.fetch s = i.reach s := by
  rw [fetch_run, if_pos hlt]
  rfl

/-- How a search ends that has the pages from `next` to before `stop`, the last one of its
table, still to try. -/
inductive Seeks (table : TableId) (i : Insertion) (s : Store) :
    EStateM.Result StoreError Store (FrameNo × Insertion) → Prop
  | found {added : Option PageId} {n : Nat} {f : FrameNo} {j : Insertion} {u : Store} :
    added = none ∧ n < i.stop ∨ added = some ⟨table, n⟩ ∧ n = i.stop →
    (∀ m, i.next ≤ m → m < n → s.Full ⟨table, m⟩) → Looks added s u → u.Owns i.txn f →
    (u.frames.page f).id = ⟨table, n⟩ → Seeks table i s (.ok (f, j) u)
  | failed {added : Option PageId} {err : StoreError} {u : Store} :
    (∀ page, added = some page → page = ⟨table, i.stop⟩) → Looks added s u →
    (∀ t, err ≠ .noPageNumber t) → Seeks table i s (.error err u)

/-- A full page before those that are still to be tried. -/
theorem Seeks.later {table : TableId} {i j : Insertion} {s u : Store}
    {r : EStateM.Result StoreError Store (FrameNo × Insertion)} (hu : Looks none s u)
    (hn : s.Numbered table) (hj : j = { i with next := i.next + 1 }) (hfull : s.Full ⟨table, i.next⟩)
    (h : Seeks table j u r) : Seeks table i s r := by
  subst hj
  cases h with
  | found hplace hbefore hlooks hown hid =>
    refine .found hplace (fun m h₁ h₂ => ?_) (hu.trans hlooks ?_) hown hid
    · rcases Nat.eq_or_lt_of_le h₁ with rfl | h₁
      · exact hfull
      · exact hu.full hn (hbefore m h₁ h₂)
    · intro page hp
      rcases hplace with ⟨rfl, -⟩ | ⟨rfl, -⟩
      · simp at hp
      · obtain rfl := Option.some.inj hp
        exact hn
  | failed hadded hlooks herr =>
    refine .failed hadded (hu.trans hlooks ?_) herr
    intro page hp
    obtain rfl := hadded page hp
    exact hn

section Searching
variable {table : TableId} {i : Insertion} {s : Store}

/-- A file with two page numbers left grows by one page, unless there is no place for it. -/
theorem grow_looks (h : s.Mirrored) (hk : s.handle? table = some i.handle)
    (hn : s.wholePages i.handle + 1 < pageNumbers) (hstop : i.stop = s.wholePages i.handle) :
    (∃ err, allocatePage i.handle s = .error err s ∧ i.grow s = .error err s) ∨
      ∃ u, i.grow s = .ok (i.behind u) u ∧ Looks (some ⟨table, i.stop⟩) s u := by
  have hrun := grow_run i s
  rcases growOnce_cases i s with ⟨err, ha, hi⟩ | ⟨id, u, ha, hi⟩
  · rw [hi] at hrun
    exact .inl ⟨err, ha, hrun⟩
  have hlooks := h.grown hk hn ha
  obtain ⟨k, f, p, hk', -, hpages, -⟩ := hlooks.appended _ rfl
  obtain rfl : i.handle = k := Option.some.inj (hk.symm.trans hk')
  have hcount : (u.heap i.handle).pageCount (u.fileOf i.handle) = u.wholePages i.handle :=
    HeapFile.pageCount_of_lt (by rw [← hpages] at hn; exact hn)
  -- the new page is one to try
  have hbehind : (i.behind u).next < (i.behind u).stop := by
    show i.stop < (u.heap i.handle).pageCount (u.fileOf i.handle)
    rw [hcount, hpages, hstop]
    exact Nat.lt_succ_self _
  rw [hi] at hrun
  simp only [if_pos hbehind] at hrun
  rw [← hstop] at hlooks
  exact .inr ⟨u, hrun, hlooks⟩

/-- When all pages were tried, the file grows by one, and that one has room. -/
theorem seek_grows (h : s.Mirrored) (hk : s.handle? table = some i.handle)
    (hn : s.wholePages i.handle + 1 < pageNumbers) (hstop : i.stop = s.wholePages i.handle)
    (hnext : i.next = i.stop) (fuel : Nat) :
    Seeks table i s (i.seek (fun _ => false) (fuel + 1) s) := by
  have hfetch : i.fetch s = (i.grow >>= reach) s := by
    rw [fetch_run, if_neg (by rw [hnext]; exact Nat.lt_irrefl _)]
    rfl
  rw [seek_run, hfetch, bind_run]
  rcases grow_looks h hk hn hstop with ⟨err, ha, hgrow⟩ | ⟨u, hgrow, hlooks⟩
  · rw [hgrow]
    exact .failed (by simp) (.refl h) (allocatePage_error ha).ne_noPageNumber
  have hadded : ∀ page, some (PageId.mk table i.stop) = some page → page = ⟨table, i.stop⟩ :=
    fun page hp => (Option.some.inj hp).symm
  have hnum : ∀ page, some (PageId.mk table i.stop) = some page → s.Numbered page.table := by
    intro page hp
    rw [hadded page hp]
    exact numbered_of_lt hk (Nat.lt_of_succ_lt hn)
  have hreach : (i.behind u).reach u = match getPage i.txn ⟨table, i.stop⟩ .write u with
      | .ok f v => .ok (f, { i.behind u with next := i.stop + 1 }) v
      | .error err v => .error err v := by
    have htable : (u.heap i.handle).table = table :=
      (hlooks.heap i.handle).table.trans (h.laid.registered hk).2
    rw [reach_run, ← htable]
    rfl
  rw [hgrow]
  simp only
  rw [hreach]
  cases hget : getPage i.txn ⟨table, i.stop⟩ .write u with
  | error err v =>
    obtain ⟨hfetched, herr⟩ := hlooks.mirrored.getPage_error hget
    exact .failed hadded (hlooks.followed hfetched hnum) herr
  | ok f v =>
    obtain ⟨hfetched, hown, hid⟩ := hlooks.mirrored.getPage_ok hget
    have hsearched := hlooks.followed hfetched hnum
    -- the page is blank, so the search is over
    have hroom : (v.frames.page f).hasRoom = true := hsearched.hasRoom_added hown hid
    simp only [hroom, Bool.or_true, if_true]
    refine .found (.inr ⟨rfl, rfl⟩) (fun m h₁ h₂ => ?_) hsearched hown hid
    exact absurd h₂ (Nat.not_lt_of_le (hnext ▸ h₁))

theorem seek_seeks (h : s.Mirrored) (hk : s.handle? table = some i.handle)
    (hn : s.wholePages i.handle + 1 < pageNumbers) (hstop : i.stop = s.wholePages i.handle)
    (hnext : i.next ≤ i.stop) {fuel : Nat} (hfuel : i.stop < fuel + i.next) :
    Seeks table i s (i.seek (fun _ => false) fuel s) := by
  induction fuel generalizing i s with
  | zero => omega
  | succ fuel ih =>
    have hnum := numbered_of_lt hk (Nat.lt_of_succ_lt hn)
    rcases Nat.eq_or_lt_of_le hnext with hall | hlt
    · exact seek_grows h hk hn hstop hall fuel
    rw [seek_run, fetch_of_lt hlt, reach_run, (h.laid.registered hk).2]
    cases hget : getPage i.txn ⟨table, i.next⟩ .write s with
    | error err u =>
      obtain ⟨hlooks, herr⟩ := h.getPage_error hget
      exact .failed (by simp) hlooks herr
    | ok f u =>
      obtain ⟨hlooks, hown, hid⟩ := h.getPage_ok hget
      have hview : u.view ⟨table, i.next⟩ = some (u.frames.page f) := by
        rw [← hid]
        exact view_of_resident hown.resident
      simp only [Bool.false_or]
      cases hroom : (u.frames.page f).hasRoom with
      | true =>
        simp only [if_true]
        refine .found (.inl ⟨rfl, hlt⟩) (fun m h₁ h₂ => ?_) hlooks hown hid
        exact absurd h₂ (Nat.not_lt_of_le h₁)
      | false =>
        simp only [Bool.false_eq_true, if_false]
        have hfull : u.Full ⟨table, i.next⟩ := ⟨_, hview, Page.hasRoom_eq_false_iff.mp hroom⟩
        have hpages : u.wholePages i.handle = s.wholePages i.handle := hlooks.wholePages i.handle
        refine .later hlooks hnum rfl (hlooks.full hnum hfull) (ih hlooks.mirrored ?_ ?_ ?_ hlt ?_)
        · exact (hlooks.handle table).trans hk
        · exact hpages ▸ hn
        · exact hstop.trans hpages.symm
        · show i.stop < fuel + (i.next + 1)
          omega

end Searching

end Insertion

namespace Store

theorem insertion_search {s : Store} {table : TableId} {k : HandleNo}
    (hk : s.handle? table = some k) (txn : TxnId) (row : Row) :
    (Edit.insertion table row).search txn s =
      if row.schema ≠ (s.heap k).schema then .error .schemaMismatch s
      else match Insertion.seek (fun _ => false) pageNumbers
        ⟨k, txn, row, 0, (s.heap k).pageCount (s.fileOf k)⟩ s with
        | .ok (f, _) u => .ok f u
        | .error err u => .error err u := by
  have hstart := Insertion.start_run s k txn row
  have htable := tableFile_run s table
  rw [hk] at htable
  rw [Edit.search, bind_run, htable]
  simp only [bind_run, hstart]
  by_cases hschema : row.schema ≠ (s.heap k).schema
  · rw [if_pos hschema, if_pos hschema]
  · rw [if_neg hschema, if_neg hschema]
    simp only [Insertion.find, bind_run]
    cases Insertion.seek (fun _ => false) pageNumbers
      ⟨k, txn, row, 0, (s.heap k).pageCount (s.fileOf k)⟩ s <;> rfl

/-! ## Insertions -/

/-- The bytes of the row that a page is shown with in a slot. -/
def tuple? (s : Store) (page : PageId) (slot : Nat) : Option (Option Bytes) :=
  ((s.view page).bind (·.row? slot)).map Row.encode

/-- What an insertion has done that put its row into a slot of a page. -/
structure Placed (txn : TxnId) (stored : Row) (page : PageId) (slot : Nat) (s v : Store) :
    Prop where
  /-- All pages before it are full. -/
  first : ∀ m, m < page.page → s.Full ⟨page.table, m⟩
  /-- The slot is the first that was free on a page of the file, or the first of a page that
  was appended to it. -/
  place : ∃ k, s.handle? page.table = some k ∧
    ((page.page < s.wholePages k ∧ v.volume = s.volume ∧
      ∃ p, s.view page = some p ∧ slot < p.slotCount ∧ p.isUsed slot = false ∧
        ∀ i, i < slot → p.isUsed i = true) ∨
    page.page = s.wholePages k ∧ slot = 0 ∧ v.wholePages k = s.wholePages k + 1 ∧
      s.view page = none)
  resident : ∃ f, v.table.frame? page = some f ∧ (v.frames.page f).dirtier = some txn ∧
    (v.frames.page f).isUsed slot = true ∧ (v.frames.page f).row? slot = some stored
  locked : v.locks.mode? txn page = some .write
  slots : ∀ i, i ≠ slot → v.tuple? page i = s.tuple? page i
  others : ∀ q, q ≠ page → s.Numbered q.table →
    Option.Rel Page.Matches (s.view q) (v.view q)
  markers : ∀ q, q ≠ page → v.marker? q = s.marker? q

/-- How an insertion ends. -/
inductive Inserts (txn : TxnId) (table : TableId) (row : Row) (s : Store) : Outcome → Prop
  | placed {n : Nat} {slot : UInt16} {v : Store} :
    Placed txn (row.storedAt (some ⟨⟨table, n⟩, slot⟩)) ⟨table, n⟩ slot.toNat s v →
    Inserts txn table row s ⟨.ok (), row.storedAt (some ⟨⟨table, n⟩, slot⟩), v⟩
  | failed {added : Option PageId} {err : StoreError} {v : Store} :
    (∀ page, added = some page → page.table = table) → Searched added s v →
    (∀ t, err ≠ .noPageNumber t) → Inserts txn table row s ⟨.error err, row, v⟩

section Changing
variable {u : Store} {txn : TxnId} {page : PageId} {f : FrameNo}

/-- The store after a resident page was changed in its frame. -/
def changing (u : Store) (txn : TxnId) (page : PageId) (f : FrameNo) (q : Page) : Store :=
  { u with frames := u.frames.setPage f q, table := u.table.relate txn page }

theorem view_changing (h : u.Shaped) (hf : u.table.frame? page = some f) (q : Page)
    (r : PageId) : (u.changing txn page f q).view r = if r = page then some q else u.view r := by
  have hframe : (u.changing txn page f q).table.frame? r = u.table.frame? r := rfl
  split
  · rename_i hr
    rw [view_of_resident (hframe.trans (hr ▸ hf))]
    exact congrArg some (Frames.page_setPage_self (h.filed hf).1 q)
  · rename_i hr
    cases hg : u.table.frame? r with
    | none => rw [view_of_absent hg, view_of_absent (hframe.trans hg)]; rfl
    | some g =>
      have hne : f ≠ g := fun hfg => hr (h.frame_inj hg (hfg ▸ hf))
      rw [view_of_resident hg, view_of_resident (hframe.trans hg)]
      exact congrArg some (Frames.page_setPage_ne hne q)

theorem marker?_changing (h : u.Shaped) (hf : u.table.frame? page = some f) (q : Page)
    {r : PageId} (hr : r ≠ page) : (u.changing txn page f q).marker? r = u.marker? r := by
  show (u.table.frame? r).bind (fun g => (Frames.page (u.frames.setPage f q) g).dirtier) = _
  rw [marker?]
  cases hg : u.table.frame? r with
  | none => rfl
  | some g =>
    have hne : f ≠ g := fun hfg => hr (h.frame_inj hg (hfg ▸ hf))
    rw [Option.bind_some, Option.bind_some, Frames.page_setPage_ne hne]

end Changing

/-- The row goes into the first free slot of the page that the search has found. -/
theorem Looks.placed {s u : Store} {added : Option PageId} (h : Looks added s u) {txn : TxnId}
    {table : TableId} {k : HandleNo} {n : Nat} {f : FrameNo} (hk : s.handle? table = some k)
    (hn : s.wholePages k < pageNumbers)
    (hplace : added = none ∧ n < s.wholePages k ∨
      added = some ⟨table, n⟩ ∧ n = s.wholePages k)
    (hfirst : ∀ m, m < n → s.Full ⟨table, m⟩) (hown : u.Owns txn f)
    (hid : (u.frames.page f).id = ⟨table, n⟩) {slot : Nat} {stored : Row}
    (hslot : (u.frames.page f).firstFree? = some slot) :
    Placed txn stored ⟨table, n⟩ slot s (u.changing txn ⟨table, n⟩ f
      (((u.frames.page f).withSlot slot (some stored)).markedBy (some txn))) := by
  have hu := h.mirrored.shaped
  have hnum := numbered_of_lt hk hn
  have hf : u.table.frame? ⟨table, n⟩ = some f := hid ▸ hown.resident
  have hview : u.view ⟨table, n⟩ = some (u.frames.page f) := view_of_resident hf
  have hformed : (u.frames.page f).Formed := (h.mirrored.mirrors (h.numbered table hnum) hf).formed
  have hbits : (u.frames.page f).slotCount ≤ (u.frames.page f).used.size := by
    rw [hformed.bits]
    exact Page.slots_le_bits _
  have hlt := (Page.firstFree?_eq_some_iff.mp hslot).1
  generalize hq : ((u.frames.page f).withSlot slot (some stored)).markedBy (some txn) = q
  have hdirtier : q.dirtier = some txn := by rw [← hq]; rfl
  have hrow (i : Nat) : q.row? i = if i = slot then some stored else (u.frames.page f).row? i := by
    rw [← hq]
    exact Page.row?_withSlot hlt (some stored) i
  have hused : q.isUsed slot = true := by
    rw [← hq]
    have hset := Page.isUsed_withSlot hlt hbits (some stored) slot
    rw [if_pos rfl] at hset
    exact hset
  have hpage : (u.changing txn ⟨table, n⟩ f q).frames.page f = q :=
    Frames.page_setPage_self (hu.filed hf).1 q
  have hviews (r : PageId) : (u.changing txn ⟨table, n⟩ f q).view r =
      if r = ⟨table, n⟩ then some q else u.view r := view_changing hu hf q r
  refine ⟨hfirst, ⟨k, hk, ?_⟩, ⟨f, hf, ?_, ?_, ?_⟩, ?_, fun i hi => ?_, fun r hr hrn => ?_,
    fun r hr => ?_⟩
  · rcases hplace with ⟨rfl, hlast⟩ | ⟨rfl, hlast⟩
    · obtain ⟨p, hp, hmatch⟩ := h.view_eq_some hnum (by simp) hview
      rw [hmatch.firstFree?] at hslot
      exact .inl ⟨hlast, h.volume rfl, p, hp, Page.firstFree?_eq_some_iff.mp hslot⟩
    · obtain ⟨j, -, p, hj, -, hpages, -, -, hnone, hp, hblank⟩ := h.appended _ rfl
      obtain rfl : k = j := Option.some.inj (hk.symm.trans hj)
      obtain rfl : u.frames.page f = p := Option.some.inj (hview.symm.trans hp)
      rw [hblank.firstFree?] at hslot
      exact .inr ⟨hlast, (Option.some.inj hslot).symm, hpages, hnone⟩
  · rw [hpage, hdirtier]
  · rw [hpage, hused]
  · rw [hpage, hrow, if_pos rfl]
  · show u.locks.mode? txn ⟨table, n⟩ = some .write
    rw [← hid]
    exact hown.locked
  · rw [tuple?, tuple?, hviews, if_pos rfl, Option.bind_some, hrow, if_neg hi]
    rcases hplace with ⟨rfl, -⟩ | ⟨rfl, -⟩
    · obtain ⟨p, hp, hmatch⟩ := h.view_eq_some hnum (by simp) hview
      rw [hp, Option.bind_some, hmatch.rows]
    · obtain ⟨-, -, p, -, -, -, -, -, hnone, hp, hblank⟩ := h.appended _ rfl
      obtain rfl : u.frames.page f = p := Option.some.inj (hview.symm.trans hp)
      rw [hnone, hblank.free]
      rfl
  · rw [hviews, if_neg hr]
    refine h.views r hrn fun hadd => ?_
    rcases hplace with ⟨rfl, -⟩ | ⟨rfl, -⟩
    · simp at hadd
    · exact hr (Option.some.inj hadd).symm
  · rw [marker?_changing hu hf q hr]
    exact h.markers r

theorem insert_error {p : Page} {r : Row} {err : StoreError} (h : p.insert r = .error err)
    (t : TableId) : err ≠ .noPageNumber t := by
  rintro rfl
  unfold Page.insert at h
  split at h
  · rename_i e he
    obtain rfl := Except.error.inj h
    unfold Page.slotFrom at he
    split at he
    · simp at he
    split at he
    · simp at he
    split at he <;> simp at he
  · simp at h

/-- What becomes of an insertion that has found its page. -/
theorem Looks.inserts {s u : Store} {added : Option PageId} (h : Looks added s u) {txn : TxnId}
    {table : TableId} {k : HandleNo} {n : Nat} {f : FrameNo} {row : Row}
    (hk : s.handle? table = some k) (hn : s.wholePages k < pageNumbers)
    (hplace : added = none ∧ n < s.wholePages k ∨
      added = some ⟨table, n⟩ ∧ n = s.wholePages k)
    (hfirst : ∀ m, m < n → s.Full ⟨table, m⟩) (hown : u.Owns txn f)
    (hid : (u.frames.page f).id = ⟨table, n⟩)
    (hs : (Edit.insertion table row).search txn s = .ok f u) :
    Inserts txn table row s (registered txn row
      ((Edit.insertion table row).search txn >>= (Edit.insertion table row).change txn) s) := by
  cases ha : (u.frames.page f).insert row with
  | error err =>
    rw [registered_of_unchanged (e := .insertion table row) hs ha]
    refine .failed (fun page hp => ?_) h.toSearched (insert_error ha)
    rcases hplace with ⟨rfl, -⟩ | ⟨rfl, -⟩
    · simp at hp
    · rw [← Option.some.inj hp]
  | ok stored =>
    obtain ⟨stored, p⟩ := stored
    rw [registered_of_applied (e := .insertion table row) hs h.mirrored.shaped hown ha, hid]
    obtain ⟨slot, hfree, -, -, rfl, rfl⟩ := Page.insert_withSlot ha
    have hformed : (u.frames.page f).Formed := by
      have hres := hown.resident
      rw [hid] at hres
      exact (h.mirrored.mirrors (h.numbered table (numbered_of_lt hk hn)) hres).formed
    -- slots are numbered by 16 bits, and a page has no more
    have hslot : (UInt16.ofNat slot).toNat = slot :=
      hformed.toNat_slot (Page.firstFree?_eq_some_iff.mp hfree).1
    have hplaced : Placed txn (row.storedAt (some ⟨⟨table, n⟩, UInt16.ofNat slot⟩)) ⟨table, n⟩
        slot s _ := h.placed hk hn hplace hfirst hown hid hfree
    rw [hid]
    refine .placed ?_
    rw [hslot]
    exact hplaced

theorem Mirrored.inserts {s : Store} (h : s.Mirrored) {table : TableId} {k : HandleNo}
    (hk : s.handle? table = some k) (hn : s.wholePages k + 1 < pageNumbers) (txn : TxnId)
    (row : Row) : Inserts txn table row s (insertRow txn table row s) := by
  have hlt : s.wholePages k < pageNumbers := Nat.lt_of_succ_lt hn
  have hcount : (s.heap k).pageCount (s.fileOf k) = s.wholePages k := HeapFile.pageCount_of_lt hlt
  have hrun : insertRow txn table row s = _ := Edit.run_eq (.insertion table row) txn s
  have hsearch := insertion_search hk txn row
  rw [hrun]
  by_cases hschema : row.schema ≠ (s.heap k).schema
  · rw [if_pos hschema] at hsearch
    rw [registered_of_unfound hsearch]
    exact .failed (by simp) (Looks.refl h).toSearched (by simp)
  rw [if_neg hschema, hcount] at hsearch
  have hfuel : s.wholePages k < pageNumbers + 0 := hlt
  have hseek := Insertion.seek_seeks (i := ⟨k, txn, row, 0, s.wholePages k⟩) h hk hn rfl
    (Nat.zero_le _) hfuel
  generalize Insertion.seek (fun _ => false) pageNumbers ⟨k, txn, row, 0, s.wholePages k⟩ s = r
    at hseek hsearch
  cases hseek with
  | failed hadded hlooks herr =>
    rw [registered_of_unfound hsearch]
    exact .failed (fun page hp => by rw [hadded page hp]) hlooks.toSearched herr
  | found hplace hfirst hlooks hown hid =>
    exact hlooks.inserts hk hlt hplace (fun m hm => hfirst m (Nat.zero_le m) hm) hown hid hsearch

end Store

end RowStore
