import RowStore.Proofs.Store.Calls

/-!
  Backing — what the files hold for each page, and what a move does to it.

  `Backed` says that every registered table has a file of its own, with page numbers
  left. Then a commit writes one page and leaves every other as it was
  (`written_onDisk`), and growing a file leaves the pages that it holds as they were
  (`grown_onDisk`). `Current` says that every resident page starts from the image that
  its file holds. Moves keep it if nothing is flushed and nothing stale is installed
  (`Move.current`).
-/

namespace RowStore

theorem Page.size_image {p : Page} {b : Block} (h : p.image = .ok b) : b.size = p.size := by
  unfold Page.image at h
  cases hr : p.slots.toList.mapM Page.writeSlot with
  | error e => simp [hr, bind, Except.bind] at h
  | ok rows =>
    rw [hr] at h
    obtain rfl := Except.ok.inj h
    rfl

theorem Store.SameHeap.blockAt {h h' : HeapFile} (e : SameHeap h h') (f : File) (n : Nat) :
    h.blockAt f n = h'.blockAt f n := by
  simp only [HeapFile.blockAt, e.pageSize]

theorem Store.SameHeap.holds {h h' : HeapFile} (e : SameHeap h h') (f : File) (n : Nat) :
    h.Holds f n ↔ h'.Holds f n := by
  simp only [HeapFile.Holds, e.pageSize]

namespace Store

/-! ## Tables and their files -/

/-- What the file of its table holds for a page, zeros where the file does not reach. -/
def onDisk (s : Store) (page : PageId) : Block :=
  match s.handle? page.table with
  | some k => (s.heap k).blockAt (s.fileOf k) page.page
  | none => default

/-- Whether the file of its table holds a page whole. -/
def Held (s : Store) (page : PageId) : Prop :=
  ∃ k, s.handle? page.table = some k ∧ (s.heap k).Holds (s.fileOf k) page.page

/-- The file behind a handle is there, can hold pages of the table, and has page numbers
left. -/
structure Backs (s : Store) (table : TableId) (k : HandleNo) : Prop where
  table : (s.heap k).table = table
  made : (s.heap k).file < s.volume.files.size
  sized : HeapFile.checkPageSize (s.heap k).schema (s.heap k).pageSize = .ok ()
  numbered : s.wholePages k < pageNumbers

/-- Every registered table has a file of its own. -/
structure Backed (s : Store) : Prop where
  backs : ∀ {table : TableId} {k : HandleNo}, s.handle? table = some k → s.Backs table k
  apart : ∀ {t u : TableId} {k j : HandleNo}, s.handle? t = some k → s.handle? u = some j →
    t ≠ u → (s.heap k).file ≠ (s.heap j).file

/-- Registered tables are in files that are there, and no two in one. -/
structure Separate (s : Store) : Prop where
  made : ∀ {table : TableId} {k : HandleNo}, s.handle? table = some k →
    (s.heap k).file < s.volume.files.size
  apart : ∀ {t u : TableId} {k j : HandleNo}, s.handle? t = some k → s.handle? u = some j →
    t ≠ u → (s.heap k).file ≠ (s.heap j).file

theorem Backed.separate {s : Store} (h : s.Backed) : s.Separate :=
  ⟨fun hk => (h.backs hk).made, h.apart⟩

theorem pageSize_pos {schema : Schema} {n : Nat} (h : HeapFile.checkPageSize schema n = .ok ()) :
    0 < n := by
  apply Nat.pos_of_ne_zero
  intro h0
  subst h0
  simp [HeapFile.checkPageSize, Layout.check, Layout.slotCount] at h

theorem Backs.positive {s : Store} {table : TableId} {k : HandleNo} (h : s.Backs table k) :
    0 < (s.heap k).pageSize :=
  pageSize_pos h.sized

theorem onDisk_of_handle {s : Store} {page : PageId} {k : HandleNo}
    (h : s.handle? page.table = some k) :
    s.onDisk page = (s.heap k).blockAt (s.fileOf k) page.page := by
  rw [onDisk, h]

theorem held_iff {s : Store} {page : PageId} {k : HandleNo} (h : s.handle? page.table = some k) :
    s.Held page ↔ (s.heap k).Holds (s.fileOf k) page.page := by
  constructor
  · intro hq
    obtain ⟨j, hj, hh⟩ := hq
    rw [h] at hj
    rw [Option.some.inj hj]
    exact hh
  · intro hh
    exact ⟨k, h, hh⟩

/-! ## Moves that write nothing -/

/-- Whether an event writes to a file. -/
def Event.Writes : Event → Prop
  | .grown _ _ | .flushed _ | .committed _ _ => True
  | _ => False

theorem Move.volume {e : Event} {s s' : Store} (hm : Move e s s') (he : ¬ e.Writes) :
    s'.volume = s.volume := by
  cases hm with
  | grown | flushed | committed => exact absurd trivial he
  | _ => rfl

/-- Two stores whose tables are in the same files with the same contents. -/
structure SameFiles (s s' : Store) : Prop where
  volume : s'.volume = s.volume
  handle : ∀ table, s'.handle? table = s.handle? table
  heap : ∀ k, SameHeap (s'.heap k) (s.heap k)

theorem Move.sameFiles {e : Event} {s s' : Store} (hm : Move e s s') (he : ¬ e.Writes) :
    SameFiles s s' where
  volume := hm.volume he
  handle := (Trace.single hm).handle?
  heap := hm.heap

theorem Trace.sameFiles {es : List Event} {s s' : Store} (ht : Trace es s s')
    (he : ∀ e ∈ es, ¬ e.Writes) : SameFiles s s' where
  volume := ht.induct (P := fun u => u.volume = s.volume)
    (fun e hm _ _ hmove hv => (hmove.volume (he e hm)).trans hv) rfl
  handle := ht.handle?
  heap := ht.heap

theorem Event.Fetch.not_writes {txn : TxnId} {e : Event} (h : e.Fetch txn) : ¬ e.Writes := by
  cases e with
  | grown | flushed | committed => exact h.elim
  | _ => exact id

namespace SameFiles

variable {s s' : Store} (h : SameFiles s s')
include h

theorem fileOf (k : HandleNo) : s'.fileOf k = s.fileOf k := by
  rw [Store.fileOf, Store.fileOf, h.volume, (h.heap k).file]

theorem onDisk (page : PageId) : s'.onDisk page = s.onDisk page := by
  unfold Store.onDisk
  rw [h.handle]
  cases s.handle? page.table with
  | none => rfl
  | some k =>
    simp only
    rw [h.fileOf k, (h.heap k).blockAt]

theorem held {page : PageId} (hp : s.Held page) : s'.Held page := by
  obtain ⟨k, hk, hh⟩ := hp
  refine ⟨k, (h.handle _).trans hk, ?_⟩
  rw [h.fileOf k, (h.heap k).holds]
  exact hh

theorem backed (hb : s.Backed) : s'.Backed := by
  refine ⟨fun {table k} hk => ?_, fun {t u k j} hk hj htu => ?_⟩
  · have hs := hb.backs ((h.handle table).symm.trans hk)
    refine ⟨(h.heap k).table.trans hs.table, ?_, ?_, ?_⟩
    · rw [h.volume, (h.heap k).file]
      exact hs.made
    · rw [(h.heap k).schema, (h.heap k).pageSize]
      exact hs.sized
    · rw [wholePages, h.fileOf k, (h.heap k).pageSize]
      exact hs.numbered
  · rw [(h.heap k).file, (h.heap j).file]
    exact hb.apart ((h.handle t).symm.trans hk) ((h.handle u).symm.trans hj) htu

end SameFiles

/-! ## Moves that write -/

section Writing

variable {s : Store} {table : TableId} {k : HandleNo}

theorem handle?_withFile (s : Store) (k : HandleNo) (f : File) (table : TableId) :
    (s.withFile k f).handle? table = s.handle? table := rfl

theorem fileOf_withFile_other (hb : s.Separate) (hk : s.handle? table = some k) {u : TableId}
    {j : HandleNo} (hj : s.handle? u = some j) (hu : u ≠ table) (f : File) :
    (s.withFile k f).fileOf j = s.fileOf j := by
  rw [fileOf, (heap_withFile s k j f).file]
  exact file_withFile_other (hb.apart hj hk hu) f

theorem Separate.withFile (hb : s.Separate) (k : HandleNo) (f : File) :
    (s.withFile k f).Separate := by
  refine ⟨fun {u j} hj => ?_, fun {t u i j} hi hj htu => ?_⟩
  · have hj' : s.handle? u = some j := hj
    rw [(heap_withFile s k j f).file]
    simpa [Store.withFile, Volume.setFile] using hb.made hj'
  · rw [(heap_withFile s k i f).file, (heap_withFile s k j f).file]
    exact hb.apart (t := t) (u := u) hi hj htu

theorem Backed.withFile (hb : s.Backed) (hk : s.handle? table = some k) {f : File}
    (hf : f.size / (s.heap k).pageSize < pageNumbers) : (s.withFile k f).Backed := by
  refine ⟨fun {u j} hj => ?_, fun {t u i j} hi hj htu => ?_⟩
  · have hs : s.Backs u j := hb.backs hj
    have hh := heap_withFile s k j f
    refine ⟨hh.table.trans hs.table, ?_, by rw [hh.schema, hh.pageSize]; exact hs.sized, ?_⟩
    · rw [hh.file]
      simpa [Store.withFile, Volume.setFile] using hs.made
    · by_cases hu : u = table
      · subst hu
        obtain rfl : k = j := Option.some.inj (hk.symm.trans hj)
        rw [wholePages_withFile hs.made]
        exact hf
      · rw [wholePages, fileOf_withFile_other hb.separate hk hj hu, hh.pageSize]
        exact hs.numbered
  · rw [(heap_withFile s k i f).file, (heap_withFile s k j f).file]
    exact hb.apart (t := t) (u := u) hi hj htu

theorem onDisk_withFile (hb : s.Separate) {page : PageId} (hk : s.handle? page.table = some k)
    (f : File) : (s.withFile k f).onDisk page = (s.heap k).blockAt f page.page := by
  have hk' : (s.withFile k f).handle? page.table = some k := hk
  rw [onDisk_of_handle hk', fileOf_withFile (hb.made hk), (heap_withFile s k k f).blockAt]

theorem onDisk_withFile_other (hb : s.Separate) (hk : s.handle? table = some k) {page : PageId}
    (hp : page.table ≠ table) (f : File) : (s.withFile k f).onDisk page = s.onDisk page := by
  unfold onDisk
  rw [handle?_withFile]
  cases hj : s.handle? page.table with
  | none => rfl
  | some j =>
    simp only
    rw [fileOf_withFile_other hb hk hj hp, (heap_withFile s k j f).blockAt]

theorem held_withFile (hb : s.Backed) (hk : s.handle? table = some k) {f : File}
    (hf : ∀ n, (s.heap k).Holds (s.fileOf k) n → (s.heap k).Holds f n) {page : PageId}
    (hp : s.Held page) : (s.withFile k f).Held page := by
  obtain ⟨j, hj, hh⟩ := hp
  refine ⟨j, hj, ?_⟩
  rw [(heap_withFile s k j f).holds]
  by_cases hu : page.table = table
  · subst hu
    obtain rfl : k = j := Option.some.inj (hk.symm.trans hj)
    rw [fileOf_withFile (hb.backs hk).made]
    exact hf _ hh
  · rw [fileOf_withFile_other hb.separate hk hj hu]
    exact hh

end Writing

/-- A page is written in its file, and no other page is. -/
structure Stored (p : Page) (s s' : Store) : Prop where
  separate : s'.Separate
  image : p.image = .ok (s'.onDisk p.id)
  others : ∀ page, page ≠ p.id → s'.onDisk page = s.onDisk page

theorem stored_onDisk {s s' : Store} {p : Page} {k : HandleNo} (hb : s.Separate)
    (hk : s.handle? p.id.table = some k) (hw : writePage k p s = .ok () s') : Stored p s s' := by
  obtain ⟨f, hf, rfl⟩ := writePage_eq_ok hw
  obtain ⟨-, hsize, -, b, hb', rfl⟩ := HeapFile.writePage_eq_ok hf
  have hbs : b.size = (s.heap k).pageSize := (Page.size_image hb').trans hsize
  refine ⟨hb.withFile k _, ?_, ?_⟩
  · rw [hb', onDisk_withFile hb hk, HeapFile.blockAt_write hbs]
  · intro page hne
    by_cases ht : page.table = p.id.table
    · have hn : page.page ≠ p.id.page := fun hn => hne (by cases page; cases hp' : p.id; simp_all)
      rw [onDisk_withFile hb (ht ▸ hk), HeapFile.blockAt_write_other hbs hn,
        onDisk_of_handle (ht ▸ hk)]
    · exact onDisk_withFile_other hb hk ht _

/-- A page that its file holds is written there, and no other page is. -/
structure Written (p : Page) (s s' : Store) : Prop where
  backed : s'.Backed
  image : p.image = .ok (s'.onDisk p.id)
  others : ∀ page, page ≠ p.id → s'.onDisk page = s.onDisk page
  held : ∀ page, s.Held page → s'.Held page

theorem Written.congr {p : Page} {s s' u : Store} (h : Written p s s') (hf : SameFiles s' u) :
    Written p s u where
  backed := hf.backed h.backed
  image := by rw [hf.onDisk]; exact h.image
  others page hne := (hf.onDisk page).trans (h.others page hne)
  held page hp := hf.held (h.held page hp)

theorem written_onDisk {s s' : Store} {p : Page} {k : HandleNo} (hb : s.Backed)
    (hk : s.handle? p.id.table = some k) (hp : s.Held p.id) (hw : writePage k p s = .ok () s') :
    Written p s s' := by
  have hstored := stored_onDisk hb.separate hk hw
  obtain ⟨f, hf, rfl⟩ := writePage_eq_ok hw
  obtain ⟨-, hsize, -, b, hb', rfl⟩ := HeapFile.writePage_eq_ok hf
  have hbs : b.size = (s.heap k).pageSize := (Page.size_image hb').trans hsize
  have hholds := (held_iff hk).mp hp
  refine ⟨hb.withFile hk ?_, hstored.image, hstored.others, fun page hh => ?_⟩
  · rw [HeapFile.size_write_of_holds hbs hholds]
    exact (hb.backs hk).numbered
  · exact held_withFile hb hk (fun n hn => HeapFile.holds_write hn) hh

/-- A page is added to a file, blank, and no other page changes. -/
structure Grows (table : TableId) (n : Nat) (s s' : Store) : Prop where
  backed : s'.Backed
  blank : ∃ k, s.handle? table = some k ∧
    s'.onDisk ⟨table, n⟩ = Block.blank (s.heap k).pageSize
  others : ∀ page, page ≠ ⟨table, n⟩ → s'.onDisk page = s.onDisk page
  held : ∀ page, s.Held page → s'.Held page
  added : ¬ s.Held ⟨table, n⟩

theorem grown_onDisk {s s' : Store} {table : TableId} {k : HandleNo} {id : PageId} (hb : s.Backed)
    (hk : s.handle? table = some k) (ha : allocatePage k s = .ok id s')
    (hn : s.wholePages k + 1 ≠ pageNumbers) : Grows table (s.wholePages k) s s' := by
  obtain ⟨f, hf, rfl⟩ := allocatePage_eq_ok ha
  have hs := hb.backs hk
  have hpages := HeapFile.pages_allocate hs.positive hs.numbered hf
  obtain ⟨-, rfl⟩ := HeapFile.allocate_eq_ok_iff.mp hf
  have hcount : (s.heap k).pageCount (s.fileOf k) = s.wholePages k :=
    HeapFile.pageCount_of_lt hs.numbered
  rw [hcount] at hpages ⊢
  have hblank : (Block.blank (s.heap k).pageSize).size = (s.heap k).pageSize := rfl
  refine ⟨hb.withFile hk ?_, ⟨k, hk, ?_⟩, ?_, ?_, ?_⟩
  · rw [hpages]
    have hlt := hs.numbered
    unfold wholePages at hlt hn
    omega
  · have hk' : s.handle? (PageId.mk table (s.wholePages k)).table = some k := hk
    rw [onDisk_withFile hb.separate hk', HeapFile.blockAt_write hblank]
  · intro page hne
    by_cases ht : page.table = table
    · subst ht
      have hn : page.page ≠ s.wholePages k := fun hn => hne (by cases page; simp_all)
      rw [onDisk_withFile hb.separate hk, HeapFile.blockAt_write_other hblank hn, onDisk_of_handle hk]
    · exact onDisk_withFile_other hb.separate hk ht _
  · intro page hh
    exact held_withFile hb hk (fun n hn => HeapFile.holds_write hn) hh
  · intro hh
    have hlt := HeapFile.lt_pages_of_holds hs.positive ((held_iff hk).mp hh)
    exact absurd hlt (Nat.lt_irrefl _)

/-! ## Resident pages and their files -/

/-- Every resident page starts from the image that its file holds. -/
structure Current (s : Store) : Prop where
  backed : s.Backed
  held : ∀ {page : PageId} {f : FrameNo}, s.table.frame? page = some f → s.Held page
  before : ∀ {page : PageId} {f : FrameNo}, s.table.frame? page = some f →
    (s.frames.page f).before = s.onDisk page

theorem Unused.current {s : Store} (h : s.Unused) (hb : s.Backed) : s.Current := by
  have hn {page : PageId} {f : FrameNo} : s.table.frame? page ≠ some f := by
    rw [h.table]
    simp [PageTable.frame?, PageTable.empty]
  exact ⟨hb, fun hf => absurd hf hn, fun hf => absurd hf hn⟩

/-- An event after which every resident page still starts from what its file holds. -/
def Event.Faithful (s : Store) : Event → Prop
  | .installed _ f => s.Held (s.frames.page f).id ∧
      (s.frames.page f).before = s.onDisk (s.frames.page f).id
  | .flushed _ => False
  | e => ¬ e.Endless

theorem held_of_readPage {s : Store} {page : PageId} {k : HandleNo} {p : Page}
    (hk : s.handle? page.table = some k) (hp : (s.heap k).readPage (s.fileOf k) page = .ok p) :
    s.Held page ∧ p.before = s.onDisk page := by
  obtain ⟨b, hb, ho⟩ := Page.readPage_eq_ok hp
  obtain ⟨-, hh, rfl⟩ := HeapFile.readImage_eq_ok_iff.mp hb
  obtain ⟨slots, rows, -, -, rfl⟩ := Page.ofImage_eq_ok ho
  exact ⟨(held_iff hk).mpr hh, (onDisk_of_handle hk).symm⟩

/-- Every registered table has a file of its own, and the files hold what is resident. -/
structure Housed (s : Store) : Prop where
  backed : s.Backed
  held : ∀ {page : PageId} {f : FrameNo}, s.table.frame? page = some f → s.Held page

theorem Current.housed {s : Store} (h : s.Current) : s.Housed := ⟨h.backed, h.held⟩

/-- The image of a resident page can be read. -/
theorem Housed.readImage {s : Store} (h : s.Housed) {page : PageId} {f : FrameNo}
    (hf : s.table.frame? page = some f) : ∃ k, s.handle? page.table = some k ∧
      (s.heap k).readImage (s.fileOf k) page = .ok (s.onDisk page) := by
  obtain ⟨k, hk, hholds⟩ := h.held hf
  exact ⟨k, hk, HeapFile.readImage_eq_ok_iff.mpr
    ⟨(h.backed.backs hk).table.symm, hholds, onDisk_of_handle hk⟩⟩

/-- A write over a page in its file. -/
def Event.Puts (page : PageId) : Event → Prop
  | .flushed q | .committed _ q => q = page
  | _ => False

/-- The write is of the resident instance, and it is a page that some transaction made
dirty. -/
theorem Move.puts {e : Event} {s s' : Store} {page : PageId} (hm : Move e s s') (h : s.Shaped)
    (hh : s.Housed) (he : e.Puts page) :
    ∃ f, s.table.frame? page = some f ∧ (s.frames.page f).dirtier ≠ none ∧
      Written (s.frames.page f) s s' := by
  cases hm with
  | @flushed _ _ q f k hf hd hk hw =>
    obtain rfl : q = page := he
    have hid := (h.filed hf).2
    exact ⟨f, hf, hd, written_onDisk hh.backed (hid ▸ hk) (hid ▸ hh.held hf) hw⟩
  | @committed _ u txn q f k p hf hd hk hw hq =>
    obtain rfl : q = page := he
    have hid := (h.filed hf).2
    have hwritten := written_onDisk hh.backed (hid ▸ hk) (hid ▸ hh.held hf) hw
    exact ⟨f, hf, by simp [hd], hwritten.congr ⟨rfl, fun _ => rfl, fun _ => .refl _⟩⟩
  | _ => exact he.elim

/-- A page that is committed holds from then on what its file does. -/
structure Commits (txn : TxnId) (page : PageId) (f : FrameNo) (s s' : Store) : Prop where
  resident : s.table.frame? page = some f
  dirty : (s.frames.page f).dirtier = some txn
  written : Written (s.frames.page f) s s'
  table : s'.table = s.table
  frames : s'.frames = s.frames.setPage f
    { s.frames.page f with before := s'.onDisk page, dirtier := none }

theorem Move.commits {s s' : Store} {txn : TxnId} {page : PageId}
    (hm : Move (.committed txn page) s s') (h : s.Shaped) (hh : s.Housed) :
    ∃ f, Commits txn page f s s' := by
  obtain ⟨f, hf, -, hwritten⟩ := hm.puts h hh rfl
  cases hm with
  | @committed _ u _ _ g k q hg hd hk hw hq =>
    obtain rfl : g = f := Option.some.inj (hg.symm.trans hf)
    obtain ⟨b, hb, rfl⟩ := settle_eq_ok hq
    have himage : (s.frames.page g).image = .ok (u.onDisk page) := (h.filed hf).2 ▸ hwritten.image
    obtain rfl : b = u.onDisk page := Except.ok.inj (hb.symm.trans himage)
    obtain ⟨file, -, rfl⟩ := writePage_eq_ok hw
    exact ⟨g, hf, hd, hwritten, rfl, rfl⟩

/-- A commit of the page. -/
def Event.Saves (page : PageId) : Event → Prop
  | .committed _ q => q = page
  | _ => False

theorem Event.Saves.committed {e : Event} {page : PageId} (h : e.Saves page) :
    ∃ txn, e = .committed txn page := by
  cases e with
  | committed txn q => exact ⟨txn, congrArg (Event.committed txn) h⟩
  | _ => exact h.elim

theorem Event.Faithful.saves {e : Event} {s : Store} {page : PageId} (h : e.Faithful s)
    (hp : e.Puts page) : e.Saves page := by
  cases e with
  | flushed => exact h.elim
  | committed => exact hp
  | _ => exact hp.elim

theorem Event.Faithful.not_endless {e : Event} {s : Store} (h : e.Faithful s) : ¬ e.Endless := by
  cases e with
  | grown => exact h
  | _ => exact id

/-- Files hold the pages that they held, with the same images but for one that is
written. -/
structure KeepsFiles (e : Event) (s s' : Store) : Prop where
  backed : s'.Backed
  held : ∀ {page : PageId}, s.Held page → s'.Held page
  onDisk : ∀ {page : PageId}, s.Held page → ¬ e.Puts page → s'.onDisk page = s.onDisk page

/-- A move changes no page in its file but one that it writes or that a file grows by. -/
theorem Move.leaves {e : Event} {s s' : Store} {page : PageId} (hm : Move e s s')
    (h : s.Shaped) (hh : s.Housed) (he : ¬ e.Endless) (hp : ¬ e.Puts page)
    (hg : ∀ table n, e = .grown table n → page ≠ ⟨table, n⟩) :
    s'.onDisk page = s.onDisk page := by
  by_cases hw : e.Writes
  · have hput {q : PageId} (hq : e.Puts q) : s'.onDisk page = s.onDisk page := by
      obtain ⟨f, hf, -, hwritten⟩ := hm.puts h hh hq
      apply hwritten.others
      rw [(h.filed hf).2]
      intro heq
      exact hp (heq ▸ hq)
    cases e with
    | grown table n =>
      cases hm with
      | grown hk ha => exact (grown_onDisk hh.backed hk ha he).others page (hg _ _ rfl)
    | flushed q => exact hput (q := q) rfl
    | committed txn q => exact hput (q := q) rfl
    | _ => exact hw.elim
  · exact (hm.sameFiles hw).onDisk page

/-- The page by which a file grows is one that it did not hold. -/
theorem Move.grown_ne {e : Event} {s s' : Store} {page : PageId} (hm : Move e s s')
    (hh : s.Housed) (he : ¬ e.Endless) (hp : s.Held page) {table : TableId} {n : Nat}
    (hg : e = .grown table n) : page ≠ ⟨table, n⟩ := by
  subst hg
  intro hpage
  cases hm with
  | grown hk ha => exact (grown_onDisk hh.backed hk ha he).added (hpage ▸ hp)

theorem Move.keepsFiles {e : Event} {s s' : Store} (hm : Move e s s') (h : s.Shaped)
    (hh : s.Housed) (he : ¬ e.Endless) : KeepsFiles e s s' := by
  have hleaves {page : PageId} (hp : s.Held page) (hn : ¬ e.Puts page) :
      s'.onDisk page = s.onDisk page :=
    hm.leaves h hh he hn fun table n => hm.grown_ne hh he hp
  by_cases hw : e.Writes
  · have hput {q : PageId} (hq : e.Puts q) : KeepsFiles e s s' := by
      obtain ⟨f, hf, -, hwritten⟩ := hm.puts h hh hq
      exact ⟨hwritten.backed, fun hp => hwritten.held _ hp, hleaves⟩
    cases e with
    | grown table n =>
      cases hm with
      | grown hk ha =>
        have hg := grown_onDisk hh.backed hk ha he
        exact ⟨hg.backed, fun hp => hg.held _ hp, hleaves⟩
    | flushed q => exact hput (q := q) rfl
    | committed txn q => exact hput (q := q) rfl
    | _ => exact hw.elim
  · have hf := hm.sameFiles hw
    exact ⟨hf.backed hh.backed, fun hp => hf.held hp, hleaves⟩

/-- As long as nothing is installed, what is resident was held by its file before. -/
theorem Move.held {e : Event} {s s' : Store} {page : PageId} {f : FrameNo} (hm : Move e s s')
    (hh : s.Housed) (hn : ∀ txn f, e ≠ .installed txn f)
    (hf : s'.table.frame? page = some f) : s.Held page := by
  cases hm.enters hf with
  | stays hwas => exact hh.held hwas
  | loaded _ _ _ hk hp => exact (held_of_readPage hk hp).1
  | installed => exact absurd rfl (hn _ _)

theorem Move.housed {e : Event} {s s' : Store} (hm : Move e s s') (h : s.Shaped)
    (hh : s.Housed) (he : ¬ e.Endless) (hn : ∀ txn f, e ≠ .installed txn f) : s'.Housed := by
  have hfiles := hm.keepsFiles h hh he
  exact ⟨hfiles.backed, fun {page f} hf => hfiles.held (hm.held hh hn hf)⟩

theorem Move.current {e : Event} {s s' : Store} (hm : Move e s s') (h : s.Shaped)
    (hc : s.Current) (he : e.Faithful s) : s'.Current := by
  have hfiles := hm.keepsFiles h hc.housed he.not_endless
  -- a page that is resident by now was held by its file before
  have hheld {page : PageId} {f : FrameNo} (hf : s'.table.frame? page = some f) :
      s.Held page := by
    cases hm.enters hf with
    | stays hwas => exact hc.held hwas
    | loaded _ _ _ hk hp => exact (held_of_readPage hk hp).1
    | installed _ hid =>
      subst hid
      exact he.1
  refine ⟨hfiles.backed, fun hf => hfiles.held (hheld hf), fun {page f} hf => ?_⟩
  by_cases hs : e.Saves page
  · obtain ⟨txn, rfl⟩ := hs.committed
    obtain ⟨g, hcm⟩ := hm.commits h hc.housed
    rw [hcm.table] at hf
    obtain rfl : g = f := Option.some.inj (hcm.resident.symm.trans hf)
    -- the before-image is the one that was just written
    rw [hcm.frames, Frames.page_setPage_self (h.filed hf).1]
  · rw [hfiles.onDisk (hheld hf) fun hp => hs (he.saves hp)]
    cases hm.enters hf with
    | stays hwas =>
      cases (hm.turns (h.filed hwas).1).2 with
      | kept hp =>
        rw [hp]
        exact hc.before hwas
      | changed hq =>
        rw [hq.kept.before]
        exact hc.before hwas
      | committed hres => exact absurd (h.frame_inj hres hwas) hs
    | loaded _ _ _ hk hp => exact (held_of_readPage hk hp).2
    | installed _ hid =>
      cases hm
      subst hid
      exact he.2

end Store

end RowStore
