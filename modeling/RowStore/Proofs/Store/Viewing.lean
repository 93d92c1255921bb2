import RowStore.Proofs.Store.Chronicle
import RowStore.Proofs.Store.Ending

/-!
  Viewing — what the pool shows of a page, resident or not.

  The view of a page is its resident instance, or what its file is read as. In a run of
  whole calls a clean page is read from its file with the same slots used and the same
  bytes in them (`Mirrored`), whatever the file held at first, as long as its table has page
  numbers left. So a fetch, whatever it evicts and loads, changes no view and no marker
  (`Trace.looks`), and a file that grows shows one blank page more (`Mirrored.grown`).
-/

namespace RowStore

namespace Page

/-! ## Pages with the same rows -/

/-- Two pages with the same slots, the same of them used, and rows of the same bytes. -/
structure Matches (p q : Page) : Prop where
  slotCount : q.slotCount = p.slotCount
  used : ∀ i, q.isUsed i = p.isUsed i
  rows : ∀ i, (q.row? i).map Row.encode = (p.row? i).map Row.encode

namespace Matches

variable {p q r : Page}

theorem refl (p : Page) : Matches p p := ⟨rfl, fun _ => rfl, fun _ => rfl⟩

theorem trans (h₁ : Matches p q) (h₂ : Matches q r) : Matches p r where
  slotCount := h₂.slotCount.trans h₁.slotCount
  used i := (h₂.used i).trans (h₁.used i)
  rows i := (h₂.rows i).trans (h₁.rows i)

theorem firstFree? (h : Matches p q) : q.firstFree? = p.firstFree? := by
  apply Option.ext
  intro i
  simp only [firstFree?_eq_some_iff, h.slotCount, h.used]

end Matches

theorem matches_reread (p : Page) : p.Matches p.reread where
  slotCount := slotCount_reread p
  used := isUsed_reread p
  rows i := by
    rw [row?_reread]
    cases p.row? i with
    | none => rfl
    | some r => exact congrArg some r.encode_reread

/-- A page of which every slot is free. -/
structure Blank (p : Page) : Prop where
  slots : 0 < p.slotCount
  unused : ∀ i, p.isUsed i = false
  free : ∀ i, p.row? i = none

theorem Blank.of_matches {p q : Page} (h : p.Blank) (hm : p.Matches q) : q.Blank where
  slots := hm.slotCount ▸ h.slots
  unused i := (hm.used i).trans (h.unused i)
  free i := by
    have hrow := hm.rows i
    rw [h.free i] at hrow
    exact Option.map_eq_none_iff.mp hrow

/-- The first slot of a blank page is free. -/
theorem Blank.firstFree? {p : Page} (h : p.Blank) : p.firstFree? = some 0 :=
  firstFree?_eq_some_iff.mpr ⟨h.slots, h.unused 0, fun j hj => absurd hj (Nat.not_lt_zero j)⟩

/-- The bytes of a blank page are read as one. -/
theorem ofImage_blank {schema : Schema} {n : Nat}
    (h : HeapFile.checkPageSize schema n = .ok ()) (id : PageId) :
    ∃ p, ofImage id schema (Block.blank n) = .ok p ∧ p.Blank := by
  obtain ⟨slots, hslots⟩ := Store.slotsFor_of_sized h id
  have hcount : (vacant id schema n slots).slotCount = slots := by simp [vacant, slotCount]
  have hrow (i : Nat) : (vacant id schema n slots).row? i = none := by
    simp only [vacant, row?, List.getElem?_toArray, List.getElem?_replicate]
    split <;> rfl
  have hread := (sound_vacant hslots).ofImage_block
  rw [block_vacant] at hread
  refine ⟨_, hread, Blank.of_matches ⟨?_, fun i => ?_, hrow⟩ (matches_reread _)⟩
  · rw [hcount]
    apply Nat.pos_of_ne_zero
    rintro rfl
    have hzero := slotsFor_eq_ok hslots
    simp [slotsFor, ← hzero] at hslots
  · by_cases hi : i < (vacant id schema n slots).slotCount
    · rw [(sound_vacant hslots).filled i hi, hrow]
      rfl
    · rw [isUsed, decide_eq_false hi, Bool.false_and]

end Page

namespace Store

open Page

/-! ## Views -/

/-- What the pool shows of a page: the resident instance, or what its file is read as. -/
def view (s : Store) (page : PageId) : Option Page :=
  match s.table.frame? page with
  | some f => some (s.frames.page f)
  | none => (s.handle? page.table).bind fun k => ((s.heap k).readPage (s.fileOf k) page).toOption

/-- The transaction that made a resident page dirty. -/
def marker? (s : Store) (page : PageId) : Option TxnId :=
  (s.table.frame? page).bind fun f => (s.frames.page f).dirtier

/-- A table that is not registered, or whose file has fewer pages than there are numbers. -/
def Numbered (s : Store) (table : TableId) : Prop :=
  ∀ k, s.handle? table = some k → s.wholePages k < pageNumbers

theorem numbered_of_lt {s : Store} {table : TableId} {k : HandleNo}
    (hk : s.handle? table = some k) (hn : s.wholePages k < pageNumbers) : s.Numbered table := by
  intro j hj
  rwa [← Option.some.inj (hk.symm.trans hj)]

theorem view_of_resident {s : Store} {page : PageId} {f : FrameNo}
    (hf : s.table.frame? page = some f) : s.view page = some (s.frames.page f) := by
  rw [view, hf]

theorem view_of_absent {s : Store} {page : PageId} (hf : s.table.frame? page = none) :
    s.view page = (s.handle? page.table).bind fun k =>
      ((s.heap k).readPage (s.fileOf k) page).toOption := by
  rw [view, hf]

/-- A page that is not resident is shown as what its file is read as, if the file holds it. -/
theorem view_eq_some_iff {s : Store} {page : PageId} {k : HandleNo} {p : Page}
    (hf : s.table.frame? page = none) (hk : s.handle? page.table = some k)
    (ht : (s.heap k).table = page.table) : s.view page = some p ↔
      s.Held page ∧ Page.ofImage page (s.heap k).schema (s.onDisk page) = .ok p := by
  have hread : s.view page = some p ↔ (s.heap k).readPage (s.fileOf k) page = .ok p := by
    rw [view_of_absent hf, hk, Option.bind_some]
    cases (s.heap k).readPage (s.fileOf k) page <;> simp [Except.toOption]
  rw [hread, held_iff hk, onDisk_of_handle hk]
  constructor
  · intro hp
    obtain ⟨b, hb, ho⟩ := readPage_eq_ok hp
    obtain ⟨-, hh, rfl⟩ := HeapFile.readImage_eq_ok_iff.mp hb
    exact ⟨hh, ho⟩
  · rintro ⟨hh, ho⟩
    have hb := HeapFile.readImage_eq_ok_iff.mpr ⟨ht.symm, hh, rfl⟩
    rw [HeapFile.readPage, hb]
    exact ho

/-! ## Files under moves -/

/-- What an event does to the file of one table. -/
inductive Rewrites (s : Store) (table : TableId) (k : HandleNo) : Event → File → Prop
  | kept {e : Event} : (∀ page, page.table = table → ¬ e.Puts page) →
    Rewrites s table k e (s.fileOf k)
  | grown {f : File} : (s.heap k).allocate (s.fileOf k) = .ok f →
    Rewrites s table k (.grown table (s.wholePages k)) f
  | put {e : Event} {page : PageId} {f : FrameNo} {b : Block} : page.table = table →
    e.Puts page → s.table.frame? page = some f → (s.frames.page f).dirtier ≠ none →
    (s.frames.page f).image = .ok b → b.size = (s.heap k).pageSize →
    Rewrites s table k e ((s.fileOf k).write (page.page * (s.heap k).pageSize) b)

theorem Rewrites.of_put {s u : Store} {table : TableId} {k j : HandleNo} {e : Event}
    {page : PageId} {f : FrameNo} (h : s.Shaped) (hb : s.Separate)
    (hk : s.handle? table = some k) (he : ∀ q, e.Puts q ↔ page = q)
    (hf : s.table.frame? page = some f) (hd : (s.frames.page f).dirtier ≠ none)
    (hj : s.handle? page.table = some j) (hw : writePage j (s.frames.page f) s = .ok () u) :
    Rewrites s table k e (u.fileOf k) := by
  obtain ⟨file, hfile, rfl⟩ := writePage_eq_ok hw
  by_cases ht : page.table = table
  · subst ht
    obtain rfl : k = j := Option.some.inj (hk.symm.trans hj)
    obtain ⟨-, hsize, -, b, hb', rfl⟩ := HeapFile.writePage_eq_ok hfile
    rw [fileOf_withFile (hb.made hk), (h.filed hf).2]
    exact .put rfl ((he page).mpr rfl) hf hd hb' ((Page.size_image hb').trans hsize)
  · rw [fileOf_withFile_other hb hj hk (Ne.symm ht)]
    refine .kept fun q hq hp => ht ?_
    rw [(he q).mp hp, hq]

theorem Move.rewrites {e : Event} {s s' : Store} (hm : Move e s s') (h : s.Shaped)
    (hb : s.Separate) {table : TableId} {k : HandleNo} (hk : s.handle? table = some k) :
    Rewrites s table k e (s'.fileOf k) := by
  by_cases hw : e.Writes
  · cases hm with
    | @grown _ _ t j _ hj ha =>
      obtain ⟨file, hfile, rfl⟩ := allocatePage_eq_ok ha
      by_cases ht : t = table
      · subst ht
        obtain rfl : k = j := Option.some.inj (hk.symm.trans hj)
        rw [fileOf_withFile (hb.made hk)]
        exact .grown hfile
      · rw [fileOf_withFile_other hb hj hk (Ne.symm ht)]
        exact .kept fun q _ => id
    | flushed hf hd hj hw => exact .of_put h hb hk (fun q => Iff.rfl) hf hd hj hw
    | @committed _ u txn page _ _ _ hf hd hj hw =>
      have hput : Rewrites s table k (.committed txn page) (u.fileOf k) :=
        .of_put h hb hk (fun q => Iff.rfl) hf (by rw [hd]; simp) hj hw
      exact hput
    | _ => exact hw.elim
  · rw [(hm.sameFiles hw).fileOf k]
    refine .kept fun q _ hp => hw ?_
    cases e with
    | flushed | committed => trivial
    | _ => exact hp.elim

section Rewritten
variable {s : Store} {table : TableId} {k : HandleNo} {e : Event} {f : File}

/-- No file gets shorter. -/
theorem Rewrites.le_size (h : Rewrites s table k e f) : (s.fileOf k).size ≤ f.size := by
  have hwrite (start : Nat) (b : Block) : (s.fileOf k).size ≤ ((s.fileOf k).write start b).size := by
    rw [File.size_write]
    split
    · exact Nat.le_refl _
    · exact Nat.le_max_left _ _
  cases h with
  | kept => exact Nat.le_refl _
  | grown ha =>
    obtain ⟨-, rfl⟩ := HeapFile.allocate_eq_ok_iff.mp ha
    exact hwrite _ _
  | put => exact hwrite _ _

/-- A page that the file holds stays in it, as it is unless it is written. -/
theorem Rewrites.holds (h : Rewrites s table k e f) (hps : 0 < (s.heap k).pageSize)
    (hn : s.wholePages k < pageNumbers) {page : PageId} (hp : page.table = table)
    (hh : (s.heap k).Holds (s.fileOf k) page.page) :
    (s.heap k).Holds f page.page ∧ (¬ e.Puts page →
      (s.heap k).blockAt f page.page = (s.heap k).blockAt (s.fileOf k) page.page) := by
  cases h with
  | kept => exact ⟨hh, fun _ => rfl⟩
  | grown ha =>
    obtain ⟨-, rfl⟩ := HeapFile.allocate_eq_ok_iff.mp ha
    -- it is put behind the pages that the file holds
    have hlt : page.page ≠ s.wholePages k :=
      Nat.ne_of_lt (HeapFile.lt_pages_of_holds hps hh)
    have hcount : (s.heap k).pageCount (s.fileOf k) = s.wholePages k :=
      HeapFile.pageCount_of_lt hn
    rw [hcount]
    exact ⟨HeapFile.holds_write hh, fun _ => HeapFile.blockAt_write_other rfl hlt⟩
  | @put _ q _ b hq he _ _ _ hsize =>
    refine ⟨HeapFile.holds_write hh, fun hnot => ?_⟩
    apply HeapFile.blockAt_write_other hsize
    intro heq
    have hsame : q = page := by
      cases q
      cases page
      simp_all
    exact hnot (hsame ▸ he)

end Rewritten

/-- The file of a table that has page numbers left had some left before. -/
theorem Move.numbered {e : Event} {s s' : Store} (hm : Move e s s') (h : s.Shaped)
    (hb : s.Separate) {table : TableId} (hn : s'.Numbered table) : s.Numbered table := by
  intro k hk
  have hnum := hn k ((Trace.single hm).handle? table ▸ hk)
  have hle : s.wholePages k ≤ s'.wholePages k := by
    rw [wholePages, wholePages, (hm.heap k).pageSize]
    exact Nat.div_le_div_right (hm.rewrites h hb hk).le_size
  exact Nat.lt_of_le_of_lt hle hnum

/-! ## Clean pages and their files -/

/-- A resident page is of its table and in its file. A clean one is read from there with the
same slots used and the same bytes in them. -/
structure Mirrors (s : Store) (page : PageId) (p : Page) : Prop where
  formed : p.Formed
  schema : ∀ {k : HandleNo}, s.handle? page.table = some k → p.schema = (s.heap k).schema
  held : s.Held page
  clean : p.dirtier = none → ∃ q, Page.ofImage page p.schema (s.onDisk page) = .ok q ∧ p.Matches q

/-- What holds in a run of whole calls, whatever files hold at first. Of a table that has used
up its page numbers nothing is said. -/
structure Mirrored (s : Store) : Prop where
  shaped : s.Shaped
  laid : s.Laid
  mirrors : ∀ {page : PageId} {f : FrameNo}, s.Numbered page.table →
    s.table.frame? page = some f → s.Mirrors page (s.frames.page f)

theorem Unused.mirrored {s : Store} (h : s.Unused) (hl : s.Laid) : s.Mirrored := by
  refine ⟨h.shaped, hl, fun {page f} _ hf => ?_⟩
  rw [h.table] at hf
  simp [PageTable.frame?, PageTable.empty] at hf

theorem Event.Puts.unique {e : Event} {p q : PageId} (hp : e.Puts p) (hq : e.Puts q) : p = q := by
  cases e with
  | flushed | committed => exact Eq.trans (Eq.symm hp) hq
  | _ => exact hp.elim

/-- A file keeps the pages that it holds, as they are unless they are written. -/
theorem Move.keepsHeld {e : Event} {s s' : Store} (hm : Move e s s') (h : s.Shaped) (hl : s.Laid)
    {page : PageId} (hn : s.Numbered page.table) (hh : s.Held page) :
    s'.Held page ∧ (¬ e.Puts page → s'.onDisk page = s.onDisk page) := by
  obtain ⟨k, hk, hholds⟩ := hh
  have hk' : s'.handle? page.table = some k := (Trace.single hm).handle? page.table ▸ hk
  obtain ⟨hkept, hsame⟩ := (hm.rewrites h hl.separate hk).holds
    (pageSize_pos (hl.sized (hl.registered hk).1)) (hn k hk) rfl hholds
  rw [held_iff hk', onDisk_of_handle hk', onDisk_of_handle hk, (hm.heap k).holds,
    (hm.heap k).blockAt]
  exact ⟨hkept, hsame⟩

/-- What is written over a page in its file is the image of its resident instance, and that is
dirty. -/
theorem Move.putImage {e : Event} {s s' : Store} (hm : Move e s s') (h : s.Shaped) (hl : s.Laid)
    {page : PageId} {k : HandleNo} (hk : s.handle? page.table = some k) (he : e.Puts page) :
    ∃ f, s.table.frame? page = some f ∧ (s.frames.page f).dirtier ≠ none ∧
      (s.frames.page f).image = .ok (s'.onDisk page) := by
  have hk' : s'.handle? page.table = some k := (Trace.single hm).handle? page.table ▸ hk
  have hrewrites := hm.rewrites h hl.separate hk
  rw [onDisk_of_handle hk', (hm.heap k).blockAt]
  generalize s'.fileOf k = file at hrewrites
  cases hrewrites with
  | kept hnot => exact absurd he (hnot page rfl)
  | grown => exact he.elim
  | put ht hq hf hd hb hsize =>
    obtain rfl := hq.unique he
    rw [HeapFile.blockAt_write hsize]
    exact ⟨_, hf, hd, hb⟩

theorem Move.mirrors {e : Event} {s s' : Store} (hm : Move e s s') (h : s.Mirrored)
    (he : ∀ txn f, e ≠ .installed txn f) {page : PageId} {f : FrameNo} (hn : s'.Numbered page.table)
    (hf : s'.table.frame? page = some f) : s'.Mirrors page (s'.frames.page f) := by
  have hnum := hm.numbered h.shaped h.laid.separate hn
  have hschema {p : Page}
      (hp : ∀ {k}, s.handle? page.table = some k → p.schema = (s.heap k).schema) {k : HandleNo}
      (hk : s'.handle? page.table = some k) : p.schema = (s'.heap k).schema := by
    rw [(Trace.single hm).handle?] at hk
    rw [(hm.heap k).schema]
    exact hp hk
  cases hm.enters hf with
  | stays hwas =>
    have hold := h.mirrors hnum hwas
    obtain ⟨hlt, hid⟩ := h.shaped.filed hwas
    obtain ⟨hheld, hsame⟩ := hm.keepsHeld h.shaped h.laid hnum hold.held
    by_cases hp : e.Puts page
    · obtain ⟨k, hk, -⟩ := hold.held
      obtain ⟨g, hg, hd, himage⟩ := hm.putImage h.shaped h.laid hk hp
      obtain rfl : g = f := Option.some.inj (hg.symm.trans hwas)
      cases (hm.turns hlt).2 with
      | kept hpage =>
        rw [hpage]
        exact ⟨hold.formed, hschema hold.schema, hheld, fun hc => absurd hc hd⟩
      | changed => exact hp.elim
      | committed _ _ _ hpage =>
        -- what was written is read as it was written
        obtain ⟨hread, -⟩ := hold.formed.rereads himage
        rw [hid] at hread
        rw [hpage]
        exact ⟨hold.formed.settled _, hschema hold.schema, hheld,
          fun _ => ⟨_, hread, matches_reread _⟩⟩
    · cases (hm.turns hlt).2 with
      | kept hpage =>
        rw [hpage]
        refine ⟨hold.formed, hschema hold.schema, hheld, ?_⟩
        rw [hsame hp]
        exact hold.clean
      | changed hedit =>
        have hkept := hedit.kept
        refine ⟨hedit.formed hold.formed, hschema ?_, hheld, fun hc => ?_⟩
        · exact fun hk => hkept.schema.trans (hold.schema hk)
        · rw [hkept.dirtier] at hc
          simp at hc
      | committed hres => exact absurd (h.shaped.frame_inj hres hwas) hp
  | @loaded k _ _ _ hk hp =>
    -- it is what has just been read
    obtain ⟨hheld, -⟩ := held_of_readPage hk hp
    obtain ⟨hheld', hsame⟩ := hm.keepsHeld h.shaped h.laid hnum hheld
    obtain ⟨b, hb, ho⟩ := readPage_eq_ok hp
    obtain ⟨-, -, rfl⟩ := HeapFile.readImage_eq_ok_iff.mp hb
    rw [← onDisk_of_handle hk, ← hsame id] at ho
    have hof : (s'.frames.page f).schema = (s.heap k).schema := by
      obtain ⟨slots, rows, -, -, heq⟩ := ofImage_eq_ok ho
      rw [heq]
    refine ⟨formed_ofImage ho, hschema fun {j} hj => ?_, hheld', fun _ => ⟨_, hof ▸ ho, .refl _⟩⟩
    rw [hof, Option.some.inj (hk.symm.trans hj)]
  | installed => exact absurd rfl (he _ _)

theorem Event.Whole.ne_installed {e : Event} (h : e.Whole) (txn : TxnId) (f : FrameNo) :
    e ≠ .installed txn f := by
  rintro rfl
  exact h

theorem Move.mirrored {e : Event} {s s' : Store} (hm : Move e s s') (h : s.Mirrored)
    (he : e.Whole) : s'.Mirrored where
  shaped := hm.shaped h.shaped
  laid := h.laid.keepsOpen hm.keepsOpen
  mirrors := hm.mirrors h he.ne_installed

theorem Trace.mirrored {es : List Event} {s s' : Store} (ht : Trace es s s') (h : s.Mirrored)
    (he : ∀ e ∈ es, e.Whole) : s'.Mirrored :=
  ht.induct (fun _ hm _ _ hmove hs => hmove.mirrored hs (he _ hm)) h

theorem Chronicle.mirrored {s₀ s : Store} {past : List Moment} (hu : s₀.Unused) (hl : s₀.Laid)
    (h : Chronicle s₀ past s) : s.Mirrored := by
  refine h.history.trace.mirrored (hu.mirrored hl) fun e he => ?_
  obtain ⟨m, hm, rfl⟩ := List.mem_map.mp he
  exact h.whole m hm

/-! ## Searches -/

/-- How an event of a fetch treats one page: it stays, it leaves clean, or it is read. -/
inductive Fetched (s s' : Store) (page : PageId) : Prop
  | kept : s'.table.frame? page = s.table.frame? page →
    (∀ f, s.table.frame? page = some f → s'.frames.page f = s.frames.page f) → Fetched s s' page
  | left {f : FrameNo} : s.table.frame? page = some f → (s.frames.page f).dirtier = none →
    s'.table.frame? page = none → Fetched s s' page
  | read {k : HandleNo} {f : FrameNo} : s.table.frame? page = none →
    s.handle? page.table = some k → s'.table.frame? page = some f →
    (s.heap k).readPage (s.fileOf k) page = .ok (s'.frames.page f) → Fetched s s' page

theorem Move.fetched {e : Event} {s s' : Store} (hm : Move e s s') (h : s.Shaped) {txn : TxnId}
    (he : e.Fetch txn) (page : PageId) : Fetched s s' page := by
  cases hm with
  | granted | used | counted => exact .kept rfl fun _ _ => rfl
  | @evicted _ v hv =>
    have hframe : ((s.table.remove v).unrelatePage v).frame? page =
        if page = v then none else s.table.frame? page := by
      rw [PageTable.frame?_unrelatePage, PageTable.frame?_remove]
    by_cases hp : page = v
    · obtain ⟨f, hf, hd⟩ := PageTable.of_victim? h.ordered hv
      rw [if_pos hp] at hframe
      exact .left (hp ▸ hf) hd hframe
    · rw [if_neg hp] at hframe
      exact .kept hframe fun _ _ => rfl
  | @loaded _ q k p hn hlt hk hp =>
    have hframe := s.table.frame?_insert q page s.frames.size
    by_cases hq : page = q
    · subst hq
      rw [if_pos rfl] at hframe
      refine .read hn hk hframe ?_
      show _ = Except.ok (Frames.page (s.frames.push p) s.frames.size)
      rw [Frames.page_push, if_pos rfl]
      exact hp
    · rw [if_neg hq] at hframe
      refine .kept hframe fun f hf => ?_
      show Frames.page (s.frames.push p) f = _
      rw [Frames.page_push, if_neg (Nat.ne_of_lt (h.filed hf).1)]
  | _ => exact he.elim

/-- What a search for room does to pages and files: the slots used on each page and the bytes
in them stay as they are, and so does who made it dirty. At most one page is added, blank and
behind the last one of its table. -/
structure Searched (added : Option PageId) (s u : Store) : Prop where
  views : ∀ page, s.Numbered page.table → added ≠ some page →
    Option.Rel Page.Matches (s.view page) (u.view page)
  markers : ∀ page, u.marker? page = s.marker? page
  volume : added = none → u.volume = s.volume
  appended : ∀ page, added = some page → ∃ k f p, s.handle? page.table = some k ∧
    page.page = s.wholePages k ∧ u.wholePages k = s.wholePages k + 1 ∧
    (s.heap k).allocate (s.fileOf k) = .ok f ∧
    u.volume = s.volume.setFile (s.heap k).file f ∧
    s.view page = none ∧ u.view page = some p ∧ p.Blank

/-- A search under way. -/
structure Looks (added : Option PageId) (s u : Store) : Prop extends Searched added s u where
  mirrored : u.Mirrored
  handle : ∀ table, u.handle? table = s.handle? table
  heap : ∀ k, SameHeap (u.heap k) (s.heap k)
  numbered : ∀ table, s.Numbered table → u.Numbered table

theorem relMatches_refl (p : Option Page) : Option.Rel Page.Matches p p := by
  cases p with
  | none => exact .none
  | some p => exact .some (.refl p)

theorem relMatches_trans {p q r : Option Page} (h₁ : Option.Rel Page.Matches p q)
    (h₂ : Option.Rel Page.Matches q r) : Option.Rel Page.Matches p r := by
  cases h₁ with
  | none => exact h₂
  | some hpq =>
    cases h₂ with
    | some hqr => exact .some (hpq.trans hqr)

namespace Looks

variable {s u v : Store} {added : Option PageId}

theorem refl (h : s.Mirrored) : Looks none s s where
  views page _ _ := relMatches_refl _
  markers _ := rfl
  volume _ := rfl
  appended := by simp
  mirrored := h
  handle _ := rfl
  heap k := .refl _
  numbered _ hn := hn

theorem fileOf (h : Looks none s u) (k : HandleNo) : u.fileOf k = s.fileOf k := by
  rw [Store.fileOf, Store.fileOf, h.volume rfl, (h.heap k).file]

theorem wholePages (h : Looks none s u) (k : HandleNo) : u.wholePages k = s.wholePages k := by
  rw [Store.wholePages, Store.wholePages, h.fileOf, (h.heap k).pageSize]

/-- What is shown before is shown after, with the same rows. -/
theorem view_eq_some (h : Looks added s u) {page : PageId} (hn : s.Numbered page.table)
    (ha : added ≠ some page) {q : Page} (hq : u.view page = some q) :
    ∃ p, s.view page = some p ∧ p.Matches q := by
  have hrel := h.views page hn ha
  rw [hq] at hrel
  cases hs : s.view page with
  | none => rw [hs] at hrel; cases hrel
  | some p =>
    rw [hs] at hrel
    cases hrel with
    | some hm => exact ⟨p, rfl, hm⟩

theorem trans (h₁ : Looks none s u) (h₂ : Looks added u v)
    (hn : ∀ page, added = some page → s.Numbered page.table) : Looks added s v where
  views page hnum ha := relMatches_trans (h₁.views page hnum (by simp))
    (h₂.views page (h₁.numbered _ hnum) ha)
  markers page := (h₂.markers page).trans (h₁.markers page)
  volume ha := (h₂.volume ha).trans (h₁.volume rfl)
  appended page ha := by
    obtain ⟨k, f, p, hk, hlast, hpages, hf, hv, hnone, hp, hblank⟩ := h₂.appended page ha
    have hheap := h₁.heap k
    rw [h₁.wholePages] at hlast hpages
    rw [h₁.fileOf] at hf
    rw [h₁.volume rfl, hheap.file] at hv
    refine ⟨k, f, p, h₁.handle _ ▸ hk, hlast, hpages, ?_, hv, ?_, hp, hblank⟩
    · rw [← hf]
      simp only [HeapFile.allocate, HeapFile.place, HeapFile.nextPage, HeapFile.pageCount,
        hheap.pageSize, hheap.table]
    · have hrel := h₁.views page (hn page ha) (by simp)
      rw [hnone] at hrel
      cases hs : s.view page with
      | none => rfl
      | some q => rw [hs] at hrel; cases hrel
  mirrored := h₂.mirrored
  handle t := (h₂.handle t).trans (h₁.handle t)
  heap k := (h₂.heap k).trans (h₁.heap k)
  numbered t hnum := h₂.numbered t (h₁.numbered t hnum)

/-- What follows a search that adds no page more. -/
theorem followed (h₁ : Looks added s u) (h₂ : Looks none u v)
    (hn : ∀ page, added = some page → s.Numbered page.table) : Looks added s v where
  views page hnum ha := relMatches_trans (h₁.views page hnum ha)
    (h₂.views page (h₁.numbered _ hnum) (by simp))
  markers page := (h₂.markers page).trans (h₁.markers page)
  volume ha := (h₂.volume rfl).trans (h₁.volume ha)
  appended page ha := by
    obtain ⟨k, f, p, hk, hlast, hpages, hf, hv, hnone, hp, hblank⟩ := h₁.appended page ha
    have hrel := h₂.views page (h₁.numbered _ (hn page ha)) (by simp)
    rw [hp] at hrel
    cases hq : v.view page with
    | none => rw [hq] at hrel; cases hrel
    | some q =>
      rw [hq] at hrel
      cases hrel with
      | some hm =>
        exact ⟨k, f, q, hk, hlast, (h₂.wholePages k).trans hpages, hf, (h₂.volume rfl).trans hv,
          hnone, rfl, hblank.of_matches hm⟩
  mirrored := h₂.mirrored
  handle t := (h₂.handle t).trans (h₁.handle t)
  heap k := (h₂.heap k).trans (h₁.heap k)
  numbered t hnum := h₂.numbered t (h₁.numbered t hnum)

end Looks

/-! ## Fetches keep views -/

theorem Event.Fetch.whole {txn : TxnId} {e : Event} (h : e.Fetch txn) : e.Whole := by
  cases e with
  | granted | used | evicted | counted | loaded => exact id
  | _ => exact h.elim

/-- What a clean resident page is read as from its file. -/
theorem Mirrored.view_evicted {s : Store} (h : s.Mirrored) {page : PageId} {f : FrameNo}
    (hn : s.Numbered page.table) (hf : s.table.frame? page = some f)
    (hd : (s.frames.page f).dirtier = none) : ∃ k q, s.handle? page.table = some k ∧
      (s.heap k).readPage (s.fileOf k) page = .ok q ∧ (s.frames.page f).Matches q := by
  have hmirrors := h.mirrors hn hf
  obtain ⟨q, hq, hmatch⟩ := hmirrors.clean hd
  obtain ⟨k, hk, hholds⟩ := hmirrors.held
  have himage := HeapFile.readImage_eq_ok_iff.mpr
    ⟨(h.laid.registered hk).2.symm, hholds, onDisk_of_handle hk⟩
  rw [hmirrors.schema hk] at hq
  refine ⟨k, q, hk, ?_, hmatch⟩
  rw [HeapFile.readPage, himage]
  exact hq

theorem Move.looks {e : Event} {s s' : Store} (hm : Move e s s') (h : s.Mirrored) {txn : TxnId}
    (he : e.Fetch txn) : Looks none s s' := by
  have hfiles := hm.sameFiles he.not_writes
  have hread (k : HandleNo) (page : PageId) :
      (s'.heap k).readPage (s'.fileOf k) page = (s.heap k).readPage (s.fileOf k) page := by
    rw [hfiles.fileOf, (hfiles.heap k).readPage]
  refine ⟨⟨fun page hn _ => ?_, fun page => ?_, fun _ => hfiles.volume, by simp⟩,
    hm.mirrored h he.whole, hfiles.handle, hfiles.heap, fun table hn k hk => ?_⟩
  · cases hm.fetched h.shaped he page with
    | kept hframe hpage =>
      cases hf : s.table.frame? page with
      | none =>
        rw [view_of_absent hf, view_of_absent (hframe.trans hf), hfiles.handle]
        simp only [hread]
        exact relMatches_refl _
      | some f =>
        rw [view_of_resident hf, view_of_resident (hframe.trans hf), hpage f hf]
        exact relMatches_refl _
    | left hf hd hframe =>
      obtain ⟨k, q, hk, hq, hmatch⟩ := h.view_evicted hn hf hd
      rw [view_of_resident hf, view_of_absent hframe, hfiles.handle, hk, Option.bind_some, hread,
        hq]
      exact .some hmatch
    | read hf hk hframe hp =>
      rw [view_of_absent hf, hk, Option.bind_some, hp, view_of_resident hframe]
      exact relMatches_refl _
  · cases hm.fetched h.shaped he page with
    | kept hframe hpage =>
      rw [marker?, marker?, hframe]
      cases hf : s.table.frame? page with
      | none => rfl
      | some f => rw [Option.bind_some, Option.bind_some, hpage f hf]
    | left hf hd hframe => rw [marker?, marker?, hframe, hf, Option.bind_some, hd]; rfl
    | read hf _ hframe hp =>
      rw [marker?, marker?, hframe, hf, Option.bind_some, dirtier_readPage hp]
      rfl
  · rw [wholePages, hfiles.fileOf, (hfiles.heap k).pageSize]
    exact hn k (hfiles.handle table ▸ hk)

/-- A fetch changes no view and no marker, whatever it evicts and loads. -/
theorem Trace.looks {es : List Event} {s s' : Store} (ht : Trace es s s') (h : s.Mirrored)
    {txn : TxnId} (he : ∀ e ∈ es, e.Fetch txn) : Looks none s s' :=
  ht.induct (P := fun u => Looks none s u)
    (fun e hm _ _ hmove hs => hs.trans (hmove.looks hs.mirrored (he e hm)) (by simp)) (.refl h)

/-! ## Growing keeps views -/

section Growing
variable {s u : Store} {table : TableId} {k : HandleNo}

/-- A blank page is put behind the last one of a file, and nothing else changes. -/
structure Appended (table : TableId) (k : HandleNo) (s u : Store) : Prop where
  pool : Insertion.Grown s u
  handle : ∀ t, u.handle? t = s.handle? t
  heap : ∀ j, SameHeap (u.heap j) (s.heap j)
  file : ∃ f, (s.heap k).allocate (s.fileOf k) = .ok f ∧
    u.volume = s.volume.setFile (s.heap k).file f
  pages : u.wholePages k = s.wholePages k + 1
  others : ∀ t j, s.handle? t = some j → t ≠ table → u.fileOf j = s.fileOf j
  held : ∀ m, u.Held ⟨table, m⟩ ↔ m = s.wholePages k ∨ s.Held ⟨table, m⟩
  absent : ¬ s.Held ⟨table, s.wholePages k⟩
  onDisk : ∀ m, m ≠ s.wholePages k → u.onDisk ⟨table, m⟩ = s.onDisk ⟨table, m⟩
  blank : u.onDisk ⟨table, s.wholePages k⟩ = Block.blank (s.heap k).pageSize

theorem Laid.appended (h : s.Laid) (hk : s.handle? table = some k)
    (hn : s.wholePages k < pageNumbers) {id : PageId} (ha : allocatePage k s = .ok id u) :
    Appended table k s u := by
  have hsep := h.separate
  have hps := pageSize_pos (h.sized (h.registered hk).1)
  have hpool := Insertion.grown_of_allocate ha
  obtain ⟨f, hf, rfl⟩ := allocatePage_eq_ok ha
  have hholds := HeapFile.holds_allocate hps hn hf
  have hpages := HeapFile.pages_allocate hps hn hf
  have hfile := hf
  obtain ⟨-, rfl⟩ := HeapFile.allocate_eq_ok_iff.mp hf
  have hcount : (s.heap k).pageCount (s.fileOf k) = s.wholePages k := HeapFile.pageCount_of_lt hn
  rw [hcount] at hholds hpages hfile hpool ⊢
  have hk' (m : Nat) : s.handle? (PageId.mk table m).table = some k := hk
  have hku (f : File) (m : Nat) : (s.withFile k f).handle? (PageId.mk table m).table = some k := hk
  refine ⟨hpool, fun _ => rfl, fun j => heap_withFile s k j _, ⟨_, hfile, rfl⟩, ?_,
    fun t j hj hne => fileOf_withFile_other hsep hk hj hne _, fun m => ?_, fun hh => ?_,
    fun m hm => ?_, ?_⟩
  · rw [wholePages_withFile (hsep.made hk)]
    exact hpages
  · rw [held_iff (hku _ m), held_iff (hk' m), fileOf_withFile (hsep.made hk),
      (heap_withFile s k k _).holds]
    exact hholds m
  · exact Nat.lt_irrefl _ (HeapFile.lt_pages_of_holds hps ((held_iff (hk' _)).mp hh))
  · rw [onDisk_withFile hsep (hk' m), onDisk_of_handle (hk' m)]
    exact HeapFile.blockAt_write_other rfl hm
  · rw [onDisk_withFile hsep (hk' _)]
    exact HeapFile.blockAt_write rfl

/-- Other pages are shown as before. -/
theorem Appended.view (h : Appended table k s u) (hk : s.handle? table = some k)
    (ht : (s.heap k).table = table) {page : PageId} (hne : page ≠ ⟨table, s.wholePages k⟩) :
    u.view page = s.view page := by
  have htable := h.pool.table
  cases hf : s.table.frame? page with
  | some f => rw [view_of_resident hf, view_of_resident (htable ▸ hf), h.pool.frames]
  | none =>
    have hf' : u.table.frame? page = none := htable ▸ hf
    by_cases hp : page.table = table
    · obtain ⟨t, m⟩ := page
      obtain rfl : t = table := hp
      have hm : m ≠ s.wholePages k := fun hm => hne (by rw [hm])
      have hheld : u.Held ⟨t, m⟩ ↔ s.Held ⟨t, m⟩ := by
        rw [h.held]
        exact ⟨fun hx => hx.resolve_left hm, .inr⟩
      apply Option.ext
      intro p
      rw [view_eq_some_iff hf' ((h.handle _).trans hk) ((h.heap k).table.trans ht),
        view_eq_some_iff hf hk ht, hheld, (h.heap k).schema, h.onDisk m hm]
    · rw [view_of_absent hf, view_of_absent hf', h.handle]
      cases hj : s.handle? page.table with
      | none => rfl
      | some j =>
        rw [Option.bind_some, Option.bind_some, h.others _ j hj hp, (h.heap j).readPage]

/-- As long as there are page numbers behind the new one, they are not used up. -/
theorem Appended.numbered (h : Appended table k s u) (hk : s.handle? table = some k)
    (hn : s.wholePages k + 1 < pageNumbers) {t : TableId} (ht : s.Numbered t) : u.Numbered t := by
  intro j hj
  rw [h.handle] at hj
  by_cases heq : t = table
  · subst heq
    obtain rfl : k = j := Option.some.inj (hk.symm.trans hj)
    rw [h.pages]
    exact hn
  · rw [wholePages, h.others t j hj heq, (h.heap j).pageSize]
    exact ht j hj

/-- A file that grows shows a blank page more, and other pages as before. -/
theorem Mirrored.grown (h : s.Mirrored) (hk : s.handle? table = some k)
    (hn : s.wholePages k + 1 < pageNumbers) {id : PageId} (ha : allocatePage k s = .ok id u) :
    Looks (some ⟨table, s.wholePages k⟩) s u := by
  obtain ⟨hlt, ht⟩ := h.laid.registered hk
  have hnumbers : s.wholePages k < pageNumbers := Nat.lt_of_succ_lt hn
  have happ := h.laid.appended hk hnumbers ha
  have hm : Move (.grown table (s.wholePages k)) s u := .grown hk ha
  have hnum := numbered_of_lt hk hnumbers
  have habsent : s.table.frame? ⟨table, s.wholePages k⟩ = none := by
    cases hf : s.table.frame? ⟨table, s.wholePages k⟩ with
    | none => rfl
    | some f => exact absurd (h.mirrors hnum hf).held happ.absent
  refine ⟨⟨fun page _ hne => ?_, fun page => ?_, by simp, fun page hpage => ?_⟩,
    hm.mirrored h (Nat.ne_of_lt hn), happ.handle, happ.heap, fun t => happ.numbered hk hn⟩
  · rw [happ.view hk ht fun hp => hne (congrArg some hp.symm)]
    exact relMatches_refl _
  · rw [marker?, marker?, happ.pool.table, happ.pool.frames]
  · obtain rfl := Option.some.inj hpage
    obtain ⟨f, hf, hv⟩ := happ.file
    obtain ⟨p, hp, hblank⟩ := Page.ofImage_blank (h.laid.sized hlt) ⟨table, s.wholePages k⟩
    refine ⟨k, f, p, hk, rfl, happ.pages, hf, hv, ?_, ?_, hblank⟩
    · apply Option.eq_none_iff_forall_ne_some.mpr
      intro q hq
      exact happ.absent ((view_eq_some_iff habsent hk ht).mp hq).1
    · rw [view_eq_some_iff (happ.pool.table ▸ habsent) ((happ.handle _).trans hk)
        ((happ.heap k).table.trans ht), happ.held, happ.blank, (happ.heap k).schema]
      exact ⟨.inl rfl, hp⟩

end Growing

end Store

end RowStore
