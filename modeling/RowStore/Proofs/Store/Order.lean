import RowStore.Proofs.Page.Rereading
import RowStore.Proofs.Store.Ledger

/-!
  Order — files hold images that are read as they were written.

  A store is `Orderly` if every image that a file holds can be read, and every resident
  page has the image that its file holds unless it is dirty. A pool over empty files is
  (`Founded.orderly`), and moves of calls that run to their end keep it if nothing is
  flushed or released (`Move.orderly`). Only changes, commits and drops are seen in the
  ledger then (`Move.ledger`, `Orderly.ledger_changed`).
-/

namespace RowStore.Store

/-! ## Stores in order -/

/-- A resident page is of its table, and it has the image that the file holds unless it is
dirty. -/
structure Fits (s : Store) (page : PageId) (p : Page) : Prop where
  sound : p.Sound
  schema : ∀ {k : HandleNo}, s.handle? page.table = some k → p.schema = (s.heap k).schema
  clean : p.dirtier = none → p.image = .ok (s.onDisk page)

/-- Files hold images that are read as they were written, and resident pages fit them. -/
structure Orderly (s : Store) : Prop where
  shaped : s.Shaped
  guarded : s.Guarded
  current : s.Current
  readable : ∀ {page : PageId} {k : HandleNo}, s.handle? page.table = some k →
    Page.Readable page (s.heap k).schema (s.onDisk page)
  /-- What no file holds is blank. -/
  blank : ∀ {page : PageId} {k : HandleNo}, s.handle? page.table = some k → ¬ s.Held page →
    s.onDisk page = Block.blank (s.heap k).pageSize
  fits : ∀ {page : PageId} {f : FrameNo}, s.table.frame? page = some f →
    s.Fits page (s.frames.page f)

/-- A store whose tables are in empty files. -/
structure Founded (s : Store) : Prop where
  ready : s.Ready
  files : ∀ {table : TableId} {k : HandleNo}, s.handle? table = some k → s.fileOf k = File.empty

/-- A pool that was prepared over empty files. -/
theorem Prepared.founded {s : Store} (h : Prepared s)
    (hf : ∀ table k, s.handle? table = some k → s.fileOf k = File.empty) : s.Founded := by
  refine ⟨h.ready ?_, fun hk => hf _ _ hk⟩
  intro table k hk
  rw [wholePages, hf table k hk]
  show 0 / _ < pageNumbers
  rw [Nat.zero_div]
  decide

theorem Founded.onDisk {s : Store} (h : s.Founded) {page : PageId} {k : HandleNo}
    (hk : s.handle? page.table = some k) : s.onDisk page = Block.blank (s.heap k).pageSize := by
  rw [onDisk_of_handle hk, h.files hk]
  apply Block.ext_byteAt (by simp)
  intro i
  rw [HeapFile.byteAt_blockAt, Block.byteAt_blank]
  split <;> rfl

theorem slotsFor_of_sized {schema : Schema} {n : Nat} (h : HeapFile.checkPageSize schema n = .ok ())
    (id : PageId) : ∃ slots, Page.slotsFor id schema n = .ok slots :=
  ⟨_, Page.slotsFor_eq_ok_iff.mpr ⟨rfl, Layout.check_eq_ok_iff.mp h⟩⟩

theorem Founded.orderly {s : Store} (h : s.Founded) : s.Orderly := by
  have hcurrent := h.ready.current
  have hnone {page : PageId} {f : FrameNo} : s.table.frame? page ≠ some f := by
    rw [h.ready.unused.table]
    simp [PageTable.frame?, PageTable.empty]
  refine ⟨h.ready.unused.shaped, h.ready.unused.guarded, hcurrent, fun {page k} hk => ?_,
    fun hk _ => h.onDisk hk, fun hf => absurd hf hnone⟩
  obtain ⟨slots, hslots⟩ := slotsFor_of_sized (hcurrent.backed.backs hk).sized page
  rw [h.onDisk hk]
  exact Page.readable_blank hslots

theorem Founded.pending {s : Store} (h : s.Founded) (page : PageId) : s.pending page = none := by
  unfold Store.pending
  rw [h.ready.unused.table]
  rfl

/-! ## Moves that keep order -/

/-- The events of calls that run to their end and neither flush nor release. -/
def Event.Orderly : Event → Prop
  | .installed _ _ | .flushed _ | .released _ _ => False
  | e => ¬ e.Endless

theorem Event.Orderly.faithful {e : Event} (h : e.Orderly) (s : Store) : e.Faithful s := by
  cases e <;> first | exact h | exact h.elim

theorem Event.Orderly.unguards {e : Event} (h : e.Orderly) (s : Store) : ¬ e.Unguards s := by
  intro hu
  cases e <;> first | exact hu | exact h

/-- Growing a file changes no image: what it did not hold was blank. -/
theorem Orderly.grown {s s' : Store} (h : s.Orderly) {table : TableId} {n : Nat}
    (hg : Grows table n s s') (page : PageId) : s'.onDisk page = s.onDisk page := by
  by_cases hp : page = ⟨table, n⟩
  · subst hp
    obtain ⟨k, hk, hblank⟩ := hg.blank
    rw [hblank, h.blank hk hg.added]
  · exact hg.others page hp

/-- A change of a page in the pool. -/
def Event.Alters : Event → Prop
  | .changed _ _ => True
  | _ => False

/-- Only a commit changes what files hold. -/
theorem Move.onDisk {e : Event} {s s' : Store} (hm : Move e s s') (h : s.Orderly)
    (he : e.Orderly) {page : PageId} (hne : ¬ e.Saves page) :
    s'.onDisk page = s.onDisk page := by
  by_cases hw : e.Writes
  · cases e with
    | grown table n =>
      cases hm with
      | grown hk ha => exact h.grown (grown_onDisk h.current.backed hk ha he) page
    | flushed => exact he.elim
    | committed txn q =>
      obtain ⟨f, hcm⟩ := hm.commits h.shaped h.current.housed
      apply hcm.written.others
      rw [(h.shaped.filed hcm.resident).2]
      intro hq
      exact hne hq.symm
    | _ => exact hw.elim
  · exact (hm.sameFiles hw).onDisk page

/-- A page that fits goes on to do so if the file holds what it held. -/
theorem Fits.move {e : Event} {s s' : Store} {page : PageId} {p : Page} (h : s.Fits page p)
    (hm : Move e s s') (hd : s'.onDisk page = s.onDisk page) : s'.Fits page p where
  sound := h.sound
  schema {k} hk := by
    rw [(Trace.single hm).handle?] at hk
    rw [(hm.heap k).schema]
    exact h.schema hk
  clean hc := by
    rw [hd]
    exact h.clean hc

/-- A page that was just read fits. -/
theorem Orderly.fits_read {s : Store} (h : s.Orderly) {page : PageId} {k : HandleNo} {p : Page}
    (hk : s.handle? page.table = some k) (hp : (s.heap k).readPage (s.fileOf k) page = .ok p) :
    s.Fits page p := by
  obtain ⟨b, hb, ho⟩ := Page.readPage_eq_ok hp
  obtain ⟨-, -, rfl⟩ := HeapFile.readImage_eq_ok_iff.mp hb
  obtain ⟨q, hq, hsound, himage⟩ := h.readable hk
  rw [onDisk_of_handle hk] at hq himage
  obtain rfl := Except.ok.inj (hq.symm.trans ho)
  refine ⟨hsound, fun {j} hj => ?_, ?_⟩
  · obtain rfl := Option.some.inj (hk.symm.trans hj)
    obtain ⟨slots, rows, -, -, rfl⟩ := Page.ofImage_eq_ok hq
    rfl
  · intro _
    rw [onDisk_of_handle hk]
    exact himage

/-- A dirty page that is committed fits what the file then holds. -/
theorem Commits.fits {s s' : Store} {txn : TxnId} {page : PageId} {f : FrameNo}
    (hcm : Commits txn page f s s') (h : s.Orderly) (hm : Move (.committed txn page) s s') :
    s'.Fits page { s.frames.page f with before := s'.onDisk page, dirtier := none } := by
  have hf := h.fits hcm.resident
  have hsound := hf.sound
  refine ⟨⟨hsound.slots, hsound.bits, hsound.filled, hsound.rows⟩, fun {k} hk => ?_, ?_⟩
  · rw [(Trace.single hm).handle?] at hk
    rw [(hm.heap k).schema]
    exact hf.schema hk
  · intro _
    have himage := hcm.written.image
    rw [(h.shaped.filed hcm.resident).2] at himage
    exact himage

theorem Move.fits {e : Event} {s s' : Store} (hm : Move e s s') (h : s.Orderly)
    (he : e.Orderly) {page : PageId} {f : FrameNo} (hf : s'.table.frame? page = some f) :
    s'.Fits page (s'.frames.page f) := by
  by_cases hs : e.Saves page
  · obtain ⟨txn, rfl⟩ := hs.committed
    obtain ⟨g, hcm⟩ := hm.commits h.shaped h.current.housed
    rw [hcm.table] at hf
    obtain rfl : g = f := Option.some.inj (hcm.resident.symm.trans hf)
    rw [hcm.frames, Frames.page_setPage_self (h.shaped.filed hf).1]
    exact hcm.fits h hm
  · have hdisk := hm.onDisk h he hs
    cases hm.enters hf with
    | stays hwas =>
      have hold := (h.fits hwas).move hm hdisk
      cases (hm.turns (h.shaped.filed hwas).1).2 with
      | kept hp =>
        rw [hp]
        exact hold
      | changed hq =>
        refine ⟨hq.sound hold.sound, fun hk => hq.kept.schema.trans (hold.schema hk), ?_⟩
        intro hc
        rw [hq.kept.dirtier] at hc
        simp at hc
      | committed hres => exact absurd (h.shaped.frame_inj hres hwas) hs
    | loaded _ _ _ hk hp => exact (h.fits_read hk hp).move hm hdisk
    | installed => exact he.elim

theorem Move.orderly {e : Event} {s s' : Store} (hm : Move e s s') (h : s.Orderly)
    (he : e.Orderly) : s'.Orderly := by
  have hhandle := (Trace.single hm).handle?
  refine ⟨hm.shaped h.shaped, hm.guarded h.shaped h.guarded (he.unguards s),
    hm.current h.shaped h.current (he.faithful s), fun {page k} hk => ?_,
    fun {page k} hk hn => ?_, hm.fits h he⟩
  · rw [hhandle] at hk
    rw [(hm.heap k).schema]
    by_cases hc : e.Saves page
    · obtain ⟨txn, rfl⟩ := hc.committed
      obtain ⟨f, hcm⟩ := hm.commits h.shaped h.current.housed
      have hfits := h.fits hcm.resident
      have himage := hcm.written.image
      have hid := (h.shaped.filed hcm.resident).2
      have hread := hfits.sound.readable himage
      rw [hid, hfits.schema hk] at hread
      exact hread
    · rw [hm.onDisk h he hc]
      exact h.readable hk
  · rw [hhandle] at hk
    have hfiles := hm.keepsFiles h.shaped h.current.housed (he.faithful s).not_endless
    have hn' : ¬ s.Held page := fun hp => hn (hfiles.held hp)
    rw [(hm.heap k).pageSize, ← h.blank hk hn']
    apply hm.onDisk h he
    intro hc
    obtain ⟨txn, rfl⟩ := hc.committed
    obtain ⟨f, hcm⟩ := hm.commits h.shaped h.current.housed
    exact hn' (h.current.held hcm.resident)

/-! ## What is seen in the ledger -/

/-- What an event is in the ledger. -/
def Event.book : Event → Ledger → Ledger
  | .committed _ page => fun l => l.commit page
  | .dropped page => fun l => l.drop page
  | _ => id

/-- A resident page that is dirty has a pending image, which is its own. -/
theorem Orderly.pending_of_dirty {s : Store} (h : s.Orderly) {page : PageId} {f : FrameNo}
    {txn : TxnId} (hf : s.table.frame? page = some f)
    (hd : (s.frames.page f).dirtier = some txn) :
    s.pending page = some (txn, (s.frames.page f).block) := by
  have himage := (h.fits hf).sound.image
  simp only [Store.pending, hf, hd, himage]

theorem Move.pending {e : Event} {s s' : Store} (hm : Move e s s') (h : s.Orderly)
    (he : e.Orderly) (hn : ¬ e.Alters) (page : PageId) :
    s'.pending page = (e.book s.ledger).pending page := by
  cases hm with
  | @evicted _ q hv =>
    -- a victim is clean, so nothing that is pending goes with it
    obtain ⟨f, hf, hd⟩ := PageTable.of_victim? h.shaped.ordered hv
    show _ = s.pending page
    by_cases hq : page = q
    · subst hq
      rw [pending_of_clean hf hd]
      apply pending_of_absent
      rw [PageTable.frame?_unrelatePage, PageTable.frame?_remove, if_pos rfl]
    · refine pending_congr ?_ fun g _ => rfl
      rw [PageTable.frame?_unrelatePage, PageTable.frame?_remove, if_neg hq]
  | @dropped _ q =>
    show _ = if page = q then none else s.pending page
    by_cases hq : page = q
    · rw [if_pos hq]
      apply pending_of_absent
      rw [PageTable.frame?_remove, if_pos hq]
    · rw [if_neg hq]
      refine pending_congr ?_ fun g _ => rfl
      rw [PageTable.frame?_remove, if_neg hq]
  | @loaded _ q k p hnone hlt hk hp =>
    show _ = s.pending page
    -- a page that was just read is clean
    have hframe : (s.table.insert q s.frames.size).frame? page =
        if page = q then some s.frames.size else s.table.frame? page :=
      PageTable.frame?_insert ..
    by_cases hq : page = q
    · subst hq
      rw [pending_of_absent hnone]
      rw [if_pos rfl] at hframe
      apply pending_of_clean hframe
      show (Frames.page (s.frames.push p) s.frames.size).dirtier = none
      rw [Frames.page_push, if_pos rfl]
      exact Page.dirtier_readPage hp
    · rw [if_neg hq] at hframe
      apply pending_congr hframe
      intro g hg
      show Frames.page (s.frames.push p) g = _
      rw [Frames.page_push, if_neg (Nat.ne_of_lt (h.shaped.filed hg).1)]
  | @committed _ u txn q f k r hf hd hk hw hr =>
    obtain ⟨file, -, rfl⟩ := writePage_eq_ok hw
    show _ = if page = q then none else s.pending page
    -- what was pending for the page is in the file now
    have hlt := (h.shaped.filed hf).1
    by_cases hq : page = q
    · rw [if_pos hq]
      subst hq
      apply pending_of_clean (f := f)
      · exact hf
      · show (Frames.page (s.frames.setPage f (r.markedBy none)) f).dirtier = none
        rw [Frames.page_setPage_self hlt]
        rfl
    · rw [if_neg hq]
      refine pending_congr rfl ?_
      intro g hg
      show Frames.page (s.frames.setPage f (r.markedBy none)) g = _
      rw [Frames.page_setPage hlt, if_neg]
      intro hx
      subst hx
      exact hq (h.shaped.frame_inj hg hf)
  | grown hk ha =>
    have hgrown := Insertion.grown_of_allocate ha
    exact pending_of_same (fun q => by rw [hgrown.table]) hgrown.frames
  | changed => exact absurd trivial hn
  | installed | flushed | released => exact he.elim
  | granted | used | counted | logged | ended => exact pending_of_same (fun _ => rfl) rfl

theorem Move.committed_image {e : Event} {s s' : Store} (hm : Move e s s') (h : s.Orderly)
    (he : e.Orderly) (page : PageId) : s'.onDisk page = (e.book s.ledger).committed page := by
  cases e with
  | committed txn q =>
    obtain ⟨f, hcm⟩ := hm.commits h.shaped h.current.housed
    show _ = if page = q then s.ledger.latest page else s.onDisk page
    split
    · rename_i hq
      have hpending := h.pending_of_dirty hcm.resident hcm.dirty
      have himage := hcm.written.image
      rw [(h.shaped.filed hcm.resident).2, (h.fits hcm.resident).sound.image] at himage
      rw [hq]
      simp only [Ledger.latest, Store.ledger, hpending]
      exact (Except.ok.inj himage).symm
    · rename_i hq
      exact hm.onDisk h he fun heq => hq heq.symm
  | _ => exact hm.onDisk h he id

/-- Only changes, commits and drops are seen in the ledger, and a commit or a drop is seen
as one. -/
theorem Move.ledger {e : Event} {s s' : Store} (hm : Move e s s') (h : s.Orderly)
    (he : e.Orderly) (hn : ¬ e.Alters) : s'.ledger = e.book s.ledger :=
  Ledger.ext (hm.committed_image h he) (hm.pending h he hn)

/-- A change of a resident page is seen as one of its pending image. -/
theorem Orderly.ledger_changed {s : Store} (h : s.Orderly) {txn : TxnId} {f : FrameNo} {q : Page}
    (hf : s.table.frame? (s.frames.page f).id = some f) (hq : Edited txn (s.frames.page f) q) :
    ledger { s with frames := s.frames.setPage f q } =
      s.ledger.edit txn (s.frames.page f).id q.block := by
  have hlt := (h.shaped.filed hf).1
  apply Ledger.ext
  · intro page
    rfl
  · intro page
    show _ = if page = (s.frames.page f).id then some (txn, q.block) else s.pending page
    split
    · rename_i hp
      have hpage : Frames.page (s.frames.setPage f q) f = q := Frames.page_setPage_self hlt q
      have himage := (hq.sound (h.fits hf).sound).image
      rw [hp]
      simp only [Store.ledger, Store.pending, hf, hpage, hq.kept.dirtier, himage]
    · rename_i hp
      refine pending_congr rfl ?_
      intro g hg
      show Frames.page (s.frames.setPage f q) g = _
      rw [Frames.page_setPage hlt, if_neg]
      intro hx
      subst hx
      exact hp (h.shaped.filed hg).2.symm

/-- What a trace without changes is in the ledger. -/
theorem Trace.ledger {es : List Event} {s s' : Store} (ht : Trace es s s') (h : s.Orderly)
    (he : ∀ e ∈ es, e.Orderly ∧ ¬ e.Alters) :
    s'.Orderly ∧ s'.ledger = es.foldl (fun l e => e.book l) s.ledger := by
  induction ht with
  | nil => exact ⟨h, rfl⟩
  | @cons e es s u v hm _ ih =>
    obtain ⟨horder, hchange⟩ := he e List.mem_cons_self
    have hrest := ih (hm.orderly h horder) fun e' hm' => he e' (List.mem_cons_of_mem _ hm')
    rw [List.foldl_cons, ← hm.ledger h horder hchange]
    exact hrest

end RowStore.Store
