import RowStore.Proofs.Store.WriteAhead

/-!
  Aborting — what the pages that a transaction had changed are after its abort.

  An abort only drops pages, so afterwards they are what their files hold, which is the
  image put there last (`History.onDisk`). That is their last committed image, or a blank
  page since the file grew by it, and it shows what they were when they were clean last
  (`History.unflushed`), unless they have been flushed since (`Chronicle.abort_rereads`). A
  flush writes a dirty page before its transaction ends, and the abort does not take it back.
-/

namespace RowStore.Store

/-! ## Images that are put into files -/

/-- The image of the resident instance of a page. -/
def imageOf (s : Store) (page : PageId) : Option Block :=
  (s.table.frame? page).bind fun f => (s.frames.page f).image.toOption

/-- The image that a moment puts into its file for a page: a blank one as the file grows by
the page, and the one of the resident instance as that is written. -/
def Moment.put? (m : Moment) (page : PageId) : Option Block :=
  match m.act.event with
  | .grown table n =>
    if page = ⟨table, n⟩ then some (Block.blank (m.start.onDisk page).size) else none
  | .flushed q | .committed _ q => if page = q then m.start.imageOf page else none
  | _ => none

/-- The same but for the flushes. -/
def Moment.settle? (m : Moment) (page : PageId) : Option Block :=
  match m.act.event with
  | .flushed _ => none
  | _ => m.put? page

/-- The image that was put into its file last for a page, at first the one that was there. -/
def lastPut (s : Store) (ms : List Moment) (page : PageId) : Block :=
  ms.foldl (fun image m => (m.put? page).getD image) (s.onDisk page)

theorem lastPut_concat (s : Store) (ms : List Moment) (m : Moment) (page : PageId) :
    lastPut s (ms ++ [m]) page = (m.put? page).getD (lastPut s ms page) := by
  rw [lastPut, List.foldl_append]
  rfl

/-- Every flush of the page is followed by a commit of it. -/
def FlushesSettled (page : PageId) (ms : List Moment) : Prop :=
  ∀ early m late, ms = early ++ m :: late → m.act.event = .flushed page →
    ∃ n ∈ late, n.settle? page ≠ none

theorem FlushesSettled.tail {page : PageId} {m : Moment} {ms : List Moment}
    (h : FlushesSettled page (m :: ms)) : FlushesSettled page ms := by
  intro early x late hsplit hx
  exact h (m :: early) x late (by rw [hsplit]; rfl) hx

theorem Moment.put?_of_puts {m : Moment} {page : PageId} (h : m.act.event.Puts page) :
    m.put? page = m.start.imageOf page := by
  unfold put?
  cases he : m.act.event with
  | flushed q | committed _ q =>
    rw [he] at h
    obtain rfl : q = page := h
    exact if_pos rfl
  | _ =>
    rw [he] at h
    exact h.elim

theorem Moment.put?_of_no_write {m : Moment} {page : PageId} (hp : ¬ m.act.event.Puts page)
    (hg : ∀ table n, m.act.event = .grown table n → page ≠ ⟨table, n⟩) : m.put? page = none := by
  unfold put?
  cases he : m.act.event with
  | flushed q | committed _ q =>
    rw [he] at hp
    exact if_neg fun hq => hp hq.symm
  | grown table n => exact if_neg (hg table n he)
  | _ => rfl

/-- A file holds the image that a moment has put there, and it can be read. -/
structure Installed (s : Store) (page : PageId) (b : Block) : Prop where
  onDisk : s.onDisk page = b
  readable : ∀ {k : HandleNo}, s.handle? page.table = some k →
    Page.Readable page (s.heap k).schema b

/-- A write over a page puts the image of its resident instance there. -/
theorem Move.installs {e : Event} {s s' : Store} {page : PageId} (hm : Move e s s')
    (h : s.Tended) (he : e.Puts page) : ∃ b, s.imageOf page = some b ∧ s'.Installed page b := by
  obtain ⟨f, hf, -, hw⟩ := hm.puts h.shaped h.housed he
  have hid := (h.shaped.filed hf).2
  have himage : (s.frames.page f).image = .ok (s'.onDisk page) := hid ▸ hw.image
  refine ⟨s'.onDisk page, ?_, rfl, fun {k} hk => ?_⟩
  · rw [imageOf, hf, Option.bind_some, himage]
    rfl
  · rw [(Trace.single hm).handle?] at hk
    have hread := ((h.tends hf).formed.sound himage).readable himage
    rw [hid, (h.tends hf).schema hk] at hread
    rw [(hm.heap k).schema]
    exact hread

/-- A file that grows by a page holds a blank one. -/
theorem Move.blanks {s s' : Store} {table : TableId} {n : Nat}
    (hm : Move (.grown table n) s s') (h : s.Tended) (he : ¬ (Event.grown table n).Endless) :
    s'.Installed ⟨table, n⟩ (Block.blank (s.onDisk ⟨table, n⟩).size) := by
  have hhandle := (Trace.single hm).handle?
  have hheap := hm.heap
  cases hm with
  | @grown _ _ _ k _ hk ha =>
    have hg := grown_onDisk h.housed.backed hk ha he
    obtain ⟨j, hj, hblank⟩ := hg.blank
    obtain rfl : j = k := Option.some.inj (hj.symm.trans hk)
    have hsize : (s.onDisk ⟨table, s.wholePages j⟩).size = (s.heap j).pageSize := by
      have hk' : s.handle? (PageId.mk table (s.wholePages j)).table = some j := hk
      rw [onDisk_of_handle hk', HeapFile.size_blockAt]
    rw [hsize]
    refine ⟨hblank, fun {i} hi => ?_⟩
    rw [hhandle] at hi
    obtain rfl : j = i := Option.some.inj (hk.symm.trans hi)
    obtain ⟨slots, hslots⟩ :=
      slotsFor_of_sized (h.housed.backed.backs hk).sized ⟨table, s.wholePages j⟩
    rw [(hheap j).schema]
    exact Page.readable_blank hslots

/-- What a moment puts into a file is what the file then holds. -/
theorem Act.Does.put {a : Act} {s s' : Store} (hd : a.Does s s') (h : s.Tended)
    (he : a.event.Whole) (page : PageId) :
    (∃ b, Moment.put? ⟨s, a, s'⟩ page = some b ∧ s'.Installed page b) ∨
      Moment.put? ⟨s, a, s'⟩ page = none ∧ s'.onDisk page = s.onDisk page := by
  by_cases hp : a.event.Puts page
  · rw [Moment.put?_of_puts (m := ⟨s, a, s'⟩) hp]
    exact .inl (hd.move.installs h hp)
  by_cases hg : ∃ table n, a.event = .grown table n ∧ page = ⟨table, n⟩
  · obtain ⟨table, n, hgrown, rfl⟩ := hg
    have hm := hd.move
    rw [hgrown] at hm
    refine .inl ⟨_, ?_, hm.blanks h (hgrown ▸ he.not_endless)⟩
    simp only [Moment.put?, hgrown, if_true]
  · have hother table n (hgrown : a.event = .grown table n) : page ≠ ⟨table, n⟩ :=
      fun heq => hg ⟨table, n, hgrown, heq⟩
    exact .inr ⟨Moment.put?_of_no_write (m := ⟨s, a, s'⟩) hp hother,
      hd.move.leaves h.shaped h.housed he.not_endless hp hother⟩

theorem Installed.move {e : Event} {s s' : Store} {page : PageId} {b : Block}
    (h : s.Installed page b) (hm : Move e s s') (hd : s'.onDisk page = s.onDisk page) :
    s'.Installed page b where
  onDisk := hd.trans h.onDisk
  readable {k} hk := by
    rw [(Trace.single hm).handle?] at hk
    rw [(hm.heap k).schema]
    exact h.readable hk

/-- After a history a file holds for a page what was put there last. -/
theorem History.onDisk {s u : Store} {ms : List Moment} (h : History ms s u) (hs : s.Ready)
    (he : ∀ m ∈ ms, m.act.event.Whole) (page : PageId) :
    u.onDisk page = lastPut s ms page ∧
      ((∃ m ∈ ms, m.put? page ≠ none) → u.Installed page (lastPut s ms page)) := by
  have hstart : s.Tended ∧ s.onDisk page = lastPut s [] page ∧
      ((∃ m ∈ [], Moment.put? m page ≠ none) → s.Installed page (lastPut s [] page)) :=
    ⟨hs.tended, rfl, by simp⟩
  refine (h.extend (P := fun ms u => u.Tended ∧ u.onDisk page = lastPut s ms page ∧
    ((∃ m ∈ ms, m.put? page ≠ none) → u.Installed page (lastPut s ms page))) ?_ hstart he).2
  intro ms u a v hu hd hw
  obtain ⟨htended, hdisk, hinstalled⟩ := hu
  refine ⟨hd.move.tended htended hw, ?_⟩
  rw [lastPut_concat]
  rcases hd.put htended hw page with ⟨b, hput, hb⟩ | ⟨hput, hsame⟩
  · rw [hput]
    exact ⟨hb.onDisk, fun _ => hb⟩
  · rw [hput]
    refine ⟨hsame.trans hdisk, fun hm => ?_⟩
    obtain ⟨m, hmem, hne⟩ := hm
    rcases List.mem_append.mp hmem with hmem | hmem
    · exact (hinstalled ⟨m, hmem, hne⟩).move hd.move hsame
    · rw [List.mem_singleton.mp hmem] at hne
      exact absurd hput hne

/-! ## Pages that are dirty -/

/-- Whether a page is resident and dirty. -/
def Dirty (s : Store) (page : PageId) : Prop :=
  ∃ f, s.table.frame? page = some f ∧ (s.frames.page f).dirtier ≠ none

/-- A search makes no page dirty. -/
theorem Move.clean {e : Event} {s s' : Store} {page : PageId} {txn : TxnId} (hm : Move e s s')
    (h : s.Shaped) (he : e.Fetch txn) (hn : ¬ s.Dirty page) : ¬ s'.Dirty page := by
  intro hd
  obtain ⟨f, hf, hd⟩ := hd
  cases hm.enters hf with
  | stays hwas =>
    cases (hm.turns (h.filed hwas).1).2 with
    | kept hsame => exact hn ⟨f, hwas, hsame ▸ hd⟩
    | changed | committed => exact he.elim
  | loaded _ _ _ _ hp => exact hd (Page.dirtier_readPage hp)
  | installed => exact he.elim

/-- Whoever fetches a page that is not dirty is shown what its file holds. -/
theorem Tended.shows {s : Store} (h : s.Tended) {page : PageId} (hn : ¬ s.Dirty page)
    {txn : TxnId} {access : Access} {f : FrameNo} {u : Store}
    (hg : getPage txn page access s = .ok f u) :
    ∃ p, Page.ofImage page (u.frames.page f).schema (s.onDisk page) = .ok p ∧
      (u.frames.page f).image = p.image := by
  obtain ⟨⟨es, ht, he⟩, -, hf, -⟩ := (getPage_traced h.shaped txn page access).ok hg
  obtain ⟨hu, hdisk, hclean⟩ := ht.induct
    (P := fun w => w.Tended ∧ w.onDisk page = s.onDisk page ∧ ¬ w.Dirty page) (by
      intro e hm v w hmove hv
      obtain ⟨hfetch, hend⟩ := he e hm
      have hwhole : e.Whole := by cases e <;> first | exact hfetch.elim | exact hend
      exact ⟨hmove.tended hv.1 hwhole, ((hmove.sameFiles hfetch.not_writes).onDisk page).trans hv.2.1,
        hmove.clean hv.1.shaped hfetch hv.2.2⟩) ⟨h, rfl, hn⟩
  obtain ⟨p, hp, himage⟩ := (hu.tends hf).rereads
  rw [hdisk] at hp
  refine ⟨p, hp, (himage ?_).symm⟩
  apply Decidable.byContradiction
  intro hd
  exact hclean ⟨f, hf, hd⟩

/-- What is resident can be read from its file. -/
theorem Tended.readPage {s : Store} (h : s.Tended) {page : PageId} {f : FrameNo}
    (hf : s.table.frame? page = some f) : ∃ k p, s.handle? page.table = some k ∧
      (s.heap k).readPage (s.fileOf k) page = .ok p ∧
      Page.ofImage page (s.heap k).schema (s.onDisk page) = .ok p := by
  obtain ⟨k, hk, himage⟩ := h.housed.readImage hf
  obtain ⟨p, hp, -⟩ := (h.tends hf).rereads
  rw [(h.tends hf).schema hk] at hp
  refine ⟨k, p, hk, ?_, hp⟩
  rw [HeapFile.readPage, himage]
  exact hp

/-- After the abort a page that the transaction had made dirty is not resident, and there is
room for it. -/
theorem Tended.dropped {s : Store} (h : s.Tended) {txn : TxnId} {page : PageId} {f : FrameNo}
    (hf : s.table.frame? page = some f) (hd : (s.frames.page f).dirtier = some txn) {u : Store}
    (hu : u.Shaped) (heq : u = (s.without (s.table.dirtiedBy s.frames txn)).ended txn) :
    u.table.frame? page = none ∧ u.table.size < u.maxPages := by
  have hframe (q : PageId) : u.table.frame? q =
      if q ∈ (s.table.dirtiedBy s.frames txn).map Prod.fst then none else s.table.frame? q := by
    rw [heq]
    show ((s.without _).table.forgetTxn txn).frame? q = _
    rw [PageTable.frame?_forgetTxn, frame?_without]
  have hmem : (page, f) ∈ s.table.dirtiedBy s.frames txn :=
    (PageTable.mem_dirtiedBy h.shaped.ordered).mpr ⟨hf, hd⟩
  have hnone : u.table.frame? page = none := by
    rw [hframe, if_pos (List.mem_map_of_mem hmem)]
  refine ⟨hnone, ?_⟩
  -- what is resident then was so before, and so was the page
  have hnodup : (page :: u.table.order).Nodup := by
    refine List.nodup_cons.mpr ⟨fun hq => ?_, hu.ordered.nodup⟩
    exact (hu.ordered.mem page).mp hq hnone
  have hsub : page :: u.table.order ⊆ s.table.order := by
    intro q hq
    rw [h.shaped.ordered.mem]
    rcases List.mem_cons.mp hq with rfl | hq
    · simp [hf]
    · have hres := (hu.ordered.mem q).mp hq
      rw [hframe] at hres
      split at hres
      · exact absurd rfl hres
      · exact hres
  have hlen := hnodup.length_le_of_subset hsub
  rw [List.length_cons, ← hu.ordered.size, ← h.shaped.ordered.size] at hlen
  have hmax : u.maxPages = s.maxPages := by rw [heq]; rfl
  rw [hmax]
  exact Nat.lt_of_lt_of_le hlen h.shaped.bounded

theorem History.guarded {ms : List Moment} {s u : Store} (h : History ms s u) (hs : s.Shaped)
    (hg : s.Guarded) (he : ∀ m ∈ ms, ∀ t q, m.act.event ≠ .released t q) : u.Guarded := by
  have hboth := h.trace.induct (P := fun w => w.Shaped ∧ w.Guarded) ?_ ⟨hs, hg⟩
  · intro page f txn hf hd
    exact hboth.2 hf hd
  · intro e hm v w hmove hv
    obtain ⟨m, hmem, rfl⟩ := List.mem_map.mp hm
    refine ⟨hmove.shaped hv.1, hmove.guarded hv.1 hv.2 fun hu => ?_⟩
    cases hact : m.act.event with
    | released t q => exact he m hmem t q hact
    | _ =>
      rw [hact] at hu
      exact hu.elim

/-- Nobody has a page locked that an aborted transaction had made dirty. -/
theorem Guarded.freed {s u : Store} (hg : s.Guarded) (h : s.Shaped) {txn : TxnId} {page : PageId}
    {f : FrameNo} (hf : s.table.frame? page = some f)
    (hd : (s.frames.page f).dirtier = some txn) (hu : u.locks = s.locks.releaseAll txn)
    (t : TxnId) (access : Access) : u.locks.acquire? t page access ≠ none := by
  have hlock := hg hf hd
  rw [hu]
  apply LockManager.acquire?_of_free (h.consistent.releaseAll txn)
  intro v
  rw [LockManager.mode?_releaseAll h.consistent]
  split
  · rfl
  · rename_i hv
    exact LockManager.mode?_of_write h.consistent hlock hv

end RowStore.Store
