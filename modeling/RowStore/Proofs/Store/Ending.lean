import RowStore.Proofs.Store.Parts

/-!
  Ending — what the end of a transaction leaves behind, whatever becomes of its pages.

  A commit takes the pages that the transaction made dirty in load order. What was committed
  so far is on disk and clean, and nothing else has changed but the log (`Advanced`); the
  first failure drops that page and those after it, and an abort drops them all. Either way
  the transaction leaves without locks and without a page that it made dirty, and what others
  have is as it was (`Parted`). Main statement: `Attained.completion_ends`, for every state that any use
  of the store leads to and whatever fails in the log.
-/

namespace RowStore.Store

/-! ## Commits so far -/

/-- A page that was committed is clean and resident, and it is on disk as it was. -/
structure Saved (s u : Store) (page : PageId) (f : FrameNo) : Prop where
  frame : u.table.frame? page = some f
  image : (s.frames.page f).image = .ok (u.onDisk page)
  page : u.frames.page f = { s.frames.page f with before := u.onDisk page, dirtier := none }

/-- A page that was dropped is not resident, and nothing of it was written. -/
structure Lost (s u : Store) (page : PageId) : Prop where
  absent : u.table.frame? page = none
  onDisk : u.onDisk page = s.onDisk page

/-- The pages listed were committed, and nothing else has changed but the log. -/
structure Advanced (pages : List (PageId × FrameNo)) (s v : Store) : Prop where
  separate : v.Separate
  table : v.table = s.table
  locks : v.locks = s.locks
  saved : ∀ page f, (page, f) ∈ pages → (s.frames.page f).image = .ok (v.onDisk page) ∧
    v.frames.page f = { s.frames.page f with before := v.onDisk page, dirtier := none }
  kept : ∀ f, (∀ page, (page, f) ∉ pages) → v.frames.page f = s.frames.page f
  onDisk : ∀ page, (∀ f, (page, f) ∉ pages) → v.onDisk page = s.onDisk page

theorem Advanced.refl {s : Store} (h : s.Separate) : Advanced [] s s :=
  ⟨h, rfl, rfl, by simp, fun _ _ => rfl, fun _ _ => rfl⟩

theorem Separate.congr {s s' : Store} (h : s.Separate) (hv : s'.volume = s.volume)
    (hh : s'.handles = s.handles) (hc : s'.catalog = s.catalog) : s'.Separate := by
  have hheap (k : HandleNo) : s'.heap k = s.heap k := by rw [heap, heap, hh]
  have hhandle (t : TableId) : s'.handle? t = s.handle? t := by rw [handle?, handle?, hc]
  refine ⟨fun {t k} hk => ?_, fun {t u k j} hk hj => ?_⟩
  · rw [hheap, hv]
    exact h.made (hhandle t ▸ hk)
  · rw [hheap, hheap]
    exact h.apart (hhandle t ▸ hk) (hhandle u ▸ hj)

/-- One more page is committed before the others. -/
theorem Advanced.cons {s u v : Store} {page : PageId} {f : FrameNo}
    {pages : List (PageId × FrameNo)} (h₁ : Advanced [(page, f)] s u) (h₂ : Advanced pages u v)
    (hpage : ∀ g, (page, g) ∉ pages) (hframe : ∀ p, (p, f) ∉ pages) :
    Advanced ((page, f) :: pages) s v := by
  obtain ⟨himage, hclean⟩ := h₁.saved page f List.mem_cons_self
  refine ⟨h₂.separate, h₂.table.trans h₁.table, h₂.locks.trans h₁.locks, fun p g hmem => ?_,
    fun g hg => ?_, fun p hp => ?_⟩
  · rcases List.mem_cons.mp hmem with heq | hrest
    · obtain ⟨rfl, rfl⟩ := Prod.mk.inj heq
      rw [h₂.onDisk p hpage, h₂.kept g hframe]
      exact ⟨himage, hclean⟩
    · have hother : ∀ q, (q, g) ∉ [(page, f)] := by
        intro q hq
        obtain ⟨-, rfl⟩ := Prod.mk.inj (List.mem_singleton.mp hq)
        exact hframe p hrest
      have hsaved := h₂.saved p g hrest
      rw [h₁.kept g hother] at hsaved
      exact hsaved
  · rw [h₂.kept g fun p hmem => hg p (List.mem_cons_of_mem _ hmem)]
    refine h₁.kept g fun p hmem => hg p ?_
    rw [List.mem_singleton.mp hmem]
    exact List.mem_cons_self
  · rw [h₂.onDisk p fun g hmem => hp g (List.mem_cons_of_mem _ hmem)]
    refine h₁.onDisk p fun g hmem => hp g ?_
    rw [List.mem_singleton.mp hmem]
    exact List.mem_cons_self

/-- A transaction has left: it has no lock, no page that it uses and none that it made dirty.
What others hold and use is as before, and so is every page that it had not made dirty. -/
structure Parted (txn : TxnId) (s u : Store) : Prop where
  clean : ∀ page f, u.table.frame? page = some f → (u.frames.page f).dirtier ≠ some txn
  unlocked : ∀ page, u.locks.mode? txn page = none ∧ (u.locks.record page).mode? txn = none
  unused : ∀ page, ¬ u.table.relation.Has txn page ∧ txn ∉ u.table.relation.txns.members page
  locks : ∀ t page, t ≠ txn → u.locks.mode? t page = s.locks.mode? t page
  uses : ∀ t page, t ≠ txn → (u.table.relation.Has t page ↔ s.table.relation.Has t page)
  others : ∀ page, (∀ f, s.table.frame? page = some f → (s.frames.page f).dirtier ≠ some txn) →
    u.table.frame? page = s.table.frame? page ∧ u.onDisk page = s.onDisk page ∧
      ∀ f, s.table.frame? page = some f → u.frames.page f = s.frames.page f

theorem relation_without (s : Store) (pages : List (PageId × FrameNo)) :
    (s.without pages).table.relation = s.table.relation := by
  induction pages generalizing s with
  | nil => rfl
  | cons x rest ih => exact (ih { s with table := s.table.remove x.1 }).trans (by simp)

/-- After the commits and the drops the transaction leaves. -/
theorem Advanced.ends {s v : Store} {txn : TxnId} {done rest : List (PageId × FrameNo)}
    (h : s.Shaped) (hsplit : s.table.dirtiedBy s.frames txn = done ++ rest)
    (ha : Advanced done s v) (log : Log) {u : Store}
    (hu : u = (without { v with log := log } rest).ended txn) :
    Parted txn s u ∧ (∀ page f, (page, f) ∈ done → Saved s u page f) ∧
      ∀ page f, (page, f) ∈ rest → Lost s u page := by
  have hmem (page : PageId) (f : FrameNo) : (page, f) ∈ done ++ rest ↔
      s.table.frame? page = some f ∧ (s.frames.page f).dirtier = some txn :=
    hsplit ▸ dirties_dirtiedBy h txn page f
  have hnodup : ((done ++ rest).map Prod.fst).Nodup :=
    hsplit ▸ PageTable.nodup_dirtiedBy h.ordered s.frames txn
  -- what is committed is not dropped
  have hapart (page : PageId) (f g : FrameNo) (hd : (page, f) ∈ done) : (page, g) ∉ rest := by
    rw [List.map_append, List.nodup_append] at hnodup
    exact fun hr => hnodup.2.2 page (List.mem_map_of_mem hd) page (List.mem_map_of_mem hr) rfl
  have hframe (page : PageId) : u.table.frame? page =
      if page ∈ rest.map Prod.fst then none else s.table.frame? page := by
    rw [hu]
    show ((without { v with log := log } rest).table.forgetTxn txn).frame? page = _
    rw [PageTable.frame?_forgetTxn, frame?_without]
    show (if _ then none else v.table.frame? page) = _
    rw [ha.table]
  have hframes : u.frames = v.frames := by rw [hu]; rfl
  have hdisk (page : PageId) : u.onDisk page = v.onDisk page := by rw [hu]; rfl
  have hlocks : u.locks = s.locks.releaseAll txn := by
    rw [hu, ← ha.locks]
    rfl
  have hrelation : u.table.relation = s.table.relation.removeTxn txn := by
    rw [hu]
    show (without { v with log := log } rest).table.relation.removeTxn txn = _
    rw [relation_without]
    show v.table.relation.removeTxn txn = _
    rw [ha.table]
  have hstays (page : PageId) (hr : ∀ f, (page, f) ∉ rest) :
      u.table.frame? page = s.table.frame? page := by
    rw [hframe, if_neg]
    intro hm
    obtain ⟨⟨p, f⟩, hx, rfl⟩ := List.mem_map.mp hm
    exact hr f hx
  have hlost (page : PageId) (f : FrameNo) (hr : (page, f) ∈ rest) : Lost s u page := by
    refine ⟨by rw [hframe, if_pos (List.mem_map_of_mem hr)], ?_⟩
    rw [hdisk, ha.onDisk page fun g hd => hapart page g f hd hr]
  have hsaved (page : PageId) (f : FrameNo) (hd : (page, f) ∈ done) : Saved s u page f := by
    obtain ⟨himage, hpage⟩ := ha.saved page f hd
    refine ⟨?_, by rw [hdisk]; exact himage, by rw [hframes, hdisk]; exact hpage⟩
    rw [hstays page fun g => hapart page f g hd]
    exact ((hmem page f).mp (List.mem_append_left _ hd)).1
  -- a frame whose page was not committed is as it was
  have hkept (page : PageId) (f : FrameNo) (hf : s.table.frame? page = some f)
      (hd : (page, f) ∉ done) : u.frames.page f = s.frames.page f := by
    rw [hframes]
    refine ha.kept f fun p hm => hd ?_
    have hp := ((hmem p f).mp (List.mem_append_left _ hm)).1
    exact h.frame_inj hp hf ▸ hm
  refine ⟨⟨fun page f hf => ?_, fun page => ?_, fun page => ?_, fun t page ht => ?_,
    fun t page ht => ?_, fun page hp => ?_⟩, hsaved, hlost⟩
  · rw [hframe] at hf
    split at hf
    · simp at hf
    rename_i hr
    by_cases hd : (page, f) ∈ done
    · rw [(hsaved page f hd).page]
      simp
    · rw [hkept page f hf hd]
      intro hmark
      rcases List.mem_append.mp ((hmem page f).mpr ⟨hf, hmark⟩) with hm | hm
      · exact hd hm
      · exact hr (List.mem_map_of_mem hm)
  · have hnone : u.locks.mode? txn page = none := by
      rw [hlocks, LockManager.mode?_releaseAll h.consistent, if_pos rfl]
    have hagree := (h.consistent.releaseAll txn).agree txn page
    rw [← hlocks, hnone] at hagree
    exact ⟨hnone, hagree.symm⟩
  · have hnot : ¬ u.table.relation.Has txn page := by
      rw [hrelation, Relation.has_removeTxn]
      exact fun hh => hh.2 rfl
    refine ⟨hnot, ?_⟩
    rw [hrelation] at hnot ⊢
    rwa [← h.paired.removeTxn txn txn page]
  · rw [hlocks, LockManager.mode?_releaseAll h.consistent, if_neg ht]
  · rw [hrelation, Relation.has_removeTxn]
    exact and_iff_left ht
  · have hnot (f : FrameNo) : (page, f) ∉ done ++ rest := fun hm =>
      hp f ((hmem page f).mp hm).1 ((hmem page f).mp hm).2
    refine ⟨hstays page fun f hm => hnot f (List.mem_append_right _ hm), ?_, fun f hf => ?_⟩
    · rw [hdisk, ha.onDisk page fun f hm => hnot f (List.mem_append_left _ hm)]
    · exact hkept page f hf fun hm => hnot f (List.mem_append_left _ hm)

/-- How a completion ends. -/
inductive Ends (txn : TxnId) (s : Store) : Bool → EStateM.Result StoreError Store Unit → Prop
  | committed {u : Store} : Parted txn s u →
    (∀ page f, (page, f) ∈ s.table.dirtiedBy s.frames txn → Saved s u page f) →
    Ends txn s true (.ok () u)
  /-- The pages before the first that fails are committed, and its error is the result. -/
  | failed {done more : List (PageId × FrameNo)} {page : PageId} {f : FrameNo} {err : StoreError}
    {v w u : Store} : s.table.dirtiedBy s.frames txn = done ++ (page, f) :: more →
    commitPages txn done s = .ok none v → commitPage txn f v = .error err w → Parted txn s u →
    (∀ p g, (p, g) ∈ done → Saved s u p g) → (∀ p g, (p, g) ∈ (page, f) :: more → Lost s u p) →
    Ends txn s true (.error err u)
  | aborted {u : Store} : Parted txn s u →
    (∀ page f, (page, f) ∈ s.table.dirtiedBy s.frames txn → Lost s u page) →
    u.volume = s.volume → u.log = s.log → Ends txn s false (.ok () u)

/-- The same files are open as the same tables, and no file is taken away. -/
structure KeepsOpen (s s' : Store) : Prop where
  opened : s'.opened = s.opened
  catalog : s'.catalog = s.catalog
  handles : s'.handles.size = s.handles.size
  heap : ∀ k, SameHeap (s'.heap k) (s.heap k)
  linked : s.volume.Linked → s'.volume.Linked
  files : s.volume.files.size ≤ s'.volume.files.size

namespace KeepsOpen

variable {s s' u : Store}

/-- A change of the pool or of the log. -/
theorem of_eq (ho : s'.opened = s.opened) (hc : s'.catalog = s.catalog)
    (hh : s'.handles = s.handles) (hv : s'.volume = s.volume) : KeepsOpen s s' where
  opened := ho
  catalog := hc
  handles := congrArg Array.size hh
  heap k := by
    rw [Store.heap, Store.heap, hh]
    exact .refl _
  linked hl := hv ▸ hl
  files := Nat.le_of_eq (by rw [hv])

theorem trans (h₁ : KeepsOpen s s') (h₂ : KeepsOpen s' u) : KeepsOpen s u where
  opened := h₂.opened.trans h₁.opened
  catalog := h₂.catalog.trans h₁.catalog
  handles := h₂.handles.trans h₁.handles
  heap k := (h₂.heap k).trans (h₁.heap k)
  linked hl := h₂.linked (h₁.linked hl)
  files := Nat.le_trans h₁.files h₂.files

/-- A file is written and the write is counted. -/
theorem withFile (s : Store) (k : HandleNo) (f : File) : KeepsOpen s (s.withFile k f) where
  opened := rfl
  catalog := rfl
  handles := by simp [Store.withFile]
  heap j := heap_withFile s k j f
  linked hl := hl.setFile _ f
  files := by simp [Store.withFile, Volume.setFile]

end KeepsOpen

theorem Move.keepsOpen {e : Event} {s s' : Store} (hm : Move e s s') : KeepsOpen s s' := by
  cases hm with
  | counted => exact ⟨rfl, rfl, by simp, fun j => sameHeap_modify s _ j fun _ => ⟨rfl, rfl, rfl, rfl, rfl⟩,
      id, Nat.le_refl _⟩
  | grown hk ha =>
    obtain ⟨f, -, rfl⟩ := allocatePage_eq_ok ha
    exact .withFile s _ f
  | flushed hf hd hk hw =>
    obtain ⟨f, -, rfl⟩ := writePage_eq_ok hw
    exact .withFile s _ f
  | committed hf hd hk hw hq =>
    obtain ⟨file, -, rfl⟩ := writePage_eq_ok hw
    exact (KeepsOpen.withFile s _ file).trans (.of_eq rfl rfl rfl rfl)
  | _ => exact .of_eq rfl rfl rfl rfl

theorem Trace.keepsOpen {es : List Event} {s s' : Store} (ht : Trace es s s') : KeepsOpen s s' :=
  ht.induct (P := fun u => KeepsOpen s u) (fun _ _ _ _ hm hs => hs.trans hm.keepsOpen)
    (.of_eq rfl rfl rfl rfl)

theorem Part.keepsOpen {s : Store} (h : s.Shaped) (p : Part) : KeepsOpen s (p.after s) := by
  cases p with
  | whole c =>
    obtain ⟨es, ht, -⟩ := c.traced h
    exact ht.keepsOpen
  | grant txn page access =>
    obtain ⟨es, ht⟩ := lockPage_trace s txn page access
    exact ht.keepsOpen
  | load txn page access =>
    obtain ⟨es, ht⟩ := loadLocked_trace h txn page access
    exact ht.keepsOpen
  | change f q => exact .of_eq rfl rfl rfl rfl
  | registration txn f =>
    show KeepsOpen s (s.after (register txn f))
    have hends := register_ends h txn f
    generalize s.after (register txn f) = u at hends
    cases hends with
    | refused | resident => exact .of_eq rfl rfl rfl rfl
    | @absent gone => cases gone <;> exact .of_eq rfl rfl rfl rfl

theorem Laid.keepsOpen {s s' : Store} (h : s.Laid) (hk : KeepsOpen s s') : s'.Laid where
  linked := hk.linked h.linked
  opened := hk.opened ▸ h.opened
  numbered {k} hlt := by
    rw [(hk.heap k).table, (hk.heap k).file, hk.opened]
    exact h.numbered (hk.handles ▸ hlt)
  made {k} hlt := by
    rw [(hk.heap k).file]
    exact Nat.lt_of_lt_of_le (h.made (hk.handles ▸ hlt)) hk.files
  sized {k} hlt := by
    rw [(hk.heap k).schema, (hk.heap k).pageSize]
    exact h.sized (hk.handles ▸ hlt)
  registered {t k} hr := by
    rw [handle?, hk.catalog] at hr
    rw [(hk.heap k).table, hk.handles]
    exact h.registered hr

/-- The states that any use of the store leads to: files are opened and registered as tables,
or made, written and cut past the pool, the log and the catalog change, and calls of any
transactions run, in whatever order their parts do. -/
inductive Attained : Store → Prop
  | unused {s : Store} : s.Unused → s.Laid → Attained s
  | opened {s : Store} (path : String) (schema : Schema) (pageSize : Nat) :
    Attained s → Attained (s.after (openHeap path schema pageSize))
  | added {s : Store} {k : HandleNo} (name primaryKey : String) : Attained s →
    k < s.handles.size → Attained (s.after (addTable k name primaryKey))
  | cleared {s : Store} : Attained s → Attained (s.after clearCatalog)
  | outside {s s' : Store} : Attained s → SamePool s s' → KeepsOpen s s' → Attained s'
  | part {s : Store} (p : Part) : Attained s → p.Fits s → Attained (p.after s)

theorem Attained.sound {s : Store} (h : Attained s) : s.Shaped ∧ s.Laid := by
  induction h with
  | unused hu hl => exact ⟨hu.shaped, hl⟩
  | @opened s path schema pageSize _ ih =>
    have hp := openHeap_pool s path schema pageSize
    exact ⟨ih.1.congr hp.table hp.locks hp.frames hp.maxPages, ih.2.openHeap path schema pageSize⟩
  | added name key _ hk ih => exact ⟨ih.1.congr rfl rfl rfl rfl, ih.2.addTable hk name key⟩
  | cleared _ ih =>
    refine ⟨ih.1.congr rfl rfl rfl rfl, ih.2.linked, ih.2.opened, ih.2.numbered, ih.2.made,
      ih.2.sized, fun hk => ?_⟩
    simp [handle?, clearCatalog, after, modify_run, Catalog.empty] at hk
  | outside _ hp hk ih =>
    exact ⟨ih.1.congr hp.table hp.locks hp.frames hp.maxPages, ih.2.keepsOpen hk⟩
  | part p _ hp ih => exact ⟨p.shaped ih.1 hp, ih.2.keepsOpen (p.keepsOpen ih.1)⟩

end RowStore.Store
