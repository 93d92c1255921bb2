import RowStore.Proofs.Store.Viewing

/-!
  Threading — what clean pages are read as when calls run in parts.

  Between the parts of a call others run, so an instance may be changed that is not resident,
  and become resident later. `Woven` says of every instance what `Mirrors` says of the resident
  ones, so that it holds of whatever is registered: a registered instance is dirty, so of its
  bytes in the file nothing has to hold. It is kept by every event and every part of a call
  (`Threaded.woven`).
-/

namespace RowStore.Store

/-! ## Every instance -/

/-- A page instance is of its table, and the file of the table holds its page. -/
structure Belongs (s : Store) (p : Page) : Prop where
  formed : p.Formed
  schema : ∀ {k : HandleNo}, s.handle? p.id.table = some k → p.schema = (s.heap k).schema
  held : s.Held p.id

/-- What holds in every state that parts of calls lead to. Of a table that has used up its page
numbers nothing is said. -/
structure Woven (s : Store) : Prop where
  mirrored : s.Mirrored
  made : ∀ {f : FrameNo}, f < s.frames.size → s.Numbered (s.frames.page f).id.table →
    s.Belongs (s.frames.page f)

theorem Unused.woven {s : Store} (h : s.Unused) (hl : s.Laid) : s.Woven := by
  refine ⟨h.mirrored hl, fun {f} hf => ?_⟩
  rw [h.frames] at hf
  exact absurd hf (Nat.not_lt_zero f)

/-- A dirty instance that belongs to its table mirrors its file, whatever that holds. -/
theorem Belongs.mirrors {s : Store} {p : Page} (h : s.Belongs p) {page : PageId}
    (hid : p.id = page) (hd : p.dirtier ≠ none) : s.Mirrors page p := by
  subst hid
  exact ⟨h.formed, h.schema, h.held, fun hc => absurd hc hd⟩

theorem Belongs.congr {s s' : Store} {p q : Page} (h : s.Belongs p) (hf : SameFiles s s')
    (hid : q.id = p.id) (hs : q.schema = p.schema) (hq : q.Formed) : s'.Belongs q where
  formed := hq
  schema {k} hk := by
    rw [hid, hf.handle] at hk
    rw [hs, h.schema hk, (hf.heap k).schema]
  held := hid ▸ hf.held h.held

theorem Mirrors.congr {s s' : Store} {page : PageId} {p : Page} (h : s.Mirrors page p)
    (hf : SameFiles s s') : s'.Mirrors page p where
  formed := h.formed
  schema {k} hk := by
    rw [hf.handle] at hk
    rw [h.schema hk, (hf.heap k).schema]
  held := hf.held h.held
  clean hd := hf.onDisk page ▸ h.clean hd

/-! ## Events keep it -/

section Moves
variable {e : Event} {s s' : Store} {f : FrameNo}

theorem Move.belongs (hm : Move e s s') (h : s.Woven) (hf : f < s'.frames.size)
    (hn : s'.Numbered (s'.frames.page f).id.table) : s'.Belongs (s'.frames.page f) := by
  have hshaped := h.mirrored.shaped
  have hlaid := h.mirrored.laid
  have hnum := hm.numbered hshaped hlaid.separate hn
  by_cases hlt : f < s.frames.size
  · obtain ⟨-, hid⟩ := hm.frame_id hlt
    rw [hid] at hnum
    have hold := h.made hlt hnum
    have hheld := (hm.keepsHeld hshaped hlaid hnum hold.held).1
    have hschema {q : Page} (hq : q.schema = (s.frames.page f).schema) {k : HandleNo}
        (hk : s'.handle? (s.frames.page f).id.table = some k) : q.schema = (s'.heap k).schema := by
      rw [(Trace.single hm).handle?] at hk
      rw [hq, hold.schema hk, (hm.heap k).schema]
    cases (hm.turns hlt).2 with
    | kept hpage =>
      rw [hpage]
      exact ⟨hold.formed, hschema rfl, hheld⟩
    | changed hedit =>
      refine ⟨hedit.formed hold.formed, ?_, hid.symm ▸ hheld⟩
      rw [hid]
      exact hschema hedit.kept.schema
    | committed _ _ _ hpage =>
      rw [hpage]
      exact ⟨hold.formed.settled _, hschema rfl, hheld⟩
  · -- the instance has just been read
    cases hm with
    | @loaded _ page k p hfree hroom hk hp =>
      have hlast : f = s.frames.size := by
        have hsize : f < (s.frames.push p).size := hf
        rw [Array.size_push] at hsize
        exact Nat.le_antisymm (Nat.le_of_lt_succ hsize) (Nat.le_of_not_lt hlt)
      subst hlast
      have hpage : Frames.page (s.frames.push p) s.frames.size = p := by
        rw [Frames.page_push, if_pos rfl]
      have hm : Move (.loaded page) s { s with
        frames := s.frames.push p
        table := s.table.insert page s.frames.size } := .loaded hfree hroom hk hp
      have hid : p.id = page := Page.id_readPage hp
      have hres : (s.table.insert page s.frames.size).frame? page = some s.frames.size :=
        (PageTable.frame?_insert ..).trans (if_pos rfl)
      have hn : Numbered _ (Frames.page (s.frames.push p) s.frames.size).id.table := hn
      rw [hpage, hid] at hn
      have hin := hm.mirrors h.mirrored (by simp) hn hres
      have hin : Mirrors _ page (Frames.page (s.frames.push p) s.frames.size) := hin
      show Belongs _ (Frames.page (s.frames.push p) s.frames.size)
      rw [hpage] at hin ⊢
      exact ⟨hin.formed, hid.symm ▸ hin.schema, hid.symm ▸ hin.held⟩
    | grown hk ha =>
      obtain ⟨file, -, rfl⟩ := allocatePage_eq_ok ha
      exact absurd hf hlt
    | changed => exact absurd (Frames.size_setPage s.frames _ _ ▸ hf) hlt
    | flushed hg hd hk hw =>
      obtain ⟨file, -, rfl⟩ := writePage_eq_ok hw
      exact absurd hf hlt
    | committed hg hd hk hw hq =>
      obtain ⟨file, -, rfl⟩ := writePage_eq_ok hw
      exact absurd (Frames.size_setPage _ _ _ ▸ hf) hlt
    | _ => exact absurd hf hlt

theorem Move.woven (hm : Move e s s') (h : s.Woven) : s'.Woven := by
  refine ⟨⟨hm.shaped h.mirrored.shaped, h.mirrored.laid.keepsOpen hm.keepsOpen, ?_⟩,
    fun hf hn => hm.belongs h hf hn⟩
  intro page g hn hg
  by_cases he : ∀ txn f, e ≠ .installed txn f
  · exact hm.mirrors h.mirrored he hn hg
  · obtain ⟨txn, f, rfl⟩ : ∃ txn f, e = .installed txn f := by
      simpa [not_forall, not_not] using he
    cases hm.enters hg with
    | stays hwas =>
      cases hm
      exact (h.mirrored.mirrors hn hwas).congr ⟨rfl, fun _ => rfl, fun _ => .refl _⟩
    | installed hlt hid hd =>
      have hpage : s'.frames.page g = s.frames.page g := by cases hm; rfl
      have hmade := (hm.shaped h.mirrored.shaped).filed hg
      have hbelongs := hm.belongs h hmade.1 (hmade.2.symm ▸ hn)
      exact hbelongs.mirrors hmade.2 (by rw [hpage, hd]; simp)

theorem Trace.woven {es : List Event} (ht : Trace es s s') (h : s.Woven) : s'.Woven :=
  ht.induct (fun _ _ _ _ hm hs => hm.woven hs) h

end Moves

/-! ## Parts of calls keep it -/

section Parts
variable {s : Store} {f : FrameNo}

/-- A made instance is replaced by a dirty one of the same page. -/
theorem Woven.setPage (h : s.Woven) (hf : f < s.frames.size) {q : Page}
    (hid : q.id = (s.frames.page f).id) (hs : q.schema = (s.frames.page f).schema)
    (hd : q.dirtier ≠ none) (hq : (s.frames.page f).Formed → q.Formed) :
    Woven { s with frames := s.frames.setPage f q } := by
  let u : Store := { s with frames := s.frames.setPage f q }
  have hfiles : SameFiles s u := ⟨rfl, fun _ => rfl, fun _ => .refl _⟩
  have hpage (g : FrameNo) : u.frames.page g = if g = f then q else s.frames.page g :=
    Frames.page_setPage hf q g
  have hbelongs (hn : s.Numbered (s.frames.page f).id.table) : u.Belongs q := by
    have hold := h.made hf hn
    exact hold.congr hfiles hid hs (hq hold.formed)
  refine ⟨⟨h.mirrored.shaped.setPage hid,
    h.mirrored.laid.keepsOpen (.of_eq rfl rfl rfl rfl), fun {page g} hn hg => ?_⟩,
    fun {g} hg hn => ?_⟩
  · have hres : s.table.frame? page = some g := hg
    show Mirrors u page (u.frames.page g)
    rw [hpage]
    split
    · rename_i hgf
      subst hgf
      have hpid := (h.mirrored.shaped.filed hres).2
      exact (hbelongs (hpid.symm ▸ hn)).mirrors (hid.trans hpid) hd
    · exact (h.mirrored.mirrors hn hres).congr hfiles
  · have hn : u.Numbered (u.frames.page g).id.table := hn
    have hlt : g < s.frames.size := Frames.size_setPage s.frames f q ▸ hg
    show u.Belongs (u.frames.page g)
    rw [hpage] at hn ⊢
    split
    · rename_i hgf
      subst hgf
      rw [if_pos rfl, hid] at hn
      exact hbelongs hn
    · rename_i hgf
      rw [if_neg hgf] at hn
      have hold := h.made hlt hn
      exact hold.congr hfiles rfl rfl hold.formed

/-- Any dirty instance may become the resident one. -/
theorem Woven.install (h : s.Woven) (hf : f < s.frames.size)
    (hd : (s.frames.page f).dirtier ≠ none)
    (hroom : s.table.frame? (s.frames.page f).id ≠ none ∨ s.table.size < s.maxPages) :
    Woven { s with table := s.table.insert (s.frames.page f).id f } := by
  let u : Store := { s with table := s.table.insert (s.frames.page f).id f }
  have hfiles : SameFiles s u := ⟨rfl, fun _ => rfl, fun _ => .refl _⟩
  refine ⟨⟨h.mirrored.shaped.install hf hroom,
    h.mirrored.laid.keepsOpen (.of_eq rfl rfl rfl rfl), fun {page g} hn hres => ?_⟩,
    fun {g} hg hn => ?_⟩
  · have hg : (s.table.insert (s.frames.page f).id f).frame? page = some g := hres
    rw [PageTable.frame?_insert] at hg
    show Mirrors u page (s.frames.page g)
    split at hg
    · rename_i hp
      subst hp
      obtain rfl := Option.some.inj hg
      have hold := h.made hf hn
      exact (hold.congr hfiles rfl rfl hold.formed).mirrors rfl hd
    · exact (h.mirrored.mirrors hn hg).congr hfiles
  · have hold := h.made hg hn
    exact hold.congr hfiles rfl rfl hold.formed

/-- A registration makes the instance dirty, so it may belong to any page. -/
theorem Woven.marking (h : s.Woven) (hf : f < s.frames.size) {txn : TxnId} {table : PageTable}
    (htable : table = s.table ∨ table = s.table.insert (s.frames.page f).id f)
    (hroom : s.table.frame? (s.frames.page f).id ≠ none ∨ s.table.size < s.maxPages)
    (hl : s.locks.mode? txn (s.frames.page f).id ≠ none) : (s.marking txn f table).Woven := by
  let q : Page := (s.frames.page f).markedBy (some txn)
  let u : Store := { s with frames := s.frames.setPage f q }
  have hu : u.Woven := h.setPage hf rfl rfl (by simp [q, Page.markedBy]) fun hp => hp.markedBy _
  have hpage : u.frames.page f = q := Frames.page_setPage_self hf q
  have hid : (u.frames.page f).id = (s.frames.page f).id := by rw [hpage]; rfl
  have huf : f < u.frames.size := by rw [Frames.size_setPage]; exact hf
  have hin : Woven { u with table := table } := by
    rcases htable with rfl | rfl
    · exact hu
    · rw [← hid]
      refine hu.install huf (by rw [hpage]; simp [q, Page.markedBy]) ?_
      rw [hid]
      exact hroom
  have hused := (Move.used (s := { u with table := table }) hl).woven hin
  exact hused

theorem Woven.register (h : s.Woven) (txn : TxnId) (hf : f < s.frames.size) :
    (s.after (register txn f)).Woven := by
  have hshaped := h.mirrored.shaped
  have hends := register_ends hshaped txn f
  generalize s.after (Store.register txn f) = u at hends
  cases hends with
  | refused => exact h
  | resident hlock hg htable =>
    exact h.marking hf htable (.inl (by rw [hg]; simp)) (by rw [hlock]; simp)
  | @absent gone hlock hgone hroom =>
    have hspared := hshaped.spared gone
    have hvacated : (s.vacated gone).Woven := by
      cases gone with
      | none => exact h
      | some v =>
        exact (Move.evicted (PageTable.victim?_eq_some_iff.mpr ((hgone v).mp rfl).first)).woven h
    have hid : ((s.vacated gone).frames.page f).id = (s.frames.page f).id := by
      rw [hspared.frames]
    refine hvacated.marking (hspared.frames.symm ▸ hf) (.inr (by rw [hid])) (.inr hroom) ?_
    -- the page itself has kept its lock, since it was not resident
    rw [hid, hspared.locks, if_neg fun hq => ((hgone _).mp hq).ne hshaped rfl, hlock]
    simp

end Parts

/-- An instance is changed by a row that is inserted or deleted, and only an instance is
registered. -/
def Part.Sound (s : Store) : Part → Prop
  | .change f q => f < s.frames.size ∧ ∃ txn, Edited txn (s.frames.page f) q
  | .registration _ f => f < s.frames.size
  | _ => True

theorem Part.woven {s : Store} (h : s.Woven) {p : Part} (hp : p.Sound s) : (p.after s).Woven := by
  cases p with
  | whole c =>
    obtain ⟨es, ht, -⟩ := c.traced h.mirrored.shaped
    exact ht.woven h
  | grant txn page access =>
    obtain ⟨es, ht⟩ := lockPage_trace s txn page access
    exact ht.woven h
  | load txn page access =>
    obtain ⟨es, ht⟩ := loadLocked_trace h.mirrored.shaped txn page access
    exact ht.woven h
  | change f q =>
    obtain ⟨hf, txn, hedit⟩ := hp
    refine h.setPage hf hedit.kept.id hedit.kept.schema ?_ hedit.formed
    rw [hedit.kept.dirtier]
    simp
  | registration txn f => exact h.register txn hp

/-- What lasts and does not depend on the marker holds of every instance after a part of a
call. -/
theorem Part.every {s : Store} (h : s.Shaped) {P : Page → Prop} (hP : Lasting P)
    (hmark : ∀ p txn, P p → P (p.markedBy txn)) (he : Every P s) {p : Part} (hp : p.Sound s) :
    Every P (p.after s) := by
  cases p with
  | whole c =>
    obtain ⟨es, ht, -⟩ := c.traced h
    exact ht.every hP he
  | grant txn page access =>
    obtain ⟨es, ht⟩ := lockPage_trace s txn page access
    exact ht.every hP he
  | load txn page access =>
    obtain ⟨es, ht⟩ := loadLocked_trace h txn page access
    exact ht.every hP he
  | change f q =>
    obtain ⟨-, txn, hedit⟩ := hp
    exact he.setPage (hP.edited hedit (he f))
  | registration txn f =>
    have hends := register_ends h txn f
    show Every P (s.after (register txn f))
    generalize s.after (register txn f) = u at hends
    cases hends with
    | refused => exact he
    | resident => exact he.setPage (hmark _ _ (he f))
    | @absent gone =>
      have hv : Every P (s.vacated gone) := fun g => by
        rw [(h.spared gone).frames]
        exact he g
      exact hv.setPage (hmark _ _ (hv f))

/-- The states that calls of any transactions lead to from a store, in whatever order their
parts run. Files change by these calls only, and the catalog does not change. -/
inductive Threaded (s₀ : Store) : Store → Prop
  | start : Threaded s₀ s₀
  | part {s : Store} (p : Part) : Threaded s₀ s → p.Sound s → Threaded s₀ (p.after s)
  /-- A search has found all pages full. -/
  | grown {s : Store} {table : TableId} {k : HandleNo} : Threaded s₀ s →
    s.handle? table = some k → Threaded s₀ (s.after (allocatePage k))

/-- A growth of a file is an event, or nothing at all. -/
theorem allocatePage_trace {s : Store} {table : TableId} {k : HandleNo}
    (hk : s.handle? table = some k) : ∃ es, Trace es s (s.after (allocatePage k)) := by
  have hrun := allocatePage_run s k
  cases hf : (s.heap k).allocate (s.fileOf k) with
  | ok file =>
    rw [hf] at hrun
    rw [after_ok hrun]
    exact ⟨_, .single (.grown hk hrun)⟩
  | error err =>
    rw [hf] at hrun
    rw [after_error hrun]
    exact ⟨[], .nil⟩

namespace Threaded

variable {s₀ s : Store}

theorem woven (hu : s₀.Unused) (hl : s₀.Laid) (h : Threaded s₀ s) : s.Woven := by
  induction h with
  | start => exact hu.woven hl
  | part p _ hp ih => exact p.woven ih hp
  | grown _ hk ih =>
    obtain ⟨es, ht⟩ := allocatePage_trace hk
    exact ht.woven ih

theorem every {P : Page → Prop} (hP : Lasting P) (hmark : ∀ p txn, P p → P (p.markedBy txn))
    (hu : s₀.Unused) (hl : s₀.Laid) (h : Threaded s₀ s) : Every P s := by
  induction h with
  | start => exact hu.every hP
  | part p hs hp ih => exact p.every (hs.woven hu hl).mirrored.shaped hP hmark ih hp
  | grown _ hk ih =>
    obtain ⟨es, ht⟩ := allocatePage_trace hk
    exact ht.every hP ih

end Threaded

end RowStore.Store
