import RowStore.Proofs.Store.Effects

/-!
  Shape — what holds of the pool after any moves.

  `Shaped` ties the page table, its associations, the frames and the lock manager
  together: never more pages resident than allowed, every instance filed under the
  id that it carries, no association without a lock. Every move keeps it
  (`Move.shaped`). `Guarded` says that whoever made a resident page dirty has it
  locked for writing; only an early release of such a page breaks it
  (`Move.guarded`), and only three kinds of event take a lock away (`Move.lock_kept`).
-/

namespace RowStore

namespace Store

/-! ## The invariant -/

structure Shaped (s : Store) : Prop where
  ordered : s.table.Ordered
  paired : s.table.relation.Paired
  consistent : s.locks.Consistent
  bounded : s.table.size ≤ s.maxPages
  filed : ∀ {page : PageId} {f : FrameNo}, s.table.frame? page = some f →
    f < s.frames.size ∧ (s.frames.page f).id = page
  held : ∀ {txn : TxnId} {page : PageId}, s.table.relation.Has txn page →
    s.locks.mode? txn page ≠ none

/-- Whoever made a resident page dirty has it locked for writing. -/
def Guarded (s : Store) : Prop :=
  ∀ {page : PageId} {f : FrameNo} {txn : TxnId}, s.table.frame? page = some f →
    (s.frames.page f).dirtier = some txn → s.locks.mode? txn page = some .write

/-- A pool that nobody has used: nothing is resident and nothing is locked. -/
structure Unused (s : Store) : Prop where
  table : s.table = .empty
  locks : s.locks = .empty
  frames : s.frames = #[]

theorem Unused.shaped {s : Store} (h : s.Unused) : s.Shaped where
  ordered := by rw [h.table]; exact PageTable.ordered_empty
  paired := by rw [h.table]; exact Relation.paired_empty
  consistent := by rw [h.locks]; exact LockManager.consistent_empty
  bounded := by rw [h.table]; exact Nat.zero_le _
  filed hf := by rw [h.table] at hf; simp [PageTable.frame?, PageTable.empty] at hf
  held hh := by
    rw [h.table] at hh
    simp [Relation.Has, PageTable.empty, Relation.empty, MultiMap.members] at hh

theorem Unused.guarded {s : Store} (h : s.Unused) : s.Guarded := by
  intro page f txn hf
  rw [h.table] at hf
  simp [PageTable.frame?, PageTable.empty] at hf

theorem Unused.every {s : Store} (h : s.Unused) {P : Page → Prop} (hP : Lasting P) :
    Every P s := by
  intro f
  rw [h.frames]
  exact hP.unmade

/-- Two resident pages are in two frames. -/
theorem Shaped.frame_inj {s : Store} (h : s.Shaped) {p q : PageId} {f : FrameNo}
    (hp : s.table.frame? p = some f) (hq : s.table.frame? q = some f) : p = q :=
  (h.filed hp).2.symm.trans (h.filed hq).2

/-- Only the pool itself matters for its shape. -/
theorem Shaped.congr {s s' : Store} (h : s.Shaped) (ht : s'.table = s.table)
    (hl : s'.locks = s.locks) (hf : s'.frames = s.frames) (hm : s'.maxPages = s.maxPages) :
    s'.Shaped where
  ordered := ht ▸ h.ordered
  paired := ht ▸ h.paired
  consistent := hl ▸ h.consistent
  bounded := by rw [ht, hm]; exact h.bounded
  filed := by rw [ht, hf]; exact h.filed
  held := by rw [ht, hl]; exact h.held

theorem Guarded.congr {s s' : Store} (h : s.Guarded) (ht : s'.table = s.table)
    (hl : s'.locks = s.locks) (hf : s'.frames = s.frames) : s'.Guarded := by
  intro page f txn hp hd
  rw [ht] at hp
  rw [hf] at hd
  rw [hl]
  exact h hp hd

/-- A change inside one frame that keeps the page's id. -/
theorem Shaped.setPage {s : Store} (h : s.Shaped) {f : FrameNo} {q : Page}
    (hq : q.id = (s.frames.page f).id) :
    Shaped { s with frames := s.frames.setPage f q } where
  ordered := h.ordered
  paired := h.paired
  consistent := h.consistent
  bounded := h.bounded
  filed {page g} hg := by
    obtain ⟨hlt, hid⟩ := h.filed hg
    refine ⟨by simpa using hlt, ?_⟩
    by_cases hgf : g = f
    · subst hgf
      show (Frames.page (s.frames.setPage g q) g).id = page
      rw [Frames.page_setPage_self hlt, hq, hid]
    · show (Frames.page (s.frames.setPage f q) g).id = page
      rw [Frames.page_setPage_ne (Ne.symm hgf), hid]
  held := h.held

/-! ## Moves keep it -/

theorem Move.filed {e : Event} {s s' : Store} (hm : Move e s s') (h : s.Shaped) {page : PageId}
    {f : FrameNo} (hf : s'.table.frame? page = some f) :
    f < s'.frames.size ∧ (s'.frames.page f).id = page := by
  cases hm.enters hf with
  | stays hwas =>
    obtain ⟨hlt, hid⟩ := h.filed hwas
    obtain ⟨hlt', hid'⟩ := hm.frame_id hlt
    exact ⟨hlt', hid'.trans hid⟩
  | loaded _ _ hsize _ hp =>
    refine ⟨?_, Page.id_readPage hp⟩
    rw [hsize]
    exact Nat.lt_succ_self f
  | installed hlt hid =>
    obtain ⟨hlt', hid'⟩ := hm.frame_id hlt
    exact ⟨hlt', hid'.trans hid⟩

theorem Move.shaped {e : Event} {s s' : Store} (hm : Move e s s') (h : s.Shaped) : s'.Shaped := by
  have hfiled {page : PageId} {f : FrameNo} (hf : s'.table.frame? page = some f) := hm.filed h hf
  cases hm with
  | @granted _ txn page access locks hl =>
    refine ⟨h.ordered, h.paired, h.consistent.acquire? hl, h.bounded, hfiled, ?_⟩
    intro u q hh
    show locks.mode? u q ≠ none
    rw [LockManager.mode?_acquire? h.consistent hl]
    split
    · split <;> simp
    · exact h.held hh
  -- the page leaves with its locks and all that use it
  | @evicted _ page hv =>
    refine ⟨?_, ?_, h.consistent.releasePage page, ?_, hfiled, ?_⟩
    · have ho := h.ordered.remove page
      exact ⟨ho.nodup, ho.mem, ho.size⟩
    · show Relation.Paired (Relation.removePage (s.table.remove page).relation page)
      rw [PageTable.relation_remove]
      exact h.paired.removePage page
    · exact Nat.le_trans (PageTable.size_remove_le s.table page) h.bounded
    · intro u q hh
      have hh' : Relation.Has (Relation.removePage (s.table.remove page).relation page) u q := hh
      rw [PageTable.relation_remove, Relation.has_removePage h.paired] at hh'
      show (s.locks.releasePage page).mode? u q ≠ none
      rw [LockManager.mode?_releasePage h.consistent, if_neg hh'.2]
      exact h.held hh'.1
  | @used _ txn page hu =>
    refine ⟨⟨h.ordered.nodup, h.ordered.mem, h.ordered.size⟩, h.paired.add txn page,
      h.consistent, h.bounded, hfiled, ?_⟩
    intro u q hh
    have hh' : (s.table.relation.add txn page).Has u q := hh
    rw [Relation.has_add] at hh'
    rcases hh' with ⟨rfl, rfl⟩ | hh'
    · exact hu
    · exact h.held hh'
  | counted => exact h.congr rfl rfl rfl rfl
  | @loaded _ page k p hn hlt hk hp =>
    refine ⟨h.ordered.insert page _, h.paired, h.consistent, ?_, hfiled, h.held⟩
    show (s.table.insert page s.frames.size).size ≤ s.maxPages
    rw [PageTable.size_insert, if_neg (by simp [PageTable.contains_of_none hn])]
    exact hlt
  | grown hk ha =>
    obtain ⟨f, -, rfl⟩ := allocatePage_eq_ok ha
    exact h.congr rfl rfl rfl rfl
  | changed => exact ⟨h.ordered, h.paired, h.consistent, h.bounded, hfiled, h.held⟩
  | @installed _ txn f hlt hd hl hr =>
    refine ⟨h.ordered.insert _ _, h.paired, h.consistent, ?_, hfiled, h.held⟩
    show (s.table.insert _ f).size ≤ s.maxPages
    rw [PageTable.size_insert]
    rcases hr with ⟨hn, hlt'⟩ | ⟨g, hg, -⟩
    · -- there was room for the page, or it was resident before
      rw [if_neg (by simp [PageTable.contains_of_none hn])]
      exact hlt'
    · rw [if_pos (PageTable.contains_of_some hg)]
      exact h.bounded
  | logged => exact h.congr rfl rfl rfl rfl
  | flushed hf hd hk hw =>
    obtain ⟨f, -, rfl⟩ := writePage_eq_ok hw
    exact h.congr rfl rfl rfl rfl
  | committed hf hd hk hw hq =>
    obtain ⟨file, -, rfl⟩ := writePage_eq_ok hw
    exact ⟨h.ordered, h.paired, h.consistent, h.bounded, hfiled, h.held⟩
  | @dropped _ page =>
    refine ⟨h.ordered.remove page, ?_, h.consistent, ?_, hfiled, ?_⟩
    · show (s.table.remove page).relation.Paired
      rw [PageTable.relation_remove]
      exact h.paired
    · exact Nat.le_trans (PageTable.size_remove_le s.table page) h.bounded
    · intro u q hh
      rw [PageTable.relation_remove] at hh
      exact h.held hh
  | @ended _ txn hn =>
    refine ⟨⟨h.ordered.nodup, h.ordered.mem, h.ordered.size⟩, h.paired.removeTxn txn,
      h.consistent.releaseAll txn, h.bounded, hfiled, ?_⟩
    intro u q hh
    have hh' : (s.table.relation.removeTxn txn).Has u q := hh
    rw [Relation.has_removeTxn] at hh'
    show (s.locks.releaseAll txn).mode? u q ≠ none
    rw [LockManager.mode?_releaseAll h.consistent, if_neg hh'.2]
    exact h.held hh'.1
  | @released _ txn page =>
    refine ⟨⟨h.ordered.nodup, h.ordered.mem, h.ordered.size⟩, h.paired.remove txn page,
      h.consistent.release txn page, h.bounded, hfiled, ?_⟩
    intro u q hh
    have hh' : (s.table.relation.remove txn page).Has u q := hh
    rw [Relation.has_remove] at hh'
    show (s.locks.release txn page).mode? u q ≠ none
    rw [LockManager.mode?_release h.consistent, if_neg hh'.2]
    exact h.held hh'.1

/-- The events that take a lock away. -/
def Event.Strips (txn : TxnId) (page : PageId) (e : Event) : Prop :=
  e = .evicted page ∨ e = .ended txn ∨ e = .released txn page

/-- A lock is kept, or made stronger, unless the event is one of those. -/
theorem Move.lock_kept {e : Event} {s s' : Store} (hm : Move e s s') (h : s.Shaped) {txn : TxnId}
    {page : PageId} {access : Access} (hl : s.locks.mode? txn page = some access)
    (he : ¬ e.Strips txn page) :
    ∃ access', s'.locks.mode? txn page = some access' ∧ access'.covers access = true := by
  -- what does not touch the lock keeps it as it was
  have hrefl : access.covers access = true := by cases access <;> rfl
  cases hm with
  | @granted _ u q wanted locks hq =>
    have hm := LockManager.mode?_acquire? h.consistent hq txn page
    split at hm
    · rename_i huq
      rw [huq.1, huq.2] at hl
      rw [hl] at hm
      split at hm
      · exact ⟨.write, hm, rfl⟩
      · refine ⟨wanted, hm, ?_⟩
        cases access <;> cases wanted <;> simp_all [Access.covers]
    · exact ⟨access, hm.trans hl, hrefl⟩
  | @evicted _ q hv =>
    have hq : page ≠ q := fun hq => he (.inl (hq ▸ rfl))
    refine ⟨access, ?_, hrefl⟩
    show (s.locks.releasePage q).mode? txn page = _
    rw [LockManager.mode?_releasePage h.consistent, if_neg hq, hl]
  | grown hk ha =>
    obtain ⟨f, -, rfl⟩ := allocatePage_eq_ok ha
    exact ⟨access, hl, hrefl⟩
  | flushed hf hd hk hw =>
    obtain ⟨f, -, rfl⟩ := writePage_eq_ok hw
    exact ⟨access, hl, hrefl⟩
  | committed hf hd hk hw hq =>
    obtain ⟨f, -, rfl⟩ := writePage_eq_ok hw
    exact ⟨access, hl, hrefl⟩
  | @ended _ u hn =>
    have hu : txn ≠ u := fun hu => he (.inr (.inl (hu ▸ rfl)))
    refine ⟨access, ?_, hrefl⟩
    show (s.locks.releaseAll u).mode? txn page = _
    rw [LockManager.mode?_releaseAll h.consistent, if_neg hu, hl]
  | @released _ u q =>
    refine ⟨access, ?_, hrefl⟩
    show (s.locks.release u q).mode? txn page = _
    rw [LockManager.mode?_release h.consistent, if_neg, hl]
    intro hx
    obtain ⟨rfl, rfl⟩ := hx
    exact he (.inr (.inr rfl))
  | used | counted | loaded | changed | installed | logged | dropped => exact ⟨access, hl, hrefl⟩

/-- A lock for writing is kept as one. -/
theorem Move.write_kept {e : Event} {s s' : Store} (hm : Move e s s') (h : s.Shaped) {txn : TxnId}
    {page : PageId} (hl : s.locks.mode? txn page = some .write) (he : ¬ e.Strips txn page) :
    s'.locks.mode? txn page = some .write := by
  obtain ⟨access, ha, hc⟩ := hm.lock_kept h hl he
  rw [ha]
  cases access with
  | read => simp [Access.covers] at hc
  | write => rfl

/-- A release before the end of a transaction that may have made the page dirty. -/
def Event.Unguards (s : Store) : Event → Prop
  | .released txn page => ∃ f, s.table.frame? page = some f ∧ (s.frames.page f).dirtier = some txn
  | _ => False

theorem Move.guarded {e : Event} {s s' : Store} (hm : Move e s s') (h : s.Shaped) (hg : s.Guarded)
    (he : ¬ e.Unguards s) : s'.Guarded := by
  intro page f txn hf hd
  -- whoever has made the page dirty by now had the lock before
  have hlock : s.locks.mode? txn page = some .write := by
    have hturn {g : FrameNo} (hlt : g < s.frames.size)
        (hd' : (s'.frames.page g).dirtier = some txn) : (s.frames.page g).dirtier = some txn ∨
          (s.table.frame? (s.frames.page g).id = some g →
            s.locks.mode? txn (s.frames.page g).id = some .write) := by
      cases (hm.turns hlt).2 with
      | kept hp => exact .inl (hp ▸ hd')
      | changed hq hw =>
        rw [hq.kept.dirtier] at hd'
        obtain rfl := Option.some.inj hd'
        rw [hq.kept.id] at hw
        exact .inr hw
      | committed _ _ _ hp =>
        rw [hp] at hd'
        simp at hd'
    cases hm.enters hf with
    | stays hwas =>
      obtain ⟨hlt, hid⟩ := h.filed hwas
      rcases hturn hlt hd with hold | hnew
      · exact hg hwas hold
      · rw [hid] at hnew
        exact hnew hwas
    | loaded _ _ _ _ hp =>
      rw [Page.dirtier_readPage hp] at hd
      simp at hd
    | installed hlt hid hmark hw =>
      cases hm
      rw [hmark] at hd
      obtain rfl := Option.some.inj hd
      exact hw
  -- and the lock goes only with the page or with the mark
  refine hm.write_kept h hlock ?_
  intro hs
  rcases hs with rfl | rfl | rfl
  · cases hm
    exact (PageTable.frame?_of_remove hf).1 rfl
  · cases hm with
    | ended hn => exact hn page f hf hd
  · cases hm
    exact he ⟨f, hf, hd⟩

theorem Trace.shaped {es : List Event} {s s' : Store} (ht : Trace es s s') (h : s.Shaped) :
    s'.Shaped :=
  ht.induct (fun _ _ _ _ hm hs => hm.shaped hs) h

end Store

end RowStore
