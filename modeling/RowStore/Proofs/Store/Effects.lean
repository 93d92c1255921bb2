import RowStore.Proofs.Store.Moves

/-!
  Effects — what a move does to page instances and to residency.

  A frame keeps its page unless the event changes or commits it (`Move.turns`), and a page
  that is resident after a move was so before in the same frame, unless it was just loaded
  or installed (`Move.enters`). What holds of resident pages is derived from these two.
  A property that pages have when they are read, and keep when they are changed or
  committed, holds of every instance along any moves (`Trace.every`).
-/

namespace RowStore

/-! ## Frames -/

namespace Frames

theorem page_push (fs : Frames) (p : Page) (f : FrameNo) :
    Frames.page (fs.push p) f = if f = fs.size then p else fs.page f := by
  simp only [page, Array.getD_eq_getD_getElem?, Array.getElem?_push]
  split <;> rfl

theorem page_setPage {fs : Frames} {f : FrameNo} (h : f < fs.size) (p : Page) (g : FrameNo) :
    (fs.setPage f p).page g = if g = f then p else fs.page g := by
  split
  · rename_i hg
    rw [hg, page_setPage_self h]
  · rename_i hg
    exact page_setPage_ne (Ne.symm hg) p

@[simp] theorem size_setPage (fs : Frames) (f : FrameNo) (p : Page) :
    (fs.setPage f p).size = fs.size := by
  simp [setPage]

/-- Putting back the page that is in a frame changes nothing. -/
theorem setPage_page (fs : Frames) (f : FrameNo) : fs.setPage f (fs.page f) = fs := by
  by_cases hf : f < fs.size
  · have hp : fs.page f = fs[f] := by simp [page, hf]
    rw [hp, setPage, Array.setIfInBounds_def, dif_pos hf, Array.set_getElem_self]
  · exact Array.setIfInBounds_eq_of_size_le (Nat.le_of_not_lt hf)

end Frames

/-! ## Edited pages -/

namespace Page

theorem insert_eq_ok {p p' : Page} {r stored : Row} (h : p.insert r = .ok (stored, p')) :
    ∃ slot, p.slotFrom 0 r = .ok slot ∧ (stored, p') = p.put slot r := by
  unfold insert at h
  split at h
  · simp at h
  · rename_i slot hslot
    exact ⟨slot, hslot, (Except.ok.inj h).symm⟩

theorem delete_eq_ok {p p' : Page} {r : Row} (h : p.delete r = .ok p') :
    ∃ record, r.record = some record ∧ record.page = p.id ∧
      record.slot.toNat < p.slotCount ∧ p.isUsed record.slot.toNat = true ∧
      p' = { p with
        used := p.used.setIfInBounds record.slot.toNat false
        slots := p.slots.setIfInBounds record.slot.toNat none } := by
  unfold delete at h
  split at h
  · simp at h
  · rename_i record hr
    simp only [erase] at h
    split at h
    · simp at h
    · split at h
      · simp at h
      · split at h
        · simp at h
        · exact ⟨record, hr, by simp_all, by omega, by simp_all, (Except.ok.inj h).symm⟩

theorem ofImage_eq_ok {id : PageId} {schema : Schema} {b : Block} {p : Page}
    (h : ofImage id schema b = .ok p) :
    ∃ slots rows, slotsFor id schema b.size = .ok slots ∧
      (cells slots schema.rowSize b).mapM (readSlot id schema) = .ok rows ∧
      p = { id, schema, size := b.size, used := (bitmap slots b).toArray, slots := rows.toArray,
            dirtier := none, before := b } := by
  unfold ofImage at h
  simp only [bind, Except.bind] at h
  split at h
  · simp at h
  · rename_i slots hslots
    split at h
    · simp at h
    · rename_i rows hrows
      exact ⟨slots, rows, hslots, hrows, (Except.ok.inj h).symm⟩

theorem readPage_eq_ok {h : HeapFile} {f : File} {id : PageId} {p : Page}
    (hp : h.readPage f id = .ok p) :
    ∃ b, h.readImage f id = .ok b ∧ ofImage id h.schema b = .ok p := by
  unfold HeapFile.readPage at hp
  simp only [bind, Except.bind] at hp
  split at hp
  · simp at hp
  · rename_i b hb
    exact ⟨b, hb, hp⟩

theorem id_ofImage {id : PageId} {schema : Schema} {b : Block} {p : Page}
    (h : ofImage id schema b = .ok p) : p.id = id := by
  obtain ⟨slots, rows, -, -, rfl⟩ := ofImage_eq_ok h
  rfl

/-- A page that was just read is as it was at its last clean point. -/
theorem beforeImage_ofImage {id : PageId} {schema : Schema} {b : Block} {p : Page}
    (h : ofImage id schema b = .ok p) : p.beforeImage = .ok p := by
  have hread := h
  obtain ⟨slots, rows, -, -, rfl⟩ := ofImage_eq_ok h
  exact hread

theorem id_readPage {h : HeapFile} {f : File} {id : PageId} {p : Page}
    (hp : h.readPage f id = .ok p) : p.id = id := by
  obtain ⟨b, -, ho⟩ := readPage_eq_ok hp
  exact id_ofImage ho

theorem dirtier_readPage {h : HeapFile} {f : File} {id : PageId} {p : Page}
    (hp : h.readPage f id = .ok p) : p.dirtier = none := by
  obtain ⟨b, -, ho⟩ := readPage_eq_ok hp
  obtain ⟨slots, rows, -, -, rfl⟩ := ofImage_eq_ok ho
  rfl

theorem beforeImage_readPage {h : HeapFile} {f : File} {id : PageId} {p : Page}
    (hp : h.readPage f id = .ok p) : p.beforeImage = .ok p := by
  obtain ⟨b, -, ho⟩ := readPage_eq_ok hp
  exact beforeImage_ofImage ho

end Page

namespace Store

/-- An edit touches the slots and the marker only. -/
structure Edited.Kept (txn : TxnId) (p q : Page) : Prop where
  id : q.id = p.id
  schema : q.schema = p.schema
  size : q.size = p.size
  before : q.before = p.before
  dirtier : q.dirtier = some txn

theorem Edited.kept {txn : TxnId} {p q : Page} (h : Edited txn p q) : Edited.Kept txn p q := by
  obtain ⟨r, p', hp, rfl⟩ := h
  rcases hp with ⟨stored, hi⟩ | hd
  · obtain ⟨slot, -, hput⟩ := Page.insert_eq_ok hi
    obtain ⟨-, rfl⟩ := Prod.mk.inj hput
    exact ⟨rfl, rfl, rfl, rfl, rfl⟩
  · obtain ⟨record, -, -, -, -, rfl⟩ := Page.delete_eq_ok hd
    exact ⟨rfl, rfl, rfl, rfl, rfl⟩

theorem Edited.Kept.beforeImage {txn : TxnId} {p q : Page} (h : Edited.Kept txn p q) :
    q.beforeImage = p.beforeImage := by
  rw [Page.beforeImage, Page.beforeImage, h.id, h.schema, h.before]

theorem settle_eq_ok {p q : Page} (h : p.settle = .ok q) :
    ∃ b, p.image = .ok b ∧ q = { p with before := b } := by
  unfold Page.settle at h
  cases hb : p.image with
  | error e => rw [hb] at h; simp [bind, Except.bind] at h
  | ok b =>
    rw [hb] at h
    exact ⟨b, rfl, (Except.ok.inj h).symm⟩

/-! ## Writing files -/

/-- The store with other contents of a heap file, and one more write counted. -/
def withFile (s : Store) (k : HandleNo) (f : File) : Store :=
  { s with
    volume := s.volume.setFile (s.heap k).file f
    handles := s.handles.modify k fun h => { h with writes := h.writes + 1 } }

theorem allocatePage_run (s : Store) (k : HandleNo) :
    allocatePage k s = match (s.heap k).allocate (s.fileOf k) with
      | .ok f => .ok ((s.heap k).nextPage (s.fileOf k)) (s.withFile k f)
      | .error e => .error e s := by
  unfold allocatePage
  simp only [bind_run, heapFile_run, contents_run, ofExcept_run]
  cases (s.heap k).allocate (s.fileOf k) <;> rfl

theorem writePage_run (s : Store) (k : HandleNo) (p : Page) :
    writePage k p s = match (s.heap k).writePage (s.fileOf k) p with
      | .ok f => .ok () (s.withFile k f)
      | .error e => .error e s := by
  unfold writePage
  simp only [bind_run, heapFile_run, contents_run, ofExcept_run]
  cases (s.heap k).writePage (s.fileOf k) p <;> rfl

theorem allocatePage_eq_ok {s s' : Store} {k : HandleNo} {id : PageId}
    (h : allocatePage k s = .ok id s') :
    ∃ f, (s.heap k).allocate (s.fileOf k) = .ok f ∧ s' = s.withFile k f := by
  rw [allocatePage_run] at h
  split at h
  · rename_i f hf
    obtain ⟨-, rfl⟩ := EStateM.Result.ok.inj h
    exact ⟨f, hf, rfl⟩
  · simp at h

theorem writePage_eq_ok {s s' : Store} {k : HandleNo} {p : Page}
    (h : writePage k p s = .ok () s') :
    ∃ f, (s.heap k).writePage (s.fileOf k) p = .ok f ∧ s' = s.withFile k f := by
  rw [writePage_run] at h
  split at h
  · rename_i f hf
    obtain ⟨-, rfl⟩ := EStateM.Result.ok.inj h
    exact ⟨f, hf, rfl⟩
  · simp at h

/-! ## Frames and residency -/

/-- What a move does to the page in a frame. -/
inductive Turns (s s' : Store) (f : FrameNo) : Event → Prop
  | kept {e : Event} : s'.frames.page f = s.frames.page f → Turns s s' f e
  | changed {txn : TxnId} : Edited txn (s.frames.page f) (s'.frames.page f) →
    (s.table.frame? (s'.frames.page f).id = some f →
      s.locks.mode? txn (s'.frames.page f).id = some .write) → Turns s s' f (.changed txn f)
  | committed {txn : TxnId} {page : PageId} {b : Block} : s.table.frame? page = some f →
    (s.frames.page f).dirtier = some txn → (s.frames.page f).image = .ok b →
    s'.frames.page f = { s.frames.page f with before := b, dirtier := none } →
    Turns s s' f (.committed txn page)

theorem Move.turns {e : Event} {s s' : Store} (hm : Move e s s') {f : FrameNo}
    (hf : f < s.frames.size) : f < s'.frames.size ∧ Turns s s' f e := by
  cases hm with
  -- a page that is loaded has a frame of its own
  | @loaded _ page k p hn =>
    refine ⟨?_, .kept ?_⟩
    · show f < (s.frames.push p).size
      rw [Array.size_push]
      exact Nat.lt_succ_of_lt hf
    · show Frames.page (s.frames.push p) f = _
      rw [Frames.page_push, if_neg (Nat.ne_of_lt hf)]
  | grown hk ha =>
    obtain ⟨file, -, rfl⟩ := allocatePage_eq_ok ha
    exact ⟨hf, .kept rfl⟩
  | @changed _ txn g q hg hq hl =>
    refine ⟨by simpa using hf, ?_⟩
    have hpage : Frames.page (s.frames.setPage g q) f = if f = g then q else s.frames.page f :=
      Frames.page_setPage hg q f
    by_cases hfg : f = g
    · subst hfg
      rw [if_pos rfl] at hpage
      apply Turns.changed
      · show Edited txn _ (Frames.page (s.frames.setPage f q) f)
        rw [hpage]
        exact hq
      · show s.table.frame? (Frames.page (s.frames.setPage f q) f).id = _ → _
        rw [hpage]
        exact hl
    · rw [if_neg hfg] at hpage
      exact .kept hpage
  | flushed hg hd hk hw =>
    obtain ⟨file, -, rfl⟩ := writePage_eq_ok hw
    exact ⟨hf, .kept rfl⟩
  | @committed _ u txn page g k q hg hd hk hw hq =>
    obtain ⟨file, -, rfl⟩ := writePage_eq_ok hw
    obtain ⟨b, hb, rfl⟩ := settle_eq_ok hq
    refine ⟨(Frames.size_setPage s.frames g _).symm ▸ hf, ?_⟩
    by_cases hfg : f = g
    · subst hfg
      exact .committed hg hd hb (Frames.page_setPage_self hf _)
    · exact .kept (Frames.page_setPage_ne (Ne.symm hfg) _)
  -- no other event touches a frame
  | _ => exact ⟨hf, .kept rfl⟩

/-- How a page comes to be resident in a frame. -/
inductive Enters (s s' : Store) (page : PageId) (f : FrameNo) : Event → Prop
  | stays {e : Event} : s.table.frame? page = some f → Enters s s' page f e
  | loaded {k : HandleNo} : s.table.frame? page = none → f = s.frames.size →
    s'.frames.size = f + 1 → s.handle? page.table = some k →
    (s.heap k).readPage (s.fileOf k) page = .ok (s'.frames.page f) →
    Enters s s' page f (.loaded page)
  | installed {txn : TxnId} : f < s.frames.size → (s.frames.page f).id = page →
    (s.frames.page f).dirtier = some txn → s.locks.mode? txn page = some .write →
    Enters s s' page f (.installed txn f)

theorem Move.enters {e : Event} {s s' : Store} (hm : Move e s s') {page : PageId} {f : FrameNo}
    (hf : s'.table.frame? page = some f) : Enters s s' page f e := by
  cases hm with
  | evicted | dropped => exact .stays (PageTable.frame?_of_remove hf).2
  | @loaded _ q k p hn hlt hk hp =>
    rw [PageTable.frame?_insert] at hf
    split at hf
    · rename_i hq
      subst hq
      obtain rfl := Option.some.inj hf
      refine .loaded hn rfl (Array.size_push p) hk ?_
      show _ = Except.ok (Frames.page (s.frames.push p) s.frames.size)
      rw [Frames.page_push, if_pos rfl]
      exact hp
    · exact .stays hf
  | grown hk ha =>
    obtain ⟨file, -, rfl⟩ := allocatePage_eq_ok ha
    exact .stays hf
  | @installed _ txn g hlt hd hl hr =>
    rw [PageTable.frame?_insert] at hf
    split at hf
    · rename_i hq
      obtain rfl := Option.some.inj hf
      rw [hq]
      exact .installed hlt rfl hd hl
    · exact .stays hf
  | flushed hg hd hk hw =>
    obtain ⟨file, -, rfl⟩ := writePage_eq_ok hw
    exact .stays hf
  | committed hg hd hk hw =>
    obtain ⟨file, -, rfl⟩ := writePage_eq_ok hw
    exact .stays hf
  | _ => exact .stays hf

/-- The page in a frame keeps its id. -/
theorem Move.frame_id {e : Event} {s s' : Store} (hm : Move e s s') {f : FrameNo}
    (hf : f < s.frames.size) :
    f < s'.frames.size ∧ (s'.frames.page f).id = (s.frames.page f).id := by
  obtain ⟨hlt, ht⟩ := hm.turns hf
  refine ⟨hlt, ?_⟩
  cases ht with
  | kept hp => rw [hp]
  | changed hq => exact hq.kept.id
  | committed _ _ _ hp => rw [hp]

/-! ## Every page instance -/

/-- A property that pages have when they are read, and keep when they are edited or reach a
clean point. -/
structure Lasting (P : Page → Prop) : Prop where
  unmade : P default
  read : ∀ {id : PageId} {schema : Schema} {b : Block} {p : Page},
    Page.ofImage id schema b = .ok p → P p
  edited : ∀ {txn : TxnId} {p q : Page}, Edited txn p q → P p → P q
  settled : ∀ {p : Page} (b : Block), P p → P { p with before := b, dirtier := none }

/-- Every page instance has the property. -/
def Every (P : Page → Prop) (s : Store) : Prop := ∀ f, P (s.frames.page f)

section Every

variable {P : Page → Prop} {s s' : Store}

theorem Every.setPage (h : Every P s) {f : FrameNo} {q : Page} (hq : P q) :
    Every P { s with frames := s.frames.setPage f q } := by
  intro g
  show P (Frames.page (s.frames.setPage f q) g)
  by_cases hf : f < s.frames.size
  · rw [Frames.page_setPage hf]
    split
    · exact hq
    · exact h g
  · rw [Frames.setPage, Array.setIfInBounds_eq_of_size_le (Nat.le_of_not_lt hf)]
    exact h g

theorem Move.every {e : Event} (hm : Move e s s') (hP : Lasting P) (h : Every P s) :
    Every P s' := by
  cases hm with
  | loaded hn hlt hk hp =>
    intro f
    show P (Frames.page (s.frames.push _) f)
    rw [Frames.page_push]
    split
    · obtain ⟨b, -, ho⟩ := Page.readPage_eq_ok hp
      exact hP.read ho
    · exact h f
  | grown hk ha => obtain ⟨file, -, rfl⟩ := allocatePage_eq_ok ha; exact h
  | changed hf he => exact h.setPage (hP.edited he (h _))
  | flushed hg hd hk hw => obtain ⟨file, -, rfl⟩ := writePage_eq_ok hw; exact h
  | @committed _ u txn page f k q hg hd hk hw hq =>
    obtain ⟨file, -, rfl⟩ := writePage_eq_ok hw
    obtain ⟨b, -, rfl⟩ := settle_eq_ok hq
    have hu : Every P (s.withFile k file) := h
    have hq : P { s.frames.page f with before := b, dirtier := none } := hP.settled b (h f)
    exact hu.setPage hq
  | _ => exact h

theorem Trace.every {es : List Event} (ht : Trace es s s') (hP : Lasting P) (h : Every P s) :
    Every P s' :=
  ht.induct (fun _ _ _ _ hm hs => hm.every hP hs) h

end Every

end Store

end RowStore
