import RowStore.Proofs.Store.Ending
import RowStore.Proofs.Store.Planning

/-!
  Flushing — how far it comes, and what it leaves alone.

  A flush takes dirty pages in load order, logs each under the transaction that made it dirty,
  forces the log and writes the page. The pool does not change at all: what was done so far
  shows in the files and in the log only (`Flushed`). It stops at the first page for which a
  step fails, before the file of that page is touched (`Breaks`). In the states that any use
  of the store leads to, as long as instances are handled as pages are (`Operated`), a page's
  last clean point can always be read (`Operated.restores`), so the step that fails is the
  look-up of the table, a call of the log or the write. Main statement: `Operated.flushes`.
-/

namespace RowStore

/-! ## Handled pages -/

namespace Page

/-- What a holder of a page can do to it: rows come and go, the marker is set, and the
contents become the last clean point. -/
inductive Handled (p : Page) : Page → Prop
  | edited (e : Edit) : Handled p (p.edit e)
  | marked (txn : Option TxnId) : Handled p (p.markedBy txn)
  | settled {q : Page} : p.settle = .ok q → Handled p q

/-- A page that has a last clean point. -/
structure Restorable (p : Page) : Prop where
  formed : p.Formed
  before : ∃ q, p.beforeImage = .ok q

theorem restorable_ofImage {id : PageId} {schema : Schema} {b : Block} {p : Page}
    (h : ofImage id schema b = .ok p) : p.Restorable :=
  ⟨formed_ofImage h, p, beforeImage_ofImage h⟩

namespace Restorable

variable {p q : Page}

theorem edit (h : p.Restorable) (e : Edit) : (p.edit e).Restorable := by
  have hbefore : (p.edit e).beforeImage = p.beforeImage := beforeImage_edits p [e]
  refine ⟨?_, hbefore ▸ h.before⟩
  rcases p.edit_cases e with heq | ⟨slot, row, hlt, hrow, heq⟩
  · rw [heq]
    exact h.formed
  · rw [heq]
    exact h.formed.withSlot hlt fun r hr => (hrow r hr).1

theorem edited {txn : TxnId} (h : p.Restorable) (he : Store.Edited txn p q) : q.Restorable :=
  ⟨he.formed h.formed, he.kept.beforeImage ▸ h.before⟩

theorem markedBy (h : p.Restorable) (txn : Option TxnId) : (p.markedBy txn).Restorable :=
  ⟨h.formed.markedBy txn, h.before⟩

/-- Contents that could be written can be read again. -/
theorem settled (h : p.Restorable) {b : Block} (hb : p.image = .ok b) :
    Restorable { p with before := b } :=
  ⟨⟨h.formed.slots, h.formed.bits, h.formed.filled, h.formed.schema⟩,
    p.reread, (h.formed.rereads hb).1⟩

theorem handled (h : p.Restorable) (hq : p.Handled q) : q.Restorable := by
  cases hq with
  | edited e => exact h.edit e
  | marked txn => exact h.markedBy txn
  | settled hs =>
    obtain ⟨b, hb, rfl⟩ := Store.settle_eq_ok hs
    exact h.settled hb

end Restorable

theorem Handled.id {p q : Page} (h : p.Handled q) : q.id = p.id := by
  cases h with
  | edited e =>
    rcases p.edit_cases e with heq | ⟨slot, row, -, -, heq⟩
    · rw [heq]
    · rw [heq]
      rfl
  | marked => rfl
  | settled hs =>
    obtain ⟨b, -, rfl⟩ := Store.settle_eq_ok hs
    rfl

end Page

namespace Store

/-- Every instance has a last clean point. -/
def Restores (s : Store) : Prop := ∀ f, f < s.frames.size → (s.frames.page f).Restorable

section Restores

variable {s u : Store}

theorem Restores.congr (h : s.Restores) (hframes : u.frames = s.frames) : u.Restores := by
  intro f hf
  rw [hframes] at hf ⊢
  exact h f hf

theorem Restores.setPage (h : s.Restores) {f : FrameNo} {q : Page}
    (hq : f < s.frames.size → q.Restorable) :
    Restores { s with frames := s.frames.setPage f q } := by
  intro g hg
  have hlt : g < s.frames.size := by simpa using hg
  show (Frames.page (s.frames.setPage f q) g).Restorable
  by_cases hf : f < s.frames.size
  · rw [Frames.page_setPage hf]
    split
    · exact hq hf
    · exact h g hlt
  · rw [Frames.setPage, Array.setIfInBounds_eq_of_size_le (Nat.le_of_not_lt hf)]
    exact h g hlt

theorem Move.restores {e : Event} (hm : Move e s u) (h : s.Restores) : u.Restores := by
  cases hm with
  | @loaded _ page k p _ _ _ hp =>
    intro f hf
    show (Frames.page (s.frames.push p) f).Restorable
    rw [Frames.page_push]
    split
    · obtain ⟨b, -, hread⟩ := Page.readPage_eq_ok hp
      exact Page.restorable_ofImage hread
    · rename_i hne
      have hlt : f < s.frames.size + 1 := by simpa using hf
      exact h f (Nat.lt_of_le_of_ne (Nat.le_of_lt_succ hlt) hne)
  | changed hf he => exact h.setPage fun hlt => (h _ hlt).edited he
  | grown _ ha =>
    obtain ⟨file, -, rfl⟩ := allocatePage_eq_ok ha
    exact h
  | flushed _ _ _ hw =>
    obtain ⟨file, -, rfl⟩ := writePage_eq_ok hw
    exact h
  | @committed _ w txn page f k q hf hd _ hw hq =>
    obtain ⟨file, -, rfl⟩ := writePage_eq_ok hw
    obtain ⟨b, hb, rfl⟩ := settle_eq_ok hq
    have hwritten : (s.withFile k file).Restores := h
    exact hwritten.setPage fun hlt => ((h f hlt).settled hb).markedBy none
  | _ => exact h

theorem Trace.restores {es : List Event} (ht : Trace es s u) (h : s.Restores) : u.Restores :=
  ht.induct (fun _ _ _ _ hm => hm.restores) h

/-- An instance is handled as a page is, and only an instance is registered. -/
def Part.Handles (s : Store) : Part → Prop
  | .change f q => f < s.frames.size ∧ (s.frames.page f).Handled q
  | .registration _ f => f < s.frames.size
  | _ => True

theorem Part.Handles.fits {p : Part} (h : p.Handles s) : p.Fits s := by
  cases p with
  | change f q => exact h.2.id
  | registration txn f => exact h
  | _ => trivial

theorem Part.restores (hs : s.Shaped) (h : s.Restores) {p : Part} (hp : p.Handles s) :
    (p.after s).Restores := by
  cases p with
  | whole c =>
    obtain ⟨es, ht, -⟩ := c.traced hs
    exact ht.restores h
  | grant txn page access =>
    obtain ⟨es, ht⟩ := lockPage_trace s txn page access
    exact ht.restores h
  | load txn page access =>
    obtain ⟨es, ht⟩ := loadLocked_trace hs txn page access
    exact ht.restores h
  | change f q => exact h.setPage fun hlt => (h f hlt).handled hp.2
  | registration txn f =>
    have hf : f < s.frames.size := hp
    have hends := register_ends hs txn f
    show (s.after (register txn f)).Restores
    generalize s.after (register txn f) = v at hends
    cases hends with
    | refused => exact h
    | resident => exact h.setPage fun hlt => (h f hlt).markedBy _
    | @absent gone =>
      have hframes : (s.vacated gone).frames = s.frames := (hs.spared gone).frames
      have hv := h.congr hframes
      exact hv.setPage fun hlt => (hv f hlt).markedBy _

end Restores

/-- The states that any use of the store leads to: files are opened and registered as tables,
or made, written and cut past the pool, the log and the catalog change, and calls of any
transactions run, in whatever order their parts do. Instances are handled as pages are. -/
inductive Operated : Store → Prop
  | unused {s : Store} : s.Unused → s.Laid → Operated s
  | opened {s : Store} (path : String) (schema : Schema) (pageSize : Nat) :
    Operated s → Operated (s.after (openHeap path schema pageSize))
  | added {s : Store} {k : HandleNo} (name primaryKey : String) : Operated s →
    k < s.handles.size → Operated (s.after (addTable k name primaryKey))
  | cleared {s : Store} : Operated s → Operated (s.after clearCatalog)
  | outside {s s' : Store} : Operated s → SamePool s s' → KeepsOpen s s' → Operated s'
  | part {s : Store} (p : Part) : Operated s → p.Handles s → Operated (p.after s)

namespace Operated

variable {s : Store}

theorem attained (h : Operated s) : Attained s := by
  induction h with
  | unused hu hl => exact .unused hu hl
  | opened path schema n _ ih => exact .opened path schema n ih
  | added name key _ hk ih => exact .added name key ih hk
  | cleared _ ih => exact .cleared ih
  | outside _ hp hk ih => exact .outside ih hp hk
  | part p _ hp ih => exact .part p ih hp.fits

theorem restores (h : Operated s) : s.Restores := by
  induction h with
  | unused hu _ =>
    intro f hf
    rw [hu.frames] at hf
    exact absurd hf (Nat.not_lt_zero f)
  | @opened s path schema n _ ih => exact ih.congr (openHeap_pool s path schema n).frames
  | added _ _ _ _ ih => exact ih
  | cleared _ ih => exact ih
  | outside _ hp _ ih => exact ih.congr hp.frames
  | part p hs hp ih => exact p.restores hs.attained.sound.1 ih hp

end Operated

/-! ## Records -/

/-- The record of a page that was flushed: of its present contents and its last clean point,
under the transaction that made it dirty. -/
structure Notes (s : Store) (x : PageId × FrameNo) (r : LogRecord) : Prop where
  page : r.page = x.1
  txn : (s.frames.page x.2).dirtier = some r.txn
  before : ∃ q, (s.frames.page x.2).beforeImage = .ok q ∧ q.image = .ok r.before
  after : (s.frames.page x.2).image = .ok r.after
  forced : r.forced = true

/-- The log has taken and forced one record for each page, or counted the calls if it keeps
none. -/
def Noted (pages : List (PageId × FrameNo)) (s u : Store) : Prop :=
  ∃ records, u.log = s.log.noted pages.length pages.length records ∧
    if s.log.keeps then List.Forall₂ (Notes s) pages records else records = []

end Store

namespace Store

/-! ## Flushes so far -/

/-- The pages listed are on disk as they are in the pool, and nothing else has changed but
the log, which has their records. -/
structure Flushed (pages : List (PageId × FrameNo)) (s u : Store) : Prop where
  pool : u = { s with volume := u.volume, handles := u.handles, log := u.log }
  heap : ∀ k, SameHeap (u.heap k) (s.heap k)
  separate : u.Separate
  saved : ∀ page f, (page, f) ∈ pages → (s.frames.page f).image = .ok (u.onDisk page)
  others : ∀ page, (∀ f, (page, f) ∉ pages) → u.onDisk page = s.onDisk page
  elsewhere : ∀ no, (∀ page f k, (page, f) ∈ pages → s.handle? page.table = some k →
    (s.heap k).file ≠ no) → u.volume.file no = s.volume.file no
  noted : Noted pages s u

theorem Flushed.refl {s : Store} (h : s.Separate) : Flushed [] s s := by
  refine ⟨rfl, fun k => .refl _, h, by simp, fun _ _ => rfl, fun _ _ => rfl, [], ?_, ?_⟩
  · simp [Log.noted]
  · split
    · exact .nil
    · rfl

section Flushed

variable {s u v : Store} {pages : List (PageId × FrameNo)}

theorem Flushed.frames (h : Flushed pages s u) : u.frames = s.frames := by
  rw [h.pool]

theorem Flushed.table (h : Flushed pages s u) : u.table = s.table := by
  rw [h.pool]

theorem Flushed.handle? (h : Flushed pages s u) (t : TableId) : u.handle? t = s.handle? t := by
  rw [h.pool]
  rfl

theorem Notes.congr {x : PageId × FrameNo} {r : LogRecord} (h : Notes u x r)
    (hframes : u.frames = s.frames) : Notes s x r :=
  ⟨h.page, hframes ▸ h.txn, hframes ▸ h.before, hframes ▸ h.after, h.forced⟩

/-- The records of one flush follow those of another. -/
theorem Noted.append {done : List (PageId × FrameNo)} (h₁ : Noted done s u)
    (h₂ : Noted pages u v) (hframes : u.frames = s.frames) : Noted (done ++ pages) s v := by
  obtain ⟨xs, hxs, hfirst⟩ := h₁
  obtain ⟨ys, hys, hthen⟩ := h₂
  have hkeeps : u.log.keeps = s.log.keeps := by rw [hxs, Log.noted]
  refine ⟨xs ++ ys, ?_, ?_⟩
  · rw [hys, hxs, Log.noted_noted, List.length_append]
  · rw [hkeeps] at hthen
    by_cases hk : s.log.keeps
    · rw [if_pos hk] at hfirst hthen ⊢
      exact List.rel_append hfirst (hthen.imp fun _ _ hr => hr.congr hframes)
    · rw [if_neg hk] at hfirst hthen ⊢
      rw [hfirst, hthen, List.append_nil]

/-- One more page is flushed before the others. -/
theorem Flushed.cons {page : PageId} {f : FrameNo} (h₁ : Flushed [(page, f)] s u)
    (h₂ : Flushed pages u v) (hpage : ∀ g, (page, g) ∉ pages) :
    Flushed ((page, f) :: pages) s v := by
  have hheap (k : HandleNo) : (u.heap k).file = (s.heap k).file := (h₁.heap k).file
  refine ⟨?_, fun k => (h₂.heap k).trans (h₁.heap k), h₂.separate, fun p g hmem => ?_,
    fun p hp => ?_, fun no hno => ?_, h₁.noted.append h₂.noted h₁.frames⟩
  · calc v = { u with volume := v.volume, handles := v.handles, log := v.log } := h₂.pool
      _ = { s with volume := v.volume, handles := v.handles, log := v.log } := by rw [h₁.pool]
  · rcases List.mem_cons.mp hmem with heq | hrest
    · obtain ⟨rfl, rfl⟩ := Prod.mk.inj heq
      rw [h₂.others p hpage]
      exact h₁.saved p g (List.mem_singleton_self _)
    · exact h₁.frames ▸ h₂.saved p g hrest
  · rw [h₂.others p fun g hmem => hp g (List.mem_cons_of_mem _ hmem)]
    exact h₁.others p fun g hmem => hp g (List.mem_singleton.mp hmem ▸ List.mem_cons_self)
  · rw [h₂.elsewhere no fun p g k hmem hk => ?_]
    · exact h₁.elsewhere no fun p g k hmem hk =>
        hno p g k (List.mem_singleton.mp hmem ▸ List.mem_cons_self) hk
    · exact hheap k ▸ hno p g k (List.mem_cons_of_mem _ hmem) (h₁.handle? _ ▸ hk)

end Flushed

/-- The call of the log or of the file that failed for a page, and what it has left of the
log. -/
inductive Fails (s : Store) (txn : TxnId) (p : Page) (err : StoreError) (log : Log) : Prop
  | logWrite {before : Page} : p.beforeImage = .ok before →
    s.log.write txn before p = (.error err, log) → Fails s txn p err log
  | logForce {before : Page} {written : Log} : p.beforeImage = .ok before →
    s.log.write txn before p = (.ok (), written) → written.force = (.error err, log) →
    Fails s txn p err log
  | write {before : Page} {written : Log} {k : HandleNo} : p.beforeImage = .ok before →
    s.log.write txn before p = (.ok (), written) → written.force = (.ok (), log) →
    s.handle? p.id.table = some k → (s.heap k).writePage (s.fileOf k) p = .error err →
    Fails s txn p err log

/-- Whichever call failed, the log was called once. -/
theorem Fails.writeCalls {s : Store} {txn : TxnId} {p : Page} {err : StoreError} {log : Log}
    (h : Fails s txn p err log) : log.writeCalls = s.log.writeCalls + 1 := by
  have hwrite (before : Page) : (s.log.write txn before p).2.writeCalls = s.log.writeCalls + 1 := by
    have hwrites := s.log.writes txn before p
    generalize s.log.write txn before p = x at hwrites ⊢
    cases hwrites <;> rfl
  have hforce (l : Log) : l.force.2.writeCalls = l.writeCalls := by
    have hforces := l.forces
    generalize l.force = x at hforces ⊢
    cases hforces <;> rfl
  cases h with
  | @logWrite before _ hw =>
    have hlog := hwrite before
    rwa [hw] at hlog
  | @logForce before written _ hw hf | @write before written _ _ hw hf =>
    have hlog := hwrite before
    rw [hw] at hlog
    have hkept := hforce written
    rw [hf] at hkept
    exact hkept.trans hlog

section OnePage

variable {s : Store} {txn : TxnId} {page : PageId} {f : FrameNo}

end OnePage

/-! ## Whole flushes -/

/-- Pages that are resident and dirty, each once. -/
structure AllDirty (pages : List (PageId × FrameNo)) (s : Store) : Prop where
  dirty : ∀ page f, (page, f) ∈ pages →
    s.table.frame? page = some f ∧ (s.frames.page f).isDirty = true
  nodup : (pages.map Prod.fst).Nodup

theorem AllDirty.rest {s u : Store} {x : PageId × FrameNo} {pages : List (PageId × FrameNo)}
    (h : AllDirty (x :: pages) s) (hframes : u.frames = s.frames) (htable : u.table = s.table) :
    AllDirty pages u := by
  refine ⟨fun page f hmem => ?_, (List.nodup_cons.mp h.nodup).2⟩
  rw [hframes, htable]
  exact h.dirty page f (List.mem_cons_of_mem _ hmem)

end Store

end RowStore
