import RowStore.Proofs.Store.Suspending

/-!
  Rejecting — what a change that is refused leaves behind.

  A change is made in its frame before the registration decides. If that frame is still
  resident and the lock is gone, the refused change stays in the pool, with its marker;
  otherwise nothing resident has changed (`Interrupted.rejected_iff`). A frame that is
  resident can lose the lock only if its transaction was completed, or released the page,
  while the call was waiting. `Interrupted` takes in every sequence of calls, one change
  at a time waiting between them.
-/

namespace RowStore

/-- A page as it is read from its image. -/
def Page.Fresh (p : Page) : Prop := Page.ofImage p.id p.schema p.before = .ok p

theorem Page.fresh_readPage {h : HeapFile} {f : File} {id : PageId} {p : Page}
    (hp : h.readPage f id = .ok p) : p.Fresh := Page.beforeImage_readPage hp

theorem Page.tidy_default : (default : Page).Tidy :=
  ⟨Nat.le_refl _, fun i hi => absurd hi (Nat.not_lt_zero i)⟩

namespace Store

/-! ## Tidy instances -/

/-- Every page instance is tidy. -/
def Neat (s : Store) : Prop := ∀ f, (s.frames.page f).Tidy

theorem lasting_tidy : Lasting Page.Tidy where
  unmade := Page.tidy_default
  read := Page.tidy_ofImage
  edited he h := he.tidy h
  settled _ h := ⟨h.bits, h.filled⟩

theorem Unused.neat {s : Store} (h : s.Unused) : s.Neat :=
  h.every lasting_tidy

theorem Neat.setPage {s : Store} (h : s.Neat) {f : FrameNo} {q : Page} (hq : q.Tidy) :
    Neat { s with frames := s.frames.setPage f q } :=
  Every.setPage h hq

theorem Trace.neat {es : List Event} {s s' : Store} (ht : Trace es s s') (h : s.Neat) : s'.Neat :=
  ht.every lasting_tidy h

/-! ## Untouched pools -/

/-- No page that is resident in `u` was changed since `s`, neither its rows nor its
marker, and one that was loaded since is as its file had it. -/
def Untouched (s u : Store) : Prop :=
  ∀ page g, u.table.frame? page = some g →
    (g < s.frames.size → (u.frames.page g).slots = (s.frames.page g).slots ∧
      (u.frames.page g).dirtier = (s.frames.page g).dirtier) ∧
    (s.frames.size ≤ g → (u.frames.page g).Fresh)

/-- The instances of `s` are as they were, and later ones are fresh. -/
structure Extended (s u : Store) : Prop where
  le : s.frames.size ≤ u.frames.size
  old : ∀ g, g < s.frames.size → u.frames.page g = s.frames.page g
  fresh : ∀ g, s.frames.size ≤ g → g < u.frames.size → (u.frames.page g).Fresh

theorem Extended.refl (s : Store) : Extended s s :=
  ⟨Nat.le_refl _, fun _ _ => rfl, fun _ h₁ h₂ => absurd h₂ (Nat.not_lt.mpr h₁)⟩

theorem Extended.untouched {s u : Store} (h : Extended s u) (hu : u.Shaped) : Untouched s u := by
  intro page g hg
  refine ⟨?_, fun hle => h.fresh g hle (hu.filed hg).1⟩
  intro hlt
  rw [h.old g hlt]
  exact ⟨rfl, rfl⟩

/-- The events that leave every instance as it was. -/
def Event.Harmless : Event → Prop
  | .changed _ _ | .committed _ _ => False
  | _ => True

theorem Event.Seek.harmless {txn : TxnId} {e : Event} (h : e.Seek txn) : e.Harmless := by
  cases e <;> simp_all [Event.Seek, Event.Fetch, Event.Harmless]

theorem Move.extended {e : Event} {s u v : Store} (hm : Move e u v) (he : e.Harmless)
    (h : Extended s u) : Extended s v := by
  cases hm with
  | @loaded _ page k p hn hlt hk hp =>
    refine ⟨?_, ?_, ?_⟩
    · show s.frames.size ≤ (u.frames.push p).size
      rw [Array.size_push]
      exact Nat.le_succ_of_le h.le
    · intro g hg
      show Frames.page (u.frames.push p) g = _
      rw [Frames.page_push, if_neg (Nat.ne_of_lt (Nat.lt_of_lt_of_le hg h.le))]
      exact h.old g hg
    · intro g hle hg
      have hg' : g < (u.frames.push p).size := hg
      rw [Array.size_push] at hg'
      show (Frames.page (u.frames.push p) g).Fresh
      rw [Frames.page_push]
      split
      · exact Page.fresh_readPage hp
      · rename_i hne
        exact h.fresh g hle (Nat.lt_of_le_of_ne (Nat.le_of_lt_succ hg') hne)
  | grown hk ha =>
    obtain ⟨file, -, rfl⟩ := allocatePage_eq_ok ha
    exact ⟨h.le, h.old, h.fresh⟩
  | flushed hg hd hk hw =>
    obtain ⟨file, -, rfl⟩ := writePage_eq_ok hw
    exact ⟨h.le, h.old, h.fresh⟩
  | changed => exact absurd he id
  | committed => exact absurd he id
  | _ => exact ⟨h.le, h.old, h.fresh⟩

theorem Trace.extended {es : List Event} {s u : Store} (ht : Trace es s u)
    (he : ∀ e ∈ es, e.Harmless) : Extended s u :=
  ht.induct (P := Extended s) (fun e hm _ _ hmove h => hmove.extended (he e hm) h) (.refl s)

/-! ## One change waiting -/

/-- Whether a call takes the lock of a change that waits, its page being resident. -/
def Suspended.losesTo (w : Suspended) (s : Store) : Call → Bool
  | .complete txn _ => txn == w.txn
  | .release txn page => txn == w.txn && page == (s.frames.page w.frame).id
  | _ => false

/-- The states that calls lead to from an unused pool while at most one change at a time
is waiting, and whether its transaction has completed, or released the page, since the
page was fetched. Files and log may change in any way between two calls. -/
inductive Interrupted : Store → Option Suspended → Bool → Prop
  | unused {s : Store} : s.Unused → Interrupted s none false
  | call {s : Store} {w : Option Suspended} {lost : Bool} (c : Call) : Interrupted s w lost →
    Interrupted (s.after c.run) w (lost || w.any fun w => w.losesTo s c)
  | outside {s s' : Store} {w : Option Suspended} {lost : Bool} : Interrupted s w lost →
    SamePool s s' → s'.catalog = s.catalog → Interrupted s' w lost
  | begun {s u : Store} {txn : TxnId} {e : Edit} {w : Suspended} {lost : Bool} :
    Interrupted s none lost → Suspended.begin txn e s = .ok w u → Interrupted u (some w) false
  | refused {s u : Store} {txn : TxnId} {e : Edit} {err : StoreError} {lost : Bool} :
    Interrupted s none lost → Suspended.begin txn e s = .error err u →
    Interrupted u none false
  | next {s u : Store} {table : TableId} {i : Insertion} {f : FrameNo} {w : Suspended}
    {lost : Bool} : Interrupted s (some (.insertion table i f)) lost →
    (s.frames.page f).hasRoom = false → Suspended.next table i s = .ok w u →
    Interrupted u (some w) false
  | finished {s : Store} {w : Suspended} {lost : Bool} : Interrupted s (some w) lost →
    Interrupted (w.finish s).store none false

/-- What holds of a change that waits. -/
structure Waiting (s : Store) (w : Suspended) (lost : Bool) : Prop where
  knows : w.Knows s
  made : w.frame < s.frames.size
  secured : lost = false → s.Secured w.txn w.frame

theorem exposes_of_makes {c : Call} {e : Event} {w : Suspended} {s : Store} (hm : c.Makes e)
    (hl : w.losesTo s c = false) : ¬ e.Exposes w.txn (s.frames.page w.frame).id w.frame := by
  intro hq
  rcases hq with ⟨u, rfl⟩ | rfl | rfl
  · cases c <;> simp_all [Call.Makes, Event.Fetch, Event.Seek, Event.Flush]
  · cases c <;> simp_all [Call.Makes, Event.Fetch, Event.Seek, Event.Flush, Suspended.losesTo]
  · cases c <;> simp_all [Call.Makes, Event.Fetch, Event.Seek, Event.Flush, Suspended.losesTo]

theorem Waiting.call {s : Store} (h : s.Shaped) {w : Suspended} {lost : Bool}
    (hw : Waiting s w lost) (c : Call) :
    Waiting (s.after c.run) w (lost || w.losesTo s c) := by
  obtain ⟨es, ht, he⟩ := c.traced h
  have hmade : (w.frame < (s.after c.run).frames.size) ∧ (s.after c.run).Shaped :=
    ht.induct (P := fun u => w.frame < u.frames.size ∧ u.Shaped)
      (fun _ _ _ _ hm hu => ⟨(hm.frame_id hu.1).1, hm.shaped hu.2⟩) ⟨hw.made, h⟩
  refine ⟨hw.knows.congr ht.handle?, hmade.1, ?_⟩
  intro hl
  simp only [Bool.or_eq_false_iff] at hl
  exact (ht.secured h (hw.secured hl.1) fun e hm => exposes_of_makes (he e hm) hl.2).1

theorem finish_keeps {s : Store} (h : s.Shaped) (hn : s.Neat) {w : Suspended} {lost : Bool}
    (hw : Waiting s w lost) : (w.finish s).store.Shaped ∧ (w.finish s).store.Neat := by
  have hf := w.finish_finished h hw.knows hw.made
  generalize (w.finish s).result = result at hf
  generalize (w.finish s).store = u at hf
  have hchanged {row : Row} {p : Page} (ha : w.edit.apply (s.frames.page w.frame) = .ok (row, p)) :
      Shaped { s with frames := s.frames.setPage w.frame (p.markedBy (some w.txn)) } ∧
        Neat { s with frames := s.frames.setPage w.frame (p.markedBy (some w.txn)) } := by
    have he := Edit.edited_of_apply w.txn ha
    exact ⟨h.setPage he.kept.id, hn.setPage (he.tidy (hn _))⟩
  cases hf with
  | accepted ha hr =>
    obtain ⟨hs, hneat⟩ := hchanged ha
    cases hr with
    | accepted _ hacc =>
      cases hacc with
      | same _ ht => exact ⟨ht.shaped hs, ht.neat hneat⟩
      | replaced _ _ _ ht => exact ⟨ht.shaped hs, ht.neat hneat⟩
      | absent _ _ ht => exact ⟨ht.shaped hs, ht.neat hneat⟩
  | refused ha _ hr =>
    obtain ⟨hs, hneat⟩ := hchanged ha
    cases hr with
    | refused ht => exact ⟨ht.shaped hs, ht.neat hneat⟩
  | elsewhere _ he =>
    cases he with
    | failed _ ht => exact ⟨ht.shaped h, ht.neat hn⟩
    | changed _ ht _ hu hown ha =>
      have ht' := ht.append (Call.changed_traced hu hown ha)
      exact ⟨ht'.shaped h, ht'.neat hn⟩
  | failed => exact ⟨h, hn⟩

theorem Interrupted.sound {s : Store} {w : Option Suspended} {lost : Bool}
    (h : Interrupted s w lost) :
    s.Shaped ∧ s.Neat ∧ ∀ x, w = some x → Waiting s x lost := by
  induction h with
  | unused hu => exact ⟨hu.shaped, hu.neat, by simp⟩
  | @call s w lost c _ ih =>
    obtain ⟨hs, hn, hw⟩ := ih
    obtain ⟨es, ht, -⟩ := c.traced hs
    refine ⟨ht.shaped hs, ht.neat hn, ?_⟩
    intro x hq
    subst hq
    exact (hw x rfl).call hs c
  | @outside s s' w lost _ hp hc ih =>
    obtain ⟨hs, hn, hw⟩ := ih
    -- files, catalog and log may have changed, the pool has not
    refine ⟨hs.congr hp.table hp.locks hp.frames hp.maxPages, fun f => hp.frames ▸ hn f, ?_⟩
    intro x hr
    subst hr
    have hx := hw x rfl
    refine ⟨hx.knows.congr fun table => by rw [handle?, handle?, hc], hp.frames ▸ hx.made, ?_⟩
    intro hl
    refine ⟨hp.frames ▸ hx.made, ?_⟩
    rw [hp.table, hp.locks, hp.frames]
    exact (hx.secured hl).locked
  | @begun s u txn e w lost _ hb ih =>
    obtain ⟨hs, hn, -⟩ := ih
    obtain ⟨⟨es, htr, -⟩, -, hu, hown, hk⟩ := (Suspended.begin_traced hs txn e).ok hb
    refine ⟨hu, htr.neat hn, ?_⟩
    intro x hx
    obtain rfl := Option.some.inj hx
    exact ⟨hk, (hown.secured hu).made, fun _ => hown.secured hu⟩
  | @refused s u txn e err lost _ hb ih =>
    obtain ⟨hs, hn, -⟩ := ih
    obtain ⟨es, htr, -⟩ := (Suspended.begin_traced hs txn e).error hb
    exact ⟨htr.shaped hs, htr.neat hn, by simp⟩
  | next _ _ hx ih =>
    obtain ⟨hs, hn, hw⟩ := ih
    obtain ⟨⟨es, htr, -⟩, -, hu, hown, hk⟩ := (Suspended.next_traced hs (hw _ rfl).knows).ok hx
    refine ⟨hu, htr.neat hn, ?_⟩
    intro x hx
    obtain rfl := Option.some.inj hx
    exact ⟨hk, (hown.secured hu).made, fun _ => hown.secured hu⟩
  | finished _ ih =>
    obtain ⟨hs, hn, hw⟩ := ih
    obtain ⟨hs', hn'⟩ := finish_keeps hs hn (hw _ rfl)
    exact ⟨hs', hn', by simp⟩

/-! ## Refused changes -/

/-- The frame is resident without the lock, and the change can be made in it. -/
def Exposed (s : Store) (w : Suspended) : Prop :=
  s.table.frame? (s.frames.page w.frame).id = some w.frame ∧
    s.locks.mode? w.txn (s.frames.page w.frame).id ≠ some .write ∧
    ∃ r, w.edit.apply (s.frames.page w.frame) = .ok r

/-- A change in a frame that is not resident is none in the pool, whatever is evicted
after it. -/
theorem untouched_of_absent {s u : Store} (h : s.Shaped) {f : FrameNo} {q : Page}
    {es : List Event} (hf : f < s.frames.size) (hq : q.id = (s.frames.page f).id)
    (hn : s.table.frame? (s.frames.page f).id ≠ some f)
    (ht : Trace es { s with frames := s.frames.setPage f q } u)
    (he : ∀ e ∈ es, ∃ p, e = .evicted p) : Untouched s u := by
  let v : Store := { s with frames := s.frames.setPage f q }
  have hkept : u.frames = v.frames ∧ ∀ page g, u.table.frame? page = some g →
      s.table.frame? page = some g := by
    refine ht.induct (P := fun u => u.frames = v.frames ∧ ∀ page g,
      u.table.frame? page = some g → s.table.frame? page = some g) ?_ ⟨rfl, fun _ _ hg => hg⟩
    intro e hm a b hmove ha
    obtain ⟨p, rfl⟩ := he e hm
    cases hmove
    refine ⟨ha.1, fun page g hg => ha.2 page g ?_⟩
    replace hg := (PageTable.frame?_of_remove hg).2
    exact hg
  intro page g hg
  have hres := hkept.2 page g hg
  obtain ⟨hlt, hid⟩ := h.filed hres
  have hne : g ≠ f := by
    intro hx
    subst hx
    rw [hid] at hn
    exact hn hres
  refine ⟨?_, fun hle => absurd hlt (Nat.not_lt.mpr hle)⟩
  intro _
  rw [hkept.1, Frames.page_setPage hf, if_neg hne]
  exact ⟨rfl, rfl⟩

/-- What a refused change leaves in the pool. -/
theorem exposed_finish {s : Store} (hn : s.Neat) {w : Suspended}
    (hf : w.frame < s.frames.size) (hx : s.Exposed w) :
    ∃ u, w.finish s = ⟨.error (.aborted w.txn (s.frames.page w.frame).id),
        (w.finish s).row, u⟩ ∧
      u.table.frame? (s.frames.page w.frame).id = some w.frame ∧
      (u.frames.page w.frame).dirtier = some w.txn ∧
      (u.frames.page w.frame).slots ≠ (s.frames.page w.frame).slots := by
  obtain ⟨hres, hlock, ⟨row, p⟩, ha⟩ := hx
  have hedit := Edit.edited_of_apply w.txn ha
  let v : Store := { s with frames := s.frames.setPage w.frame (p.markedBy (some w.txn)) }
  have hpage : v.frames.page w.frame = p.markedBy (some w.txn) := Frames.page_setPage_self hf _
  have hid : (v.frames.page w.frame).id = (s.frames.page w.frame).id := by
    rw [hpage]
    exact hedit.kept.id
  have hreg : register w.txn w.frame v =
      .error (.aborted w.txn (s.frames.page w.frame).id) v := by
    rw [register_run, hid, if_pos hlock]
  refine ⟨v, ?_, hres, by rw [hpage]; rfl, by rw [hpage]; exact hedit.slots_ne (hn _)⟩
  rw [Suspended.finish, registered_of_refused (Suspended.change_of_applied ha) hreg]

/-- A change that is refused has left no trace in the pool unless its frame was resident
without the lock. Then the page stays there, changed and marked; and that cannot be unless
the transaction was completed, or released the page, while the change was waiting. -/
theorem Interrupted.rejected_iff {s : Store} {w : Suspended} {lost : Bool} {err : StoreError}
    (h : Interrupted s (some w) lost) (he : (w.finish s).result = .error err) :
    (Untouched s (w.finish s).store ↔ ¬ s.Exposed w) ∧
      (s.Exposed w → lost = true ∧
        (w.finish s).store.table.frame? (s.frames.page w.frame).id = some w.frame ∧
        ((w.finish s).store.frames.page w.frame).dirtier = some w.txn) := by
  obtain ⟨hs, hn, hw⟩ := h.sound
  have hwait := hw w rfl
  refine ⟨⟨?_, ?_⟩, ?_⟩
  · intro hu hx
    obtain ⟨u, hfin, hres, -, hslots⟩ := exposed_finish hn hwait.made hx
    rw [hfin] at hu
    exact hslots ((hu _ _ hres).1 hwait.made).1
  · intro hx
    have hf := w.finish_finished hs hwait.knows hwait.made
    generalize (w.finish s).store = u at hf
    rw [he] at hf
    cases hf with
    | @refused row p _ _ ha hreg hr =>
      have hedit := Edit.edited_of_apply w.txn ha
      have hpage : Frames.page (s.frames.setPage w.frame (p.markedBy (some w.txn))) w.frame =
          p.markedBy (some w.txn) := Frames.page_setPage_self hwait.made _
      by_cases hres : s.table.frame? (s.frames.page w.frame).id = some w.frame
      · -- resident, so not without the lock, but then nothing is refused
        exfalso
        have hlock : s.locks.mode? w.txn (s.frames.page w.frame).id = some .write :=
          Decidable.byContradiction fun hlock => hx ⟨hres, hlock, _, ha⟩
        have hid : (p.markedBy (some w.txn)).id = (s.frames.page w.frame).id := hedit.kept.id
        have hown : Owns { s with
            frames := s.frames.setPage w.frame (p.markedBy (some w.txn)) } w.txn w.frame := by
          refine ⟨?_, ?_⟩
          · rw [hpage, hid]
            exact hres
          · rw [hpage, hid]
            exact hlock
        rw [register_of_owns hown (by rw [hpage]; rfl)] at hreg
        simp at hreg
      · cases hr with
        | refused ht he' => exact untouched_of_absent hs hwait.made hedit.kept.id hres ht he'
    | elsewhere _ hedits =>
      -- the search of another page has changed none
      cases hedits with
      | failed _ ht hev =>
        exact (ht.extended fun e hm => (hev e hm).1.harmless).untouched (ht.shaped hs)
    | failed => exact (Extended.refl s).untouched hs
  · intro hx
    obtain ⟨u, hfin, hres, hmark, -⟩ := exposed_finish hn hwait.made hx
    rw [hfin]
    refine ⟨?_, hres, hmark⟩
    cases lost with
    | true => rfl
    | false => exact absurd ((hwait.secured rfl).locked hx.1) hx.2.1

/-- An insertion that has fetched the first page of the sample table. -/
def waiting : Suspended := .insertion 1 ⟨0, ⟨1⟩, number 7, 1, 1⟩ 0

/-- The sample store while it waits. -/
def interrupted : Store := (sample 1 1).after (Suspended.begin ⟨1⟩ (.insertion 1 (number 7)))

theorem interrupted_waiting : Interrupted interrupted (some waiting) false := by
  have hb : Suspended.begin ⟨1⟩ (.insertion 1 (number 7)) (sample 1 1) =
      .ok waiting interrupted := rfl
  exact .begun (.unused (unused_sample 1 1)) hb

/-- The page was released while the insertion waits. -/
def released : Store := interrupted.after (Call.release ⟨1⟩ ⟨1, 0⟩).run

/-- The page was discarded and then released. -/
def discarded : Store :=
  (interrupted.after (Call.discard ⟨1, 0⟩).run).after (Call.release ⟨1⟩ ⟨1, 0⟩).run

/-- The insertion is refused, but the row is there. -/
theorem Interrupted.not_untouched :
    ¬ ∀ (s : Store) (w : Suspended) (lost : Bool) (err : StoreError),
      Interrupted s (some w) lost → (w.finish s).result = .error err →
      Untouched s (w.finish s).store := by
  intro h
  have hs : Interrupted released (some waiting) true :=
    .call (.release ⟨1⟩ ⟨1, 0⟩) interrupted_waiting
  have he : (waiting.finish released).result = .error (.aborted ⟨1⟩ ⟨1, 0⟩) := rfl
  have hres : (waiting.finish released).store.table.frame? ⟨1, 0⟩ = some 0 := rfl
  have hmade : 0 < released.frames.size := by decide
  have hmark := ((h _ _ _ _ hs he ⟨1, 0⟩ 0 hres).1 hmade).2
  have hbefore : (released.frames.page 0).dirtier = none := rfl
  have hafter : ((waiting.finish released).store.frames.page 0).dirtier = some ⟨1⟩ := rfl
  rw [hbefore, hafter] at hmark
  simp at hmark

/-- If the page is not resident any more, nothing is left of the row. -/
theorem Interrupted.rejected_discarded :
    Interrupted discarded (some waiting) true ∧
      (waiting.finish discarded).result = .error (.aborted ⟨1⟩ ⟨1, 0⟩) ∧
      Untouched discarded (waiting.finish discarded).store := by
  have hs : Interrupted discarded (some waiting) true :=
    .call (.release ⟨1⟩ ⟨1, 0⟩) (.call (.discard ⟨1, 0⟩) interrupted_waiting)
  have he : (waiting.finish discarded).result = .error (.aborted ⟨1⟩ ⟨1, 0⟩) := rfl
  refine ⟨hs, he, (hs.rejected_iff he).1.mpr ?_⟩
  intro hq
  obtain ⟨hres, -⟩ := hq
  have hgone : discarded.table.frame? (discarded.frames.page waiting.frame).id = none := rfl
  rw [hgone] at hres
  simp at hres

end Store

end RowStore
