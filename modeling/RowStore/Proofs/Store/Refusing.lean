import RowStore.Proofs.Store.Ending
import RowStore.Proofs.Store.Suspending

/-!
  Refusing — what a call that fails leaves of the caller's row.

  The row takes over its record id, or gives it up, when the change is made, and the
  registration decides later. `Refuses` says when it decides against the change, and
  `Spoils` when the caller is then left with another record id than before. Main statement:
  this is the only way in which a failed call changes the row, and it takes other calls
  between the fetch and the change (`Paused.failed_row`).
-/

namespace RowStore.Store

/-! ## Refused registrations -/

/-- Why a transaction cannot register a change of the page in a frame. -/
inductive Refuses (s : Store) (txn : TxnId) (f : FrameNo) : StoreError → Prop
  /-- It has lost the page. -/
  | lost : s.locks.mode? txn (s.frames.page f).id ≠ some .write →
    Refuses s txn f (.aborted txn (s.frames.page f).id)
  /-- Another instance is resident, and was changed or starts from another image. -/
  | overtaken {g : FrameNo} : s.table.frame? (s.frames.page f).id = some g → g ≠ f →
    (s.frames.page g).dirtier ≠ none ∨ (s.frames.page g).before ≠ (s.frames.page f).before →
    Refuses s txn f (.aborted txn (s.frames.page f).id)
  /-- The page has left the pool, and no page can make way for it. -/
  | stuck : s.locks.mode? txn (s.frames.page f).id = some .write →
    s.Stuck (s.frames.page f).id → Refuses s txn f (.poolFull s.maxPages)

theorem makeRoom_of_stuck {s : Store} (h : s.Shaped) {page : PageId} (hs : s.Stuck page) :
    makeRoom s = .error (.poolFull s.maxPages) s := by
  rcases makeRoom_cases h hs.absent with ⟨-, hmake⟩ | ⟨gone, hgone, -, hroom⟩
  · exact hmake
  · exfalso
    cases gone with
    | none =>
      have hfull := hs.full
      rw [PageTable.length_resident h.ordered] at hfull
      exact Nat.ne_of_lt hroom hfull
    | some v =>
      obtain ⟨before, f, after, hsplit, -, hclean⟩ := ((hgone v).mp rfl).first
      exact hs.dirty (v, f) (by rw [hsplit]; simp) hclean

section Registrations
variable {s u : Store} {txn : TxnId} {f : FrameNo} {err : StoreError}

theorem mark_ne_error (page : PageId) : mark txn page f s ≠ .error err u := by
  have hrun : mark txn page f s = .ok () { s with
      table := s.table.relate txn page
      frames := s.frames.setPage f ((s.frames.page f).markedBy (some txn)) } := rfl
  rw [hrun]
  simp

/-- A registration that is refused changes nothing. -/
theorem Refuses.run (h : s.Shaped) (hr : s.Refuses txn f err) :
    register txn f s = .error err s := by
  have hrun := register_run s txn f
  cases hr with
  | lost hlost => rw [hrun, if_pos hlost]
  | stuck hlock hstuck =>
    rw [if_neg (not_not.mpr hlock), hstuck.absent] at hrun
    rw [hrun, bind_run, makeRoom_of_stuck h hstuck]
  | @overtaken g hres hne hstale =>
    by_cases hlock : s.locks.mode? txn (s.frames.page f).id = some .write
    · have hstale : ((s.frames.page g).isDirty ||
          (s.frames.page g).before != (s.frames.page f).before) = true := by
        rw [Bool.or_eq_true, bne_iff_ne, Page.isDirty, Option.isSome_iff_ne_none]
        exact hstale
      rw [hrun, if_neg (not_not.mpr hlock), hres]
      simp only [ne_eq, hne, not_false_eq_true, if_true, hstale]
    · rw [hrun, if_pos hlock]

theorem register_refuses (h : s.Shaped) (hr : register txn f s = .error err u) :
    s.Refuses txn f err := by
  have hrun := register_run s txn f
  rw [hr] at hrun
  split at hrun
  · rename_i hlost
    rw [(EStateM.Result.error.inj hrun).1]
    exact .lost hlost
  rename_i hlock
  have hlock := not_not.mp hlock
  cases hg : s.table.frame? (s.frames.page f).id with
  | none =>
    rw [hg] at hrun
    simp only at hrun
    rw [bind_run] at hrun
    rcases makeRoom_cases h hg with ⟨hstuck, hmake⟩ | ⟨gone, -, hmake, -⟩
    · rw [hmake] at hrun
      rw [(EStateM.Result.error.inj hrun).1]
      exact .stuck hlock hstuck
    · -- once there is room nothing is in the way
      rw [hmake] at hrun
      exact absurd hrun.symm (mark_ne_error (s := { s.vacated gone with
        table := (s.vacated gone).table.insert (s.frames.page f).id f }) _)
  | some g =>
    rw [hg] at hrun
    simp only at hrun
    split at hrun
    · rename_i hne
      split at hrun
      · rename_i hstale
        rw [Bool.or_eq_true, bne_iff_ne, Page.isDirty, Option.isSome_iff_ne_none] at hstale
        rw [(EStateM.Result.error.inj hrun).1]
        exact .overtaken hg hne hstale
      · exact absurd hrun.symm (mark_ne_error (s := { s with
          table := s.table.insert (s.frames.page f).id f }) _)
    · exact absurd hrun.symm (mark_ne_error _)

/-- Of the frame itself only the id and the last clean image count. -/
theorem Refuses.congr {v : Store} (h : s.Shaped) (hr : s.Refuses txn f err)
    (htable : v.table = s.table) (hlocks : v.locks = s.locks) (hmax : v.maxPages = s.maxPages)
    (hid : (v.frames.page f).id = (s.frames.page f).id)
    (hbefore : (v.frames.page f).before = (s.frames.page f).before)
    (hother : ∀ g, g ≠ f → v.frames.page g = s.frames.page g) : v.Refuses txn f err := by
  cases hr with
  | lost hlost =>
    rw [← hid] at hlost ⊢
    exact .lost (hlocks ▸ hlost)
  | @overtaken g hres hne hstale =>
    rw [← hid] at hres ⊢
    rw [← hbefore, ← hother g hne] at hstale
    exact .overtaken (htable ▸ hres) hne hstale
  | stuck hlock hstuck =>
    rw [← hid] at hlock hstuck
    rw [← hmax]
    refine .stuck (hlocks ▸ hlock) ⟨htable ▸ hstuck.absent, ?_, fun x hx => ?_⟩
    · rw [htable, hmax]
      exact hstuck.full
    · rw [htable] at hx
      have hres := (PageTable.mem_resident h.ordered).mp hx
      -- the frame is not among the resident ones, as its page is not
      have hne : x.2 ≠ f := by
        intro hxf
        have habsent := hstuck.absent
        rw [hid, ← hxf, (h.filed hres).2, hres] at habsent
        simp at habsent
      rw [hother x.2 hne]
      exact hstuck.dirty x hx

/-- Whether a change can be registered is settled before it is made. -/
theorem refuses_setPage_iff (h : s.Shaped) (hf : f < s.frames.size) {q : Page}
    (hid : q.id = (s.frames.page f).id) (hbefore : q.before = (s.frames.page f).before) :
    Refuses { s with frames := s.frames.setPage f q } txn f err ↔ s.Refuses txn f err := by
  have hself : Frames.page (s.frames.setPage f q) f = q := Frames.page_setPage_self hf q
  have hother (g : FrameNo) (hne : g ≠ f) :
      Frames.page (s.frames.setPage f q) g = s.frames.page g :=
    Frames.page_setPage_ne (Ne.symm hne) q
  have hid' : (Frames.page (s.frames.setPage f q) f).id = (s.frames.page f).id := by
    rw [hself, hid]
  have hbefore' : (Frames.page (s.frames.setPage f q) f).before = (s.frames.page f).before :=
    (congrArg Page.before hself).trans hbefore
  constructor
  · intro hr
    exact hr.congr (h.setPage hid) rfl rfl rfl hid'.symm hbefore'.symm
      fun g hne => (hother g hne).symm
  · intro hr
    exact hr.congr h rfl rfl rfl hid' hbefore' hother

end Registrations

/-! ## Rows of failed calls -/

namespace Edit

/-- The record id that the edit leaves with the caller. -/
def record (p : Page) : Edit → Option RecordId
  | .insertion _ _ => p.firstFree?.map (Page.recordOf p.id)
  | .deletion _ => none

/-- Only the record id of the row is changed. -/
theorem row_of_apply {e : Edit} {p q : Page} {row : Row} (h : e.apply p = .ok (row, q)) :
    row = e.row.storedAt (e.record p) := by
  cases e with
  | insertion table r =>
    obtain ⟨slot, hfree, -, -, rfl, -⟩ := Page.insert_withSlot h
    rw [record, hfree]
    rfl
  | deletion r =>
    simp only [apply] at h
    split at h
    · exact (Prod.mk.inj (Except.ok.inj h)).1.symm
    · simp at h

/-- A row that a search leaves without its change is as it was. -/
theorem registered_row {s : Store} {txn : TxnId} {search : StoreM FrameNo}
    (hsearch : Traced (Event.Seek txn) search s fun f u => u.Shaped ∧ u.Owns txn f)
    (e : Edit) (row : Row) {err : StoreError}
    (he : (registered txn row (search >>= e.change txn) s).result = .error err) :
    (registered txn row (search >>= e.change txn) s).row = row := by
  cases hs : search s with
  | error err' u => rw [registered_of_unfound hs]
  | ok f u =>
    obtain ⟨-, hu, hown⟩ := hsearch.ok hs
    cases ha : e.apply (u.frames.page f) with
    | error err' => rw [registered_of_unchanged hs ha]
    | ok r =>
      rw [registered_of_applied hs hu hown ha] at he
      simp at he

/-- A call that nothing interrupts leaves the row of a failure alone. -/
theorem run_row {s : Store} (h : s.Shaped) {e : Edit} {txn : TxnId} {err : StoreError}
    (he : (e.run txn s).result = .error err) : (e.run txn s).row = e.row := by
  rw [run_eq] at he ⊢
  exact registered_row (e.search_traced h txn) e e.row he

end Edit

/-- A deleted row has no record id to be deleted by once more. -/
theorem deleteRow_nowhere (txn : TxnId) (row : Row) (s : Store) :
    (deleteRow txn (row.storedAt none) s).result = .error .missingRecordId := by
  have hrun : deleteRow txn (row.storedAt none) s =
    ⟨.error .missingRecordId, row.storedAt none, s⟩ := rfl
  rw [hrun]

/-- The change is made in the page that was fetched, is refused, and leaves the caller with
another record id. -/
structure Spoils (s : Store) (w : Suspended) (err : StoreError) : Prop where
  made : ∃ r, w.edit.apply (s.frames.page w.frame) = .ok r
  refused : s.Refuses w.txn w.frame err
  other : w.edit.record (s.frames.page w.frame) ≠ w.edit.row.record

namespace Suspended

variable {s : Store} {w : Suspended} {err : StoreError}

/-- A change that the page takes is made there, whatever becomes of it. -/
theorem change_of_made (hm : ∃ r, w.edit.apply (s.frames.page w.frame) = .ok r) :
    ∃ p : Page, Edited w.txn (s.frames.page w.frame) (p.markedBy (some w.txn)) ∧
      w.change s = .ok (w.frame, w.edit.row.storedAt (w.edit.record (s.frames.page w.frame)))
        { s with frames := s.frames.setPage w.frame (p.markedBy (some w.txn)) } := by
  obtain ⟨⟨row, p⟩, ha⟩ := hm
  refine ⟨p, Edit.edited_of_apply w.txn ha, ?_⟩
  rw [← Edit.row_of_apply ha]
  exact change_of_applied ha

theorem row_of_made (hm : ∃ r, w.edit.apply (s.frames.page w.frame) = .ok r) :
    (w.finish s).row = w.edit.row.storedAt (w.edit.record (s.frames.page w.frame)) := by
  obtain ⟨p, -, hchange⟩ := change_of_made hm
  rw [finish, registered, hchange]
  simp only
  split <;> rfl

/-- It is refused exactly if it could not be registered before. -/
theorem error_of_made_iff (h : s.Shaped) (hf : w.frame < s.frames.size)
    (hm : ∃ r, w.edit.apply (s.frames.page w.frame) = .ok r) :
    (w.finish s).result = .error err ↔ s.Refuses w.txn w.frame err := by
  obtain ⟨p, hedit, hchange⟩ := change_of_made hm
  let v : Store := { s with frames := s.frames.setPage w.frame (p.markedBy (some w.txn)) }
  have hv : v.Shaped := h.setPage hedit.kept.id
  rw [← refuses_setPage_iff h hf hedit.kept.id hedit.kept.before]
  cases hreg : register w.txn w.frame v with
  | ok a u =>
    have hfinish : (w.finish s).result = .ok () := by
      rw [finish, registered_of_accepted hchange hreg]
    rw [hfinish]
    refine iff_of_false (by simp) fun href => ?_
    have hrun := href.run hv
    rw [hreg] at hrun
    simp at hrun
  | error err' u =>
    have hfinish : (w.finish s).result = .error err' := by
      rw [finish, registered_of_refused hchange hreg]
    rw [hfinish]
    constructor
    · intro he
      rw [← Except.error.inj he]
      exact register_refuses hv hreg
    · intro href
      have hrun := href.run hv
      rw [hreg] at hrun
      exact congrArg Except.error (EStateM.Result.error.inj hrun).1

/-- A call that goes on without the page that it has fetched changes the row only if it
succeeds. -/
theorem finish_of_unmade (h : s.Shaped) (hk : w.Knows s)
    (hm : ¬ ∃ r, w.edit.apply (s.frames.page w.frame) = .ok r)
    (he : (w.finish s).result = .error err) : (w.finish s).row = w.edit.row := by
  unfold finish at he ⊢
  rcases w.change_run s with hrun | ⟨table, i, f, rfl, -, hrun⟩
  · have hchange := hrun.trans (w.edit.change_run w.txn w.frame s)
    cases ha : w.edit.apply (s.frames.page w.frame) with
    | ok r => exact absurd ⟨r, ha⟩ hm
    | error err' =>
      rw [ha] at hchange
      rw [registered_of_error hchange]
  · rw [registered_congr hrun] at he ⊢
    exact Edit.registered_row (Insertion.find_traced h hk) (.insertion table i.row) i.row he

end Suspended

/-! ## Calls that wait -/

theorem Part.frames_le {s : Store} (h : s.Shaped) (p : Part) :
    s.frames.size ≤ (p.after s).frames.size := by
  have htrace {es : List Event} {u : Store} (ht : Trace es s u) :
      s.frames.size ≤ u.frames.size := by
    rcases Nat.eq_zero_or_pos s.frames.size with hzero | hpos
    · rw [hzero]
      exact Nat.zero_le _
    · have hlast := ht.induct (P := fun u => s.frames.size - 1 < u.frames.size)
        (fun _ _ _ _ hm hu => (hm.frame_id hu).1) (Nat.sub_one_lt_of_lt hpos)
      exact Nat.le_of_pred_lt hlast
  cases p with
  | whole c =>
    obtain ⟨es, ht, -⟩ := c.traced h
    exact htrace ht
  | grant txn page access =>
    obtain ⟨es, ht⟩ := lockPage_trace s txn page access
    exact htrace ht
  | load txn page access =>
    obtain ⟨es, ht⟩ := loadLocked_trace h txn page access
    exact htrace ht
  | change f q => exact Nat.le_of_eq (Frames.size_setPage s.frames f q).symm
  | registration txn f =>
    have hends := register_ends h txn f
    show s.frames.size ≤ (s.after (register txn f)).frames.size
    generalize s.after (register txn f) = u at hends
    cases hends with
    | refused => exact Nat.le_refl _
    | resident => exact Nat.le_of_eq (Frames.size_setPage s.frames f _).symm
    | absent =>
      apply Nat.le_of_eq
      rw [marking, Frames.size_setPage, (h.spared _).frames]

/-- The states in which an insertion or a deletion waits with the page that it has fetched,
whatever calls of others have begun, gone on or ended since. Files and log may change in any
way between two parts of calls. -/
inductive Paused : Suspended → Store → Prop
  | begun {s u : Store} {txn : TxnId} {e : Edit} {w : Suspended} : Staggered s →
    Suspended.begin txn e s = .ok w u → Paused w u
  | next {s u : Store} {table : TableId} {i : Insertion} {f : FrameNo} {w : Suspended} :
    Paused (.insertion table i f) s → (s.frames.page f).hasRoom = false →
    Suspended.next table i s = .ok w u → Paused w u
  | part {s : Store} {w : Suspended} (p : Part) : Paused w s → p.Fits s → Paused w (p.after s)
  | outside {s s' : Store} {w : Suspended} : Paused w s → SamePool s s' →
    s'.catalog = s.catalog → Paused w s'

theorem Paused.sound {s : Store} {w : Suspended} (h : Paused w s) :
    s.Shaped ∧ w.Knows s ∧ w.frame < s.frames.size := by
  induction h with
  | begun hs hb =>
    obtain ⟨-, -, hu, hown, hk⟩ := (Suspended.begin_traced hs.shaped _ _).ok hb
    exact ⟨hu, hk, (hu.filed hown.resident).1⟩
  | next _ _ hx ih =>
    obtain ⟨-, -, hu, hown, hk⟩ := (Suspended.next_traced ih.1 ih.2.1).ok hx
    exact ⟨hu, hk, (hu.filed hown.resident).1⟩
  | part p _ hp ih =>
    obtain ⟨hs, hk, hf⟩ := ih
    refine ⟨p.shaped hs hp, hk.congr fun table => ?_, Nat.lt_of_lt_of_le hf (p.frames_le hs)⟩
    rw [handle?, handle?, (p.keepsOpen hs).catalog]
  | outside _ hp hc ih =>
    obtain ⟨hs, hk, hf⟩ := ih
    refine ⟨hs.congr hp.table hp.locks hp.frames hp.maxPages, hk.congr fun table => ?_,
      hp.frames ▸ hf⟩
    rw [handle?, handle?, hc]

/-- Whatever calls run while an insertion or a deletion waits with the page that it has
fetched, if it then fails, the caller's row has the values that it had. It has another record
id exactly if the change was made and then refused, as the page was lost, overtaken by another
instance, or found no room; an insertion has then left the record id of the slot that it did
not get, and a deleted row has lost the one it had, so that the deletion cannot be tried again.
A call that nothing interrupts leaves the row of a failure as it was. -/
theorem Paused.failed_row {s : Store} {w : Suspended} (h : Paused w s) (err : StoreError) :
    ((w.finish s).result = .error err ∧ (w.finish s).row ≠ w.edit.row ↔ s.Spoils w err) ∧
      (s.Spoils w err →
        (w.finish s).row = w.edit.row.storedAt (w.edit.record (s.frames.page w.frame)) ∧
        ∀ row, w.edit = .deletion row → ∀ txn u,
          (deleteRow txn (w.finish s).row u).result = .error .missingRecordId) ∧
      ∀ (e : Edit) (txn : TxnId), (e.run txn s).result = .error err → (e.run txn s).row = e.row := by
  obtain ⟨hs, hk, hf⟩ := h.sound
  refine ⟨⟨?_, ?_⟩, ?_, fun e txn => Edit.run_row hs⟩
  · rintro ⟨he, hrow⟩
    by_cases hm : ∃ r, w.edit.apply (s.frames.page w.frame) = .ok r
    · refine ⟨hm, (Suspended.error_of_made_iff hs hf hm).mp he, fun hsame => hrow ?_⟩
      rw [Suspended.row_of_made hm, hsame]
      rfl
    · exact absurd (Suspended.finish_of_unmade hs hk hm he) hrow
  · intro hx
    refine ⟨(Suspended.error_of_made_iff hs hf hx.made).mpr hx.refused, fun hsame => hx.other ?_⟩
    rw [Suspended.row_of_made hx.made] at hsame
    exact congrArg Row.record hsame
  · intro hx
    have hstored := Suspended.row_of_made hx.made
    refine ⟨hstored, fun row hrow txn u => ?_⟩
    rw [hstored, hrow]
    exact deleteRow_nowhere txn row u

/-- An insertion that has fetched the first of two pages. -/
def early : Suspended := .insertion 1 ⟨0, ⟨1⟩, number 7, 1, 2⟩ 0

/-- The sample store of two pages while it waits. -/
def fetched : Store := (sample 1 2).after (Suspended.begin ⟨1⟩ (.insertion 1 (number 7)))

/-- The page was discarded, loaded again for reading, and evicted for another transaction. -/
def overrun : Store :=
  ((fetched.after (Call.discard ⟨1, 0⟩).run).after (Call.getPage ⟨1⟩ ⟨1, 0⟩ .read).run).after
    (Call.getPage ⟨2⟩ ⟨1, 1⟩ .read).run

theorem paused_overrun : Paused early overrun := by
  have hb : Suspended.begin ⟨1⟩ (.insertion 1 (number 7)) (sample 1 2) = .ok early fetched := rfl
  exact .part (.whole (.getPage ⟨2⟩ ⟨1, 1⟩ .read)) (.part (.whole (.getPage ⟨1⟩ ⟨1, 0⟩ .read))
    (.part (.whole (.discard ⟨1, 0⟩)) (.begun (.unused (unused_sample 1 2)) hb) trivial) trivial)
    trivial

/-- The insertion is refused, and its row names the slot that it did not get. -/
theorem Paused.failure_renames :
    ¬ ∀ (s : Store) (w : Suspended) (err : StoreError), Paused w s →
      (w.finish s).result = .error err → (w.finish s).row = w.edit.row := by
  intro h
  have he : (early.finish overrun).result = .error (.aborted ⟨1⟩ ⟨1, 0⟩) := by decide +kernel
  have hrow := h _ _ _ paused_overrun he
  have hrecord : (early.finish overrun).row.record = some ⟨⟨1, 0⟩, 0⟩ := by decide +kernel
  have hbefore : early.edit.row.record = none := rfl
  rw [hrow, hbefore] at hrecord
  simp at hrecord

/-- A page that was evicted meanwhile is lost, and that spoils the row. -/
theorem Paused.failed_row_overrun :
    Paused early overrun ∧ overrun.Spoils early (.aborted ⟨1⟩ ⟨1, 0⟩) ∧
      (early.finish overrun).row = (number 7).storedAt (some ⟨⟨1, 0⟩, 0⟩) := by
  have hlock : overrun.locks.mode? ⟨1⟩ ⟨1, 0⟩ ≠ some .write := by decide +kernel
  have hid : (overrun.frames.page 0).id = ⟨1, 0⟩ := by decide +kernel
  have hrecord : early.edit.record (overrun.frames.page 0) = some ⟨⟨1, 0⟩, 0⟩ := by decide +kernel
  have hmade : (early.edit.apply (overrun.frames.page 0)).isOk = true := by decide +kernel
  have hspoils : overrun.Spoils early (.aborted ⟨1⟩ ⟨1, 0⟩) := by
    refine ⟨?_, ?_, ?_⟩
    · show ∃ r, early.edit.apply (overrun.frames.page 0) = .ok r
      cases ha : early.edit.apply (overrun.frames.page 0) with
      | ok r => exact ⟨r, rfl⟩
      | error e => rw [ha] at hmade; simp [Except.isOk, Except.toBool] at hmade
    · have hlost : overrun.Refuses ⟨1⟩ 0 (.aborted ⟨1⟩ (overrun.frames.page 0).id) :=
        .lost (hid ▸ hlock)
      rw [hid] at hlost
      exact hlost
    · show early.edit.record (overrun.frames.page 0) ≠ none
      rw [hrecord]
      simp
  have hfailed := paused_overrun.failed_row (.aborted ⟨1⟩ ⟨1, 0⟩)
  refine ⟨paused_overrun, hspoils, (hfailed.2.1 hspoils).1.trans ?_⟩
  exact congrArg (Row.storedAt (number 7)) hrecord

end RowStore.Store
