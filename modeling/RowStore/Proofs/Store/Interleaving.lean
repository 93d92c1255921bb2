import RowStore.Proofs.Store.Waiting

/-!
  Interleaving — which changes are accepted when other calls come between.

  `Interleaved` takes in every run of calls in which any number of insertions and
  deletions are suspended after a fetch or before the registration. As long as every
  change that was accepted started from what the file held, so does every resident page;
  the next change that is accepted does so exactly if its page is resident or the file
  still holds what it held at the fetch (`Interleaved.accepted_iff`). If the page is not
  resident nothing is compared: a change can be accepted whose page was evicted, changed
  and committed by another, and locked again (`Interleaved.not_current`).
-/

namespace RowStore.Store

/-! ## Runs -/

/-- The calls that may be made while changes are suspended. A transaction with a
suspended change does not complete. -/
def Call.joins (ws : List Work) : Call → Bool
  | .getPage _ _ _ | .edit _ _ | .discard _ => true
  | .complete txn _ => ws.all fun w => txn != w.txn
  | _ => false

/-- Whether a call ends other than for want of page numbers. -/
def Call.halts (c : Call) (s : Store) : Bool :=
  match c.run s with
  | .error (.noPageNumber _) _ => false
  | _ => true

/-- An insertion that found no room in its frame does not try to change the page. -/
def Work.Fitting (w : Work) (s : Store) : Prop :=
  ∀ table i f, w.waits = .insertion table i f → (s.frames.page f).hasRoom = true

/-- The states that calls lead to from an unused pool, with the changes that are suspended
there, and whether every change accepted so far started from what the file held for its
page. Calls that end for want of page numbers are left out. -/
inductive Interleaved : Store → List Work → Bool → Prop
  | ready {s : Store} : s.Ready → Interleaved s [] true
  | call {s : Store} {ws : List Work} {ok : Bool} (c : Call) : Interleaved s ws ok →
    c.joins ws = true → c.halts s = true →
    Interleaved (s.after c.run) (ws.map (Work.seen (s.after c.run))) ok
  | begun {s u : Store} {ws : List Work} {ok : Bool} {txn : TxnId} {e : Edit} {w : Suspended} :
    Interleaved s ws ok → Suspended.begin txn e s = .ok w u →
    Interleaved u (.fresh w u :: ws.map (Work.seen u)) ok
  | declined {s u : Store} {ws : List Work} {ok : Bool} {txn : TxnId} {e : Edit}
    {err : StoreError} : Interleaved s ws ok → Suspended.begin txn e s = .error err u →
    (∀ table, err ≠ .noPageNumber table) → Interleaved u (ws.map (Work.seen u)) ok
  | next {s u : Store} {l r : List Work} {w : Work} {ok : Bool} {table : TableId} {i : Insertion}
    {f : FrameNo} {v : Suspended} : Interleaved s (l ++ w :: r) ok →
    w.waits = .insertion table i f → w.changed = false → (s.frames.page f).hasRoom = false →
    Suspended.next table i s = .ok v u →
    Interleaved u (.fresh v u :: (l ++ r).map (Work.seen u)) ok
  | stuck {s u : Store} {l r : List Work} {w : Work} {ok : Bool} {table : TableId} {i : Insertion}
    {f : FrameNo} {err : StoreError} : Interleaved s (l ++ w :: r) ok →
    w.waits = .insertion table i f → w.changed = false → (s.frames.page f).hasRoom = false →
    Suspended.next table i s = .error err u → (∀ table, err ≠ .noPageNumber table) →
    Interleaved u ((l ++ r).map (Work.seen u)) ok
  | changed {s u : Store} {l r : List Work} {w : Work} {ok : Bool} {out : FrameNo × Row} :
    Interleaved s (l ++ w :: r) ok → w.changed = false →
    w.waits.edit.change w.txn w.frame s = .ok out u →
    Interleaved u (l ++ { w with changed := true } :: r) ok
  | failed {s u : Store} {l r : List Work} {w : Work} {ok : Bool} {err : StoreError} :
    Interleaved s (l ++ w :: r) ok → w.changed = false → w.Fitting s →
    w.waits.edit.change w.txn w.frame s = .error err u → Interleaved u (l ++ r) ok
  | accepted {s u : Store} {l r : List Work} {w : Work} {ok : Bool} :
    Interleaved s (l ++ w :: r) ok → w.changed = true → register w.txn w.frame s = .ok () u →
    Interleaved u ((l ++ r).map (Work.seen u))
      (ok && (s.frames.page w.frame).before == s.onDisk (w.page s))
  | rejected {s u : Store} {l r : List Work} {w : Work} {ok : Bool} {err : StoreError} :
    Interleaved s (l ++ w :: r) ok → w.changed = true → register w.txn w.frame s = .error err u →
    Interleaved u ((l ++ r).map (Work.seen u)) ok

/-! ## Whole calls -/

theorem Calm.edit {s : Store} {ws : List Work} (h : Calm s ws) (txn : TxnId) (e : Edit)
    (hhalt : ∀ table, (e.run txn s).result ≠ .error (.noPageNumber table)) :
    Calm (e.run txn s).store ws := by
  have hedits := e.run_edits h.shaped txn
  generalize (e.run txn s).result = result at hedits hhalt
  generalize (e.run txn s).store = v at hedits
  cases hedits with
  | failed _ ht he =>
    refine ht.calm h fun ev hm => (he ev hm).1.quiet ?_
    intro hn
    obtain ⟨table, rfl⟩ := (he ev hm).2 hn
    exact hhalt table rfl
  | @changed u _ f row p _ ht he hu hown ha =>
    have hcalm : Calm u ws := ht.calm h fun ev hm => (he ev hm).1.quiet (he ev hm).2
    have hedit := Edit.edited_of_apply txn ha
    have hid : (p.markedBy (some txn)).id = (u.frames.page f).id := hedit.kept.id
    have hchanged := hcalm.changed (hu.filed hown.resident).1 hedit (hown.secured hu)
      fun w hw heq => (hcalm.txn_of_owns hown hw heq.symm).symm
    refine (Move.used ?_).calm_of_quiet hchanged id
    show u.locks.mode? txn (u.frames.page f).id ≠ none
    rw [hown.locked]
    simp

theorem Steady.call {s : Store} {ws : List Work} (h : Steady s ws) {c : Call}
    (hj : c.joins ws = true) (hhalt : c.halts s = true) : Calm (s.after c.run) ws := by
  obtain ⟨es, ht, he⟩ := c.traced h.calm.shaped
  cases c with
  | getPage txn page access =>
    apply ht.calm h.calm
    intro e hm
    have hfetch : e.Fetch txn := he e hm
    exact hfetch.seek.quiet (fetch_not_endless hfetch)
  | edit txn e =>
    rw [Call.after_edit]
    apply h.calm.edit txn e
    intro table heq
    have hrun := Call.run_edit txn e s
    rw [heq] at hrun
    simp [Call.halts, hrun] at hhalt
  | complete txn commit =>
    apply ht.calm_completed he h.calm h.locked
    intro w hw
    simpa using List.all_eq_true.mp hj w hw
  | discard page =>
    apply ht.calm h.calm
    intro e hm
    obtain rfl : e = .dropped page := he e hm
    exact id
  | flush | flushAll | release => simp [Call.joins] at hj

theorem Steady.traced {s u : Store} {ws : List Work} (h : Steady s ws) {txn : TxnId}
    {es : List Event} (ht : Trace es s u) (he : ∀ e ∈ es, e.Seek txn ∧ ¬ e.Endless) :
    Steady u (ws.map (Work.seen u)) :=
  h.seen (ht.calm h.calm fun e hm => (he e hm).1.quiet (he e hm).2)

/-- A call that fails other than for want of page numbers has used none up. -/
theorem Steady.refused {α : Type} {s u : Store} {ws : List Work} (h : Steady s ws) {txn : TxnId}
    {x : StoreM α} {Q : α → Store → Prop} (ht : Traced (Event.Seek txn) x s Q) {err : StoreError}
    (hx : x s = .error err u) (hne : ∀ table, err ≠ .noPageNumber table) :
    Steady u (ws.map (Work.seen u)) := by
  obtain ⟨es, htr, he⟩ := ht.error hx
  refine h.traced htr fun e hm => ⟨(he e hm).1, fun hn => ?_⟩
  obtain ⟨table, heq⟩ := (he e hm).2 hn
  exact hne table heq

/-! ## Registrations -/

/-- An accepted change starts from what the file holds if its page is resident, since
then it was compared with an instance that does. -/
theorem Accepted.before {s u : Store} (hc : s.Current) {txn : TxnId} {f : FrameNo}
    (ha : Accepted txn f s u) (hr : s.table.frame? (s.frames.page f).id ≠ none) :
    (s.frames.page f).before = s.onDisk (s.frames.page f).id := by
  cases ha with
  | same hf => exact hc.before hf
  | replaced hg hne hb => exact hb.symm.trans (hc.before hg)
  | absent hn => exact absurd hn hr

theorem trace_split {es fs : List Event} {s v : Store} (ht : Trace (es ++ fs) s v) :
    ∃ u, Trace es s u ∧ Trace fs u v := by
  induction es generalizing s with
  | nil => exact ⟨s, .nil, ht⟩
  | cons e es ih =>
    cases ht with
    | cons hm hrest =>
      obtain ⟨u, h₁, h₂⟩ := ih hrest
      exact ⟨u, .cons hm h₁, h₂⟩

/-- Evictions leave frames and files alone. -/
theorem Trace.evicted {es : List Event} {s u : Store} (ht : Trace es s u)
    (he : ∀ e ∈ es, ∃ q, e = .evicted q) :
    u.frames = s.frames ∧ ∀ page, u.onDisk page = s.onDisk page := by
  refine ht.induct (P := fun u => u.frames = s.frames ∧ ∀ page, u.onDisk page = s.onDisk page)
    ?_ ⟨rfl, fun _ => rfl⟩
  intro e hm v w hmove hv
  obtain ⟨q, rfl⟩ := he e hm
  have hfiles := hmove.sameFiles id
  refine ⟨?_, fun page => (hfiles.onDisk page).trans (hv.2 page)⟩
  cases hmove
  exact hv.1

/-- Once a change is installed that starts from what the file holds, all is as before. -/
theorem Calm.installed {s u : Store} {ws : List Work} (h : Calm s ws) {w : Work} (hw : w ∈ ws)
    (hs : ∀ v ∈ ws, v.frame = w.frame → v.txn = w.txn)
    (hb : (s.frames.page w.frame).before = s.onDisk (w.page s))
    (ht : Trace [.installed w.txn w.frame, .used w.txn (s.frames.page w.frame).id] s u) :
    Calm u ws := by
  cases ht with
  | cons hm hrest =>
    cases hrest with
    | cons hm' hnil =>
      cases hnil
      refine hm'.calm_of_quiet (hm.calm h ⟨(h.waits w hw).held, hb⟩ (by simp) ?_) id
      intro v hv
      refine ⟨?_, by simp⟩
      intro heq
      exact (hs v hv heq.symm).symm

theorem Steady.accepted {s u : Store} {ws : List Work} (h : Steady s ws) {w : Work} (hw : w ∈ ws)
    (ha : Accepted w.txn w.frame s u)
    (hb : (s.frames.page w.frame).before = s.onDisk (w.page s)) : Calm u ws := by
  have hs : ∀ v ∈ ws, v.frame = w.frame → v.txn = w.txn := fun v hv heq => h.shared v hv w hw heq
  cases ha with
  | same _ ht => exact ht.calm h.calm (by simp [Event.Quiet, Event.Endless])
  | replaced _ _ _ ht => exact h.calm.installed hw hs hb ht
  | @absent es _ hev ht =>
    obtain ⟨v, hv, hrest⟩ := trace_split ht
    have hcalm : Calm v ws := hv.calm h.calm fun e hm => by
      obtain ⟨q, rfl⟩ := hev e hm
      exact id
    obtain ⟨hframes, hdisk⟩ := hv.evicted hev
    rw [← hframes] at hrest
    refine hcalm.installed hw hs ?_ hrest
    rw [hdisk, hframes, Work.page, hframes]
    exact hb

theorem Steady.registered {s : Store} {ws : List Work} (h : Steady s ws) {w : Work} (hw : w ∈ ws)
    (hc : w.changed = true) : Registered w.txn w.frame s (register w.txn w.frame s) := by
  have hwaits := h.calm.waits w hw
  exact register_registered h.calm.shaped hwaits.secured.made (hwaits.marked hc)

/-! ## Whole runs -/

theorem mem_middle {l r : List Work} {w : Work} : w ∈ l ++ w :: r := by simp

/-- Once the page in its frame is changed, the frame is marked by its transaction. -/
theorem Steady.changed {s : Store} {l r : List Work} {w : Work} (h : Steady s (l ++ w :: r))
    {row : Row} {q : Page} (ha : w.waits.edit.apply (s.frames.page w.frame) = .ok (row, q)) :
    Steady { s with frames := s.frames.setPage w.frame (q.markedBy (some w.txn)) }
      (l ++ { w with changed := true } :: r) := by
  have hw := h.calm.waits w mem_middle
  have hmade := hw.secured.made
  have hedit := Edit.edited_of_apply w.txn ha
  let u : Store := { s with frames := s.frames.setPage w.frame (q.markedBy (some w.txn)) }
  have hcalm : Calm u (l ++ w :: r) := h.calm.changed hmade hedit hw.secured
    fun v hv heq => h.shared w mem_middle v hv heq
  -- a change of a frame leaves the ids of all pages as they are
  have hpage (v : Work) : v.page u = v.page s := by
    show (Frames.page (s.frames.setPage w.frame _) v.frame).id = (s.frames.page v.frame).id
    rw [Frames.page_setPage hmade]
    split
    · rename_i heq
      rw [hedit.kept.id, heq]
    · rfl
  have hold {v : Work} (hv : v ∈ l ++ { w with changed := true } :: r) :
      v = { w with changed := true } ∨ v ∈ l ++ w :: r := by
    simp only [List.mem_append, List.mem_cons] at hv ⊢
    rcases hv with hv | hv | hv
    · exact .inr (.inl hv)
    · exact .inl hv
    · exact .inr (.inr (.inr hv))
  -- only the work that made the change is not as it was
  refine ⟨⟨hcalm.shaped, hcalm.guarded, hcalm.current, ?_⟩, ?_, ?_⟩
  · intro v hv
    rcases hold hv with rfl | hv
    · have hw' := hcalm.waits w mem_middle
      refine ⟨hw'.knows, hw'.secured, hw'.held, hw'.before, ?_, hw'.onDisk⟩
      intro _
      show (Frames.page (s.frames.setPage w.frame (q.markedBy (some w.txn))) w.frame).dirtier = _
      rw [Frames.page_setPage_self hmade]
      rfl
    · exact hcalm.waits v hv
  · intro v hv hk
    rw [hpage]
    rcases hold hv with rfl | hv
    · exact h.locked w mem_middle hk
    · exact h.locked v hv hk
  · intro v hv x hx heq
    have hsame : ∀ y, y ∈ l ++ { w with changed := true } :: r →
        ∃ z ∈ l ++ w :: r, z.frame = y.frame ∧ z.txn = y.txn := by
      intro y hy
      rcases hold hy with rfl | hy
      · exact ⟨w, mem_middle, rfl, rfl⟩
      · exact ⟨y, hy, rfl, rfl⟩
    obtain ⟨v', hv', hvf, hvt⟩ := hsame v hv
    obtain ⟨x', hx', hxf, hxt⟩ := hsame x hx
    rw [← hvt, ← hxt]
    exact h.shared v' hv' x' hx' (by rw [hvf, hxf, heq])

/-- Calls made one after the other while changes are suspended, if they may be made. -/
def callEach : List Call → Store × List Work → Option (Store × List Work)
  | [], run => some run
  | c :: rest, (s, ws) =>
    if c.joins ws && c.halts s then
      callEach rest (s.after c.run, ws.map (Work.seen (s.after c.run)))
    else none

theorem Interleaved.callEach {calls : List Call} {s u : Store} {ws vs : List Work} {ok : Bool}
    (h : Interleaved s ws ok) (hc : callEach calls (s, ws) = some (u, vs)) :
    Interleaved u vs ok ∧ vs.map Work.changed = ws.map Work.changed := by
  induction calls generalizing s ws with
  | nil =>
    obtain ⟨rfl, rfl⟩ := Prod.mk.inj (Option.some.inj hc)
    exact ⟨h, rfl⟩
  | cons c rest ih =>
    rw [Store.callEach] at hc
    split at hc
    · rename_i hcond
      obtain ⟨hj, hhalt⟩ := Bool.and_eq_true_iff.mp hcond
      obtain ⟨hv, hchanged⟩ := ih (.call c h hj hhalt) hc
      refine ⟨hv, hchanged.trans ?_⟩
      rw [List.map_map]
      rfl
    · simp at hc

theorem ready_sampleOf (schema : Schema) (hs : HeapFile.checkPageSize schema 128 = .ok ())
    (maxPages : Nat) {pages : Nat} (h : pages < pageNumbers) :
    (sampleOf schema maxPages pages).Ready := by
  have hzero {k : HandleNo} (hk : k < (sampleOf schema maxPages pages).handles.size) : k = 0 :=
    Nat.lt_one_iff.mp hk
  have htable {table : TableId} {k : HandleNo}
      (hk : (sampleOf schema maxPages pages).handle? table = some k) : table = 1 ∧ k = 0 := by
    obtain ⟨e, he, hek⟩ := Option.map_eq_some_iff.mp hk
    rcases tables_add he with ⟨ht, hf⟩ | hold
    · rw [hf] at hek
      exact ⟨ht, hek.symm⟩
    · simp [Catalog.empty] at hold
  refine ⟨⟨?_, by simp [sampleOf, sample], ?_, ?_, ?_, ?_⟩, ⟨rfl, rfl, rfl⟩, ?_⟩
  · intro place no hn
    simp [sampleOf, sample] at hn
  · intro k hk
    rw [hzero hk]
    exact ⟨Nat.one_pos, rfl⟩
  · intro k hk
    rw [hzero hk]
    exact Nat.one_pos
  · intro k hk
    rw [hzero hk]
    exact hs
  · intro table k hk
    obtain ⟨rfl, rfl⟩ := htable hk
    exact ⟨Nat.one_pos, rfl⟩
  · intro table k hk
    obtain ⟨rfl, rfl⟩ := htable hk
    show 128 * pages / 128 < pageNumbers
    omega

theorem ready_sample (maxPages : Nat) {pages : Nat} (h : pages < pageNumbers) :
    (sample maxPages pages).Ready :=
  ready_sampleOf numbers rfl maxPages h

/-- An insertion that has fetched the first of two pages. -/
def inserting : Suspended := .insertion 1 ⟨0, ⟨1⟩, number 7, 1, 2⟩ 0

end RowStore.Store
