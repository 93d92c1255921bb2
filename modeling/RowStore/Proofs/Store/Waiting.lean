import RowStore.Proofs.Store.Preparing
import RowStore.Proofs.Store.Suspending

/-!
  Waiting — what a suspended change can rely on while other calls are made.

  A `Work` is a suspended change with the image that the file held for its page when the
  page was fetched. While it waits, its frame keeps its page and what the page starts
  from, and the frame is resident only under its lock (`Work.Waits`). As long as the lock
  is kept, nobody else can commit the page, so the file keeps the image too. `Calm` says
  so of all suspended changes at once, beside the invariants of the pool; a move keeps it
  if it spares them (`Move.calm`).
-/

namespace RowStore.Store

/-! ## Suspended changes -/

/-- A suspended change. -/
structure Work where
  waits : Suspended
  /-- Whether the page in its frame is changed, so that registration comes next. -/
  changed : Bool
  /-- What the file held for the page when it was fetched. -/
  image : Block
  /-- Whether the page was locked for the change whenever a call ended since then. -/
  kept : Bool

namespace Work

def txn (w : Work) : TxnId := w.waits.txn

def frame (w : Work) : FrameNo := w.waits.frame

/-- The page in its frame. -/
def page (w : Work) (s : Store) : PageId := (s.frames.page w.frame).id

/-- The change when a call has ended. -/
def seen (s : Store) (w : Work) : Work :=
  { w with kept := w.kept && s.locks.mode? w.txn (w.page s) == some .write }

/-- A change that has just fetched its page. -/
def fresh (w : Suspended) (s : Store) : Work :=
  ⟨w, false, s.onDisk (s.frames.page w.frame).id, true⟩

/-- What a suspended change relies on. -/
structure Waits (w : Work) (s : Store) : Prop where
  knows : w.waits.Knows s
  secured : s.Secured w.txn w.frame
  held : s.Held (w.page s)
  before : (s.frames.page w.frame).before = w.image
  marked : w.changed = true → (s.frames.page w.frame).dirtier = some w.txn
  onDisk : w.kept = true → s.onDisk (w.page s) = w.image

/-- The lock has been there all the time. -/
def Locked (w : Work) (s : Store) : Prop :=
  w.kept = true → s.locks.mode? w.txn (w.page s) = some .write

theorem Waits.seen {w : Work} {s : Store} (h : w.Waits s) (u : Store) : (w.seen u).Waits s where
  knows := h.knows
  secured := h.secured
  held := h.held
  before := h.before
  marked := h.marked
  onDisk hk := h.onDisk (by
    have hk' : (w.kept && _) = true := hk
    exact (Bool.and_eq_true_iff.mp hk').1)

theorem locked_seen (w : Work) (s : Store) : (w.seen s).Locked s := by
  intro hk
  have hk' : (w.kept && s.locks.mode? w.txn (w.page s) == some .write) = true := hk
  exact eq_of_beq (Bool.and_eq_true_iff.mp hk').2

end Work

/-! ## Moves that spare them -/

/-- The events that a suspended change does not mind: nobody else touches its frame, and
its own transaction does not end. -/
def Event.Spares (w : Work) : Event → Prop
  | .changed u f | .installed u f => f = w.frame → u = w.txn
  | .committed u _ | .ended u => u ≠ w.txn
  | .released _ _ | .flushed _ => False
  | _ => True

/-- What a suspended change relies on, a move that spares it keeps. -/
theorem Move.waits {e : Event} {s s' : Store} (hm : Move e s s') (h : s.Shaped) (hg : s.Guarded)
    (hc : s.Current) (hf : e.Faithful s) {w : Work} (hw : w.Waits s) (he : e.Spares w)
    (hl : (∃ u, e = .committed u (w.page s)) → w.Locked s) : w.Waits s' := by
  obtain ⟨hmade, hid⟩ := hm.frame_id hw.secured.made
  have hpage : w.page s' = w.page s := hid
  have hfiles := hm.keepsFiles h hc.housed hf.not_endless
  have hturns := (hm.turns hw.secured.made).2
  -- whoever commits a page has it locked for writing, so nobody else has
  have hforeign {u : TxnId} {q : PageId} {f : FrameNo} (hq : s.table.frame? q = some f)
      (hd : (s.frames.page f).dirtier = some u)
      (hown : s.locks.mode? w.txn q = some .write) : u = w.txn := by
    apply Decidable.byContradiction
    intro hne
    have hlock := hg hq hd
    rw [LockManager.mode?_of_write h.consistent hown hne] at hlock
    simp at hlock
  refine ⟨?_, ?_, hpage ▸ hfiles.held hw.held, ?_, ?_, ?_⟩
  · exact hw.knows.congr (Trace.single hm).handle?
  · by_cases hx : e.Exposes w.txn (s.frames.page w.frame).id w.frame
    · rcases hx with ⟨u, rfl⟩ | rfl | rfl
      · obtain rfl := he rfl
        cases hm with
        | installed hlt hd hlock => exact ⟨hlt, fun _ => hlock⟩
      · exact absurd rfl he
      · exact he.elim
    · exact hm.secured h hw.secured hx
  · rw [← hw.before]
    cases hturns with
    | kept hp => rw [hp]
    | changed hq => exact hq.kept.before
    | committed hq hd =>
      have hid := (h.filed hq).2
      have hown := hw.secured.locked (hid.symm ▸ hq)
      exact absurd (hforeign hq hd (hid ▸ hown)) he
  · intro hch
    have hmark := hw.marked hch
    cases hturns with
    | kept hp =>
      rw [hp]
      exact hmark
    | changed hq =>
      rw [hq.kept.dirtier, he rfl]
    | committed hq hd =>
      rw [hmark] at hd
      exact absurd (Option.some.inj hd).symm he
  · intro hk
    rw [hpage, ← hw.onDisk hk]
    apply hfiles.onDisk hw.held
    intro hp
    obtain ⟨u, rfl⟩ := (hf.saves hp).committed
    obtain ⟨f, hcm⟩ := hm.commits h hc.housed
    exact absurd (hforeign hcm.resident hcm.dirty (hl ⟨u, rfl⟩ hk)) he

/-- The invariants of the pool, and what all suspended changes rely on. -/
structure Calm (s : Store) (ws : List Work) : Prop where
  shaped : s.Shaped
  guarded : s.Guarded
  current : s.Current
  waits : ∀ w ∈ ws, w.Waits s

theorem Move.calm {e : Event} {s s' : Store} {ws : List Work} (hm : Move e s s')
    (h : Calm s ws) (hf : e.Faithful s) (hr : ∀ u q, e ≠ .released u q)
    (he : ∀ w ∈ ws, e.Spares w ∧ ((∃ u, e = .committed u (w.page s)) → w.Locked s)) :
    Calm s' ws where
  shaped := hm.shaped h.shaped
  guarded := hm.guarded h.shaped h.guarded (by
    intro hu
    cases e with
    | released u q => exact hr u q rfl
    | _ => exact hu)
  current := hm.current h.shaped h.current hf
  waits w hw := hm.waits h.shaped h.guarded h.current hf (h.waits w hw) (he w hw).1 (he w hw).2

/-! ## Traces that spare them -/

/-- The events that touch neither a page instance nor what a file holds. -/
def Event.Quiet : Event → Prop
  | .changed _ _ | .installed _ _ | .flushed _ | .committed _ _ | .ended _ | .released _ _ => False
  | e => ¬ e.Endless

theorem Event.Seek.quiet {txn : TxnId} {e : Event} (h : e.Seek txn) (hn : ¬ e.Endless) :
    e.Quiet := by
  cases e <;> simp_all [Event.Seek, Event.Fetch, Event.Quiet]

theorem Move.calm_of_quiet {e : Event} {s s' : Store} {ws : List Work} (hm : Move e s s')
    (h : Calm s ws) (hq : e.Quiet) : Calm s' ws := by
  apply hm.calm h
  · cases e <;> first | exact hq | exact hq.elim
  · intro u q hx
    subst hx
    exact hq
  · intro w _
    refine ⟨?_, ?_⟩
    · cases e <;> first | exact hq.elim | trivial
    · intro hr
      obtain ⟨u, rfl⟩ := hr
      exact hq.elim

theorem Trace.calm {es : List Event} {s s' : Store} {ws : List Work} (ht : Trace es s s')
    (h : Calm s ws) (he : ∀ e ∈ es, e.Quiet) : Calm s' ws :=
  ht.induct (P := fun u => Calm u ws) (fun e hm _ _ hmove hu => hmove.calm_of_quiet hu (he e hm)) h

/-- A completion spares the changes of other transactions, since their pages are locked. -/
theorem Trace.calm_completed {es : List Event} {s s' : Store} {ws : List Work} {txn : TxnId}
    {commit : Bool} (ht : Trace es s s') (he : ∀ e ∈ es, (Call.complete txn commit).Makes e)
    (h : Calm s ws) (hl : ∀ w ∈ ws, w.Locked s) (hother : ∀ w ∈ ws, txn ≠ w.txn) :
    Calm s' ws := by
  have hboth := ht.induct (P := fun u => Calm u ws ∧ ∀ w ∈ ws, w.Locked u) ?_ ⟨h, hl⟩
  · exact hboth.1
  intro e hm u v hmove hboth
  obtain ⟨hu, hlocked⟩ := hboth
  have hmake := he e hm
  -- all that ends or is committed belongs to the transaction that completes
  have hspares : ∀ w ∈ ws, e.Spares w := by
    intro w hw
    rcases hmake with rfl | ⟨q, rfl⟩ | ⟨q, rfl⟩ | rfl
    · trivial
    · exact hother w hw
    · trivial
    · exact hother w hw
  have hstrip : ∀ w ∈ ws, ¬ e.Strips w.txn (w.page u) := by
    intro w hw hs
    have hne := hother w hw
    rcases hmake with rfl | ⟨q, rfl⟩ | ⟨q, rfl⟩ | rfl <;> simp_all [Event.Strips]
  refine ⟨hmove.calm hu ?_ ?_ fun w hw => ⟨hspares w hw, fun _ => hlocked w hw⟩, ?_⟩
  · rcases hmake with rfl | ⟨q, rfl⟩ | ⟨q, rfl⟩ | rfl <;> exact id
  · intro x q hq
    subst hq
    simp [Call.Makes] at hmake
  · intro w hw hk
    have hlock := hlocked w hw hk
    obtain ⟨-, hid⟩ := hmove.frame_id (hu.waits w hw).secured.made
    have hpage : w.page v = w.page u := hid
    -- a lock for writing that is kept cannot have become another
    obtain ⟨access, ha, hc⟩ := hmove.lock_kept hu.shaped hlock (hstrip w hw)
    rw [hpage, ha]
    cases access <;> simp_all [Access.covers]

/-- A change of a page that its transaction has locked, or that is not resident in its
frame. -/
theorem Calm.changed {s : Store} {ws : List Work} {txn : TxnId} {f : FrameNo} {q : Page}
    (h : Calm s ws) (hf : f < s.frames.size) (hq : Edited txn (s.frames.page f) q)
    (hs : s.Secured txn f) (hw : ∀ w ∈ ws, f = w.frame → txn = w.txn) :
    Calm { s with frames := s.frames.setPage f q } ws := by
  have hm : Move (.changed txn f) s { s with frames := s.frames.setPage f q } := by
    refine .changed hf hq ?_
    rw [hq.kept.id]
    exact hs.locked
  apply hm.calm h
  · exact id
  · intro u p hu
    simp at hu
  · intro w hmem
    exact ⟨hw w hmem, by simp⟩

/-- Whoever owns the frame of a suspended change is its transaction. -/
theorem Calm.txn_of_owns {s : Store} {ws : List Work} (h : Calm s ws) {txn : TxnId} {f : FrameNo}
    (ho : s.Owns txn f) {w : Work} (hw : w ∈ ws) (heq : w.frame = f) : w.txn = txn := by
  have hown := (h.waits w hw).secured.locked (by rw [heq]; exact ho.resident)
  rw [heq] at hown
  apply Decidable.byContradiction
  intro hne
  have hnone := LockManager.mode?_of_write h.shaped.consistent hown (Ne.symm hne)
  rw [ho.locked] at hnone
  simp at hnone

/-! ## Steady states -/

/-- The suspended changes of a state: those that share a frame are of one transaction. -/
structure Steady (s : Store) (ws : List Work) : Prop where
  calm : Calm s ws
  locked : ∀ w ∈ ws, w.Locked s
  shared : ∀ v ∈ ws, ∀ w ∈ ws, v.frame = w.frame → v.txn = w.txn

/-- After a call every change has been seen again. -/
theorem Steady.seen {s u : Store} {ws : List Work} (h : Steady s ws) (hu : Calm u ws) :
    Steady u (ws.map (Work.seen u)) where
  calm := ⟨hu.shaped, hu.guarded, hu.current, by
    intro w hw
    obtain ⟨v, hv, rfl⟩ := List.mem_map.mp hw
    exact (hu.waits v hv).seen u⟩
  locked := by
    intro w hw
    obtain ⟨v, -, rfl⟩ := List.mem_map.mp hw
    exact v.locked_seen u
  shared := by
    intro v hv w hw heq
    obtain ⟨v', hv', rfl⟩ := List.mem_map.mp hv
    obtain ⟨w', hw', rfl⟩ := List.mem_map.mp hw
    exact h.shared v' hv' w' hw' heq

/-- A change whose page is resident under its lock joins the others. -/
theorem Steady.fresh {s : Store} {ws : List Work} (h : Steady s ws) {w : Suspended}
    (hk : w.Knows s) (ho : s.Owns w.txn w.frame) : Steady s (.fresh w s :: ws) := by
  have hc := h.calm
  have hfresh : (Work.fresh w s).Waits s := by
    refine ⟨hk, ho.secured hc.shaped, hc.current.held ho.resident, ?_, ?_, fun _ => rfl⟩
    · exact hc.current.before ho.resident
    · simp [Work.fresh]
  have hshare : ∀ v ∈ ws, v.frame = w.frame → v.txn = w.txn :=
    fun v hv heq => hc.txn_of_owns ho hv heq
  refine ⟨⟨hc.shaped, hc.guarded, hc.current, ?_⟩, ?_, ?_⟩
  · intro v hv
    rcases List.mem_cons.mp hv with rfl | hv
    · exact hfresh
    · exact hc.waits v hv
  · intro v hv
    rcases List.mem_cons.mp hv with rfl | hv
    · exact fun _ => ho.locked
    · exact h.locked v hv
  · intro v hv x hx heq
    rcases List.mem_cons.mp hv with rfl | hv
    · rcases List.mem_cons.mp hx with rfl | hx
      · rfl
      · exact (hshare x hx heq.symm).symm
    · rcases List.mem_cons.mp hx with rfl | hx
      · exact hshare v hv heq
      · exact h.shared v hv x hx heq

end RowStore.Store
