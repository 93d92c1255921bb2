import RowStore.Proofs.Store.Acts
import RowStore.Proofs.Store.Editing

/-!
  Completing — commits, aborts and flushes, act by act.

  A page is logged, the log is forced and the page is written, or the call halts before the
  write (`writeThrough_cases`). A commit takes the transaction's dirty pages in load order:
  a first part is committed, the rest is dropped, and there is a rest exactly if the commit
  fails (`complete_completed`). Either way no resident page is left that the transaction
  made dirty, so it can end. A flush writes pages and changes nothing else in the pool.
-/

namespace RowStore.Store

/-! ## Writing one page -/

theorem logWrite_run (s : Store) (txn : TxnId) (before after : Page) :
    (∃ u, logWrite txn before after s = .ok () u ∧ (Act.logged txn before after).Does s u) ∨
      ∃ err u, logWrite txn before after s = .error err u ∧ Act.refused.Does s u := by
  unfold logWrite
  simp only [bind_run, get_run, modify_run, ofExcept_run]
  cases hw : s.log.write txn before after with
  | mk result log =>
    cases result with
    | ok a => exact .inl ⟨_, rfl, .logged hw⟩
    | error err => exact .inr ⟨err, _, rfl, .unlogged hw⟩

theorem logForce_run (s : Store) :
    (∃ u, logForce s = .ok () u ∧ Act.forced.Does s u) ∨
      ∃ err u, logForce s = .error err u ∧ Act.refused.Does s u := by
  unfold logForce
  simp only [bind_run, get_run, modify_run, ofExcept_run]
  cases hf : s.log.force with
  | mk result log =>
    cases result with
    | ok a => exact .inl ⟨_, rfl, .forced hf⟩
    | error err => exact .inr ⟨err, _, rfl, .unforced hf⟩

/-- A call that fails before it writes its page: only the log has changed. -/
structure Halted (x : StoreM Unit) (s : Store) (err : StoreError) (u : Store)
    (ms : List Moment) : Prop where
  run : x s = .error err u
  history : History ms s u
  ahead : Ahead ms
  records : ∀ m ∈ ms, m.Records
  logs : ∀ m ∈ ms, m.act.Logs

theorem records_of_dirty {s v : Store} {txn : TxnId} {page : PageId} {f : FrameNo} {before : Page}
    (hf : s.table.frame? page = some f) (hd : (s.frames.page f).dirtier = some txn)
    (hb : (s.frames.page f).beforeImage = .ok before) :
    Moment.Records ⟨s, .logged txn before (s.frames.page f), v⟩ := by
  intro t b a hl
  obtain ⟨rfl, rfl, rfl⟩ := Act.logged.inj hl
  exact ⟨page, f, hf, rfl, hd, hb⟩

theorem writeThrough_run (s : Store) (txn : TxnId) (p : Page) :
    writeThrough txn p s = match s.handle? p.id.table with
      | none => .error (.tableNotFound p.id.table) s
      | some k => match p.beforeImage with
        | .error err => .error err s
        | .ok before =>
          (logWrite txn before p >>= fun _ => logForce >>= fun _ => writePage k p) s := by
  unfold writeThrough
  rw [bind_run, tableFile_run]
  cases s.handle? p.id.table with
  | none => rfl
  | some k =>
    simp only [bind_run, ofExcept_run]
    cases p.beforeImage <;> rfl

/-- Log, force and write, or a failure before the write. -/
theorem writeThrough_cases {s : Store} {txn : TxnId} {page : PageId} {f : FrameNo}
    (hf : s.table.frame? page = some f) (hd : (s.frames.page f).dirtier = some txn) :
    (∃ err u ms, Halted (writeThrough txn (s.frames.page f)) s err u ms) ∨
      ∃ before v w k u, writeThrough txn (s.frames.page f) s = .ok () u ∧
        (s.frames.page f).beforeImage = .ok before ∧
        (Act.logged txn before (s.frames.page f)).Does s v ∧ Act.forced.Does v w ∧
        s.handle? (s.frames.page f).id.table = some k ∧
        writePage k (s.frames.page f) w = .ok () u := by
  have hrecords {before : Page} {v : Store} (hb : (s.frames.page f).beforeImage = .ok before) :=
    records_of_dirty (v := v) hf hd hb
  generalize s.frames.page f = p at hrecords ⊢
  have hrun := writeThrough_run s txn p
  cases hk : s.handle? p.id.table with
  | none =>
    rw [hk] at hrun
    exact .inl ⟨_, s, [], hrun, .nil, .nil, by simp, by simp⟩
  | some k =>
    cases hb : p.beforeImage with
    | error err =>
      rw [hk, hb] at hrun
      exact .inl ⟨err, s, [], hrun, .nil, .nil, by simp, by simp⟩
    | ok before =>
      rw [hk, hb] at hrun
      simp only [bind_run] at hrun
      rcases logWrite_run s txn before p with ⟨v, hw, hdv⟩ | ⟨err, v, hw, hdv⟩
      · rw [hw] at hrun
        simp only at hrun
        have hlogged : Act.Quiet (.logged txn before p) := ⟨id, by simp⟩
        rcases logForce_run v with ⟨w, hf, hdw⟩ | ⟨err, w, hf, hdw⟩
        · rw [hf] at hrun
          simp only at hrun
          have hpage := writePage_run w k p
          cases hfile : (w.heap k).writePage (w.fileOf k) p with
          | ok f =>
            rw [hfile] at hpage
            rw [hpage] at hrun
            exact .inr ⟨before, v, w, k, _, hrun, rfl, hdv, hdw, rfl, hpage⟩
          | error err =>
            rw [hfile] at hpage
            rw [hpage] at hrun
            have hforced : Act.Quiet .forced := ⟨id, by simp⟩
            refine .inl ⟨err, w, _, hrun, .cons hdv (.single hdw),
              .quiet hlogged (.quiet hforced .nil), ?_, by simp [Act.Logs]⟩
            simp only [List.forall_mem_cons]
            exact ⟨hrecords hb, Moment.records_of_forced rfl, by simp⟩
        · rw [hf] at hrun
          refine .inl ⟨err, w, _, hrun, .cons hdv (.single hdw),
            .quiet hlogged (.refused rfl (by simp)), ?_, by simp [Act.Logs]⟩
          simp only [List.forall_mem_cons]
          exact ⟨hrecords hb, Moment.records_of_refused rfl, by simp⟩
      · rw [hw] at hrun
        refine .inl ⟨err, v, _, hrun, .single hdv, .refused rfl (by simp), ?_, by simp [Act.Logs]⟩
        simp only [List.forall_mem_cons]
        exact ⟨Moment.records_of_refused rfl, by simp⟩

/-- A log call that succeeds changes the log only. -/
theorem writing_log {s v w : Store} {txn : TxnId} {before after : Page}
    (hv : (Act.logged txn before after).Does s v) (hw : Act.forced.Does v w) :
    ∃ log, w = { s with log := log } := by
  have hh : History [⟨s, _, v⟩, ⟨v, _, w⟩] s w := .cons hv (.single hw)
  exact hh.log (by simp [Act.Logs])

/-- What was logged and forced was the resident instance. -/
theorem behind_of_logged {s v w u : Store} {txn : TxnId} {page : PageId} {f : FrameNo}
    {before : Page} {e : Event} (hf : s.table.frame? page = some f)
    (hv : (Act.logged txn before (s.frames.page f)).Does s v) (hw : Act.forced.Does v w)
    (he : e = .flushed page ∨ e = .committed txn page) :
    Behind ⟨s, .logged txn before (s.frames.page f), v⟩ ⟨v, .forced, w⟩ ⟨w, .made e, u⟩ txn page
      before (s.frames.page f) := by
  obtain ⟨log, rfl⟩ := writing_log hv hw
  exact ⟨rfl, rfl, ⟨rfl, rfl⟩, he.imp (congrArg _) (congrArg _), ⟨f, hf, rfl⟩⟩

/-- A page that could be written can be encoded, so nothing fails after the write. -/
theorem commitPage_cases {s : Store} (h : s.Shaped) {txn : TxnId} {page : PageId} {f : FrameNo}
    (hf : s.table.frame? page = some f) (hd : (s.frames.page f).dirtier = some txn) :
    (∃ err u ms, Halted (commitPage txn f) s err u ms) ∨
      ∃ before v w u, commitPage txn f s = .ok () u ∧
        (s.frames.page f).beforeImage = .ok before ∧
        (Act.logged txn before (s.frames.page f)).Does s v ∧ Act.forced.Does v w ∧
        Move (.committed txn page) w u := by
  have hrun : commitPage txn f s = (writeThrough txn (s.frames.page f) >>= fun _ =>
      StoreM.ofExcept (s.frames.page f).settle >>= fun p => setPage f (p.markedBy none)) s := by
    unfold commitPage
    rw [bind_run, page_run]
  rw [bind_run] at hrun
  rcases writeThrough_cases hf hd with
    ⟨err, u, ms, hh⟩ | ⟨before, v, w, k, u, hw, hb, hv, hforce, hk, hu⟩
  · rw [hh.run] at hrun
    exact .inl ⟨err, u, ms, hrun, hh.history, hh.ahead, hh.records, hh.logs⟩
  · obtain ⟨file, hfile, -⟩ := writePage_eq_ok hu
    obtain ⟨-, -, -, b, himage, -⟩ := HeapFile.writePage_eq_ok hfile
    -- the image that was written is the new before-image
    have hs : (s.frames.page f).settle = .ok { s.frames.page f with before := b } := by
      simp [Page.settle, himage, bind, Except.bind, pure, Except.pure]
    rw [hw, hs] at hrun
    obtain ⟨log, rfl⟩ := writing_log hv hforce
    have hk' : s.handle? page.table = some k := (h.filed hf).2 ▸ hk
    exact .inr ⟨before, v, _, _, hrun, hb, hv, hforce,
      .committed (s := { s with log := log }) hf hd hk' hu hs⟩

/-! ## Commits -/

/-- The pages listed are those that a transaction made dirty. -/
def Dirties (s : Store) (txn : TxnId) (pages : List (PageId × FrameNo)) : Prop :=
  ∀ page f, (page, f) ∈ pages ↔
    s.table.frame? page = some f ∧ (s.frames.page f).dirtier = some txn

theorem dirties_dirtiedBy {s : Store} (h : s.Shaped) (txn : TxnId) :
    s.Dirties txn (s.table.dirtiedBy s.frames txn) :=
  fun _ _ => PageTable.mem_dirtiedBy h.ordered

/-- A page that was committed is not among the dirty ones any more. -/
theorem Dirties.committed {s v : Store} {txn : TxnId} {page : PageId} {f : FrameNo}
    {rest : List (PageId × FrameNo)} (h : s.Shaped) (hd : s.Dirties txn ((page, f) :: rest))
    (hn : (page, f) ∉ rest) (hm : Move (.committed txn page) s v) : v.Dirties txn rest := by
  obtain ⟨hpf, -⟩ := (hd page f).mp List.mem_cons_self
  cases hm with
  | @committed _ u _ _ g k q hg hgd hk hw hq =>
    obtain rfl : g = f := Option.some.inj (hg.symm.trans hpf)
    obtain ⟨file, -, rfl⟩ := writePage_eq_ok hw
    intro p e
    have hlt := (h.filed hg).1
    show (p, e) ∈ rest ↔ s.table.frame? p = some e ∧
      (Frames.page (s.frames.setPage g (q.markedBy none)) e).dirtier = some txn
    rw [Frames.page_setPage hlt]
    have hpe := hd p e
    rw [List.mem_cons] at hpe
    split
    · -- the frame that was committed is clean now
      rename_i he
      subst he
      constructor
      · intro hmem
        obtain ⟨hp, -⟩ := hpe.mp (.inr hmem)
        -- a frame holds one page only
        obtain rfl := h.frame_inj hp hg
        exact absurd hmem hn
      · intro hx
        obtain ⟨-, hmark⟩ := hx
        simp [Page.markedBy] at hmark
    · rename_i he
      rw [← hpe]
      constructor
      · exact .inr
      · intro hr
        rcases hr with heq | hmem
        · exact absurd (Prod.mk.inj heq).2 he
        · exact hmem

/-- Whoever made no resident page dirty leaves the same after a log call. -/
theorem Dirties.logged {s : Store} {txn : TxnId} {pages : List (PageId × FrameNo)}
    (hd : s.Dirties txn pages) (log : Log) : Dirties { s with log := log } txn pages := hd

/-- The store after pages have lost their residency. -/
def without (s : Store) (pages : List (PageId × FrameNo)) : Store :=
  { s with table := pages.foldl (fun t (page, _) => t.remove page) s.table }

theorem without_traced (s : Store) (pages : List (PageId × FrameNo)) :
    Trace (pages.map fun x => .dropped x.1) s (s.without pages) := by
  induction pages generalizing s with
  | nil => exact .nil
  | cons x rest ih =>
    exact .cons .dropped (ih { s with table := s.table.remove x.1 })

theorem frame?_without (s : Store) (pages : List (PageId × FrameNo)) (page : PageId) :
    (s.without pages).table.frame? page =
      if page ∈ pages.map Prod.fst then none else s.table.frame? page := by
  induction pages generalizing s with
  | nil => simp [without]
  | cons x rest ih =>
    have hx := ih { s with table := s.table.remove x.1 }
    show (without { s with table := s.table.remove x.1 } rest).table.frame? page = _
    rw [hx, PageTable.frame?_remove]
    simp only [List.map_cons, List.mem_cons]
    split
    · rename_i hmem
      rw [if_pos (.inr hmem)]
    · rename_i hmem
      by_cases hp : page = x.1
      · rw [if_pos hp, if_pos (.inl hp)]
      · rw [if_neg hp, if_neg (not_or.mpr ⟨hp, hmem⟩)]

/-- Dropping them leaves no page that the transaction made dirty. -/
theorem Dirties.without {s : Store} {txn : TxnId} {pages : List (PageId × FrameNo)}
    (hd : s.Dirties txn pages) : (s.without pages).Dirties txn [] := by
  intro page f
  rw [frame?_without]
  simp only [List.not_mem_nil, false_iff]
  intro hq
  obtain ⟨hf, hmark⟩ := hq
  split at hf
  · simp at hf
  · rename_i hmem
    exact hmem (List.mem_map.mpr ⟨(page, f), (hd page f).mpr ⟨hf, hmark⟩, rfl⟩)

/-- The events that a reader of the pool can see. -/
def Event.Visible : Event → Bool
  | .logged => false
  | _ => true

theorem visible_dropped (pages : List (PageId × FrameNo)) :
    (pages.map fun x => Event.dropped x.1).filter Event.Visible =
      pages.map fun x => Event.dropped x.1 := by
  apply List.filter_eq_self.mpr
  intro e he
  obtain ⟨x, -, rfl⟩ := List.mem_map.mp he
  rfl

theorem without_history (s : Store) (pages : List (PageId × FrameNo)) :
    ∃ ms, History ms s (s.without pages) ∧ (∀ m ∈ ms, m.act.Quiet ∧ m.Records) ∧
      ms.map (fun m => m.act.event) = pages.map fun x => .dropped x.1 := by
  have hnone : ∀ e ∈ pages.map fun x => Event.dropped x.1, e ≠ .logged := by
    intro e he
    obtain ⟨x, -, rfl⟩ := List.mem_map.mp he
    simp
  obtain ⟨ms, hms, hacts⟩ := (without_traced s pages).history hnone
  refine ⟨ms, hms, ?_, ?_⟩
  · intro m hm
    have hmem : m.act ∈ (pages.map fun x => Event.dropped x.1).map .made :=
      hacts ▸ List.mem_map_of_mem hm
    simp only [List.map_map, List.mem_map, Function.comp_apply] at hmem
    obtain ⟨x, -, hx⟩ := hmem
    refine ⟨?_, Moment.records_of_made hx.symm⟩
    rw [← hx]
    exact ⟨id, by simp⟩
  · have hevents := congrArg (List.map Act.event) hacts
    rw [List.map_map, List.map_map] at hevents
    exact hevents.trans (List.map_congr_left fun e _ => rfl) |>.trans (List.map_id _)

/-- What a completion does to the pages that its transaction made dirty: those in `done`
are committed, those in `rest` dropped. -/
structure Settled (txn : TxnId) (done rest : List (PageId × FrameNo)) (ms : List Moment)
    (s u : Store) : Prop where
  history : History ms s u
  ahead : Ahead ms
  records : ∀ m ∈ ms, m.Records
  visible : (ms.map fun m => m.act.event).filter Event.Visible =
    done.map (fun x => .committed txn x.1) ++ rest.map fun x => .dropped x.1
  refused : (∃ m ∈ ms, m.act = .refused) → rest ≠ []

/-- Calls of the log are not seen in the pool. -/
theorem visible_logs {ms : List Moment} (h : ∀ m ∈ ms, m.act.Logs) :
    (ms.map fun m => m.act.event).filter Event.Visible = [] := by
  apply List.filter_eq_nil_iff.mpr
  intro e he
  obtain ⟨m, hm, rfl⟩ := List.mem_map.mp he
  have hlog := h m hm
  cases hact : m.act with
  | made e =>
    rw [hact] at hlog
    exact hlog.elim
  | _ => simp [Act.event, Event.Visible]

theorem commitPages_settled {s : Store} {txn : TxnId} {pages : List (PageId × FrameNo)}
    (h : s.Shaped) (hd : s.Dirties txn pages) (hn : pages.Nodup) :
    ∃ done rest failure u ms, pages = done ++ rest ∧
      commitPages txn pages s = .ok failure u ∧ (failure = none ↔ rest = []) ∧
      Settled txn done rest ms s u ∧ u.Dirties txn [] := by
  induction pages generalizing s with
  | nil => exact ⟨[], [], none, s, [], rfl, rfl, by simp, ⟨.nil, .nil, by simp, rfl, by simp⟩, hd⟩
  | cons x pages ih =>
    obtain ⟨page, f⟩ := x
    obtain ⟨hf, hmark⟩ := (hd page f).mp List.mem_cons_self
    rw [commitPages, bind_run]
    unfold StoreM.attempt
    rcases commitPage_cases h hf hmark with
      ⟨err, u, ms, hh⟩ | ⟨before, v, w, u, hc, hb, hv, hw, hm⟩
    · -- this page and those after it are dropped
      rw [hh.run]
      obtain ⟨ns, hns, hq, hevents⟩ := without_history u ((page, f) :: pages)
      obtain ⟨log, rfl⟩ := hh.history.log hh.logs
      refine ⟨[], (page, f) :: pages, some err, _, ms ++ ns, rfl, rfl, by simp,
        ⟨hh.history.append hns, hh.ahead.append fun m hm => (hq m hm).1, ?_, ?_, by simp⟩,
        (hd.logged log).without⟩
      · intro m hm
        exact (List.mem_append.mp hm).elim (hh.records m) fun hm => (hq m hm).2
      rw [List.map_append, List.filter_append, visible_logs hh.logs, hevents, visible_dropped]
      rfl
    · rw [hc]
      obtain ⟨log, rfl⟩ := writing_log hv hw
      have hu : Shaped { s with log := log } := (Move.logged (s := s)).shaped h
      obtain ⟨hx, hn'⟩ := List.nodup_cons.mp hn
      obtain ⟨done, rest, failure, t, ms, hsplit, hrun, hfail, hset, hnone⟩ :=
        ih (hm.shaped hu) ((hd.logged log).committed hu hx hm) hn'
      have hbehind := behind_of_logged (u := u) hf hv hw (.inr rfl)
      refine ⟨(page, f) :: done, rest, failure, t, _, by rw [hsplit]; rfl, hrun, hfail,
        ⟨.cons hv (.cons hw (.cons (.made (by simp) hm) hset.history)),
          .written hbehind hset.ahead, ?_, ?_, ?_⟩, hnone⟩
      · simp only [List.forall_mem_cons]
        exact ⟨records_of_dirty hf hmark hb, Moment.records_of_forced rfl,
          Moment.records_of_made rfl, hset.records⟩
      · show Event.committed txn page :: (ms.map fun m => m.act.event).filter Event.Visible = _
        rw [hset.visible]
        rfl
      · intro hr
        obtain ⟨m, hmem, hact⟩ := hr
        simp only [List.mem_cons] at hmem
        rcases hmem with rfl | rfl | rfl | hmem
        · simp at hact
        · simp at hact
        · simp at hact
        · exact hset.refused ⟨m, hmem, hact⟩

theorem nodup_dirtiedBy {s : Store} (h : s.Shaped) (txn : TxnId) :
    (s.table.dirtiedBy s.frames txn).Nodup := by
  have hn := PageTable.nodup_dirtiedBy h.ordered s.frames txn
  exact (List.pairwise_map.mp hn).imp fun hne heq => hne (congrArg Prod.fst heq)

/-- What a completion does: the pages that the transaction made dirty are committed, in
load order, up to the first failure, the rest is dropped, and the transaction ends. -/
structure Completed (txn : TxnId) (commit : Bool) (s : Store) (result : Except StoreError Unit)
    (u : Store) (done rest : List (PageId × FrameNo)) (es : List Event) : Prop where
  pages : s.table.dirtiedBy s.frames txn = done ++ rest
  trace : Trace es s u
  visible : es.filter Event.Visible =
    done.map (fun x => .committed txn x.1) ++ (rest.map fun x => .dropped x.1) ++ [.ended txn]
  aborted : commit = false → done = []
  failed : (∃ err, result = .error err) ↔ commit = true ∧ rest ≠ []

/-- The store that a transaction has left. -/
def ended (s : Store) (txn : TxnId) : Store :=
  { s with locks := s.locks.releaseAll txn, table := s.table.forgetTxn txn }

theorem Dirties.ended {s : Store} {txn : TxnId} (hd : s.Dirties txn []) :
    Move (.ended txn) s (s.ended txn) :=
  .ended fun page f hf hmark => by simpa using (hd page f).mpr ⟨hf, hmark⟩

/-- The moment at which a transaction leaves. -/
def leaving (s : Store) (txn : TxnId) : Moment := ⟨s, .made (.ended txn), s.ended txn⟩

theorem Dirties.leaving {s : Store} {txn : TxnId} (hd : s.Dirties txn []) :
    History [s.leaving txn] s (s.ended txn) := .single (.made (by simp) hd.ended)

theorem quiet_leaving (s : Store) (txn : TxnId) :
    ∀ m ∈ [s.leaving txn], m.act.Quiet ∧ m.Records := by
  intro m hm
  rw [List.mem_singleton] at hm
  rw [hm]
  exact ⟨⟨id, by simp [Store.leaving]⟩, Moment.records_of_made rfl⟩

/-- Whatever has failed by then, the transaction leaves. -/
theorem leave_run (s : Store) (txn : TxnId) (x : StoreM (Option StoreError)) :
    (x >>= fun failure => (modify fun s => { s with
      locks := s.locks.releaseAll txn
      table := s.table.forgetTxn txn } : StoreM Unit) >>= fun _ =>
        match failure with
        | none => pure ()
        | some e => throw e) s = match x s with
      | .error e u => .error e u
      | .ok none u => .ok () (u.ended txn)
      | .ok (some e) u => .error e (u.ended txn) := by
  rw [bind_run]
  cases x s with
  | error e u => rfl
  | ok failure u => cases failure <;> rfl

theorem complete_run (s : Store) (txn : TxnId) (commit : Bool) :
    complete txn commit s =
      match (if commit then commitPages txn (s.table.dirtiedBy s.frames txn)
        else (dropPages (s.table.dirtiedBy s.frames txn) >>= fun _ => pure none)) s with
      | .error e u => .error e u
      | .ok none u => .ok () (u.ended txn)
      | .ok (some e) u => .error e (u.ended txn) := by
  unfold complete
  rw [bind_run, get_run]
  simp only
  cases commit with
  | true => exact leave_run s txn (commitPages txn _)
  | false => exact leave_run s txn (dropPages _ >>= fun _ => pure none)

theorem complete_completed {s : Store} (h : s.Shaped) (txn : TxnId) (commit : Bool) :
    ∃ result u done rest ms,
      Completed txn commit s result u done rest (ms.map fun m => m.act.event) ∧
      History ms s u ∧ Ahead ms ∧ (∀ m ∈ ms, m.Records) ∧
      ((∃ m ∈ ms, m.act = .refused) → ∃ err, result = .error err) ∧
      complete txn commit s = match result with
        | .ok _ => .ok () u
        | .error e => .error e u := by
  have hd := dirties_dirtiedBy h txn
  have hrun := complete_run s txn commit
  cases commit with
  -- an abort drops every page that the transaction made dirty
  | false =>
    obtain ⟨ns, hns, hq, hevents⟩ := without_history s (s.table.dirtiedBy s.frames txn)
    have hhistory := hns.append hd.without.leaving
    have hquiet m (hm : m ∈ ns ++ [Store.leaving (s.without (s.table.dirtiedBy s.frames txn)) txn]) :
        m.act.Quiet ∧ m.Records := (List.mem_append.mp hm).elim (hq m) (quiet_leaving _ txn m)
    refine ⟨.ok (), _, [], _, _, ⟨rfl, hhistory.trace, ?_, fun _ => rfl, ?_⟩, hhistory,
      .of_quiet fun m hm => (hquiet m hm).1, fun m hm => (hquiet m hm).2, ?_, hrun⟩
    · rw [List.map_append, List.filter_append, hevents, visible_dropped]
      rfl
    · simp
    · intro hr
      obtain ⟨m, hm, hact⟩ := hr
      exact absurd hact (hquiet m hm).1.2
  | true =>
    -- a commit writes them up to a failure and drops the others
    obtain ⟨done, rest, failure, u, ms, hsplit, hpages, hfail, hset, hnone⟩ :=
      commitPages_settled h hd (nodup_dirtiedBy h txn)
    simp only [if_true, hpages] at hrun
    have hhistory := hset.history.append hnone.leaving
    have hahead := hset.ahead.append fun m hm => (quiet_leaving u txn m hm).1
    have hrecords m (hm : m ∈ ms ++ [u.leaving txn]) : m.Records :=
      (List.mem_append.mp hm).elim (hset.records m) fun hm => (quiet_leaving u txn m hm).2
    have hvisible : ((ms ++ [u.leaving txn]).map fun m => m.act.event).filter Event.Visible =
        done.map (fun x => .committed txn x.1) ++ (rest.map fun x => .dropped x.1) ++
          [.ended txn] := by
      rw [List.map_append, List.filter_append, hset.visible]
      rfl
    have hrefused (hr : ∃ m ∈ ms ++ [u.leaving txn], m.act = .refused) : rest ≠ [] := by
      obtain ⟨m, hm, hact⟩ := hr
      rcases List.mem_append.mp hm with hm | hm
      · exact hset.refused ⟨m, hm, hact⟩
      · exact absurd hact (quiet_leaving _ txn m hm).1.2
    cases failure with
    | none =>
      have hrest := hfail.mp rfl
      refine ⟨.ok (), _, done, rest, _, ⟨hsplit, hhistory.trace, hvisible, by simp, ?_⟩, hhistory,
        hahead, hrecords, fun hr => absurd hrest (hrefused hr), hrun⟩
      simp [hrest]
    | some e =>
      have hrest : rest ≠ [] := fun hr => by simpa using hfail.mpr hr
      refine ⟨.error e, _, done, rest, _, ⟨hsplit, hhistory.trace, hvisible, by simp, ?_⟩, hhistory,
        hahead, hrecords, fun _ => ⟨e, rfl⟩, hrun⟩
      simp [hrest]

/-! ## Flushes -/

/-- The events of a flush. -/
def Event.Flush : Event → Prop
  | .logged | .flushed _ => True
  | _ => False

theorem flush_of_logs {a : Act} (h : a.Logs) : a.event.Flush := by
  cases a with
  | made => exact h.elim
  | _ => trivial

theorem flush_not_endless {e : Event} (h : e.Flush) : ¬ e.Endless := by
  cases e <;> simp_all [Event.Flush, Event.Endless]

theorem flushEach_account {s : Store} {pages : List (PageId × FrameNo)} (h : s.Shaped)
    (hp : ∀ page f, (page, f) ∈ pages → s.table.frame? page = some f) :
    ∃ ms, Account (flushEach pages) Event.Flush s ms := by
  induction pages generalizing s with
  | nil => exact ⟨[], .nil, .nil, by simp, by simp, by simp, by simp⟩
  | cons x rest ih =>
    obtain ⟨page, f⟩ := x
    have hf := hp page f List.mem_cons_self
    have hp' page f (hm : (page, f) ∈ rest) : s.table.frame? page = some f :=
      hp page f (List.mem_cons_of_mem _ hm)
    cases hd : (s.frames.page f).dirtier with
    | none =>
      have hrun : flushEach ((page, f) :: rest) s = flushEach rest s := by
        rw [flushEach, bind_run, page_run]
        simp only [hd]
      obtain ⟨ms, hms⟩ := ih h hp'
      exact ⟨ms, hms.congr hrun⟩
    | some txn =>
      have hrun : flushEach ((page, f) :: rest) s =
          (writeThrough txn (s.frames.page f) >>= fun _ => flushEach rest) s := by
        rw [flushEach, bind_run, page_run]
        simp only [hd]
      rw [bind_run] at hrun
      rcases writeThrough_cases hf hd with
        ⟨err, u, ms, hh⟩ | ⟨before, v, w, k, u, hwrite, hb, hv, hw, hk, hu⟩
      · have herr : flushEach ((page, f) :: rest) s = .error err u := by
          rw [hrun, hh.run]
        refine ⟨ms, ?_, hh.ahead, hh.records, fun m hm => flush_of_logs (hh.logs m hm),
          fun _ _ _ => ⟨err, ?_⟩, fun m hm he => ?_⟩
        · rw [after_error herr]
          exact hh.history
        · rw [herr, after_error herr]
        · exact absurd he (flush_not_endless (flush_of_logs (hh.logs m hm)))
      · -- the page is written behind its log record, and the table stays
        obtain ⟨log, rfl⟩ := writing_log hv hw
        have hk' : s.handle? page.table = some k := (h.filed hf).2 ▸ hk
        have hm : Move (.flushed page) { s with log := log } u :=
          .flushed (s := { s with log := log }) hf (by rw [hd]; simp) hk' hu
        have hu' : u.Shaped ∧ u.table = s.table := by
          refine ⟨hm.shaped ((Move.logged (s := s)).shaped h), ?_⟩
          obtain ⟨file, -, rfl⟩ := writePage_eq_ok hu
          rfl
        obtain ⟨ms, hms⟩ := ih hu'.1 fun page f hm => by rw [hu'.2]; exact hp' page f hm
        have hnext : flushEach ((page, f) :: rest) s = flushEach rest u := by
          rw [hrun, hwrite]
        have hafter : s.after (flushEach ((page, f) :: rest)) = u.after (flushEach rest) := by
          rw [after, after, hnext]
        have hbehind := behind_of_logged (u := u) hf hv hw (.inl rfl)
        refine ⟨_ :: _ :: _ :: ms, ?_, .written hbehind hms.ahead, ?_, ?_, ?_, ?_⟩
        · rw [hafter]
          exact .cons hv (.cons hw (.cons (.made (by simp) hm) hms.history))
        · simp only [List.forall_mem_cons]
          exact ⟨records_of_dirty hf hd hb, Moment.records_of_forced rfl,
            Moment.records_of_made rfl, hms.records⟩
        · simp only [List.forall_mem_cons]
          exact ⟨trivial, trivial, trivial, hms.events⟩
        · simp only [List.forall_mem_cons]
          refine ⟨by simp, by simp, by simp, fun m hm hr => ?_⟩
          rw [hnext, hafter]
          exact hms.refused m hm hr
        · simp only [List.forall_mem_cons]
          refine ⟨fun he => he.elim, fun he => he.elim, fun he => he.elim, fun m hm he => ?_⟩
          exact absurd he (flush_not_endless (hms.events m hm))

theorem flushAll_account {s : Store} (h : s.Shaped) : ∃ ms, Account flushAll Event.Flush s ms := by
  have hp page f (hm : (page, f) ∈ s.table.dirtyPages s.frames) : s.table.frame? page = some f :=
    ((PageTable.mem_dirtyPages h.ordered).mp hm).1
  obtain ⟨ms, hms⟩ := flushEach_account h hp
  exact ⟨ms, hms.congr rfl⟩

theorem flush_account {s : Store} (h : s.Shaped) (txn : TxnId) :
    ∃ ms, Account (flush txn) Event.Flush s ms := by
  have hp page f (hm : (page, f) ∈ s.table.dirtiedBy s.frames txn) :
      s.table.frame? page = some f := ((PageTable.mem_dirtiedBy h.ordered).mp hm).1
  obtain ⟨ms, hms⟩ := flushEach_account h hp
  exact ⟨ms, hms.congr rfl⟩

end RowStore.Store
