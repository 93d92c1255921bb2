import RowStore.Proofs.Store.Calls
import RowStore.Proofs.Store.Interleaving
import RowStore.Proofs.Store.Order

/-!
  Simulation — a pool is a store of committed and pending images.

  `Ledger.Step` says what each call may answer and do to the ledger. `Session` takes in
  every sequence of fetches, changes and completions, of any number of transactions, over
  files that begin empty. In all of them the pool takes steps of its ledger, and the owner
  of a pending image has the page alone (`Session.simulates`).
-/

namespace RowStore

namespace Store

/-- What a caller is given. -/
inductive Answer where
  | refused (err : StoreError)
  | shown (image : Except StoreError Block)
  | done

/-- The answer to a call. A page that is returned shows its image. -/
def Call.answer (c : Call) (s : Store) : Answer :=
  match c.run s with
  | .error err _ => .refused err
  | .ok (.instance f) u => .shown (u.frames.page f).image
  | .ok .done _ => .done

end Store

open Store

/-- What a call may answer and do to the ledger. The pages in `order` are those resident,
in load order. -/
inductive Ledger.Step (order : List PageId) (l : Ledger) : Call → Answer → Ledger → Prop
  | shown {txn : TxnId} {page : PageId} {access : Access} : l.FreeFor txn page →
    Step order l (.getPage txn page access) (.shown (.ok (l.view txn page))) l
  | blocked {txn : TxnId} {page : PageId} {access : Access} {err : StoreError} :
    Step order l (.getPage txn page access) (.refused err) l
  | edited {txn : TxnId} {e : Edit} {p q : Page} {row : Row} {image : Block} :
    l.FreeFor txn p.id → p.image = .ok (l.view txn p.id) → e.apply p = .ok (row, q) →
    q.image = .ok image → Step order l (.edit txn e) .done (l.edit txn p.id image)
  | declined {txn : TxnId} {e : Edit} {err : StoreError} :
    Step order l (.edit txn e) (.refused err) l
  | committed {txn : TxnId} : Step order l (.complete txn true) .done
      (l.finish txn (order.filter (l.owns txn)))
  | halted {txn : TxnId} {done rest : List PageId} {err : StoreError} :
    order.filter (l.owns txn) = done ++ rest → rest ≠ [] →
    Step order l (.complete txn true) (.refused err) (l.finish txn done)
  | aborted {txn : TxnId} : Step order l (.complete txn false) .done (l.finish txn [])

namespace Store

/-! ## What is resident -/

/-- A resident page that a transaction has locked shows what the ledger does. -/
theorem Orderly.shows {s : Store} (h : s.Orderly) {txn : TxnId} {page : PageId} {f : FrameNo}
    (hf : s.table.frame? page = some f) (hl : s.locks.mode? txn page ≠ none) :
    s.ledger.FreeFor txn page ∧ (s.frames.page f).image = .ok (s.ledger.view txn page) := by
  have hfits := h.fits hf
  cases hd : (s.frames.page f).dirtier with
  | none =>
    have hp : s.ledger.pending page = none := pending_of_clean hf hd
    refine ⟨?_, ?_⟩
    · intro owner image ho
      rw [hp] at ho
      simp at ho
    · simp only [Ledger.view, hp]
      exact hfits.clean hd
  | some owner =>
    have hp : s.ledger.pending page = some (owner, (s.frames.page f).block) :=
      h.pending_of_dirty hf hd
    -- whoever made it dirty has it for writing, so nobody else has it locked
    have howner : owner = txn := by
      have hw := h.guarded hf hd
      apply Decidable.byContradiction
      intro hne
      exact hl (LockManager.mode?_of_write h.shaped.consistent hw (Ne.symm hne))
    refine ⟨?_, ?_⟩
    · intro o image ho
      rw [hp] at ho
      obtain ⟨rfl, -⟩ := Prod.mk.inj (Option.some.inj ho)
      exact howner
    · simp only [Ledger.view, hp, if_pos howner]
      exact hfits.sound.image

/-- The owner of a pending image has the page resident, and locked against all others. -/
theorem Orderly.owner {s : Store} (h : s.Orderly) {page : PageId} {owner : TxnId} {image : Block}
    (hp : s.ledger.pending page = some (owner, image)) :
    page ∈ s.table.order ∧ s.locks.mode? owner page = some .write ∧
      ∀ txn, txn ≠ owner → s.locks.mode? txn page = none := by
  cases hf : s.table.frame? page with
  | none =>
    have hnone : s.ledger.pending page = none := pending_of_absent hf
    rw [hnone] at hp
    simp at hp
  | some f =>
    cases hd : (s.frames.page f).dirtier with
    | none =>
      have hnone : s.ledger.pending page = none := pending_of_clean hf hd
      rw [hnone] at hp
      simp at hp
    | some t =>
      have hsome : s.ledger.pending page = some (t, (s.frames.page f).block) :=
        h.pending_of_dirty hf hd
      rw [hsome] at hp
      obtain ⟨rfl, -⟩ := Prod.mk.inj (Option.some.inj hp)
      have hw := h.guarded hf hd
      refine ⟨?_, hw, fun txn hne => LockManager.mode?_of_write h.shaped.consistent hw hne⟩
      rw [h.shaped.ordered.mem, hf]
      simp

theorem Orderly.owns_eq {s : Store} (h : s.Orderly) {page : PageId} {f : FrameNo} (txn : TxnId)
    (hf : s.table.frame? page = some f) :
    s.ledger.owns txn page = ((s.frames.page f).dirtier == some txn) := by
  cases hd : (s.frames.page f).dirtier with
  | none =>
    have hp : s.ledger.pending page = none := pending_of_clean hf hd
    simp [Ledger.owns, hp]
  | some owner =>
    have hp : s.ledger.pending page = some (owner, (s.frames.page f).block) :=
      h.pending_of_dirty hf hd
    simp [Ledger.owns, hp]

/-- The pages that a transaction made dirty are those it owns, in load order. -/
theorem Orderly.dirtiedBy_pages {s : Store} (h : s.Orderly) (txn : TxnId) :
    (s.table.dirtiedBy s.frames txn).map Prod.fst = s.table.order.filter (s.ledger.owns txn) := by
  rw [← PageTable.pages_resident h.shaped.ordered, List.filter_map, PageTable.dirtiedBy]
  congr 1
  apply List.filter_congr
  intro hq hm
  obtain ⟨page, f⟩ := hq
  have hf := (PageTable.mem_resident h.shaped.ordered).mp hm
  exact (h.owns_eq txn hf).symm

theorem Orderly.mem_order_of_owns {s : Store} (h : s.Orderly) {txn : TxnId} {page : PageId} :
    page ∈ s.table.order.filter (s.ledger.owns txn) ↔ s.ledger.owns txn page = true := by
  rw [List.mem_filter]
  refine ⟨fun hm => hm.2, fun ho => ⟨?_, ho⟩⟩
  cases hp : s.ledger.pending page with
  | none => simp [Ledger.owns, hp] at ho
  | some x => exact (h.owner hp).1

/-! ## What a call does to the ledger -/

theorem Event.Seek.orderly {e : Event} {txn : TxnId} (h : e.Seek txn) (hn : ¬ e.Endless) :
    e.Orderly ∧ ¬ e.Alters ∧ ∀ l, e.book l = l := by
  cases e <;> first | exact absurd h id | exact ⟨hn, id, fun _ => rfl⟩

/-- A search is not seen in the ledger. -/
theorem Trace.sought {es : List Event} {s u : Store} (ht : Trace es s u) (h : s.Orderly)
    {txn : TxnId} (he : ∀ e ∈ es, e.Seek txn ∧ ¬ e.Endless) : u.Orderly ∧ u.ledger = s.ledger := by
  have horderly {e : Event} (hm : e ∈ es) := (he e hm).1.orderly (he e hm).2
  obtain ⟨hu, hl⟩ := ht.ledger h fun e hm => ⟨(horderly hm).1, (horderly hm).2.1⟩
  refine ⟨hu, hl.trans ?_⟩
  apply List.foldlRecOn (motive := fun l => l = s.ledger) es _ rfl
  intro l hl e hm
  rw [(horderly hm).2.2, hl]

theorem Orderly.getPage {s : Store} (h : s.Orderly) (txn : TxnId) (page : PageId)
    (access : Access) :
    (s.after (Call.getPage txn page access).run).Orderly ∧
      Ledger.Step s.table.order s.ledger (.getPage txn page access)
        ((Call.getPage txn page access).answer s)
        (s.after (Call.getPage txn page access).run).ledger := by
  have ht := getPage_traced h.shaped txn page access
  have hrun := Call.run_getPage txn page access s
  cases hg : Store.getPage txn page access s with
  | ok f u =>
    rw [hg] at hrun
    obtain ⟨⟨es, htr, he⟩, hu, hf, held, hheld, -⟩ := ht.ok hg
    obtain ⟨ho, hl⟩ := htr.sought h fun e hm => ⟨(he e hm).1.seek, (he e hm).2⟩
    -- what is shown is the latest image of the page
    obtain ⟨hfree, himage⟩ := ho.shows hf (by rw [hheld]; simp)
    have hanswer : (Call.getPage txn page access).answer s =
        .shown (.ok (s.ledger.view txn page)) := by
      rw [Call.answer, hrun, ← hl]
      exact congrArg Answer.shown himage
    rw [after_ok hrun, hanswer, hl]
    rw [hl] at hfree
    exact ⟨ho, .shown hfree⟩
  | error err u =>
    rw [hg] at hrun
    obtain ⟨es, htr, he⟩ := ht.error hg
    obtain ⟨ho, hl⟩ := htr.sought h fun e hm => ⟨(he e hm).1.seek, fetch_not_endless (he e hm).1⟩
    have hanswer : (Call.getPage txn page access).answer s = .refused err := by
      rw [Call.answer, hrun]
    rw [after_error hrun, hanswer, hl]
    exact ⟨ho, .blocked⟩

/-- A change that is registered is one of the pending image of its page. -/
theorem Orderly.changed {s : Store} (h : s.Orderly) {txn : TxnId} {e : Edit} {f : FrameNo}
    {row : Row} {p : Page} (hown : s.Owns txn f)
    (ha : e.apply (s.frames.page f) = .ok (row, p)) {u : Store}
    (hu : u = { s with
      frames := s.frames.setPage f (p.markedBy (some txn))
      table := s.table.relate txn (s.frames.page f).id }) :
    u.Orderly ∧ ∀ order, Ledger.Step order s.ledger (.edit txn e) .done u.ledger := by
  have hedit := Edit.edited_of_apply txn ha
  have hmode : s.locks.mode? txn (s.frames.page f).id ≠ none := by
    rw [hown.locked]
    simp
  obtain ⟨hfree, himage⟩ := h.shows hown.resident hmode
  have hq : p.image = .ok (p.markedBy (some txn)).block :=
    (hedit.sound (h.fits hown.resident).sound).image
  have hledger : u.ledger = s.ledger.edit txn (s.frames.page f).id (p.markedBy (some txn)).block := by
    rw [hu]
    exact h.ledger_changed hown.resident hedit
  refine ⟨?_, ?_⟩
  · have hid : (p.markedBy (some txn)).id = (s.frames.page f).id := hedit.kept.id
    -- it is the change of the frame and then the use of the page
    have hm : Move (.changed txn f) s
        { s with frames := s.frames.setPage f (p.markedBy (some txn)) } :=
      .changed (h.shaped.filed hown.resident).1 hedit fun _ => by rw [hid]; exact hown.locked
    have hm' : Move (.used txn (s.frames.page f).id)
        { s with frames := s.frames.setPage f (p.markedBy (some txn)) } u := hu ▸ .used hmode
    exact hm'.orderly (hm.orderly h id) id
  · intro order
    rw [hledger]
    exact .edited hfree himage ha hq

theorem Orderly.edit {s : Store} (h : s.Orderly) (txn : TxnId) (e : Edit)
    (hhalt : (Call.edit txn e).halts s = true) :
    (s.after (Call.edit txn e).run).Orderly ∧
      Ledger.Step s.table.order s.ledger (.edit txn e) ((Call.edit txn e).answer s)
        (s.after (Call.edit txn e).run).ledger := by
  have hrun := Call.run_edit txn e s
  have hedits := e.run_edits h.shaped txn
  generalize (e.run txn s).result = result at hedits hrun
  generalize (e.run txn s).store = v at hedits hrun
  cases hedits with
  | @changed u es f row p _ ht he hu hown ha =>
    obtain ⟨ho, hl⟩ := ht.sought h he
    obtain ⟨hv, hstep⟩ := ho.changed hown ha rfl
    have hanswer : (Call.edit txn e).answer s = .done := by
      rw [Call.answer, hrun]
    rw [after_ok hrun, hanswer, ← hl]
    exact ⟨hv, hstep s.table.order⟩
  | @failed u es err _ ht he =>
    -- the call has not failed for want of page numbers
    have hne : ∀ ev ∈ es, ev.Seek txn ∧ ¬ ev.Endless := by
      refine fun ev hm => ⟨(he ev hm).1, ?_⟩
      intro hn
      obtain ⟨table, rfl⟩ := (he ev hm).2 hn
      simp [Call.halts, hrun] at hhalt
    obtain ⟨ho, hl⟩ := ht.sought h hne
    have hanswer : (Call.edit txn e).answer s = .refused err := by
      rw [Call.answer, hrun]
    rw [after_error hrun, hanswer, hl]
    exact ⟨ho, .declined⟩

theorem foldl_visible (es : List Event) (l : Ledger) :
    (es.filter Event.Visible).foldl (fun l e => e.book l) l = es.foldl (fun l e => e.book l) l := by
  induction es generalizing l with
  | nil => rfl
  | cons e es ih =>
    rw [List.foldl_cons, ← ih, List.filter_cons]
    cases e <;> rfl

/-- A completion commits the pages that its transaction owns up to a failure, and drops the
others. -/
theorem Orderly.completed {s u : Store} (h : s.Orderly) {txn : TxnId} {commit : Bool}
    {result : Except StoreError Unit} {done rest : List (PageId × FrameNo)} {es : List Event}
    (hc : Completed txn commit s result u done rest es) :
    u.Orderly ∧ u.ledger = s.ledger.finish txn (done.map Prod.fst) := by
  have hmakes {e : Event} (hm : e ∈ es) : e.Orderly ∧ ¬ e.Alters := by
    have hmake := Call.complete_makes hc e hm
    rcases hmake with rfl | ⟨page, rfl⟩ | ⟨page, rfl⟩ | rfl <;> exact ⟨id, id⟩
  obtain ⟨hu, hl⟩ := hc.trace.ledger h fun e hm => hmakes hm
  refine ⟨hu, ?_⟩
  -- in the ledger only commits and drops of pages are seen
  have hbook : u.ledger = (rest.map Prod.fst).foldl Ledger.drop
      ((done.map Prod.fst).foldl Ledger.commit s.ledger) := by
    rw [hl, ← foldl_visible, hc.visible, List.foldl_append, List.foldl_append, List.foldl_map,
      List.foldl_map, List.foldl_map, List.foldl_map]
    rfl
  rw [hbook]
  apply Ledger.finish_of_pages
  intro q
  rw [← List.map_append, ← hc.pages, h.dirtiedBy_pages]
  exact h.mem_order_of_owns

theorem Orderly.complete {s : Store} (h : s.Orderly) (txn : TxnId) (commit : Bool) :
    (s.after (Call.complete txn commit).run).Orderly ∧
      Ledger.Step s.table.order s.ledger (.complete txn commit)
        ((Call.complete txn commit).answer s)
        (s.after (Call.complete txn commit).run).ledger := by
  obtain ⟨result, u, done, rest, ms, hc, -, -, -, -, hcomplete⟩ :=
    complete_completed h.shaped txn commit
  obtain ⟨hu, hl⟩ := h.completed hc
  have hpages : s.table.order.filter (s.ledger.owns txn) =
      done.map Prod.fst ++ rest.map Prod.fst := by
    rw [← h.dirtiedBy_pages, hc.pages, List.map_append]
  cases result with
  | ok a =>
    have hrun : (Call.complete txn commit).run s = .ok .done u := by
      rw [Call.run, bind_run, hcomplete]
      rfl
    have hanswer : (Call.complete txn commit).answer s = .done := by
      rw [Call.answer, hrun]
    rw [after_ok hrun, hanswer, hl]
    refine ⟨hu, ?_⟩
    cases commit with
    | false =>
      rw [hc.aborted rfl]
      exact .aborted
    | true =>
      -- nothing failed, so nothing was left to drop
      have hrest : rest = [] := by
        apply Decidable.byContradiction
        intro hne
        obtain ⟨err, herr⟩ := hc.failed.mpr ⟨rfl, hne⟩
        simp at herr
      rw [hrest, List.map_nil, List.append_nil] at hpages
      rw [← hpages]
      exact .committed
  | error err =>
    have hrun : (Call.complete txn commit).run s = .error err u := by
      rw [Call.run, bind_run, hcomplete]
    have hanswer : (Call.complete txn commit).answer s = .refused err := by
      rw [Call.answer, hrun]
    rw [after_error hrun, hanswer, hl]
    obtain ⟨rfl, hne⟩ := hc.failed.mp ⟨err, rfl⟩
    exact ⟨hu, .halted hpages (by simpa using hne)⟩

/-! ## Sessions -/

/-- The fetches, the changes that end other than for want of page numbers, and the
completions. -/
def Call.plain (c : Call) (s : Store) : Bool :=
  match c with
  | .getPage _ _ _ | .complete _ _ => true
  | .edit _ _ => c.halts s
  | _ => false

/-- The stores that such calls lead to from a pool over empty files. -/
inductive Session : Store → Prop
  | founded {s : Store} : s.Founded → Session s
  | call {s : Store} (c : Call) : Session s → c.plain s = true → Session (s.after c.run)

theorem Orderly.call {s : Store} (h : s.Orderly) {c : Call} (hc : c.plain s = true) :
    (s.after c.run).Orderly ∧
      Ledger.Step s.table.order s.ledger c (c.answer s) (s.after c.run).ledger := by
  cases c with
  | getPage txn page access => exact h.getPage txn page access
  | edit txn e => exact h.edit txn e hc
  | complete txn commit => exact h.complete txn commit
  | flush | flushAll | discard | release => simp [Call.plain] at hc

theorem Session.orderly {s : Store} (h : Session s) : s.Orderly := by
  induction h with
  | founded hf => exact hf.orderly
  | call c _ hc ih => exact (ih.call hc).1

end Store

end RowStore
