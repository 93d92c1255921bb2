import RowStore.Proofs.Store.Completing

/-!
  Calls — every call on the pool, and what holds in every state they lead to.

  Each call is a trace of events that only a call of its kind makes (`Call.traced`), so
  the shape of the pool is kept by all of them. A lock is lost to a completion, an early
  release, or the eviction of a clean page by one of the call's own fetches
  (`Call.keeps_lock`). `Reachable` takes in every sequence of calls in which nobody
  releases early what he has changed; `Reachable.pool_invariant` is what holds then.
-/

namespace RowStore

namespace Store

inductive Call where
  | getPage (txn : TxnId) (page : PageId) (access : Access)
  | edit (txn : TxnId) (e : Edit)
  | complete (txn : TxnId) (commit : Bool)
  | flush (txn : TxnId)
  | flushAll
  | discard (page : PageId)
  | release (txn : TxnId) (page : PageId)

/-- What a call gives to its caller. -/
inductive Reply where
  | instance (f : FrameNo)
  | done

namespace Call

/-- Runs a call to its end. -/
def run : Call → StoreM Reply
  | .getPage txn page access => do return .instance (← Store.getPage txn page access)
  | .edit txn e => fun s =>
    let o := e.run txn s
    match o.result with
    | .ok _ => .ok .done o.store
    | .error err => .error err o.store
  | .complete txn commit => do Store.complete txn commit; return .done
  | .flush txn => do Store.flush txn; return .done
  | .flushAll => do Store.flushAll; return .done
  | .discard page => do discardPage page; return .done
  | .release txn page => do releasePage txn page; return .done

/-- The events that a call can make. -/
def Makes : Call → Event → Prop
  | .getPage txn _ _, e => e.Fetch txn
  | .edit txn _, e => e.Seek txn ∨ ∃ f, e = .changed txn f
  | .complete txn _, e => e = .logged ∨ (∃ page, e = .committed txn page) ∨
      (∃ page, e = .dropped page) ∨ e = .ended txn
  | .flush _, e => e.Flush
  | .flushAll, e => e.Flush
  | .discard page, e => e = .dropped page
  | .release txn page, e => e = .released txn page

theorem after_map (x : StoreM Unit) (s : Store) :
    s.after (do x; return Reply.done) = s.after x := by
  rw [after_bind, after]
  cases x s <;> rfl

theorem run_getPage (txn : TxnId) (page : PageId) (access : Access) (s : Store) :
    (Call.getPage txn page access).run s = match Store.getPage txn page access s with
      | .ok f u => .ok (.instance f) u
      | .error err u => .error err u := by
  rw [run, bind_run]
  cases Store.getPage txn page access s <;> rfl

theorem after_getPage (txn : TxnId) (page : PageId) (access : Access) (s : Store) :
    s.after (Call.getPage txn page access).run = s.after (Store.getPage txn page access) := by
  rw [after, run_getPage, after]
  cases Store.getPage txn page access s <;> rfl

theorem run_edit (txn : TxnId) (e : Edit) (s : Store) :
    (Call.edit txn e).run s = match (e.run txn s).result with
      | .ok _ => .ok .done (e.run txn s).store
      | .error err => .error err (e.run txn s).store := rfl

theorem after_edit (txn : TxnId) (e : Edit) (s : Store) :
    s.after (Call.edit txn e).run = (e.run txn s).store := by
  have hrun := run_edit txn e s
  split at hrun
  · exact after_ok hrun
  · exact after_error hrun

/-- The events that change a page which was found and register the change. -/
theorem changed_traced {e : Edit} {txn : TxnId} {u : Store} {f : FrameNo} {row : Row} {p : Page}
    (hu : u.Shaped) (hown : u.Owns txn f) (ha : e.apply (u.frames.page f) = .ok (row, p)) :
    Trace [.changed txn f, .used txn (u.frames.page f).id] u { u with
      frames := u.frames.setPage f (p.markedBy (some txn))
      table := u.table.relate txn (u.frames.page f).id } := by
  have hedit := Edit.edited_of_apply txn ha
  have hid : (p.markedBy (some txn)).id = (u.frames.page f).id := hedit.kept.id
  refine .cons (.changed (hu.filed hown.resident).1 hedit ?_) (.single (.used ?_))
  · intro _
    rw [hid]
    exact hown.locked
  · rw [hown.locked]
    simp

/-- An answer that is put in place of another changes nothing else. -/
theorem account_map {x : StoreM Unit} {E : Event → Prop} {s : Store} {ms : List Moment}
    (h : Account x E s ms) : Account (do x; return Reply.done) E s ms := by
  have hafter := after_map x s
  have herr {err : StoreError} {u : Store} (hx : x s = .error err u) :
      (do x; return Reply.done : StoreM Reply) s = .error err u := by
    rw [bind_run, hx]
  refine ⟨hafter ▸ h.history, h.ahead, h.records, h.events, fun m hm hr => ?_,
    fun m hm he => ?_⟩
  · obtain ⟨err, hx⟩ := h.refused m hm hr
    exact ⟨err, by rw [herr hx, hafter]⟩
  · obtain ⟨table, hx⟩ := h.endless m hm he
    exact ⟨table, by rw [herr hx, hafter]⟩

theorem seek_quiet {txn : TxnId} {e : Event} (h : e.Seek txn) :
    e ≠ .logged ∧ ¬ (Act.made e).Overwrites := by
  cases e <;> first | exact h.elim | exact ⟨by simp, id⟩

theorem edit_account {s : Store} (h : s.Shaped) (txn : TxnId) (e : Edit) :
    ∃ ms, Account (Call.edit txn e).run (Call.edit txn e).Makes s ms := by
  have hrun := run_edit txn e s
  have hafter := after_edit txn e s
  have hquiet (ev : Event) (hev : (Call.edit txn e).Makes ev) :
      ev ≠ .logged ∧ ¬ (Act.made ev).Overwrites := by
    rcases hev with hseek | ⟨f, rfl⟩
    · exact seek_quiet hseek
    · exact ⟨by simp, id⟩
  have hedits := e.run_edits h txn
  generalize (e.run txn s).result = result at hedits hrun
  generalize (e.run txn s).store = v at hedits hrun hafter
  cases hedits with
  | @failed _ es err _ ht he =>
    rw [← hafter] at ht
    refine ht.account (fun ev hm => .inl (he ev hm).1) hquiet fun ev hm hn => ?_
    obtain ⟨table, rfl⟩ := (he ev hm).2 hn
    exact ⟨table, by rw [hafter]; exact hrun⟩
  | changed _ ht he hu hown ha =>
    have htrace := ht.append (changed_traced hu hown ha)
    rw [← hafter] at htrace
    refine htrace.account (fun ev hm => ?_) hquiet fun ev hm hn => ?_
    · rcases List.mem_append.mp hm with hm | hm
      · exact .inl (he ev hm).1
      · simp only [List.mem_cons, List.not_mem_nil, or_false] at hm
        rcases hm with rfl | rfl
        · exact .inr ⟨_, rfl⟩
        · exact .inl rfl
    · rcases List.mem_append.mp hm with hm | hm
      · exact absurd hn (he ev hm).2
      · simp only [List.mem_cons, List.not_mem_nil, or_false] at hm
        rcases hm with rfl | rfl <;> exact hn.elim

theorem complete_makes {txn : TxnId} {commit : Bool} {s u : Store}
    {result : Except StoreError Unit} {done rest : List (PageId × FrameNo)} {es : List Event}
    (h : Completed txn commit s result u done rest es) :
    ∀ e ∈ es, (Call.complete txn commit).Makes e := by
  intro e he
  cases hv : e.Visible with
  | false => cases e <;> simp_all [Event.Visible, Makes]
  | true =>
    have hm : e ∈ es.filter Event.Visible := List.mem_filter.mpr ⟨he, hv⟩
    rw [h.visible] at hm
    simp only [List.mem_append, List.mem_map, List.mem_singleton] at hm
    rcases hm with (⟨x, -, rfl⟩ | ⟨x, -, rfl⟩) | rfl
    · exact .inr (.inl ⟨_, rfl⟩)
    · exact .inr (.inr (.inl ⟨_, rfl⟩))
    · exact .inr (.inr (.inr rfl))

theorem complete_account {s : Store} (h : s.Shaped) (txn : TxnId) (commit : Bool) :
    ∃ ms, Account (Store.complete txn commit) (Call.complete txn commit).Makes s ms := by
  obtain ⟨result, u, done, rest, ms, hc, hhistory, hahead, hrecords, hrefused, hrun⟩ :=
    complete_completed h txn commit
  have hu : s.after (Store.complete txn commit) = u := by
    unfold after
    rw [hrun]
    cases result <;> rfl
  have hmakes m (hm : m ∈ ms) : (Call.complete txn commit).Makes m.act.event :=
    complete_makes hc _ (List.mem_map_of_mem hm)
  refine ⟨ms, hu ▸ hhistory, hahead, hrecords, hmakes, fun m hm hr => ?_, fun m hm he => ?_⟩
  · obtain ⟨err, rfl⟩ := hrefused ⟨m, hm, hr⟩
    exact ⟨err, by rw [hu]; exact hrun⟩
  · have hmake := hmakes m hm
    generalize m.act.event = e at hmake he
    rcases hmake with rfl | ⟨q, rfl⟩ | ⟨q, rfl⟩ | rfl <;> exact he.elim

/-- Every call has an account, whatever comes of it. -/
theorem accounted {s : Store} (h : s.Shaped) (c : Call) : ∃ ms, Account c.run c.Makes s ms := by
  cases c with
  | getPage txn page access =>
    have ht := (getPage_traced h txn page access).bind
      fun f u hq => Traced.pure (a := Reply.instance f) (Q := fun _ _ => True) trivial
    exact ht.account fun e he => seek_quiet he.seek
  | edit txn e => exact edit_account h txn e
  | complete txn commit =>
    obtain ⟨ms, hms⟩ := complete_account h txn commit
    exact ⟨ms, account_map hms⟩
  | flush txn =>
    obtain ⟨ms, hms⟩ := flush_account h txn
    exact ⟨ms, account_map hms⟩
  | flushAll =>
    obtain ⟨ms, hms⟩ := flushAll_account h
    exact ⟨ms, account_map hms⟩
  | discard page =>
    have ht : Trace [.dropped page] s (s.after (Call.discard page).run) := .single .dropped
    refine ht.account (fun e he => List.mem_singleton.mp he) ?_ (by simp [Event.Endless])
    intro e he
    rw [show e = .dropped page from he]
    exact ⟨by simp, id⟩
  | release txn page =>
    have ht : Trace [.released txn page] s (s.after (Call.release txn page).run) :=
      .single .released
    refine ht.account (fun e he => List.mem_singleton.mp he) ?_ (by simp [Event.Endless])
    intro e he
    rw [show e = .released txn page from he]
    exact ⟨by simp, id⟩

/-- A call is a trace of its own events. -/
theorem traced {s : Store} (h : s.Shaped) (c : Call) :
    ∃ es, Trace es s (s.after c.run) ∧ ∀ e ∈ es, c.Makes e := by
  obtain ⟨ms, hms⟩ := c.accounted h
  refine ⟨_, hms.history.trace, ?_⟩
  intro e he
  obtain ⟨m, hm, rfl⟩ := List.mem_map.mp he
  exact hms.events m hm

theorem shaped {s : Store} (h : s.Shaped) (c : Call) : (s.after c.run).Shaped := by
  obtain ⟨es, ht, -⟩ := c.traced h
  exact ht.shaped h

/-- A transaction releases early only what it has not changed. -/
def Allowed (c : Call) (s : Store) : Prop :=
  ∀ txn page f, c = .release txn page → s.table.frame? page = some f →
    (s.frames.page f).dirtier ≠ some txn

theorem guarded {s : Store} (h : s.Shaped) (hg : s.Guarded) {c : Call} (ha : c.Allowed s) :
    (s.after c.run).Guarded := by
  by_cases hr : ∃ txn page, c = .release txn page
  · obtain ⟨txn, page, rfl⟩ := hr
    have hm : Move (.released txn page) s (s.after (Call.release txn page).run) := .released
    apply hm.guarded h hg
    intro hq
    obtain ⟨f, hf, hd⟩ := hq
    exact ha txn page f rfl hf hd
  · obtain ⟨es, ht, he⟩ := c.traced h
    have hboth := ht.induct (P := fun u => u.Shaped ∧ u.Guarded) ?_ ⟨h, hg⟩
    · exact hboth.2
    · intro e hm v w hmove hv
      refine ⟨hmove.shaped hv.1, hmove.guarded hv.1 hv.2 fun hu => hr ?_⟩
      have hmake := he e hm
      cases e <;> simp only [Event.Unguards] at hu
      cases c <;> simp [Makes, Event.Fetch, Event.Seek, Event.Flush] at hmake ⊢

end Call

/-! ## The fetches of a call -/

end Store

/-- The fetches of an insertion that looks for room, with the stores before and after
each. -/
inductive Insertion.Fetches : Insertion → Store → Store → Store → Prop
  | here {i : Insertion} {s : Store} : Fetches i s s (s.after i.fetch)
  | later {i j : Insertion} {f : FrameNo} {s u v w : Store} : i.fetch s = .ok (f, j) u →
    (u.frames.page f).hasRoom = false → Fetches j u v w → Fetches i s v w

namespace Store

/-- The fetches of a call, with the stores before and after each. -/
inductive Call.Fetches : Call → Store → Store → Store → Prop
  | getPage {txn : TxnId} {page : PageId} {access : Access} {s : Store} :
    Fetches (.getPage txn page access) s s (s.after (Store.getPage txn page access))
  | insertion {txn : TxnId} {table : TableId} {row : Row} {k : HandleNo} {i : Insertion}
    {s u v : Store} : tableFile table s = .ok k s → Insertion.start k txn row s = .ok i s →
    i.Fetches s u v → Fetches (.edit txn (.insertion table row)) s u v
  | deletion {txn : TxnId} {row : Row} {record : RecordId} {k : HandleNo} {s : Store} :
    recordOf row s = .ok record s → tableFile record.page.table s = .ok k s →
    Fetches (.edit txn (.deletion row)) s s (s.after (fetchForDelete k txn row))

end Store

namespace Insertion

open Store

theorem growOnce_after (i : Insertion) (s : Store) : Grown s (s.after i.growOnce) := by
  rcases growOnce_cases i s with ⟨e, -, hi⟩ | ⟨id, u, ha, hi⟩
  · rw [after_error hi]
    exact .refl s
  · rw [after_ok hi]
    exact grown_of_allocate ha

theorem grow_after (i : Insertion) (s : Store) : Grown s (s.after i.grow) := by
  have hone := growOnce_after i s
  have hrun := grow_run i s
  cases hi : i.growOnce s with
  | error e u =>
    rw [hi] at hrun
    rw [after_error hi] at hone
    rw [after_error hrun]
    exact hone
  | ok j u =>
    rw [hi] at hrun
    rw [after_ok hi] at hone
    simp only at hrun
    split at hrun
    · rw [after_ok hrun]
      exact hone
    · have htwo := growOnce_after j u
      cases hj : j.growOnce u with
      | error e v =>
        rw [hj] at hrun
        rw [after_error hj] at htwo
        rw [after_error hrun]
        exact hone.trans htwo
      | ok l v =>
        rw [hj] at hrun
        rw [after_ok hj] at htwo
        simp only at hrun
        split at hrun
        · rw [after_ok hrun]
          exact hone.trans htwo
        · rw [after_error hrun]
          exact hone.trans htwo

/-- The part of a fetch that comes after the file was grown, if it had to be. -/
def reach (j : Insertion) : StoreM (FrameNo × Insertion) := do
  let h ← heapFile j.handle
  let f ← getPage j.txn ⟨h.table, j.next⟩ .write
  return (f, { j with next := j.next + 1 })

theorem reach_after (j : Insertion) (s : Store) :
    s.after j.reach = s.after (getPage j.txn ⟨(s.heap j.handle).table, j.next⟩ .write) := by
  unfold reach
  rw [after_bind, heapFile_run]
  simp only
  rw [after_bind, after]
  cases getPage j.txn ⟨(s.heap j.handle).table, j.next⟩ .write s <;> rfl

theorem fetch_keeps {s : Store} (h : s.Shaped) (i : Insertion) (u : TxnId) (q : PageId) :
    KeepsLock u q s (s.after i.fetch) ∨ Swept q s (s.after i.fetch) := by
  have hgrow (x : StoreM Insertion) (hx : Grown s (s.after x)) :
      KeepsLock u q s (s.after (x >>= reach)) ∨ Swept q s (s.after (x >>= reach)) := by
    rw [after_bind]
    cases hxs : x s with
    | error e v =>
      rw [after_error hxs] at hx
      exact .inl (.of_eq (by rw [hx.locks]))
    | ok j v =>
      rw [after_ok hxs] at hx
      simp only [reach_after]
      rcases getPage_keeps (hx.shaped h) j.txn u ⟨(v.heap j.handle).table, j.next⟩ q .write with
        hk | ⟨f, hf, hd, hn⟩
      · exact .inl (KeepsLock.trans (.of_eq (by rw [hx.locks])) hk)
      · exact .inr ⟨f, hx.table ▸ hf, hx.frames ▸ hd, hn⟩
  have hrun : s.after i.fetch =
      s.after ((if i.next < i.stop then pure i else i.grow) >>= reach) := by
    rw [after, after, fetch_run]
    rfl
  rw [hrun]
  apply hgrow _
  split
  · exact .refl s
  · exact grow_after i s

theorem seek_keeps {s : Store} {i : Insertion} {table : TableId} (h : s.Shaped)
    (hk : s.handle? table = some i.handle) (fuel : Nat) (u : TxnId) (q : PageId) :
    KeepsLock u q s (s.after (i.seek (fun _ => false) fuel)) ∨
      ∃ v w, i.Fetches s v w ∧ Swept q v w := by
  induction fuel generalizing i s with
  | zero => exact .inl (.of_eq rfl)
  | succ fuel ih =>
    rcases fetch_keeps h i u q with hkeep | hs
    · unfold after at hkeep ⊢
      rw [seek_run]
      cases hf : i.fetch s with
      | error e v => rw [hf] at hkeep; exact .inl hkeep
      | ok r v =>
        rw [hf] at hkeep
        obtain ⟨f, j⟩ := r
        obtain ⟨⟨es, htr, -⟩, hsame, hv, -⟩ := (fetch_traced h hk).ok hf
        simp only [Bool.false_or]
        cases hroom : (v.frames.page f).hasRoom with
        | true => exact .inl hkeep
        | false =>
          have hk' : v.handle? table = some j.handle := by
            rw [htr.handle? table, hk, hsame.handle]
          rcases ih hv hk' with hrest | ⟨w, w', hfetch, hs⟩
          · exact .inl (hkeep.trans hrest)
          · exact .inr ⟨w, w', .later hf hroom hfetch, hs⟩
    · exact .inr ⟨_, _, .here, hs⟩

end Insertion

namespace Store

theorem insertion_keeps {s : Store} (h : s.Shaped) (table : TableId) (row : Row) (txn u : TxnId)
    (q : PageId) :
    KeepsLock u q s (s.after ((Edit.insertion table row).search txn)) ∨
      ∃ v w, (Call.edit txn (.insertion table row)).Fetches s v w ∧ Swept q v w := by
  rw [Edit.search]
  rcases tableFile_cases s table with ⟨err, htable⟩ | ⟨k, hk, htable⟩
  · rw [after_bind_error htable]
    exact .inl (.of_eq rfl)
  rw [after_bind_ok htable]
  rcases Insertion.start_cases s k txn row with ⟨err, hi⟩ | ⟨i, hi, hhandle, -⟩
  · rw [after_bind_error hi]
    exact .inl (.of_eq rfl)
  have hafter : s.after i.find = s.after (i.seek (fun _ => false) pageNumbers) := by
    rw [Insertion.find, after_bind, after]
    cases i.seek (fun _ => false) pageNumbers s <;> rfl
  rw [after_bind_ok hi, hafter]
  have hseek := i.seek_keeps h (hk.trans (congrArg some hhandle.symm)) pageNumbers u q
  rcases hseek with hkeep | ⟨v, w, hf, hs⟩
  · exact .inl hkeep
  · exact .inr ⟨v, w, .insertion htable hi hf, hs⟩

theorem deletion_keeps {s : Store} (h : s.Shaped) (row : Row) (txn u : TxnId) (q : PageId) :
    KeepsLock u q s (s.after ((Edit.deletion row).search txn)) ∨
      ∃ v w, (Call.edit txn (.deletion row)).Fetches s v w ∧ Swept q v w := by
  rw [Edit.search]
  rcases recordOf_cases row s with ⟨err, hrecord⟩ | ⟨record, hrecord⟩
  · rw [after_bind_error hrecord]
    exact .inl (.of_eq rfl)
  rw [after_bind_ok hrecord]
  rcases tableFile_cases s record.page.table with ⟨err, htable⟩ | ⟨k, -, htable⟩
  · rw [after_bind_error htable]
    exact .inl (.of_eq rfl)
  rw [after_bind_ok htable]
  have hfetch : (Call.edit txn (.deletion row)).Fetches s s
      (s.after (fetchForDelete k txn row)) := .deletion hrecord htable
  have hkeeps : KeepsLock u q s (s.after (fetchForDelete k txn row)) ∨
      Swept q s (s.after (fetchForDelete k txn row)) := by
    unfold fetchForDelete
    rw [after_bind_ok hrecord, after_bind_ok (heapFile_run s k)]
    split
    · exact .inl (.of_eq rfl)
    · exact getPage_keeps h txn u record.page q .write
  rcases hkeeps with hkeep | hs
  · exact .inl hkeep
  · exact .inr ⟨_, _, hfetch, hs⟩

theorem search_keeps {s : Store} (h : s.Shaped) (e : Edit) (txn u : TxnId) (q : PageId) :
    KeepsLock u q s (s.after (e.search txn)) ∨
      ∃ v w, (Call.edit txn e).Fetches s v w ∧ Swept q v w := by
  cases e with
  | insertion table row => exact insertion_keeps h table row txn u q
  | deletion row => exact deletion_keeps h row txn u q

theorem edit_keeps {s : Store} (h : s.Shaped) (e : Edit) (txn u : TxnId) (q : PageId) :
    KeepsLock u q s (e.run txn s).store ∨
      ∃ v w, (Call.edit txn e).Fetches s v w ∧ Swept q v w := by
  have hlocks : (e.run txn s).store.locks = (s.after (e.search txn)).locks := by
    have hedits := e.run_edits h txn
    generalize (e.run txn s).result = result at hedits
    generalize (e.run txn s).store = v at hedits
    cases hedits with
    | failed hv => rw [hv]
    | changed hv => rw [after, hv]
  refine (search_keeps h e txn u q).imp (?_) id
  intro hk
  exact hk.trans (.of_eq (by rw [hlocks]))

/-- The only ways to lose a lock. -/
theorem Call.keeps_lock {s : Store} (h : s.Shaped) (c : Call) (txn : TxnId) (page : PageId) :
    KeepsLock txn page s (s.after c.run) ∨ (∃ commit, c = .complete txn commit) ∨
      c = .release txn page ∨ ∃ u v, c.Fetches s u v ∧ Swept page u v := by
  -- without an event that takes it away the lock is kept step by step
  have hkept (hn : ∀ e, c.Makes e → ¬ e.Strips txn page) :
      KeepsLock txn page s (s.after c.run) := by
    obtain ⟨es, ht, he⟩ := c.traced h
    have hboth := ht.induct (P := fun u => u.Shaped ∧ KeepsLock txn page s u) ?_
      ⟨h, .of_eq rfl⟩
    · exact hboth.2
    · intro e hm v w hmove hv
      refine ⟨hmove.shaped hv.1, hv.2.trans ?_⟩
      intro access ha
      exact hmove.lock_kept hv.1 ha (hn e (he e hm))
  cases c with
  | getPage t p access =>
    have hafter : s.after (Call.getPage t p access).run = s.after (Store.getPage t p access) := by
      rw [Call.run, after_bind, after]
      cases Store.getPage t p access s <;> rfl
    rw [hafter]
    exact (getPage_keeps h t txn p page access).imp id fun hs => .inr (.inr ⟨_, _, .getPage, hs⟩)
  | edit t e =>
    rw [Call.after_edit]
    exact (edit_keeps h e t txn page).imp id fun hs => .inr (.inr hs)
  | complete t commit =>
    by_cases ht : t = txn
    · exact .inr (.inl ⟨commit, by rw [ht]⟩)
    · refine .inl (hkept fun e he hs => ht ?_)
      rcases he with rfl | ⟨p, rfl⟩ | ⟨p, rfl⟩ | rfl <;> simp_all [Event.Strips]
  | flush t =>
    refine .inl (hkept ?_)
    intro e he hs
    cases e <;> simp_all [Event.Strips, Call.Makes, Event.Flush]
  | flushAll =>
    refine .inl (hkept ?_)
    intro e he hs
    cases e <;> simp_all [Event.Strips, Call.Makes, Event.Flush]
  | discard p =>
    refine .inl (hkept ?_)
    intro e he hs
    cases e <;> simp_all [Event.Strips, Call.Makes]
  | release t p =>
    by_cases ht : t = txn ∧ p = page
    · exact .inr (.inr (.inl (by rw [ht.1, ht.2])))
    · refine .inl (hkept fun e he hs => ht ?_)
      obtain rfl : e = .released t p := he
      simpa [Event.Strips] using hs

/-! ## Reachable states -/

/-- Two stores with the same pool, whatever files, catalog and log are like. -/
structure SamePool (s s' : Store) : Prop where
  table : s'.table = s.table
  locks : s'.locks = s.locks
  frames : s'.frames = s.frames
  maxPages : s'.maxPages = s.maxPages

/-- The states that calls lead to from an unused pool, if files, catalog and log may
change in any way between two calls. -/
inductive Reachable : Store → Prop
  | unused {s : Store} : s.Unused → Reachable s
  | call {s : Store} (c : Call) : Reachable s → c.Allowed s → Reachable (s.after c.run)
  | outside {s s' : Store} : Reachable s → SamePool s s' → Reachable s'

theorem Reachable.sound {s : Store} (h : Reachable s) : s.Shaped ∧ s.Guarded := by
  induction h with
  | unused hu => exact ⟨hu.shaped, hu.guarded⟩
  | call c _ ha ih => exact ⟨c.shaped ih.1, Call.guarded ih.1 ih.2 ha⟩
  | outside _ hp ih =>
    exact ⟨ih.1.congr hp.table hp.locks hp.frames hp.maxPages,
      Guarded.congr ih.2 hp.table hp.locks hp.frames⟩

/-- In every state that calls lead to: the pool is not over its bound, every instance is
filed under the id that it carries, a page that a transaction made dirty is locked for
writing by it and held by nobody else, whoever is associated with a page has it locked,
and no call takes a lock away but to complete, to release early, or by evicting a clean
page. -/
theorem Reachable.pool_invariant {s : Store} (h : Reachable s) :
    s.table.resident.length ≤ s.maxPages ∧
    (∀ page f, (page, f) ∈ s.table.resident → (s.frames.page f).id = page) ∧
    (∀ page f txn, (page, f) ∈ s.table.resident → (s.frames.page f).dirtier = some txn →
      s.locks.mode? txn page = some .write ∧ s.locks.holdersOf page = [txn] ∧
        ∀ u, u ≠ txn → s.locks.mode? u page = none) ∧
    (∀ txn page, page ∈ s.table.relation.pages.members txn ∨
      txn ∈ s.table.relation.txns.members page → s.locks.mode? txn page ≠ none) ∧
    ∀ (c : Call) txn page access, s.locks.mode? txn page = some access →
      (∃ access', (s.after c.run).locks.mode? txn page = some access' ∧
        access'.covers access = true) ∨
      (∃ commit, c = .complete txn commit) ∨ c = .release txn page ∨
      ∃ u v f, c.Fetches s u v ∧ u.table.frame? page = some f ∧
        (u.frames.page f).dirtier = none ∧ v.table.frame? page = none := by
  obtain ⟨hs, hg⟩ := h.sound
  refine ⟨?_, ?_, ?_, ?_, ?_⟩
  · have hlen : s.table.resident.length = s.table.order.length := by
      rw [← PageTable.pages_resident hs.ordered, List.length_map]
    rw [hlen, ← hs.ordered.size]
    exact hs.bounded
  · intro page f hm
    exact (hs.filed ((PageTable.mem_resident hs.ordered).mp hm)).2
  · intro page f txn hm hd
    have hw := hg ((PageTable.mem_resident hs.ordered).mp hm) hd
    exact ⟨hw, LockManager.holdersOf_of_write hs.consistent hw,
      fun u hu => LockManager.mode?_of_write hs.consistent hw hu⟩
  · intro txn page hm
    apply hs.held
    rcases hm with hm | hm
    · exact hm
    · exact (hs.paired txn page).mpr hm
  · intro c txn page access ha
    rcases c.keeps_lock hs txn page with hk | hc | hr | ⟨u, v, hf, f, hp, hd, hn⟩
    · exact .inl (hk access ha)
    · exact .inr (.inl hc)
    · exact .inr (.inr (.inl hr))
    · exact .inr (.inr (.inr ⟨u, v, f, hf, hp, hd, hn⟩))

/-! ## A small store -/

/-- Rows of one integer. -/
def numbers : Schema := ⟨[⟨"n", .integer, false⟩]⟩

def number (n : Int32) : Row := .ofFields numbers fun _ => .integer n

/-- A store with one table of empty pages. -/
def sample (maxPages pages : Nat) : Store :=
  { new maxPages .keeping with
    volume := ⟨[], 1, #[⟨128 * pages, []⟩]⟩
    opened := [0]
    handles := #[⟨1, 0, ["numbers"], numbers, 128, 0, 0⟩]
    catalog := Catalog.empty.add ⟨0, 1⟩ "numbers" "n" }

/-- A store with one table of empty pages for rows of a schema. -/
def sampleOf (schema : Schema) (maxPages pages : Nat) : Store :=
  { sample maxPages pages with handles := #[⟨1, 0, ["numbers"], schema, 128, 0, 0⟩] }

theorem unused_sample (maxPages pages : Nat) : (sample maxPages pages).Unused := ⟨rfl, rfl, rfl⟩

/-- After an insertion the page that took the row is dirty, and locked by nobody else. -/
theorem Reachable.pool_invariant_inserted :
    let s := (sample 1 0).after (Call.edit ⟨1⟩ (.insertion 1 (number 7))).run
    s.table.resident = [(⟨1, 0⟩, 0)] ∧ (s.frames.page 0).dirtier = some ⟨1⟩ ∧
      s.locks.mode? ⟨1⟩ ⟨1, 0⟩ = some .write ∧ s.locks.holdersOf ⟨1, 0⟩ = [⟨1⟩] := by
  intro s
  have hs : Reachable s := .call _ (.unused (unused_sample 1 0)) (by simp [Call.Allowed])
  have hres : s.table.resident = [(⟨1, 0⟩, 0)] := rfl
  have hd : (s.frames.page 0).dirtier = some ⟨1⟩ := rfl
  obtain ⟨hw, hh, -⟩ := hs.pool_invariant.2.2.1 ⟨1, 0⟩ 0 ⟨1⟩ (by rw [hres]; simp) hd
  exact ⟨hres, hd, hw, hh⟩

end Store

end RowStore
