import RowStore.Lock.Section

/-!
  Calls that run alone — what a whole call does when no other thread comes between.

  Seen through `LockSystem.manager`, all sections of a call together are one
  operation of the lock manager (`manager_lockAlone`, `manager_releaseAlone`,
  `manager_stripAlone`): a request whose wait runs out changes nothing, and it does
  not show whether a record was reclaimed.
-/

namespace RowStore

/-! ## Records -/

theorem LockRecord.isIdle_iff {r : LockRecord} : r.isIdle = true ↔ r = .idle := by
  cases r
  simp [isIdle, idle, and_comm]

namespace LockSystem

/-- Every record in the table was made, and is filed under one page. -/
structure Filed (s : LockSystem) : Prop where
  made : ∀ {page : PageId} {no : RecordNo}, s.table[page]? = some no → no < s.records.size
  once : ∀ {p q : PageId} {no : RecordNo},
    s.table[p]? = some no → s.table[q]? = some no → p = q

/-- Runs at most `n` sections of one thread; a wait is over when it begins. -/
def runOnly (i : Nat) : Nat → LockSystem → LockSystem
  | 0, s => s
  | n + 1, s => ((s.run i true).map (runOnly i n)).getD s

/-- A call of thread `i` from its beginning to its end. No call has more than five
sections when its wait is over at once. -/
def alone (s : LockSystem) (i : Nat) (page : PageId) (call : PageCall) : LockSystem :=
  runOnly i 5 (s.setThread i [.start page call])

/-! ## What the sections do to the manager -/

theorem manager_getElem? (s : LockSystem) (page : PageId) :
    s.manager.records[page]? =
      s.table[page]?.bind fun no =>
        if (s.record no).isIdle then none else some (s.record no) :=
  Std.ExtTreeMap.getElem?_filterMap'

@[simp] theorem manager_setThread (s : LockSystem) (i : Nat) (t : Thread) :
    (s.setThread i t).manager = s.manager := rfl

theorem manager_ext {m n : LockManager} (hr : ∀ page : PageId, m.records[page]? = n.records[page]?)
    (hh : m.held = n.held) : m = n := by
  cases m
  cases n
  simp only [LockManager.mk.injEq]
  exact ⟨Std.ExtTreeMap.ext_getElem? hr, hh⟩

theorem manager_record {s : LockSystem} {page : PageId} {no : RecordNo}
    (h : s.table[page]? = some no) : s.manager.record page = s.record no := by
  rw [LockManager.record, Std.ExtTreeMap.getD_eq_getD_getElem?, manager_getElem?, h,
    Option.bind_some]
  split
  · rename_i hi
    exact (LockRecord.isIdle_iff.mp hi).symm
  · rfl

theorem manager_record_none {s : LockSystem} {page : PageId} (h : s.table[page]? = none) :
    s.manager.record page = .idle := by
  rw [LockManager.record, Std.ExtTreeMap.getD_eq_getD_getElem?, manager_getElem?, h]
  rfl

theorem record_setRecord {s : LockSystem} {no : RecordNo} (h : no < s.records.size)
    (r : LockRecord) (k : RecordNo) :
    (s.setRecord no r).record k = if k = no then r else s.record k := by
  by_cases hk : k = no
  · subst hk
    simp [record, setRecord, h]
  · simp [record, setRecord, hk, Array.getD_eq_getD_getElem?,
      Array.getElem?_setIfInBounds_ne (Ne.symm hk)]

theorem manager_setRecord {s : LockSystem} (hf : s.Filed) {page : PageId} {no : RecordNo}
    (h : s.table[page]? = some no) (r : LockRecord) :
    (s.setRecord no r).manager = s.manager.setRecord page r := by
  refine manager_ext (?_) rfl
  intro p
  rw [manager_getElem?, LockManager.setRecord]
  show s.table[p]?.bind _ = _
  by_cases hp : p = page
  · subst hp
    simp only [h, Option.bind_some, record_setRecord (hf.made h), if_true]
    split <;> simp
  · have hne : compare page p ≠ .eq := fun e => hp (Std.LawfulEqOrd.eq_of_compare e).symm
    have hs : s.manager.records[p]? =
        s.table[p]?.bind fun k =>
          if ((s.setRecord no r).record k).isIdle then none
          else some ((s.setRecord no r).record k) := by
      rw [manager_getElem?]
      cases hk : s.table[p]? with
      | none => rfl
      | some k =>
        have hkn : k ≠ no := fun e => hp (hf.once hk (e ▸ h))
        simp [record_setRecord (hf.made h), hkn]
    split <;> simp [Std.ExtTreeMap.getElem?_erase, Std.ExtTreeMap.getElem?_insert, hne, hs]

theorem manager_grant? {s : LockSystem} (hf : s.Filed) {page : PageId} {no : RecordNo}
    (h : s.table[page]? = some no) (txn : TxnId) (access : Access) :
    (s.grant? page no txn access).map manager = s.manager.acquire? txn page access := by
  simp only [grant?, LockManager.acquire?, manager_record h, Option.map_map]
  cases hg : (s.record no).grant? txn access with
  | none => rfl
  | some r =>
    simp only [Option.map_some, Function.comp_apply, Option.some.injEq]
    exact congrArg (fun m : LockManager =>
      { m with held := s.held.note txn page ((r.mode? txn).getD access) })
      (manager_setRecord hf h r)

theorem manager_release {s : LockSystem} (hf : s.Filed) {page : PageId} {no : RecordNo}
    (h : s.table[page]? = some no) (txn : TxnId) :
    (s.release page no txn).manager = s.manager.release txn page := by
  simp only [release, LockManager.release, manager_record h]
  split
  · exact congrArg (fun m : LockManager => { m with held := s.held.forget txn page })
      (manager_setRecord hf h _)
  · rfl

theorem manager_strip {s : LockSystem} (hf : s.Filed) {page : PageId} {no : RecordNo}
    (h : s.table[page]? = some no) : (s.strip page no).manager = s.manager.releasePage page := by
  simp only [strip, LockManager.releasePage, LockManager.holdersOf, manager_record h]
  exact congrArg (fun m : LockManager => { m with
    held := (s.record no).holders.foldl (fun held txn => held.forget txn page) s.held })
    (manager_setRecord hf h .idle)

theorem manager_reclaim (s : LockSystem) (page : PageId) (no : RecordNo) :
    (s.reclaim page no).manager = s.manager := by
  unfold reclaim
  split
  · rename_i h
    refine manager_ext (?_) rfl
    intro p
    rw [manager_getElem?, manager_getElem?]
    show (s.table.erase page)[p]?.bind _ = _
    by_cases hp : p = page
    · subst hp
      simp only [Std.ExtTreeMap.getElem?_erase_self, Option.bind_none, h.2.2, Option.bind_some]
      simp [h.2.1]
    · have hne : compare page p ≠ .eq := fun e => hp (Std.LawfulEqOrd.eq_of_compare e).symm
      simp [Std.ExtTreeMap.getElem?_erase, hne]
      rfl
  · rfl

theorem fetchRecord_table (s : LockSystem) (page : PageId) :
    (s.fetchRecord page).2.table[page]? = some (s.fetchRecord page).1 := by
  unfold fetchRecord
  split
  · rename_i h
    exact h
  · exact Std.ExtTreeMap.getElem?_insert_self

theorem fetchRecord_filed {s : LockSystem} (hf : s.Filed) (page : PageId) :
    (s.fetchRecord page).2.Filed := by
  unfold fetchRecord
  split
  · exact hf
  · rename_i h
    have look (p : PageId) (no : RecordNo)
        (hp : (s.table.insert page s.records.size)[p]? = some no) :
        (p = page ∧ no = s.records.size) ∨ (p ≠ page ∧ s.table[p]? = some no) := by
      by_cases e : p = page
      · subst e
        rw [Std.ExtTreeMap.getElem?_insert_self] at hp
        exact .inl ⟨rfl, (Option.some.inj hp).symm⟩
      · have hne : compare page p ≠ .eq := fun c => e (Std.LawfulEqOrd.eq_of_compare c).symm
        rw [Std.ExtTreeMap.getElem?_insert, if_neg hne] at hp
        exact .inr ⟨e, hp⟩
    constructor
    · intro p no hp
      show no < (s.records.push .idle).size
      rw [Array.size_push]
      rcases look p no hp with ⟨-, rfl⟩ | ⟨-, hp'⟩
      · exact Nat.lt_succ_self _
      · exact Nat.lt_succ_of_lt (hf.made hp')
    · intro p q no hp hq
      rcases look p no hp with ⟨rfl, rfl⟩ | ⟨-, hp'⟩ <;>
        rcases look q _ hq with ⟨rfl, hn⟩ | ⟨-, hq'⟩
      · rfl
      · exact absurd (hf.made hq') (Nat.lt_irrefl _)
      · exact absurd (hn ▸ hf.made hp') (Nat.lt_irrefl _)
      · exact hf.once hp' hq'

theorem manager_fetchRecord {s : LockSystem} (hf : s.Filed) (page : PageId) :
    (s.fetchRecord page).2.manager = s.manager := by
  unfold fetchRecord
  split
  · rfl
  · rename_i h
    refine manager_ext (?_) rfl
    intro p
    rw [manager_getElem?, manager_getElem?]
    show (s.table.insert page s.records.size)[p]?.bind _ = _
    by_cases hp : p = page
    · subst hp
      simp [h, record, LockRecord.isIdle_iff]
    · have hne : compare page p ≠ .eq := fun e => hp (Std.LawfulEqOrd.eq_of_compare e).symm
      rw [Std.ExtTreeMap.getElem?_insert, if_neg hne]
      cases hk : s.table[p]? with
      | none => rfl
      | some k =>
        have hlt := hf.made hk
        simp [record, Array.getD_eq_getD_getElem?, Array.getElem?_push, Nat.ne_of_lt hlt]

/-! ## Whole calls -/

theorem run_setThread {s : LockSystem} {i : Nat} (hi : i < s.threads.length) (work : Work)
    (waitOver : Bool) :
    (s.setThread i [work]).run i waitOver =
      let r := match work with
        | .start page call => (s.setThread i [work]).enter page call
        | .going now => (s.setThread i [work]).proceed now waitOver
      some (r.1.setThread i (r.2.map Work.going).toList) := by
  have h : (s.setThread i [work]).threads[i]? = some [work] := by simp [setThread, hi]
  cases work <;> simp [run, h]

theorem setThread_setThread (s : LockSystem) (i : Nat) (t u : Thread) :
    (s.setThread i t).setThread i u = s.setThread i u := by
  simp [setThread]

/-- The last section of a call, and nothing after it. -/
theorem runOnly_leaving {s : LockSystem} {i : Nat} (hi : i < s.threads.length) {now : InFlight}
    (h : now.stage = .leaving) (n : Nat) :
    runOnly i (n + 1) (s.setThread i [.going now]) = s.setThread i [] := by
  rw [runOnly, run_setThread hi]
  have hr : ((s.setThread i []).run i true) = none := by simp [run, setThread, hi]
  cases n with
  | zero => simp [proceed, h, setThread_setThread, runOnly]
  | succ n => simp [proceed, h, setThread_setThread, runOnly, hr]

theorem Filed.setThread {s : LockSystem} (hf : s.Filed) (i : Nat) (t : Thread) :
    (s.setThread i t).Filed := ⟨hf.made, hf.once⟩

theorem threads_fetchRecord (s : LockSystem) (page : PageId) :
    (s.fetchRecord page).2.threads = s.threads := by
  unfold fetchRecord
  split <;> rfl

theorem threads_of_grant? {s s' : LockSystem} {page : PageId} {no : RecordNo} {txn : TxnId}
    {access : Access} (h : s.grant? page no txn access = some s') : s'.threads = s.threads := by
  obtain ⟨r, -, rfl⟩ := Option.map_eq_some_iff.mp h
  rfl

theorem threads_release (s : LockSystem) (page : PageId) (no : RecordNo) (txn : TxnId) :
    (s.release page no txn).threads = s.threads := by
  unfold release
  split <;> rfl

theorem threads_reclaim (s : LockSystem) (page : PageId) (no : RecordNo) :
    (s.reclaim page no).threads = s.threads := by
  unfold reclaim
  split <;> rfl

/-- The last two sections of a call that may leave its page idle. -/
theorem manager_runOnly_reclaiming {s : LockSystem} {i : Nat} (hi : i < s.threads.length)
    {now : InFlight} (h : now.stage = .reclaiming) (n : Nat) :
    (runOnly i (n + 2) (s.setThread i [.going now])).manager = s.manager := by
  have hl : i < ((s.setThread i [.going now]).reclaim now.page now.record).threads.length := by
    simp [threads_reclaim, setThread, hi]
  rw [runOnly, run_setThread hi]
  simp only [proceed, h, Option.map_some, Option.toList_some, Option.getD_some]
  rw [runOnly_leaving hl rfl, manager_setThread, manager_reclaim, manager_setThread]

/-- A request that runs alone is granted if the lock manager can grant it and changes
nothing otherwise. -/
theorem manager_lockAlone {s : LockSystem} (hf : s.Filed) {i : Nat} (hi : i < s.threads.length)
    (page : PageId) (txn : TxnId) (access : Access) :
    (s.alone i page (.lock txn access)).manager =
      (s.manager.acquire? txn page access).getD s.manager := by
  rw [alone, runOnly, run_setThread hi]
  simp only [enter, Option.map_some, Option.toList_some, Option.getD_some]
  generalize hs₀ : s.setThread i [.start page (.lock txn access)] = s₀
  have hm : (s₀.fetchRecord page).2.manager = s.manager := by
    rw [manager_fetchRecord (hs₀ ▸ hf.setThread i _), ← hs₀, manager_setThread]
  have hl : i < (s₀.fetchRecord page).2.threads.length := by
    simp [threads_fetchRecord, ← hs₀, setThread, hi]
  have hf₁ : (s₀.fetchRecord page).2.Filed := fetchRecord_filed (hs₀ ▸ hf.setThread i _) page
  have ht : (s₀.fetchRecord page).2.table[page]? = some (s₀.fetchRecord page).1 :=
    fetchRecord_table s₀ page
  generalize (s₀.fetchRecord page).1 = no at *
  generalize (s₀.fetchRecord page).2 = u at *
  -- the record is filed by now, so the manager sees its grants
  have table (t : Thread) : (u.setThread i t).table[page]? = some no := ht
  have grants (t : Thread) := manager_grant? (hf₁.setThread i t) (table t) txn access
  simp only [manager_setThread, hm] at grants
  rw [runOnly, run_setThread hl]
  simp only [proceed]
  cases hg : (u.setThread i [.going ⟨page, .lock txn access, no, .entering⟩]).grant? page no txn
    access with
  | some v =>
    have hv := grants [.going ⟨page, .lock txn access, no, .entering⟩]
    rw [hg] at hv
    have hlv : i < v.threads.length := by simp [threads_of_grant? hg, setThread, hl]
    simp only [Option.map_some, Option.toList_some, Option.getD_some]
    rw [runOnly_leaving hlv rfl, manager_setThread, ← hv]
    rfl
  | none =>
    have hnone := grants [.going ⟨page, .lock txn access, no, .entering⟩]
    rw [hg] at hnone
    have hw : (u.setThread i [.going ⟨page, .lock txn access, no, .waiting⟩]).grant? page no txn
        access = none := by
      simpa [← hnone] using grants [.going ⟨page, .lock txn access, no, .waiting⟩]
    -- nobody else runs, so the wait is in vain and the record is given back
    simp only [Option.map_some, Option.toList_some, Option.getD_some, setThread_setThread]
    rw [runOnly, run_setThread hl]
    simp only [proceed, hw, if_true, Option.map_some, Option.toList_some, Option.getD_some,
      setThread_setThread]
    rw [manager_runOnly_reclaiming hl rfl 0, ← hnone, hm]
    rfl

/-- A call that only looks for a record is over at once when there is none. -/
theorem manager_alone_of_none {s : LockSystem} {i : Nat} (hi : i < s.threads.length)
    {page : PageId} {call : PageCall} (hc : ∀ txn access, call ≠ .lock txn access)
    (h : s.table[page]? = none) : (s.alone i page call).manager = s.manager := by
  have ht : (s.setThread i [.start page call]).table[page]? = none := h
  have hr : ((s.setThread i []).run i true) = none := by simp [run, setThread, hi]
  rw [alone, runOnly, run_setThread hi]
  cases call with
  | lock txn access => exact absurd rfl (hc txn access)
  | release txn => simp [enter, ht, setThread_setThread, runOnly, hr]
  | strip => simp [enter, ht, setThread_setThread, runOnly, hr]

/-- A release that runs alone. -/
theorem manager_releaseAlone {s : LockSystem} (hf : s.Filed) {i : Nat}
    (hi : i < s.threads.length) (page : PageId) (txn : TxnId) :
    (s.alone i page (.release txn)).manager = s.manager.release txn page := by
  cases h : s.table[page]? with
  | none =>
    rw [manager_alone_of_none hi (by simp) h, LockManager.release, manager_record_none h]
    simp [LockRecord.mode?, LockRecord.idle]
  | some no =>
    have ht (t : Thread) : (s.setThread i t).table[page]? = some no := h
    have hl (t : Thread) : i < ((s.setThread i t).release page no txn).threads.length := by
      simp [threads_release, setThread, hi]
    rw [alone, runOnly, run_setThread hi]
    simp only [enter, ht, Option.map_some, Option.toList_some, Option.getD_some,
      setThread_setThread]
    rw [runOnly, run_setThread hi]
    simp only [proceed, Option.map_some, Option.toList_some, Option.getD_some]
    rw [manager_runOnly_reclaiming (hl _) rfl 1, manager_release (hf.setThread i _) (ht _),
      manager_setThread]

/-- Taking a page from its holders, alone. -/
theorem manager_stripAlone {s : LockSystem} (hf : s.Filed) {i : Nat}
    (hi : i < s.threads.length) (page : PageId) :
    (s.alone i page .strip).manager = s.manager.releasePage page := by
  cases h : s.table[page]? with
  | none =>
    rw [manager_alone_of_none hi (by simp) h, LockManager.releasePage, LockManager.holdersOf,
      manager_record_none h]
    refine manager_ext (?_) rfl
    intro p
    have hn : s.manager.records[page]? = none := by rw [manager_getElem?, h]; rfl
    simp only [LockManager.setRecord, LockRecord.isIdle_iff.mpr rfl, if_true,
      Std.ExtTreeMap.getElem?_erase]
    split
    · rename_i e
      rw [← Std.LawfulEqOrd.eq_of_compare e, hn]
    · rfl
  | some no =>
    have ht (t : Thread) : (s.setThread i t).table[page]? = some no := h
    have hl (t : Thread) : i < ((s.setThread i t).strip page no).threads.length := by
      simp [strip, setRecord, setThread, hi]
    rw [alone, runOnly, run_setThread hi]
    simp only [enter, ht, Option.map_some, Option.toList_some, Option.getD_some,
      setThread_setThread]
    rw [runOnly, run_setThread hi]
    simp only [proceed, Option.map_some, Option.toList_some, Option.getD_some]
    rw [manager_runOnly_reclaiming (hl _) rfl 1, manager_strip (hf.setThread i _) (ht _),
      manager_setThread]

end LockSystem

end RowStore
