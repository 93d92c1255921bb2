import RowStore.Proofs.Lock.Sections

/-!
  Lock table — the lock manager as who holds what, and nothing else.

  A request is decided on the record of its page, while modes and held pages are looked up
  in the index. Both together are a `LockTable`: a request is granted exactly if the table
  admits it (`acquire?_iff`), and then it changes one entry. Main statement: every operation
  on a manager that calls lead to is the one of its table, bulk releases answer what they
  took away, each once; every section of interleaved calls is one such operation or does not
  show, so a request that gives up has changed nothing; and a call that runs alone is one
  operation of the manager (`Reached.implements`).
-/

namespace RowStore

/-- What every transaction holds on every page. -/
def LockTable : Type := TxnId → PageId → Option Access

/-- What a grant leaves a requester with that held something or nothing. -/
def Access.stronger : Option Access → Access → Access
  | some .write, _ => .write
  | _, wanted => wanted

namespace LockTable

/-- Nobody else writes the page, and nobody else holds it at all if the request is to write. -/
def Admits (t : LockTable) (txn : TxnId) (page : PageId) (access : Access) : Prop :=
  ∀ u, u ≠ txn → t u page ≠ some .write ∧ (access = .write → t u page = none)

/-- The table after a grant. -/
def granted (t : LockTable) (txn : TxnId) (page : PageId) (access : Access) : LockTable :=
  fun u q => if u = txn ∧ q = page then some (.stronger (t txn page) access) else t u q

/-- The table without one lock. -/
def released (t : LockTable) (txn : TxnId) (page : PageId) : LockTable :=
  fun u q => if u = txn ∧ q = page then none else t u q

/-- The table without the locks of a transaction. -/
def releasedAll (t : LockTable) (txn : TxnId) : LockTable :=
  fun u q => if u = txn then none else t u q

/-- The table without the locks on a page. -/
def stripped (t : LockTable) (page : PageId) : LockTable :=
  fun u q => if q = page then none else t u q

/-- What the next section of a call does to the table: the call as it goes on, if it does,
and the table behind it. -/
inductive Moves (t : LockTable) : Work → Option InFlight → LockTable → Prop
  | begun {page : PageId} {call : PageCall} {no : RecordNo} :
    Moves t (.start page call) (some ⟨page, call, no, .entering⟩) t
  /-- A release is over at once where nobody holds the page. -/
  | missed {page : PageId} {call : PageCall} (hcall : ∀ txn access, call ≠ .lock txn access)
    (hnone : ∀ u, t u page = none) : Moves t (.start page call) none t
  | granted {now : InFlight} {txn : TxnId} {access : Access} (hcall : now.call = .lock txn access)
    (hstage : now.stage = .entering ∨ now.stage = .waiting) (h : t.Admits txn now.page access) :
    Moves t (.going now) (some { now with stage := .leaving }) (t.granted txn now.page access)
  /-- A request that is refused waits, or gives up when its wait is over. -/
  | refused {now : InFlight} {txn : TxnId} {access : Access} {stage : Stage}
    (hcall : now.call = .lock txn access) (hstage : now.stage = .entering ∨ now.stage = .waiting)
    (h : ¬ t.Admits txn now.page access) (hnext : stage = .waiting ∨ stage = .reclaiming) :
    Moves t (.going now) (some { now with stage := stage }) t
  | released {now : InFlight} {txn : TxnId} (hcall : now.call = .release txn)
    (hstage : now.stage = .entering) :
    Moves t (.going now) (some { now with stage := .reclaiming }) (t.released txn now.page)
  | stripped {now : InFlight} (hcall : now.call = .strip) (hstage : now.stage = .entering) :
    Moves t (.going now) (some { now with stage := .reclaiming }) (t.stripped now.page)
  | woken {now : InFlight} (hcall : ∀ txn access, now.call ≠ .lock txn access)
    (hstage : now.stage = .waiting) :
    Moves t (.going now) (some { now with stage := .reclaiming }) t
  | reclaimed {now : InFlight} (hstage : now.stage = .reclaiming) :
    Moves t (.going now) (some { now with stage := .leaving }) t
  | left {now : InFlight} (hstage : now.stage = .leaving) : Moves t (.going now) none t

end LockTable

/-! ## Records -/

namespace LockRecord

theorem nodup_readers (r : LockRecord) : r.readers.toList.Nodup :=
  Std.ExtTreeSet.distinct_toList.imp fun hab he => hab (Std.compare_eq_iff_eq.mpr he)

/-- A page that only `txn` reads is free for it to write. -/
theorem noOtherReader_of_forall {r : LockRecord} {txn : TxnId} (h : ∀ u ∈ r.readers, u = txn) :
    r.noOtherReader txn = true := by
  have hmem : ∀ u ∈ r.readers.toList, u = txn := fun u hu =>
    h u (Std.ExtTreeSet.mem_toList.mp hu)
  have hnodup := r.nodup_readers
  rw [noOtherReader, ← Std.ExtTreeSet.isEmpty_toList, ← Std.ExtTreeSet.length_toList]
  cases hl : r.readers.toList with
  | nil => rfl
  | cons a rest =>
    rw [hl] at hmem hnodup
    obtain rfl := hmem a List.mem_cons_self
    have hrest : rest = [] := by
      refine List.eq_nil_iff_forall_not_mem.mpr fun u hu => ?_
      obtain rfl := hmem u (List.mem_cons_of_mem _ hu)
      exact (List.nodup_cons.mp hnodup).1 hu
    have hcontains : r.readers.contains a = true := by
      rw [Std.ExtTreeSet.contains_iff_mem, ← Std.ExtTreeSet.mem_toList, hl]
      exact List.mem_cons_self
    rw [hrest, hcontains]
    rfl

/-- A request is granted exactly if nobody else is in the way. -/
theorem grant?_iff {r : LockRecord} (hx : r.Exclusive) {txn : TxnId} {access : Access} :
    (∃ r', r.grant? txn access = some r') ↔
      ∀ u, u ≠ txn → r.mode? u ≠ some .write ∧ (access = .write → r.mode? u = none) := by
  constructor
  · rintro ⟨r', h⟩
    exact (granted_of_grant? hx h).free
  intro hfree
  unfold grant?
  cases hw : r.writer with
  | some w =>
    have hwt : w = txn := by
      apply Decidable.byContradiction
      intro hne
      exact (hfree w hne).1 (mode?_eq_write.mpr hw)
    simp [hwt]
  | none =>
    cases access with
    | read => exact ⟨_, rfl⟩
    | write =>
      have hother : ∀ u ∈ r.readers, u = txn := by
        intro u hu
        apply Decidable.byContradiction
        intro hne
        have hnone := (hfree u hne).2 rfl
        rw [← Std.ExtTreeSet.contains_iff_mem] at hu
        simp [mode?, hw, hu] at hnone
      exact ⟨_, if_pos (noOtherReader_of_forall hother)⟩

theorem nodup_holders {r : LockRecord} (hx : r.Exclusive) : r.holders.Nodup := by
  rcases hx with hw | hr
  · rw [holders, hw]
    exact r.nodup_readers
  · have hempty : r.readers.toList = [] := by
      rw [hr]
      rfl
    rw [holders, hempty, List.append_nil]
    cases r.writer <;> simp

end LockRecord

/-! ## Managers -/

namespace LockManager

/-- The table of a manager, by its index. -/
def table (m : LockManager) : LockTable := m.mode?

/-- Everything that can be looked up in a manager says the same as a table. -/
structure Shows (m : LockManager) (t : LockTable) : Prop where
  mode : ∀ u q, m.mode? u q = t u q
  holds : ∀ u q, m.holds u q = true ↔ t u q ≠ none
  pages : ∀ u, (m.pagesOf u).Nodup ∧ ∀ q, q ∈ m.pagesOf u ↔ t u q ≠ none

variable {m m' : LockManager} {txn : TxnId} {page : PageId} {access : Access}

theorem nodup_pagesOf (m : LockManager) (txn : TxnId) : (m.pagesOf txn).Nodup :=
  Std.ExtTreeMap.nodup_keys

/-- The index answers every question from the modes. -/
theorem shows_of_mode {t : LockTable} (h : ∀ u q, m.mode? u q = t u q) : m.Shows t where
  mode := h
  holds u q := by rw [LockManager.holds, Option.isSome_iff_ne_none, h]
  pages u := ⟨nodup_pagesOf m u, fun q => by rw [mem_pagesOf, h]⟩

theorem acquire?_iff (hc : m.Consistent) :
    (∃ m', m.acquire? txn page access = some m') ↔ m.table.Admits txn page access := by
  have hrecord : (∃ m', m.acquire? txn page access = some m') ↔
      ∃ r, (m.record page).grant? txn access = some r := by
    simp only [acquire?]
    cases (m.record page).grant? txn access <;> simp
  rw [hrecord, LockRecord.grant?_iff (hc.exclusive page)]
  refine forall₂_congr fun u _ => ?_
  rw [table, hc.agree]

theorem table_acquire? (hc : m.Consistent) (h : m.acquire? txn page access = some m') :
    m'.table = m.table.granted txn page access := by
  funext u q
  show m'.mode? u q = if u = txn ∧ q = page then some (.stronger (m.mode? txn page) access) else _
  rw [mode?_acquire? hc h]
  rcases m.mode? txn page with - | (- | -) <;> rfl

theorem table_release (hc : m.Consistent) (txn : TxnId) (page : PageId) :
    (m.release txn page).table = m.table.released txn page :=
  funext fun u => funext fun q => mode?_release hc txn u page q

theorem table_releaseAll (hc : m.Consistent) (txn : TxnId) :
    (m.releaseAll txn).table = m.table.releasedAll txn :=
  funext fun u => funext fun q => mode?_releaseAll hc txn u q

theorem table_releasePage (hc : m.Consistent) (page : PageId) :
    (m.releasePage page).table = m.table.stripped page :=
  funext fun u => funext fun q => mode?_releasePage hc page q u

/-- What a bulk release of a transaction answers, and the manager behind it. -/
def releasingAll (m : LockManager) (txn : TxnId) : List PageId × LockManager :=
  (m.pagesOf txn, m.releaseAll txn)

/-- What a bulk release of a page answers, and the manager behind it. -/
def releasingPage (m : LockManager) (page : PageId) : List TxnId × LockManager :=
  (m.holdersOf page, m.releasePage page)

/-- A manager whose operations are those of its table. -/
structure Implements (m : LockManager) : Prop where
  shows : m.Shows m.table
  grants_iff : ∀ txn page access,
    (∃ m', m.acquire? txn page access = some m') ↔ m.table.Admits txn page access
  granted : ∀ txn page access m', m.acquire? txn page access = some m' →
    m'.Shows (m.table.granted txn page access)
  refused : ∀ txn page access, ¬ m.table.Admits txn page access →
    m.call (.on page (.lock txn access)) = m
  released : ∀ txn page, (m.release txn page).Shows (m.table.released txn page)
  releasedAll : ∀ txn, (m.releasingAll txn).2.Shows (m.table.releasedAll txn) ∧
    (m.releasingAll txn).1.Nodup ∧ ∀ page, page ∈ (m.releasingAll txn).1 ↔ m.table txn page ≠ none
  releasedPage : ∀ page, (m.releasingPage page).2.Shows (m.table.stripped page) ∧
    (m.releasingPage page).1.Nodup ∧
      ∀ txn, txn ∈ (m.releasingPage page).1 ↔ m.table txn page ≠ none

theorem shows_of_table {t : LockTable} (h : m.table = t) : m.Shows t :=
  shows_of_mode fun u q => congrFun (congrFun h u) q

theorem Consistent.operations (hc : m.Consistent) : m.Implements where
  shows := shows_of_table rfl
  grants_iff _ _ _ := acquire?_iff hc
  granted _ _ _ _ h := shows_of_table (table_acquire? hc h)
  refused txn page access h := by
    have hnone : m.acquire? txn page access = none := by
      apply Option.eq_none_iff_forall_ne_some.mpr
      intro m' hm
      exact h ((acquire?_iff hc).mp ⟨m', hm⟩)
    show (m.acquire? txn page access).getD m = m
    rw [hnone, Option.getD_none]
  released txn page := shows_of_table (table_release hc txn page)
  releasedAll txn :=
    ⟨shows_of_table (table_releaseAll hc txn), nodup_pagesOf m txn, fun _ => mem_pagesOf⟩
  releasedPage page := by
    refine ⟨shows_of_table (table_releasePage hc page),
      LockRecord.nodup_holders (hc.exclusive page), fun txn => ?_⟩
    show txn ∈ (m.record page).holders ↔ m.mode? txn page ≠ none
    rw [LockRecord.mem_holders, hc.agree]

end LockManager

/-! ## Sections -/

namespace LockSystem

open LockManager

variable {s s' : LockSystem}

/-- Where a page has no record nobody holds it. -/
theorem table_of_missing (hc : s.manager.Consistent) {page : PageId} (h : s.table[page]? = none)
    (u : TxnId) : s.manager.table u page = none := by
  rw [LockManager.table, hc.agree, manager_record_none h]
  rfl

theorem enter_moves (hc : s.manager.Consistent) (hf : s.Filed) (page : PageId) (call : PageCall) :
    s.manager.table.Moves (.start page call) (s.enter page call).2
      (s.enter page call).1.manager.table := by
  have hlook (c : PageCall) (hcall : ∀ txn access, c ≠ .lock txn access) :
      s.manager.table.Moves (.start page c)
        ((s.table[page]?).map (⟨page, c, ·, .entering⟩)) s.manager.table := by
    cases ht : s.table[page]? with
    | none => exact .missed hcall (table_of_missing hc ht)
    | some no => exact .begun
  cases call with
  | lock txn access =>
    show s.manager.table.Moves _ (some _) (s.fetchRecord page).2.manager.table
    rw [manager_fetchRecord hf]
    exact .begun
  | release txn => exact hlook (.release txn) (by simp)
  | strip => exact hlook .strip (by simp)

/-- A request is decided by the table. -/
theorem request_moves (hc : s.manager.Consistent) (hf : s.Filed) {now : InFlight}
    (ht : s.table[now.page]? = some now.record) {txn : TxnId} {access : Access}
    (hcall : now.call = .lock txn access) (hstage : now.stage = .entering ∨ now.stage = .waiting)
    {stage : Stage} (hnext : stage = .waiting ∨ stage = .reclaiming) :
    let x := match s.grant? now.page now.record txn access with
      | some u => (u, some { now with stage := Stage.leaving })
      | none => (s, some { now with stage := stage })
    s.manager.table.Moves (.going now) x.2 x.1.manager.table := by
  have hgrant := manager_grant? hf ht txn access
  have hiff : (∃ m', s.manager.acquire? txn now.page access = some m') ↔
      s.manager.table.Admits txn now.page access := acquire?_iff hc
  cases hg : s.grant? now.page now.record txn access with
  | none =>
    rw [hg, Option.map_none] at hgrant
    refine .refused hcall hstage (fun hadmits => ?_) hnext
    obtain ⟨m', hm⟩ := hiff.mpr hadmits
    rw [← hgrant] at hm
    simp at hm
  | some u =>
    rw [hg, Option.map_some] at hgrant
    show s.manager.table.Moves (.going now) (some { now with stage := .leaving }) u.manager.table
    rw [table_acquire? hc hgrant.symm]
    exact .granted hcall hstage (hiff.mp ⟨_, hgrant.symm⟩)

theorem proceed_moves (hc : s.manager.Consistent) (hf : s.Filed) {now : InFlight}
    (ht : now.stage ≠ .leaving → s.table[now.page]? = some now.record) (waitOver : Bool) :
    s.manager.table.Moves (.going now) (s.proceed now waitOver).2
      (s.proceed now waitOver).1.manager.table := by
  obtain ⟨page, call, no, stage⟩ := now
  cases stage with
  | entering =>
    have htable := ht (by simp)
    cases call with
    | lock txn access => exact request_moves hc hf htable rfl (.inl rfl) (.inl rfl)
    | release txn =>
      show s.manager.table.Moves _ _ (s.release page no txn).manager.table
      rw [manager_release hf htable, table_release hc]
      exact .released rfl rfl
    | strip =>
      show s.manager.table.Moves _ _ (s.strip page no).manager.table
      rw [manager_strip hf htable, table_releasePage hc]
      exact .stripped rfl rfl
  | waiting =>
    cases call with
    | lock txn access =>
      exact request_moves hc hf (ht (by simp)) rfl (.inr rfl) (by cases waitOver <;> simp)
    | release txn => exact .woken (by simp) rfl
    | strip => exact .woken (by simp) rfl
  | reclaiming =>
    show s.manager.table.Moves _ _ (s.reclaim page no).manager.table
    rw [manager_reclaim]
    exact .reclaimed rfl
  | leaving => exact .left rfl

/-- Every section that can run next is an operation of the table that is shown or leaves it,
and a call that runs alone from its beginning to its end, where a request is granted or gives
up, is the operation of the manager. -/
structure Refines (s : LockSystem) : Prop where
  sections : ∀ i waitOver s', s.run i waitOver = some s' → ∃ work rest next,
    s.threads[i]? = some (work :: rest) ∧
      s'.threads[i]? = some ((next.map Work.going).toList ++ rest) ∧
      s.manager.table.Moves work next s'.manager.table
  calls : ∀ i page call, i < s.threads.length →
    (s.alone i page call).manager = s.manager.call (.on page call)

theorem ran_threads {i : Nat} {work : Work} {rest t : Thread} {u : LockSystem}
    {next : Option InFlight} (hi : s.threads[i]? = some (work :: rest))
    (h : s.Section work u next) : (u.setThread i t).threads[i]? = some t := by
  have hlt := (List.getElem?_eq_some_iff.mp hi).1
  show (u.threads.set i t)[i]? = some t
  rw [h.threads, List.getElem?_set_self hlt]

theorem manager_alone (hf : s.Filed) {i : Nat} (hi : i < s.threads.length) (page : PageId)
    (call : PageCall) : (s.alone i page call).manager = s.manager.call (.on page call) := by
  cases call with
  | lock txn access => exact manager_lockAlone hf hi page txn access
  | release txn => exact manager_releaseAlone hf hi page txn
  | strip => exact manager_stripAlone hf hi page

theorem Reachable.refines (h : s.Reachable) : s.Refines where
  sections i waitOver s' hr := by
    have hc := (Reached.threaded h).consistent
    unfold run at hr
    split at hr
    · rename_i work rest ht
      obtain rfl := Option.some.inj hr
      cases work with
      | start page call =>
        exact ⟨_, rest, (s.enter page call).2, ht, ran_threads ht (section_enter s page call),
          enter_moves hc h.bound.filed page call⟩
      | going now =>
        exact ⟨_, rest, (s.proceed now waitOver).2, ht,
          ran_threads ht (section_proceed s now waitOver),
          proceed_moves hc h.bound.filed (fun hs => h.bound.tabled ht hs) waitOver⟩
    · simp at hr
  calls _ page call hi := manager_alone h.bound.filed hi page call

end LockSystem

/-- Every operation on a manager that calls lead to is the one of its table, and so is every
section of calls that interleave. -/
theorem LockManager.Reached.implements {m : LockManager} (h : m.Reached) :
    m.Implements ∧ ∀ s : LockSystem, s.Reachable → s.manager = m → s.Refines :=
  ⟨h.consistent.operations, fun _ hs _ => hs.refines⟩

/-- Two readers of a page. -/
def LockManager.shared : LockManager :=
  .afterCalls [.on ⟨1, 0⟩ (.lock ⟨1⟩ .read), .on ⟨1, 0⟩ (.lock ⟨2⟩ .read)]

theorem LockManager.Reached.implements_shared :
    ¬ shared.table.Admits ⟨1⟩ ⟨1, 0⟩ .write ∧
      (shared.call (.on ⟨1, 0⟩ (.lock ⟨1⟩ .write))).mode? ⟨1⟩ ⟨1, 0⟩ = some .read ∧
      (shared.releasingPage ⟨1, 0⟩).1.Nodup ∧ ⟨2⟩ ∈ (shared.releasingPage ⟨1, 0⟩).1 := by
  have hreached : shared.Reached := .serial _
  obtain ⟨himplements, -⟩ := Reached.implements hreached
  have hread : shared.table ⟨2⟩ ⟨1, 0⟩ = some .read := by decide +kernel
  have hbusy : ¬ shared.table.Admits ⟨1⟩ ⟨1, 0⟩ .write := fun h => by
    have hnone := (h ⟨2⟩ (by decide)).2 rfl
    simp [hread] at hnone
  obtain ⟨-, hnodup, hmem⟩ := himplements.releasedPage ⟨1, 0⟩
  refine ⟨hbusy, ?_, hnodup, (hmem ⟨2⟩).mpr (by simp [hread])⟩
  rw [himplements.refused _ _ _ hbusy]
  decide +kernel

end RowStore
