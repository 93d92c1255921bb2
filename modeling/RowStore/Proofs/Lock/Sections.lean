import RowStore.Proofs.Lock.Modes

/-!
  Sections — what calls of many threads do to the locks, however they interleave.

  `Section` lists what the next section of a thread can do. As long as a thread may still
  look at its record, that record is the one in the table (`Bound`), since nobody else
  reclaims a record that the thread refers to. So every section is, for the manager that
  the system shows, one whole call or nothing (`Section.manager`), and what an interleaving
  shows, calls that are made one after the other lead to as well (`Reachable.serial`).

  Main statement: whatever calls led to a manager, each page has one writer or readers,
  and the index holds exactly what the records say (`Reached.modes_agree`).
-/

namespace RowStore

/-! ## Whole calls -/

/-- A call on the lock manager: one on a page, or the release of everything that a
transaction holds. -/
inductive LockCall where
  | on (page : PageId) (call : PageCall)
  | releaseAll (txn : TxnId)
  deriving DecidableEq, Repr

namespace LockManager

/-- The manager after a call. A request that waits in vain changes nothing. -/
def call (m : LockManager) : LockCall → LockManager
  | .on page (.lock txn access) => (m.acquire? txn page access).getD m
  | .on page (.release txn) => m.release txn page
  | .on page .strip => m.releasePage page
  | .releaseAll txn => m.releaseAll txn

/-- The manager after calls that are made one after the other. -/
def afterCalls (calls : List LockCall) : LockManager := calls.foldl call empty

theorem Consistent.call {m : LockManager} (hc : m.Consistent) (c : LockCall) :
    (m.call c).Consistent := by
  cases c with
  | releaseAll txn => exact hc.releaseAll txn
  | on page c =>
    cases c with
    | lock txn access =>
      show ((m.acquire? txn page access).getD m).Consistent
      cases ha : m.acquire? txn page access with
      | none => exact hc
      | some m' => exact hc.acquire? ha
    | release txn => exact hc.release txn page
    | strip => exact hc.releasePage page

theorem consistent_afterCalls (calls : List LockCall) : (afterCalls calls).Consistent := by
  unfold afterCalls
  refine List.foldlRecOn (motive := Consistent) calls call consistent_empty ?_
  intro m hm c _
  exact hm.call c

theorem afterCalls_concat (calls : List LockCall) (c : LockCall) :
    afterCalls (calls ++ [c]) = (afterCalls calls).call c := by
  rw [afterCalls, List.foldl_append]
  rfl

end LockManager

namespace LockSystem

/-! ## Sections -/

/-- What the next section of a thread can do: the state that it leaves and the call as it
goes on, if it does. -/
inductive Section (s : LockSystem) : Work → LockSystem → Option InFlight → Prop
  /-- A request takes its reference and makes the record if there is none. -/
  | requested {page : PageId} {txn : TxnId} {access : Access} :
    Section s (.start page (.lock txn access)) (s.fetchRecord page).2
      (some ⟨page, .lock txn access, (s.fetchRecord page).1, .entering⟩)
  | found {page : PageId} {call : PageCall} {no : RecordNo} : s.table[page]? = some no →
    Section s (.start page call) s (some ⟨page, call, no, .entering⟩)
  | missed {page : PageId} {call : PageCall} : s.table[page]? = none →
    Section s (.start page call) s none
  | granted {now : InFlight} {txn : TxnId} {access : Access} {u : LockSystem} :
    now.stage ≠ .leaving → now.call = .lock txn access →
    s.grant? now.page now.record txn access = some u →
    Section s (.going now) u (some { now with stage := .leaving })
  /-- A blocked request goes on waiting or gives up. -/
  | blocked {now : InFlight} {stage : Stage} : now.stage ≠ .leaving → stage ≠ .leaving →
    Section s (.going now) s (some { now with stage := stage })
  | released {now : InFlight} {txn : TxnId} : now.stage ≠ .leaving → now.call = .release txn →
    Section s (.going now) (s.release now.page now.record txn)
      (some { now with stage := .reclaiming })
  | stripped {now : InFlight} : now.stage ≠ .leaving → now.call = .strip →
    Section s (.going now) (s.strip now.page now.record) (some { now with stage := .reclaiming })
  | reclaimed {now : InFlight} : now.stage = .reclaiming →
    Section s (.going now) (s.reclaim now.page now.record) (some { now with stage := .leaving })
  | left {now : InFlight} : now.stage = .leaving → Section s (.going now) s none

variable {s s' : LockSystem}

theorem section_enter (s : LockSystem) (page : PageId) (call : PageCall) :
    s.Section (.start page call) (s.enter page call).1 (s.enter page call).2 := by
  have hlook (c : PageCall) : s.Section (.start page c) s
      ((s.table[page]?).map (⟨page, c, ·, .entering⟩)) := by
    cases ht : s.table[page]? with
    | none => exact .missed ht
    | some no => exact .found ht
  cases call with
  | lock txn access => exact .requested
  | release txn => exact hlook (.release txn)
  | strip => exact hlook .strip

theorem section_request (s : LockSystem) {now : InFlight} {txn : TxnId} {access : Access}
    (hs : now.stage ≠ .leaving) (hc : now.call = .lock txn access) {stage : Stage}
    (hst : stage ≠ .leaving) :
    let r := match s.grant? now.page now.record txn access with
      | some u => (u, some { now with stage := Stage.leaving })
      | none => (s, some { now with stage := stage })
    s.Section (.going now) r.1 r.2 := by
  cases hg : s.grant? now.page now.record txn access with
  | none => exact .blocked hs hst
  | some u => exact .granted hs hc hg

theorem section_proceed (s : LockSystem) (now : InFlight) (waitOver : Bool) :
    s.Section (.going now) (s.proceed now waitOver).1 (s.proceed now waitOver).2 := by
  obtain ⟨page, call, no, stage⟩ := now
  cases stage with
  | entering =>
    cases call with
    | lock txn access => exact section_request s (by simp) rfl (by simp)
    | release txn => exact .released (by simp) rfl
    | strip => exact .stripped (by simp) rfl
  | waiting =>
    cases call with
    | lock txn access => exact section_request s (by simp) rfl (by split <;> simp)
    | release txn => exact .blocked (by simp) (by simp)
    | strip => exact .blocked (by simp) (by simp)
  | reclaiming => exact .reclaimed rfl
  | leaving => exact .left rfl

/-- A thread that runs takes its next section. -/
theorem section_of_run {i : Nat} {waitOver : Bool} (h : s.run i waitOver = some s') :
    ∃ work rest u next, s.threads[i]? = some (work :: rest) ∧ s.Section work u next ∧
      s' = u.setThread i ((next.map Work.going).toList ++ rest) := by
  unfold run at h
  split at h
  · rename_i work rest ht
    obtain rfl := Option.some.inj h
    refine ⟨work, rest, _, _, ht, ?_, rfl⟩
    cases work with
    | start page call => exact section_enter s page call
    | going now => exact section_proceed s now waitOver
  · simp at h

/-! ## References -/

/-- Thread `i` has its reference for a call. -/
def Refers (s : LockSystem) (i : Nat) (now : InFlight) : Prop :=
  ∃ rest, s.threads[i]? = some (.going now :: rest)

/-- A thread refers to one record at most, and as long as it may still look at it that
record is in the table. -/
structure Bound (s : LockSystem) : Prop where
  filed : s.Filed
  single : ∀ {i : Nat} {work : Work} {rest : Thread}, s.threads[i]? = some (work :: rest) →
    ∀ w ∈ rest, w.record? = none
  tabled : ∀ {i : Nat} {now : InFlight} {rest : Thread},
    s.threads[i]? = some (.going now :: rest) → now.stage ≠ .leaving →
    s.table[now.page]? = some now.record

theorem Section.threads {work : Work} {u : LockSystem} {next : Option InFlight}
    (h : s.Section work u next) : u.threads = s.threads := by
  cases h with
  | requested => exact threads_fetchRecord s _
  | granted _ _ hg => exact threads_of_grant? hg
  | released => exact threads_release s _ _ _
  | reclaimed => exact threads_reclaim s _ _
  | _ => rfl

/-- The table after a section: only a request adds a record, and only a reclaim takes one
away, which nobody holds. -/
theorem Section.table {work : Work} {u : LockSystem} {next : Option InFlight}
    (h : s.Section work u next) :
    u.table = s.table ∨ (∃ page txn access, work = .start page (.lock txn access) ∧
      u = (s.fetchRecord page).2) ∨
      ∃ now, work = .going now ∧ now.stage = .reclaiming ∧
        s.refCount now.page now.record ≤ 2 ∧ (s.record now.record).isIdle = true ∧
        s.table[now.page]? = some now.record ∧
        u = { s with table := s.table.erase now.page } := by
  cases h with
  | requested => exact .inr (.inl ⟨_, _, _, rfl, rfl⟩)
  | granted _ _ hg =>
    obtain ⟨r, -, rfl⟩ := Option.map_eq_some_iff.mp hg
    exact .inl rfl
  | @released now txn =>
    left
    unfold release
    split <;> rfl
  | @reclaimed now hs =>
    unfold reclaim
    split
    · rename_i hr
      exact .inr (.inr ⟨now, rfl, hs, hr.1, hr.2.1, hr.2.2, rfl⟩)
    · exact .inl rfl
  | _ => exact .inl rfl

/-- No record is ever unmade. -/
theorem Section.size_le {work : Work} {u : LockSystem} {next : Option InFlight}
    (h : s.Section work u next) : s.records.size ≤ u.records.size := by
  cases h with
  | @requested page =>
    unfold fetchRecord
    split <;> simp
  | granted _ _ hg =>
    obtain ⟨r, -, rfl⟩ := Option.map_eq_some_iff.mp hg
    simp [setRecord]
  | released =>
    unfold release
    split <;> simp [setRecord]
  | stripped => simp [strip, setRecord]
  | reclaimed =>
    unfold reclaim
    split <;> exact Nat.le_refl _
  | _ => exact Nat.le_refl _

theorem Section.filed {work : Work} {u : LockSystem} {next : Option InFlight}
    (h : s.Section work u next) (hf : s.Filed) : u.Filed := by
  -- what is in the table was there before, but for the record of a request
  have hsub (hle : ∀ {q : PageId} {no : RecordNo}, u.table[q]? = some no → s.table[q]? = some no) :
      u.Filed :=
    ⟨fun hq => Nat.lt_of_lt_of_le (hf.made (hle hq)) h.size_le,
      fun hp hq => hf.once (hle hp) (hle hq)⟩
  rcases h.table with ht | ⟨page, txn, access, -, rfl⟩ | ⟨now, -, -, -, -, -, rfl⟩
  · exact hsub fun hq => ht ▸ hq
  · exact fetchRecord_filed hf page
  · refine hsub fun {q no} hq => ?_
    have herased : (s.table.erase now.page)[q]? = some no := hq
    rw [Std.ExtTreeMap.getElem?_erase] at herased
    split at herased
    · simp at herased
    · exact herased

/-- An element of two of the lists is at least twice in all of them together. -/
theorem two_le_count {α : Type} [DecidableEq α] {ls : List (List α)} {x : α} {i j : Nat}
    {a b : List α} (hij : i ≠ j) (hi : ls[i]? = some a) (hj : ls[j]? = some b) (ha : x ∈ a)
    (hb : x ∈ b) : 2 ≤ ls.flatten.count x := by
  induction ls generalizing i j with
  | nil => simp at hi
  | cons l ls ih =>
    have hrest {k : Nat} {c : List α} (hk : ls[k]? = some c) (hc : x ∈ c) :
        1 ≤ ls.flatten.count x :=
      List.one_le_count_iff.mpr (List.mem_flatten.mpr ⟨c, List.mem_of_getElem? hk, hc⟩)
    rw [List.flatten_cons, List.count_append]
    cases i with
    | zero =>
      obtain rfl := Option.some.inj hi
      cases j with
      | zero => exact absurd rfl hij
      | succ j =>
        have h₁ : 1 ≤ l.count x := List.one_le_count_iff.mpr ha
        have h₂ := hrest hj hb
        omega
    | succ i =>
      cases j with
      | zero =>
        obtain rfl := Option.some.inj hj
        have h₁ : 1 ≤ l.count x := List.one_le_count_iff.mpr hb
        have h₂ := hrest hi ha
        omega
      | succ j =>
        have h₁ := ih (fun h => hij (congrArg Nat.succ h)) hi hj
        omega

/-- A record that two threads refer to is not given up. -/
theorem two_lt_refCount {i j : Nat} {now other : InFlight} {rest more : Thread} (hij : i ≠ j)
    (hi : s.threads[i]? = some (.going now :: rest))
    (hj : s.threads[j]? = some (.going other :: more)) (hr : other.record = now.record)
    (ht : s.table[now.page]? = some now.record) : 2 < s.refCount now.page now.record := by
  have hrefs {k : Nat} {w : InFlight} {ws : Thread} (hk : s.threads[k]? = some (.going w :: ws)) :
      (s.threads.map Thread.refs)[k]? = some (Thread.refs (.going w :: ws)) := by
    rw [List.getElem?_map, hk]
    rfl
  have hmem (w : InFlight) (ws : Thread) : w.record ∈ Thread.refs (.going w :: ws) := by
    simp [Thread.refs, Work.record?]
  have htwo := two_le_count hij (hrefs hi) (hrefs hj) (hmem now rest) (hr ▸ hmem other more)
  have hone : (if s.table[now.page]? == some now.record then 1 else 0) = 1 := by simp [ht]
  rw [refCount, hone, List.flatMap_def]
  omega

theorem fetchRecord_kept (page : PageId) {q : PageId} {no : RecordNo}
    (h : s.table[q]? = some no) : (s.fetchRecord page).2.table[q]? = some no := by
  unfold fetchRecord
  split
  · exact h
  · rename_i hn
    have hne : page ≠ q := fun hp => by
      rw [hp, h] at hn
      simp at hn
    show (s.table.insert page s.records.size)[q]? = _
    rw [Std.ExtTreeMap.getElem?_insert, if_neg (by simpa using hne), h]

/-- The table keeps every record that another thread refers to. -/
theorem Section.table_kept {i j : Nat} {work : Work} {rest more : Thread} {u : LockSystem}
    {next : Option InFlight} {other : InFlight} (h : s.Section work u next) (hij : i ≠ j)
    (hi : s.threads[i]? = some (work :: rest)) (hj : s.threads[j]? = some (.going other :: more))
    (ht : s.table[other.page]? = some other.record) :
    u.table[other.page]? = some other.record := by
  rcases h.table with hu | ⟨page, txn, access, -, rfl⟩ | ⟨now, rfl, -, hle, -, hnow, rfl⟩
  · rw [hu, ht]
  · exact fetchRecord_kept page ht
  · have hne : now.page ≠ other.page := fun hp => by
      -- the other thread's reference would have kept the record
      rw [← hp, hnow] at ht
      have hlt := two_lt_refCount hij hi hj (Option.some.inj ht).symm hnow
      omega
    show (s.table.erase now.page)[other.page]? = _
    rw [Std.ExtTreeMap.getElem?_erase, if_neg (by simpa using hne), ht]

/-- A thread whose call goes on has its record in the table. -/
theorem Section.tabled {work : Work} {u : LockSystem} {next : Option InFlight} {now : InFlight}
    (h : s.Section work u next) (hn : next = some now) (hl : now.stage ≠ .leaving)
    (ht : ∀ w, work = .going w → w.stage ≠ .leaving → s.table[w.page]? = some w.record) :
    u.table[now.page]? = some now.record := by
  have hkept {w : InFlight} {v : LockSystem} (hw : w.stage ≠ .leaving) (hwork : work = .going w)
      (hv : v.table = s.table) : v.table[w.page]? = some w.record := by
    rw [hv]
    exact ht w hwork hw
  cases h with
  | requested =>
    obtain rfl := Option.some.inj hn
    exact fetchRecord_table s _
  | found hf =>
    obtain rfl := Option.some.inj hn
    exact hf
  | missed => simp at hn
  | granted =>
    obtain rfl := Option.some.inj hn
    exact absurd rfl hl
  | @blocked w stage hw =>
    obtain rfl := Option.some.inj hn
    exact hkept (w := w) hw rfl rfl
  | @released w txn hw =>
    obtain rfl := Option.some.inj hn
    refine hkept (w := w) hw rfl ?_
    unfold release
    split <;> rfl
  | @stripped w hw =>
    obtain rfl := Option.some.inj hn
    exact hkept (w := w) hw rfl rfl
  | reclaimed =>
    obtain rfl := Option.some.inj hn
    exact absurd rfl hl
  | left => simp at hn

theorem bound_idle (threads : Nat) : (idle threads).Bound := by
  have hnone {i : Nat} {work : Work} {rest : Thread} :
      (idle threads).threads[i]? ≠ some (work :: rest) := by
    show (List.replicate threads ([] : Thread))[i]? ≠ _
    rw [List.getElem?_replicate]
    split <;> simp
  refine ⟨⟨?_, ?_⟩, fun h => absurd h hnone, fun h => absurd h hnone⟩
  · intro page no h
    simp [idle] at h
  · intro p q no h
    simp [idle] at h

theorem setThread_cases {i j : Nat} {t x : Thread}
    (h : (s.setThread i t).threads[j]? = some x) :
    (i = j ∧ x = t) ∨ (i ≠ j ∧ s.threads[j]? = some x) := by
  have hset : (s.threads.set i t)[j]? = some x := h
  rw [List.getElem?_set] at hset
  split at hset
  · rename_i hij
    split at hset
    · exact .inl ⟨hij, (Option.some.inj hset).symm⟩
    · simp at hset
  · rename_i hij
    exact .inr ⟨hij, hset⟩

/-- A thread that has only begun its calls refers to no record. -/
theorem refers_of_started {i j : Nat} {t : Thread} {now : InFlight}
    (ht : ∀ w ∈ t, ∃ page call, w = .start page call) (h : (s.setThread i t).Refers j now) :
    s.Refers j now := by
  obtain ⟨rest, hr⟩ := h
  rcases setThread_cases hr with ⟨-, rfl⟩ | ⟨-, hold⟩
  · obtain ⟨page, call, hstart⟩ := ht (.going now) List.mem_cons_self
    simp at hstart
  · exact ⟨rest, hold⟩

theorem Bound.started (h : s.Bound) (i : Nat) {t : Thread}
    (ht : ∀ w ∈ t, ∃ page call, w = .start page call) : (s.setThread i t).Bound := by
  refine ⟨h.filed.setThread i t, ?_, ?_⟩
  · intro j work rest hj w hw
    rcases setThread_cases hj with ⟨-, rfl⟩ | ⟨-, hold⟩
    · obtain ⟨page, call, rfl⟩ := ht w (List.mem_cons_of_mem _ hw)
      rfl
    · exact h.single hold w hw
  · intro j now rest hj hl
    obtain ⟨more, hold⟩ := refers_of_started ht ⟨rest, hj⟩
    exact h.tabled hold hl

/-- After a section the other threads have the references that they had. -/
theorem Bound.refers_ran (h : s.Bound) {i j : Nat} {work : Work} {rest : Thread}
    {u : LockSystem} {next : Option InFlight} {now : InFlight}
    (hi : s.threads[i]? = some (work :: rest)) (hsec : s.Section work u next)
    (hr : (u.setThread i ((next.map Work.going).toList ++ rest)).Refers j now) :
    (j = i ∧ next = some now) ∨ (j ≠ i ∧ s.Refers j now) := by
  obtain ⟨more, hj⟩ := hr
  rcases setThread_cases hj with ⟨hij, heq⟩ | ⟨hij, hold⟩
  · cases next with
    | none =>
      -- what a thread does later begins without a reference
      have hmem : Work.going now ∈ rest := by
        rw [← show Work.going now :: more = rest from heq]
        exact List.mem_cons_self
      have hnone := h.single hi _ hmem
      simp [Work.record?] at hnone
    | some m =>
      obtain ⟨hm, -⟩ := List.cons.inj heq
      exact .inl ⟨hij.symm, congrArg some (Work.going.inj hm).symm⟩
  · rw [hsec.threads] at hold
    exact .inr ⟨Ne.symm hij, more, hold⟩

theorem Bound.ran (h : s.Bound) {i : Nat} {work : Work} {rest : Thread} {u : LockSystem}
    {next : Option InFlight} (hi : s.threads[i]? = some (work :: rest))
    (hsec : s.Section work u next) :
    (u.setThread i ((next.map Work.going).toList ++ rest)).Bound := by
  refine ⟨(hsec.filed h.filed).setThread i _, ?_, ?_⟩
  · intro j v vs hj w hw
    rcases setThread_cases hj with ⟨-, heq⟩ | ⟨-, hold⟩
    · -- what is left to do was left before
      have hmem : w ∈ rest := by
        cases next with
        | none =>
          rw [← show v :: vs = rest from heq]
          exact List.mem_cons_of_mem _ hw
        | some now =>
          obtain ⟨-, rfl⟩ := List.cons.inj heq
          exact hw
      exact h.single hi w hmem
    · rw [hsec.threads] at hold
      exact h.single hold w hw
  · intro j now vs hj hl
    rcases h.refers_ran hi hsec ⟨vs, hj⟩ with ⟨rfl, rfl⟩ | ⟨hij, more, hold⟩
    · exact hsec.tabled rfl hl fun w hw hs => h.tabled (hw ▸ hi) hs
    · exact hsec.table_kept (Ne.symm hij) hi hold (h.tabled hold hl)

theorem Bound.step (h : s.Bound) (hs : Step s s') : s'.Bound := by
  cases hs with
  | call i page call => exact h.started i (by simp)
  | releaseAll i txn =>
    apply h.started i _
    intro w hw
    obtain ⟨page, -, rfl⟩ := List.mem_map.mp hw
    exact ⟨page, .release txn, rfl⟩
  | run i waitOver _ hr =>
    obtain ⟨work, rest, u, next, hi, hsec, rfl⟩ := section_of_run hr
    exact h.ran hi hsec

theorem Reachable.bound (h : s.Reachable) : s.Bound := by
  induction h with
  | idle threads => exact bound_idle threads
  | step _ hs ih => exact ih.step hs

/-! ## What the manager sees -/

/-- For the manager that is shown, a section is a whole call or nothing. -/
theorem Section.manager {work : Work} {u : LockSystem} {next : Option InFlight}
    (h : s.Section work u next) (hf : s.Filed)
    (ht : ∀ w, work = .going w → w.stage ≠ .leaving → s.table[w.page]? = some w.record) :
    u.manager = s.manager ∨ ∃ c, u.manager = s.manager.call c := by
  cases h with
  | @requested page => exact .inl (manager_fetchRecord hf page)
  | @granted now txn access _ hs hc hg =>
    refine .inr ⟨.on now.page (.lock txn access), ?_⟩
    have hgrant := manager_grant? hf (ht now rfl hs) txn access
    rw [hg, Option.map_some] at hgrant
    show _ = (s.manager.acquire? txn now.page access).getD s.manager
    rw [← hgrant]
    rfl
  | @released now txn hs =>
    exact .inr ⟨.on now.page (.release txn), manager_release hf (ht now rfl hs) txn⟩
  | @stripped now hs => exact .inr ⟨.on now.page .strip, manager_strip hf (ht now rfl hs)⟩
  | @reclaimed now => exact .inl (manager_reclaim s now.page now.record)
  | found | missed | blocked | left => exact .inl rfl

theorem Bound.manager_step (h : s.Bound) (hs : Step s s') :
    s'.manager = s.manager ∨ ∃ c, s'.manager = s.manager.call c := by
  cases hs with
  | call => exact .inl rfl
  | releaseAll => exact .inl rfl
  | run i waitOver _ hr =>
    obtain ⟨work, rest, u, next, hi, hsec, rfl⟩ := section_of_run hr
    exact hsec.manager h.filed fun w hw hstage => h.tabled (hw ▸ hi) hstage

/-- What an interleaving shows, calls one after the other lead to as well. -/
theorem Reachable.serial (h : s.Reachable) :
    ∃ calls, s.manager = LockManager.afterCalls calls := by
  induction h with
  | idle threads =>
    refine ⟨[], manager_ext (fun page => ?_) rfl⟩
    rw [manager_getElem?]
    rfl
  | @step s s' hr hs ih =>
    obtain ⟨calls, hcalls⟩ := ih
    rcases hr.bound.manager_step hs with heq | ⟨c, hc⟩
    · exact ⟨calls, heq.trans hcalls⟩
    · exact ⟨calls ++ [c], by rw [hc, hcalls, LockManager.afterCalls_concat]⟩

end LockSystem

/-! ## Records and index -/

/-- The managers that calls lead to from one in which nothing is locked: calls made one
after the other, or by threads in sections that interleave. -/
inductive LockManager.Reached : LockManager → Prop
  | serial (calls : List LockCall) : Reached (afterCalls calls)
  | threaded {s : LockSystem} : s.Reachable → Reached s.manager

namespace LockManager

theorem Reached.consistent {m : LockManager} (h : m.Reached) : m.Consistent := by
  cases h with
  | serial calls => exact consistent_afterCalls calls
  | threaded hs =>
    obtain ⟨calls, hcalls⟩ := hs.serial
    rw [hcalls]
    exact consistent_afterCalls calls

/-- Whatever calls have been made, a page has no writer, or one and no readers; the index,
by which modes and held pages are looked up, has exactly the modes that the records give;
and it has no transaction without locks. -/
theorem Reached.modes_agree {m : LockManager} (h : m.Reached) :
    (∀ page, (m.record page).writer = none ∨
      ∃ w, (m.record page).writer = some w ∧ (m.record page).readers = ∅) ∧
    (∀ txn page access,
      m.mode? txn page = some access ↔ (m.record page).mode? txn = some access) ∧
    (∀ txn page, m.holds txn page = true ↔ txn ∈ m.holdersOf page) ∧
    (∀ txn page, page ∈ m.pagesOf txn ↔ txn ∈ m.holdersOf page) ∧
    ∀ (txn : TxnId) (pages : Std.ExtTreeMap PageId Access), m.held[txn]? = some pages →
      pages ≠ ∅ := by
  have hc := h.consistent
  have hholder (txn : TxnId) (page : PageId) :
      m.mode? txn page ≠ none ↔ txn ∈ m.holdersOf page := by
    rw [holdersOf, LockRecord.mem_holders, hc.agree]
  refine ⟨?_, ?_, ?_, ?_, ?_⟩
  · intro page
    rcases hc.exclusive page with hw | hr
    · exact .inl hw
    · cases hw : (m.record page).writer with
      | none => exact .inl rfl
      | some w => exact .inr ⟨w, rfl, hr⟩
  · intro txn page access
    rw [hc.agree]
  · intro txn page
    rw [holds, Option.isSome_iff_ne_none]
    exact hholder txn page
  · intro txn page
    rw [mem_pagesOf]
    exact hholder txn page
  · intro txn pages hp hnone
    exact hc.tight txn (hnone ▸ hp)

/-- Two readers; one of them waits in vain to write, the other releases, and then the
first becomes the writer and asks for less. -/
def upgraded : LockManager :=
  afterCalls [.on ⟨1, 0⟩ (.lock ⟨1⟩ .read), .on ⟨1, 0⟩ (.lock ⟨2⟩ .read),
    .on ⟨1, 0⟩ (.lock ⟨1⟩ .write), .on ⟨1, 0⟩ (.release ⟨2⟩), .on ⟨1, 0⟩ (.lock ⟨1⟩ .write),
    .on ⟨1, 0⟩ (.lock ⟨1⟩ .read)]

theorem Reached.modes_agree_upgraded :
    upgraded.mode? ⟨1⟩ ⟨1, 0⟩ = some .write ∧
      (upgraded.record ⟨1, 0⟩).mode? ⟨1⟩ = some .write ∧ upgraded.holdersOf ⟨1, 0⟩ = [⟨1⟩] ∧
      upgraded.held[(⟨2⟩ : TxnId)]? = none := by
  obtain ⟨-, hmode, -, -, -⟩ := Reached.modes_agree (.serial _ : upgraded.Reached)
  have hw : upgraded.mode? ⟨1⟩ ⟨1, 0⟩ = some .write := by decide +kernel
  exact ⟨hw, (hmode _ _ _).mp hw, by decide +kernel, by decide +kernel⟩

end LockManager

end RowStore
