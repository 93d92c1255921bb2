import RowStore.Proofs.Lock.Reclaiming

/-!
  Abandoning — a record that nobody needs, and that stays.

  A call that gives a record up leaves it in the table if anyone else refers to it, and trusts
  that the other call will give it up in its turn. A call that was granted its request, or
  that has given the record up before, does not: it drops its reference and is over. If there
  are only such calls left, the record is `Abandoned`. A page comes to that in one way only,
  when a call gives its record up in vain beside calls that are only to leave (`Crosses`), and
  it remains so until a call comes for the page again (`Bound.abandoned_passed`).

  Main statement: while no call is under way, the table has a record for a page just if
  somebody holds the page or the record has been left behind so (`Reachable.record_stays_iff`).
-/

namespace RowStore

namespace LockSystem

variable {s s' : LockSystem} {page : PageId} {no : RecordNo}

/-! ## References of others -/

theorem refers_other {u : LockSystem} (hu : u.threads = s.threads) {i j : Nat} (hij : j ≠ i)
    (t : Thread) {w : InFlight} : (u.setThread i t).Refers j w ↔ s.Refers j w := by
  have hset : (u.setThread i t).threads[j]? = s.threads[j]? := by
    show (u.threads.set i t)[j]? = _
    rw [hu, List.getElem?_set_ne (Ne.symm hij)]
  rw [Refers, Refers, hset]

theorem refers_next {u : LockSystem} (hu : u.threads = s.threads) {i : Nat} {t : Thread}
    (hi : s.threads[i]? = some t) (now : InFlight) (rest : Thread) :
    (u.setThread i (.going now :: rest)).Refers i now := by
  refine ⟨rest, ?_⟩
  show (u.threads.set i _)[i]? = _
  rw [hu, List.getElem?_set_self (List.getElem?_eq_some_iff.mp hi).1]

/-- An element of one of the lists only is in all of them as often as in that one. -/
theorem count_flatten_of_only {α : Type} [DecidableEq α] {ls : List (List α)} {x : α} {i : Nat}
    {a : List α} (hi : ls[i]? = some a) (h : ∀ j l, ls[j]? = some l → x ∈ l → j = i) :
    ls.flatten.count x = a.count x := by
  induction ls generalizing i with
  | nil => simp at hi
  | cons l ls ih =>
    rw [List.flatten_cons, List.count_append]
    cases i with
    | zero =>
      obtain rfl := Option.some.inj hi
      have hrest : x ∉ ls.flatten := fun hx => by
        obtain ⟨b, hb, hxb⟩ := List.mem_flatten.mp hx
        obtain ⟨k, hk⟩ := List.mem_iff_getElem?.mp hb
        exact absurd (h (k + 1) b hk hxb) (Nat.succ_ne_zero k)
      rw [List.count_eq_zero_of_not_mem hrest, Nat.add_zero]
    | succ i =>
      have hfirst : x ∉ l := fun hx => absurd (h 0 l rfl hx).symm (Nat.succ_ne_zero i)
      rw [List.count_eq_zero_of_not_mem hfirst, Nat.zero_add]
      exact ih hi fun j b hj hx => Nat.succ.inj (h (j + 1) b hj hx)

/-- A record is spared only because of a reference that another thread has. -/
theorem Bound.exists_other (hb : s.Bound) {i : Nat} {now : InFlight} {rest : Thread}
    (hi : s.threads[i]? = some (.going now :: rest))
    (h : 2 < s.refCount now.page now.record) :
    ∃ j other, j ≠ i ∧ s.Refers j other ∧ other.record = now.record := by
  apply Classical.byContradiction
  intro hnone
  -- a thread refers to a record for the call that it is in, and for no later one
  have hhead {j : Nat} {t : Thread} (hj : s.threads[j]? = some t)
      (hx : now.record ∈ Thread.refs t) :
      ∃ other, s.Refers j other ∧ other.record = now.record := by
    obtain ⟨w, hw, hrec⟩ := List.mem_filterMap.mp hx
    cases t with
    | nil => simp at hw
    | cons first more =>
      rcases List.mem_cons.mp hw with rfl | hmore
      · cases w with
        | start => simp [Work.record?] at hrec
        | going other => exact ⟨other, ⟨more, hj⟩, Option.some.inj hrec⟩
      · rw [hb.single hj w hmore] at hrec
        simp at hrec
  have hi' : (s.threads.map Thread.refs)[i]? = some (Thread.refs (.going now :: rest)) := by
    rw [List.getElem?_map, hi]
    rfl
  have hcount := count_flatten_of_only hi' fun j l hj hx => by
    rw [List.getElem?_map] at hj
    obtain ⟨t, ht, rfl⟩ := Option.map_eq_some_iff.mp hj
    obtain ⟨other, ho, hrec⟩ := hhead ht hx
    exact Decidable.byContradiction fun hne => hnone ⟨j, other, hne, ho, hrec⟩
  have hown : (Thread.refs (.going now :: rest)).count now.record = 1 := by
    have hrest : Thread.refs rest = [] :=
      List.filterMap_eq_nil_iff.mpr (hb.single hi)
    have hcons : Thread.refs (.going now :: rest) = now.record :: Thread.refs rest := rfl
    rw [hcons, hrest]
    simp
  rw [refCount, List.flatMap_def, hcount, hown] at h
  split at h <;> omega

/-! ## One section -/

theorem fetchRecord_other {q : PageId} (h : q ≠ page) :
    (s.fetchRecord q).2.table[page]? = s.table[page]? := by
  unfold fetchRecord
  split
  · rfl
  · show (s.table.insert q s.records.size)[page]? = _
    rw [Std.ExtTreeMap.getElem?_insert, if_neg (by simpa using h)]

section OneSection

variable {work : Work} {u : LockSystem} {next : Option InFlight}

/-- A section leaves every page alone that it is not about. -/
theorem Section.apart (h : s.Section work u next) (hf : s.Filed)
    (ht : ∀ w, work = .going w → w.stage ≠ .leaving → s.table[w.page]? = some w.record)
    (hstart : ∀ call, work ≠ .start page call)
    (hgoing : ∀ w, work = .going w → w.stage ≠ .leaving → w.page ≠ page) :
    u.table[page]? = s.table[page]? ∧
      ∀ no, s.table[page]? = some no → u.record no = s.record no := by
  refine ⟨?_, fun no hno => h.record_other hf ht fun w hw hs heq => ?_⟩
  · rcases h.table with hu | ⟨q, txn, access, rfl, rfl⟩ | ⟨now, rfl, hs, -, -, -, rfl⟩
    · rw [hu]
    · exact fetchRecord_other fun hq => hstart (.lock txn access) (by rw [hq])
    · have hne := hgoing now rfl (by rw [hs]; decide)
      show (s.table.erase now.page)[page]? = _
      rw [Std.ExtTreeMap.getElem?_erase, if_neg (by simpa using hne)]
  · subst heq
    exact hgoing w hw hs (hf.once (ht w hw hs) hno)

/-- A record that is left behind stays so in every section but one that begins a call for
its page. -/
theorem Section.leaves_behind (h : s.Section work u next) (hf : s.Filed)
    (ht : ∀ w, work = .going w → w.stage ≠ .leaving → s.table[w.page]? = some w.record)
    (hno : s.table[page]? = some no) (hidle : (s.record no).isIdle = true)
    (hleave : ∀ w, work = .going w → w.record = no → w.stage = .leaving)
    (hstart : ∀ call, work ≠ .start page call) :
    u.table[page]? = some no ∧ (u.record no).isIdle = true ∧
      ∀ now, next = some now → now.record = no → now.stage = .leaving := by
  obtain ⟨htable, hrecord⟩ := h.apart hf ht hstart fun w hw hs hp =>
    hs (hleave w hw (Option.some.inj ((ht w hw hs).symm.trans (hp ▸ hno))))
  rw [hrecord no hno]
  refine ⟨htable.trans hno, hidle, fun now hnow hrec => ?_⟩
  -- a call that begins has the record of another page
  have hother {q : PageId} {call : PageCall} (hwork : work = .start q call)
      (hq : u.table[q]? = some no) : now.stage = .leaving := by
    have hpage := (h.filed hf).once hq (htable.trans hno)
    exact absurd (hpage ▸ hwork) (hstart call)
  cases h with
  | requested =>
    obtain rfl := Option.some.inj hnow
    exact hother rfl (hrec ▸ fetchRecord_table s _)
  | found hq =>
    obtain rfl := Option.some.inj hnow
    exact hother rfl (hrec ▸ hq)
  | missed | left => simp at hnow
  | granted | reclaimed =>
    obtain rfl := Option.some.inj hnow
    rfl
  | blocked hs | released hs | stripped hs =>
    obtain rfl := Option.some.inj hnow
    exact absurd (hleave _ rfl hrec) hs

/-- A call that begins does not leave the record of its page behind: it refers to it. -/
theorem Section.begun {call : PageCall} (h : s.Section (.start page call) u next)
    (hno : u.table[page]? = some no) :
    ∃ now, next = some now ∧ now.record = no ∧ now.stage = .entering := by
  cases h with
  | requested => exact ⟨_, rfl, Option.some.inj ((fetchRecord_table s page).symm.trans hno), rfl⟩
  | found hq => exact ⟨_, rfl, Option.some.inj (hq.symm.trans hno), rfl⟩
  | missed hnone => simp [hnone] at hno

/-- If a call leaves the record of its page behind, it has given it up in vain. -/
theorem Section.left_in_vain {w : InFlight} (h : s.Section (.going w) u next) (hf : s.Filed)
    (htab : s.table[w.page]? = some w.record) (hs : w.stage ≠ .leaving)
    (hno : u.table[w.page]? = some no) (hidle : (u.record no).isIdle = true)
    (hleave : ∀ now, next = some now → now.record = no → now.stage = .leaving) :
    w.stage = .reclaiming ∧ w.record = no ∧ (s.record no).isIdle = true ∧
      2 < s.refCount w.page no := by
  have hsame (hu : u.table = s.table) : w.record = no := by
    rw [hu, htab] at hno
    exact Option.some.inj hno
  cases h with
  | @granted _ txn access _ _ _ hg =>
    -- whoever is granted the request holds the page
    obtain ⟨r, hr, rfl⟩ := Option.map_eq_some_iff.mp hg
    obtain rfl := hsame rfl
    have hrecord := record_setRecord (hf.made htab) r w.record
    rw [if_pos rfl] at hrecord
    have hheld := LockRecord.holders_of_grant? hr
    exact absurd hheld (LockRecord.isIdle_iff_holders.mp (hrecord ▸ hidle) txn)
  | @blocked _ stage _ hst => exact absurd (hleave _ rfl (hsame rfl)) hst
  | @released _ txn =>
    have hu : (s.release w.page w.record txn).table = s.table := by
      unfold release
      split <;> rfl
    exact absurd (hleave _ rfl (hsame hu)) (by simp)
  | stripped => exact absurd (hleave _ rfl (hsame rfl)) (by simp)
  | reclaimed hstage =>
    unfold reclaim at hno hidle
    split at hno
    · simp at hno
    · rename_i hrefused
      rw [if_neg hrefused] at hidle
      obtain rfl := Option.some.inj (htab.symm.trans hno)
      exact ⟨hstage, rfl, hidle, Nat.lt_of_not_le fun hle => hrefused ⟨hle, hidle, hno⟩⟩
  | left hleft => exact absurd hleft hs

/-- If a section ends with a record left behind, it began so, or its call has given the record
up in vain. -/
theorem Section.left_behind (h : s.Section work u next) (hf : s.Filed)
    (ht : ∀ w, work = .going w → w.stage ≠ .leaving → s.table[w.page]? = some w.record)
    (hno : u.table[page]? = some no) (hidle : (u.record no).isIdle = true)
    (hleave : ∀ now, next = some now → now.record = no → now.stage = .leaving) :
    (s.table[page]? = some no ∧ (s.record no).isIdle = true ∧
      ∀ w, work = .going w → w.record = no → w.stage = .leaving) ∨
      ∃ w, work = .going w ∧ w.stage = .reclaiming ∧ w.page = page ∧ w.record = no ∧
        (s.record no).isIdle = true ∧ 2 < s.refCount page no := by
  by_cases hgoing : ∃ w, work = .going w ∧ w.stage ≠ .leaving ∧ w.page = page
  · obtain ⟨w, rfl, hs, rfl⟩ := hgoing
    obtain ⟨hstage, hrec, hidle', hcount⟩ :=
      h.left_in_vain hf (ht w rfl hs) hs hno hidle hleave
    exact .inr ⟨w, rfl, hstage, rfl, hrec, hidle', hcount⟩
  · have hstart (call : PageCall) : work ≠ .start page call := by
      rintro rfl
      obtain ⟨now, hnow, hrec, hstage⟩ := h.begun hno
      exact absurd (hleave now hnow hrec) (by simp [hstage])
    obtain ⟨htable, hrecord⟩ := h.apart hf ht hstart fun w hw hs hp => hgoing ⟨w, hw, hs, hp⟩
    rw [htable] at hno
    rw [hrecord no hno] at hidle
    refine .inl ⟨hno, hidle, fun w hw hrec => ?_⟩
    apply Decidable.byContradiction
    intro hs
    exact hgoing ⟨w, hw, hs, hf.once (hrec ▸ ht w hw hs) hno⟩

end OneSection

/-! ## Every step -/

/-- The table has a record for the page, nobody holds it, and whoever refers to it is only to
drop the reference. -/
def Abandoned (s : LockSystem) (page : PageId) : Prop :=
  ∃ no, s.table[page]? = some no ∧ (s.record no).isIdle = true ∧
    ∀ i now, s.Refers i now → now.record = no → now.stage = .leaving

/-- A call is about to give up a record that nobody holds. Others refer to the record, and all
of them are only to drop their references. -/
structure Crossing (s : LockSystem) (i : Nat) (now : InFlight) : Prop where
  refers : s.Refers i now
  stage : now.stage = .reclaiming
  idle : (s.record now.record).isIdle = true
  other : ∃ j other, j ≠ i ∧ s.Refers j other ∧ other.record = now.record
  leaving : ∀ j other, j ≠ i → s.Refers j other → other.record = now.record →
    other.stage = .leaving

/-- A call for the page gives its record up in vain. -/
def Crosses (page : PageId) (s s' : LockSystem) : Prop :=
  ∃ i now waitOver, s.Crossing i now ∧ now.page = page ∧ s.run i waitOver = some s'

/-- A call for the page takes its reference. -/
def Comes (page : PageId) (s s' : LockSystem) : Prop :=
  ∃ i now, s'.Refers i now ∧ now.page = page ∧ now.stage = .entering ∧ ∀ w, ¬ s.Refers i w

/-- A thread without work refers to nothing, and nor does it when it has only begun. -/
theorem abandoned_started {i : Nat} {t : Thread} (hi : s.threads[i]? = some [])
    (ht : ∀ w ∈ t, ∃ page call, w = .start page call) :
    (s.setThread i t).Abandoned page ↔ s.Abandoned page := by
  have hrefers {j : Nat} {now : InFlight} :
      (s.setThread i t).Refers j now ↔ s.Refers j now := by
    refine ⟨refers_of_started ht, fun hr => (refers_other rfl ?_ t).mpr hr⟩
    rintro rfl
    obtain ⟨rest, hrest⟩ := hr
    simp [hi] at hrest
  have hrecord (no : RecordNo) : (s.setThread i t).record no = s.record no := rfl
  have htable : (s.setThread i t).table = s.table := rfl
  simp only [Abandoned, hrefers, hrecord, htable]

/-- A call that comes for a page refers to its record, and it does not leave yet. -/
theorem Bound.not_comes (hb : s'.Bound) (ha : s'.Abandoned page) : ¬ Comes page s s' := by
  rintro ⟨i, now, hr, rfl, hstage, -⟩
  obtain ⟨no, hno, -, hleave⟩ := ha
  have hne : now.stage ≠ .leaving := by simp [hstage]
  obtain ⟨rest, hi⟩ := id hr
  have hrec := Option.some.inj ((hb.tabled hi hne).symm.trans hno)
  exact hne (hleave i now hr hrec)

theorem run_reclaiming {i : Nat} {now : InFlight} {rest : Thread}
    (hi : s.threads[i]? = some (.going now :: rest)) (hs : now.stage = .reclaiming)
    (waitOver : Bool) : s.run i waitOver = some ((s.reclaim now.page now.record).setThread i
      (.going { now with stage := .leaving } :: rest)) := by
  simp [run, hi, proceed, hs]

/-- A call that gives a record up in vain leaves its page abandoned. -/
theorem Bound.abandoned_crossed (hb : s.Bound) (hc : Crosses page s s') : s'.Abandoned page := by
  obtain ⟨i, now, waitOver, hc, rfl, hrun⟩ := hc
  obtain ⟨rest, hi⟩ := hc.refers
  have htable := hb.tabled hi (by simp [hc.stage])
  have hrefused : s.reclaim now.page now.record = s := by
    obtain ⟨j, other, hij, ⟨more, hj⟩, hrec⟩ := hc.other
    have hlt := two_lt_refCount (Ne.symm hij) hi hj hrec htable
    rw [reclaim, if_neg fun h => Nat.not_le_of_lt hlt h.1]
  rw [run_reclaiming hi hc.stage, hrefused] at hrun
  obtain rfl := Option.some.inj hrun
  refine ⟨now.record, htable, hc.idle, fun j w hr hrec => ?_⟩
  by_cases hij : j = i
  · subst hij
    obtain rfl := (refers_next rfl hi { now with stage := .leaving } rest).unique hr
    rfl
  · exact hc.leaving j w hij ((refers_other rfl hij _).mp hr) hrec

/-- A page remains abandoned until a call comes for it. -/
theorem Bound.abandoned_passed (hb : s.Bound) (hs : Step s s') (ha : s.Abandoned page)
    (hcomes : ¬ Comes page s s') : s'.Abandoned page := by
  cases hs with
  | call i q call hi => exact (abandoned_started hi (by simp)).mpr ha
  | releaseAll i txn hi =>
    refine (abandoned_started hi fun w hw => ?_).mpr ha
    obtain ⟨q, -, rfl⟩ := List.mem_map.mp hw
    exact ⟨q, .release txn, rfl⟩
  | run i waitOver _ hr =>
    obtain ⟨work, rest, u, next, hi, hsec, rfl⟩ := section_of_run hr
    obtain ⟨no, hno, hidle, hleave⟩ := ha
    have hstart (call : PageCall) : work ≠ .start page call := by
      rintro rfl
      have hfresh (w : InFlight) : ¬ s.Refers i w := by
        rintro ⟨more, hm⟩
        simp [hi] at hm
      cases hsec with
      | requested =>
        have hthreads := threads_fetchRecord s page
        exact hcomes ⟨i, _, refers_next hthreads hi _ _, rfl, rfl, hfresh⟩
      | found => exact hcomes ⟨i, _, refers_next rfl hi _ _, rfl, rfl, hfresh⟩
      | missed hnone => simp [hnone] at hno
    obtain ⟨hno', hidle', hnext⟩ := hsec.leaves_behind hb.filed
      (fun w hw hs => hb.tabled (hw ▸ hi) hs) hno hidle
      (fun w hw hrec => hleave i w ⟨rest, hw ▸ hi⟩ hrec) hstart
    refine ⟨no, hno', hidle', fun j now hr hrec => ?_⟩
    rcases hb.refers_ran hi hsec hr with ⟨rfl, heq⟩ | ⟨-, hold⟩
    · exact hnext now heq hrec
    · exact hleave j now hold hrec

/-- A page that is abandoned after a step was so before, or a call has given its record up in
vain. -/
theorem Bound.abandoned_before (hb : s.Bound) (hs : Step s s') (ha : s'.Abandoned page) :
    s.Abandoned page ∨ Crosses page s s' := by
  cases hs with
  | call i q call hi => exact .inl ((abandoned_started hi (by simp)).mp ha)
  | releaseAll i txn hi =>
    refine .inl ((abandoned_started hi fun w hw => ?_).mp ha)
    obtain ⟨q, -, rfl⟩ := List.mem_map.mp hw
    exact ⟨q, .release txn, rfl⟩
  | run i waitOver _ hr =>
    obtain ⟨work, rest, u, next, hi, hsec, rfl⟩ := section_of_run hr
    obtain ⟨no, hno, hidle, hleave⟩ := ha
    have hnext (now : InFlight) (heq : next = some now) (hrec : now.record = no) :
        now.stage = .leaving := by
      subst heq
      exact hleave i now (refers_next hsec.threads hi now rest) hrec
    have hothers (j : Nat) (w : InFlight) (hj : j ≠ i) (hr : s.Refers j w) (hrec : w.record = no) :
        w.stage = .leaving := hleave j w ((refers_other hsec.threads hj _).mpr hr) hrec
    rcases hsec.left_behind hb.filed (fun w hw hs => hb.tabled (hw ▸ hi) hs) hno hidle hnext with
      ⟨hno', hidle', hown⟩ | ⟨now, rfl, hstage, rfl, rfl, hidle', hcount⟩
    · refine .inl ⟨no, hno', hidle', fun j w hr hrec => ?_⟩
      by_cases hij : j = i
      · obtain ⟨more, hm⟩ := hij ▸ hr
        rw [hi] at hm
        exact hown w (List.cons.inj (Option.some.inj hm)).1 hrec
      · exact hothers j w hij hr hrec
    · have hother := hb.exists_other hi hcount
      exact .inr ⟨i, now, waitOver, ⟨⟨rest, hi⟩, hstage, hidle', hother, hothers⟩, rfl, hr⟩

/-! ## Whole runs -/

/-- A call has once given the page's record up in vain, and no call has come for the page
since. -/
def Forsaken (s : LockSystem) (page : PageId) : Prop :=
  ∃ s₀ s₁, s₀.Reachable ∧ Crosses page s₀ s₁ ∧
    Relation.ReflTransGen (fun a b => Step a b ∧ ¬ Comes page a b) s₁ s

theorem Crosses.step (h : Crosses page s s') : Step s s' := by
  obtain ⟨i, now, waitOver, -, -, hrun⟩ := h
  exact .run i waitOver s' hrun

theorem Reachable.abandoned_iff (h : s.Reachable) : s.Abandoned page ↔ s.Forsaken page := by
  constructor
  · intro ha
    induction h with
    | idle threads =>
      obtain ⟨no, hno, -⟩ := ha
      simp [LockSystem.idle] at hno
    | @step s s' hr hs ih =>
      have hcomes : ¬ Comes page s s' := (hr.bound.step hs).not_comes ha
      rcases hr.bound.abandoned_before hs ha with hbefore | hc
      · obtain ⟨s₀, s₁, h₀, hc, path⟩ := ih hbefore
        exact ⟨s₀, s₁, h₀, hc, path.tail ⟨hs, hcomes⟩⟩
      · exact ⟨s, s', hr, hc, .refl⟩
  · rintro ⟨s₀, s₁, h₀, hc, path⟩
    clear h
    have hboth : s.Reachable ∧ s.Abandoned page := by
      induction path with
      | refl => exact ⟨.step h₀ hc.step, h₀.bound.abandoned_crossed hc⟩
      | tail _ hlast ih =>
        exact ⟨.step ih.1 hlast.1, ih.1.bound.abandoned_passed hlast.1 ih.2 hlast.2⟩
    exact hboth.2

theorem Reachable.holds_iff (h : s.Reachable) {txn : TxnId} :
    s.manager.holds txn page = true ↔
      ∃ no, s.table[page]? = some no ∧ txn ∈ (s.record no).holders := by
  have hc := (LockManager.Reached.threaded h).consistent
  rw [LockManager.holds, Option.isSome_iff_ne_none, hc.agree]
  cases hno : s.table[page]? with
  | none =>
    rw [manager_record_none hno]
    simp
  | some no =>
    rw [manager_record hno]
    simp [LockRecord.mem_holders]

/-- No call has a reference to a record. -/
def Resting (s : LockSystem) : Prop := ∀ i now, ¬ s.Refers i now

/-- However the sections of many threads interleave: while no call is under way, the table
has a record for a page just if somebody holds the page, or the record stays behind, because
the last call that gave it up was refused on account of others that were only to leave, and
none has come for the page since. -/
theorem Reachable.record_stays_iff (h : s.Reachable) (hr : s.Resting) (page : PageId) :
    (∃ no, s.table[page]? = some no) ↔
      (∃ txn, s.manager.holds txn page = true) ∨ s.Forsaken page := by
  rw [← h.abandoned_iff]
  constructor
  · rintro ⟨no, hno⟩
    cases hidle : (s.record no).isIdle with
    | true => exact .inr ⟨no, hno, hidle, fun i now hi => absurd hi (hr i now)⟩
    | false =>
      left
      apply Classical.byContradiction
      intro hnobody
      refine absurd (LockRecord.isIdle_iff_holders.mpr fun txn ht => ?_) (by rw [hidle]; decide)
      exact hnobody ⟨txn, h.holds_iff.mpr ⟨no, hno, ht⟩⟩
  · rintro (⟨txn, ht⟩ | ⟨no, hno, -⟩)
    · obtain ⟨no, hno, -⟩ := h.holds_iff.mp ht
      exact ⟨no, hno⟩
    · exact ⟨no, hno⟩

/-- Two readers have locked a page, one after the other. -/
def shared : LockSystem :=
  (((idle 2).setThread 0 [.start ⟨1, 0⟩ (.lock ⟨1⟩ .read)]).sections [0, 0, 0]
    |>.setThread 1 [.start ⟨1, 0⟩ (.lock ⟨2⟩ .read)]).sections [1, 1, 1]

/-- They have released it at the same time: each has taken its reference before the other one
dropped its own. -/
def forgotten : LockSystem :=
  ((shared.setThread 0 [.start ⟨1, 0⟩ (.release ⟨1⟩)]).setThread 1
    [.start ⟨1, 0⟩ (.release ⟨2⟩)]).sections [0, 1, 0, 1, 0, 1, 0, 1]

theorem reachable_forgotten : forgotten.Reachable := by
  have h : shared.Reachable :=
    ((Reachable.idle 2).called (by decide +kernel) _ _ _).called (by decide +kernel) _ _ _
  have hcalls := Reachable.step h (.call 0 ⟨1, 0⟩ (.release ⟨1⟩) (by decide +kernel))
  exact hcalls.called (by decide +kernel) _ _ _

theorem resting_of_nil (h : ∀ t ∈ s.threads, t = []) : s.Resting := by
  rintro i now ⟨rest, hi⟩
  simpa using h _ (List.mem_of_getElem? hi)

/-- The record of a page that two readers release at the same time stays behind. -/
theorem Reachable.record_stays_iff_forgotten :
    forgotten.Reachable ∧ forgotten.Resting ∧ forgotten.Forsaken ⟨1, 0⟩ := by
  have hresting : forgotten.Resting := resting_of_nil (by decide +kernel)
  refine ⟨reachable_forgotten, hresting, ?_⟩
  rcases (reachable_forgotten.record_stays_iff hresting ⟨1, 0⟩).mp ⟨0, by decide +kernel⟩ with
    ⟨txn, ht⟩ | hforsaken
  · obtain ⟨no, hno, hheld⟩ := reachable_forgotten.holds_iff.mp ht
    have hzero : forgotten.table[(⟨1, 0⟩ : PageId)]? = some 0 := by decide +kernel
    obtain rfl : 0 = no := Option.some.inj (hzero.symm.trans hno)
    have hidle : (forgotten.record 0).isIdle = true := by decide +kernel
    exact absurd hheld (LockRecord.isIdle_iff_holders.mp hidle txn)
  · exact hforsaken

/-- No call is under way and nobody holds the page, but it has a record. -/
theorem forgotten_record : forgotten.Reachable ∧ forgotten.threads = [[], []] ∧
    forgotten.manager.holdersOf ⟨1, 0⟩ = [] ∧ forgotten.held.isEmpty = true ∧
    forgotten.table[(⟨1, 0⟩ : PageId)]? = some 0 :=
  ⟨reachable_forgotten, by decide +kernel, by decide +kernel, by decide +kernel, by decide +kernel⟩

end LockSystem

end RowStore
