import Mathlib.Logic.Relation
import RowStore.Proofs.Lock.Sections

/-!
  Reclaiming — a record is given up only when nobody can miss it.

  A call looks at its record between two sections in which it does not hold the table, and
  meanwhile the record must stay the one that others find. What `Retired` says of the records
  that are not in the table any more is kept by every step (`Retired.step`): nobody holds
  them, and at most one call still refers to one, to drop its reference next. Hence the
  table loses a record only when nobody holds it and nobody else refers to it
  (`Step.table_kept`).

  Main statement: in every interleaving, a reference that may still be used leads to the
  record that the table has for the page, records with holders or waiting requests stay in
  the table, and so no page has two records with holders, nor a writer beside another holder
  (`Reachable.reclaims`). Only a reference that is about to be dropped may lead to a record
  that its call has given up, while the page has another one by then (`stale_reference`).
-/

namespace RowStore

namespace LockSystem

variable {s s' : LockSystem}

theorem Refers.unique {i : Nat} {now other : InFlight} (h : s.Refers i now)
    (ho : s.Refers i other) : other = now := by
  obtain ⟨rest, hr⟩ := h
  obtain ⟨more, hm⟩ := ho
  rw [hr] at hm
  exact (Work.going.inj (List.cons.inj (Option.some.inj hm)).1).symm

/-- What holds of the records that have left the table, and of the references to them. -/
structure Retired (s : LockSystem) : Prop where
  made : ∀ {i : Nat} {now : InFlight}, s.Refers i now → now.record < s.records.size
  /-- A record that a call refers to is in the table for the call's page or for none. -/
  own : ∀ {i : Nat} {now : InFlight}, s.Refers i now → ∀ page,
    s.table[page]? = some now.record → page = now.page
  idle : ∀ {no : RecordNo}, (∀ page : PageId, s.table[page]? ≠ some no) →
    (s.record no).isIdle = true
  /-- One call at most refers to a record that is not in the table. -/
  last : ∀ {i j : Nat} {now other : InFlight}, s.Refers i now → s.Refers j other →
    other.record = now.record → s.table[now.page]? ≠ some now.record → j = i

/-! ## One section -/

theorem record_fetchRecord (s : LockSystem) (page : PageId) (no : RecordNo) :
    (s.fetchRecord page).2.record no = s.record no := by
  unfold fetchRecord
  split
  · rfl
  · show (s.records.push .idle).getD no .idle = s.records.getD no .idle
    rw [Array.getD_eq_getD_getElem?, Array.getD_eq_getD_getElem?, Array.getElem?_push]
    split
    · rename_i hno
      rw [Array.getElem?_eq_none (Nat.le_of_eq hno.symm)]
      rfl
    · rfl

/-- A section changes only the record that its thread refers to. -/
theorem Section.record_other {work : Work} {u : LockSystem} {next : Option InFlight}
    (h : s.Section work u next) (hf : s.Filed)
    (ht : ∀ w, work = .going w → w.stage ≠ .leaving → s.table[w.page]? = some w.record)
    {no : RecordNo} (hn : ∀ w, work = .going w → w.stage ≠ .leaving → no ≠ w.record) :
    u.record no = s.record no := by
  have hset {w : InFlight} (hw : work = .going w) (hs : w.stage ≠ .leaving) (r : LockRecord) :
      (s.setRecord w.record r).record no = s.record no := by
    rw [record_setRecord (hf.made (ht w hw hs)), if_neg (hn w hw hs)]
  cases h with
  | requested => exact record_fetchRecord s _ no
  | @granted now txn access _ hs _ hg =>
    obtain ⟨r, -, rfl⟩ := Option.map_eq_some_iff.mp hg
    exact hset rfl hs r
  | @released now txn hs =>
    unfold release
    split
    · exact hset rfl hs _
    · rfl
  | @stripped now hs => exact hset rfl hs .idle
  | reclaimed =>
    unfold reclaim
    split <;> rfl
  | found | missed | blocked | left => rfl

/-- A section changes no record that is not in the table. -/
theorem Section.record_kept {work : Work} {u : LockSystem} {next : Option InFlight}
    (h : s.Section work u next) (hf : s.Filed)
    (ht : ∀ w, work = .going w → w.stage ≠ .leaving → s.table[w.page]? = some w.record)
    {no : RecordNo} (hn : ∀ page : PageId, s.table[page]? ≠ some no) :
    u.record no = s.record no :=
  h.record_other hf ht fun w hw hs heq => hn w.page (heq ▸ ht w hw hs)

/-- A record that was made before is in the table only where it was. -/
theorem Section.table_old {work : Work} {u : LockSystem} {next : Option InFlight}
    (h : s.Section work u next) {no : RecordNo} (hno : no < s.records.size) {page : PageId}
    (ht : u.table[page]? = some no) : s.table[page]? = some no := by
  rcases h.table with hu | ⟨q, txn, access, -, rfl⟩ | ⟨now, -, -, -, -, -, rfl⟩
  · rw [← hu]
    exact ht
  · unfold fetchRecord at ht
    split at ht
    · exact ht
    · have hinsert : (s.table.insert q s.records.size)[page]? = some no := ht
      rw [Std.ExtTreeMap.getElem?_insert] at hinsert
      split at hinsert
      · obtain rfl := Option.some.inj hinsert
        exact absurd hno (Nat.lt_irrefl _)
      · exact hinsert
  · have herased : (s.table.erase now.page)[page]? = some no := ht
    rw [Std.ExtTreeMap.getElem?_erase] at herased
    split at herased
    · simp at herased
    · exact herased

/-- The reference of a call that goes on: a new one to a record in the table, or the one
that it had. -/
theorem Section.reference {work : Work} {u : LockSystem} {now : InFlight}
    (h : s.Section work u (some now)) : u.table[now.page]? = some now.record ∨
      ∃ w, work = .going w ∧ now.page = w.page ∧ now.record = w.record := by
  cases h with
  | requested => exact .inl (fetchRecord_table s _)
  | found hf => exact .inl hf
  | granted | blocked | released | stripped | reclaimed => exact .inr ⟨_, rfl, rfl, rfl⟩

/-- A section takes a record out of the table only if nobody holds it, and the thread has
the only reference and gives it up. -/
theorem Section.removed {i : Nat} {work : Work} {rest : Thread} {u : LockSystem}
    {next : Option InFlight} (h : s.Section work u next)
    (hi : s.threads[i]? = some (work :: rest)) {page : PageId} {no : RecordNo}
    (ht : s.table[page]? = some no) (hu : u.table[page]? ≠ some no) :
    (s.record no).isIdle = true ∧ u.record no = s.record no ∧
      (∃ now, work = .going now ∧ now.stage = .reclaiming) ∧
      ∀ j other, s.Refers j other → other.record = no → j = i := by
  rcases h.table with heq | ⟨q, txn, access, -, rfl⟩ | ⟨now, rfl, hs, hle, hidle, hnow, rfl⟩
  · rw [heq] at hu
    exact absurd ht hu
  · exact absurd (fetchRecord_kept q ht) hu
  · have hpage : page = now.page := by
      apply Decidable.byContradiction
      intro hne
      apply hu
      show (s.table.erase now.page)[page]? = _
      rw [Std.ExtTreeMap.getElem?_erase, if_neg (by simpa using Ne.symm hne), ht]
    subst hpage
    obtain rfl : now.record = no := Option.some.inj (hnow.symm.trans ht)
    refine ⟨hidle, rfl, ⟨now, rfl, hs⟩, ?_⟩
    rintro j other ⟨more, hj⟩ hrecord
    apply Decidable.byContradiction
    intro hne
    have hlt := two_lt_refCount (Ne.symm hne) hi hj hrecord hnow
    omega

/-- A record that a section makes is in the table. -/
theorem Section.made_new {work : Work} {u : LockSystem} {next : Option InFlight}
    (h : s.Section work u next) {no : RecordNo} (hno : no < u.records.size)
    (hnew : s.records.size ≤ no) : ∃ page : PageId, u.table[page]? = some no := by
  have hsame (hsize : u.records.size = s.records.size) : ∃ page : PageId, u.table[page]? = some no :=
    absurd hno (Nat.not_lt_of_le (hsize ▸ hnew))
  cases h with
  | @requested page =>
    cases hpage : s.table[page]? with
    | some k => exact hsame (by simp [fetchRecord, hpage])
    | none =>
      have hsize : (s.fetchRecord page).2.records.size = s.records.size + 1 := by
        simp [fetchRecord, hpage]
      have hnumber : (s.fetchRecord page).1 = s.records.size := by simp [fetchRecord, hpage]
      rw [hsize] at hno
      have hle : no ≤ s.records.size := Nat.le_of_lt_succ hno
      obtain rfl : no = (s.fetchRecord page).1 := (Nat.le_antisymm hle hnew).trans hnumber.symm
      exact ⟨page, fetchRecord_table s page⟩
  | granted _ _ hg =>
    obtain ⟨r, -, rfl⟩ := Option.map_eq_some_iff.mp hg
    exact hsame (by simp [setRecord])
  | released =>
    apply hsame
    unfold release
    split <;> simp [setRecord]
  | stripped => exact hsame (by simp [strip, setRecord])
  | reclaimed =>
    apply hsame
    unfold reclaim
    split <;> rfl
  | found | missed | blocked | left => exact hsame rfl

/-! ## Every step -/

theorem retired_idle (threads : Nat) : (idle threads).Retired := by
  have hnone {i : Nat} {now : InFlight} : ¬ (idle threads).Refers i now := by
    rintro ⟨rest, h⟩
    have hreplicate : (List.replicate threads ([] : Thread))[i]? = some (.going now :: rest) := h
    rw [List.getElem?_replicate] at hreplicate
    split at hreplicate <;> simp at hreplicate
  exact ⟨fun h => absurd h hnone, fun h => absurd h hnone, fun _ => rfl,
    fun h => absurd h hnone⟩

theorem Retired.started (h : s.Retired) (i : Nat) {t : Thread}
    (ht : ∀ w ∈ t, ∃ page call, w = .start page call) : (s.setThread i t).Retired where
  made hr := h.made (refers_of_started ht hr)
  own hr := h.own (refers_of_started ht hr)
  idle := h.idle
  last hr ho := h.last (refers_of_started ht hr) (refers_of_started ht ho)

theorem Retired.ran (h : s.Retired) (hb : s.Bound) {i : Nat} {work : Work} {rest : Thread}
    {u : LockSystem} {next : Option InFlight} (hi : s.threads[i]? = some (work :: rest))
    (hsec : s.Section work u next) :
    (u.setThread i ((next.map Work.going).toList ++ rest)).Retired := by
  have hfiled := hsec.filed hb.filed
  have htabled : ∀ w, work = .going w → w.stage ≠ .leaving → s.table[w.page]? = some w.record :=
    fun w hw hs => hb.tabled (hw ▸ hi) hs
  -- a reference is new and in the table, or somebody had it before
  have hcases {j : Nat} {now : InFlight}
      (hr : (u.setThread i ((next.map Work.going).toList ++ rest)).Refers j now) :
      u.table[now.page]? = some now.record ∨
        ∃ w, s.Refers j w ∧ now.page = w.page ∧ now.record = w.record := by
    rcases hb.refers_ran hi hsec hr with ⟨rfl, rfl⟩ | ⟨-, hold⟩
    · rcases hsec.reference with ht | ⟨w, rfl, hp, hrec⟩
      · exact .inl ht
      · exact .inr ⟨w, ⟨rest, hi⟩, hp, hrec⟩
    · exact .inr ⟨now, hold, rfl, rfl⟩
  have hown {j : Nat} {now : InFlight}
      (hr : (u.setThread i ((next.map Work.going).toList ++ rest)).Refers j now) (page : PageId)
      (ht : u.table[page]? = some now.record) : page = now.page := by
    rcases hcases hr with hnew | ⟨w, hw, hp, hrec⟩
    · exact hfiled.once ht hnew
    · rw [hp]
      rw [hrec] at ht
      exact h.own hw page (hsec.table_old (h.made hw) ht)
  refine ⟨?_, fun hr => hown hr, ?_, ?_⟩
  · intro j now hr
    rcases hcases hr with hnew | ⟨w, hw, -, hrec⟩
    · exact hfiled.made hnew
    · rw [hrec]
      exact Nat.lt_of_lt_of_le (h.made hw) hsec.size_le
  · intro no hn
    show (u.record no).isIdle = true
    by_cases hs : ∃ page : PageId, s.table[page]? = some no
    · obtain ⟨page, hpage⟩ := hs
      obtain ⟨hidle, hsame, -⟩ := hsec.removed hi hpage (hn page)
      rw [hsame]
      exact hidle
    · have hn' : ∀ page : PageId, s.table[page]? ≠ some no := fun page hp => hs ⟨page, hp⟩
      rw [hsec.record_kept hb.filed htabled hn']
      exact h.idle hn'
  · intro j k now other hr ho hrecord hout
    rcases hcases hr with hnew | ⟨w, hw, hp, hrec⟩
    · exact absurd hnew hout
    rcases hcases ho with hnew | ⟨v, hv, -, hrec'⟩
    · have hpage := hown hr other.page (hrecord ▸ hnew)
      rw [← hpage, ← hrecord] at hout
      exact absurd hnew hout
    · rw [hp, hrec] at hout
      have hsame : v.record = w.record := by rw [← hrec', hrecord, hrec]
      by_cases htable : s.table[w.page]? = some w.record
      · -- the record leaves the table in this section
        obtain ⟨-, -, -, hone⟩ := hsec.removed hi htable hout
        rw [hone j w hw rfl, hone k v hv hsame]
      · exact h.last hw hv hsame htable

theorem Retired.step (h : s.Retired) (hb : s.Bound) (hs : Step s s') : s'.Retired := by
  cases hs with
  | call i page call => exact h.started i (by simp)
  | releaseAll i txn =>
    apply h.started i _
    intro w hw
    obtain ⟨page, -, rfl⟩ := List.mem_map.mp hw
    exact ⟨page, .release txn, rfl⟩
  | run i waitOver _ hr =>
    obtain ⟨work, rest, u, next, hi, hsec, rfl⟩ := section_of_run hr
    exact h.ran hb hi hsec

theorem Reachable.retired (h : s.Reachable) : s.Retired := by
  induction h with
  | idle threads => exact retired_idle threads
  | step hr hs ih => exact ih.step hr.bound hs

theorem Step.size_le (hs : Step s s') : s.records.size ≤ s'.records.size := by
  cases hs with
  | call | releaseAll => exact Nat.le_refl _
  | run i waitOver _ hr =>
    obtain ⟨work, rest, u, next, -, hsec, rfl⟩ := section_of_run hr
    exact hsec.size_le

theorem Step.table_old (hs : Step s s') {no : RecordNo} (hno : no < s.records.size)
    {page : PageId} (ht : s'.table[page]? = some no) : s.table[page]? = some no := by
  cases hs with
  | call | releaseAll => exact ht
  | run i waitOver _ hr =>
    obtain ⟨work, rest, u, next, -, hsec, rfl⟩ := section_of_run hr
    exact hsec.table_old hno ht

theorem Step.made_new (hs : Step s s') {no : RecordNo} (hno : no < s'.records.size)
    (hnew : s.records.size ≤ no) : ∃ page : PageId, s'.table[page]? = some no := by
  cases hs with
  | call | releaseAll => exact absurd hno (Nat.not_lt_of_le hnew)
  | run i waitOver _ hr =>
    obtain ⟨work, rest, u, next, -, hsec, rfl⟩ := section_of_run hr
    exact hsec.made_new hno hnew

/-- A step takes a record out of the table only if nobody holds it, and a call that gives it
up has the only reference to it. -/
theorem Step.table_kept (hs : Step s s') {page : PageId} {no : RecordNo}
    (ht : s.table[page]? = some no) : s'.table[page]? = some no ∨
      ((s.record no).isIdle = true ∧ ∃ i now, s.Refers i now ∧ now.stage = .reclaiming ∧
        ∀ j other, s.Refers j other → other.record = no → j = i) := by
  cases hs with
  | call | releaseAll => exact .inl ht
  | run i waitOver _ hr =>
    obtain ⟨work, rest, u, next, hi, hsec, rfl⟩ := section_of_run hr
    by_cases hu : u.table[page]? = some no
    · exact .inl hu
    · obtain ⟨hidle, -, ⟨now, rfl, hstage⟩, hone⟩ := hsec.removed hi ht hu
      exact .inr ⟨hidle, i, now, ⟨rest, hi⟩, hstage, hone⟩

/-! ## Whole runs -/

/-- A record that was made for a page: it is in the table for the page, or it once was. -/
def MadeFor (s : LockSystem) (page : PageId) (no : RecordNo) : Prop :=
  ∃ s₀, s₀.Reachable ∧ Relation.ReflTransGen Step s₀ s ∧ s₀.table[page]? = some no

theorem MadeFor.step {page : PageId} {no : RecordNo} (h : s.MadeFor page no) (hs : Step s s') :
    s'.MadeFor page no := by
  obtain ⟨s₀, h₀, path, ht⟩ := h
  exact ⟨s₀, h₀, path.tail hs, ht⟩

/-- Every record was made for a page. -/
theorem Reachable.exists_madeFor (h : s.Reachable) {no : RecordNo} (hno : no < s.records.size) :
    ∃ page, s.MadeFor page no := by
  induction h with
  | idle threads => exact absurd hno (Nat.not_lt_zero no)
  | @step s s' hr hs ih =>
    by_cases hold : no < s.records.size
    · obtain ⟨page, hmade⟩ := ih hold
      exact ⟨page, hmade.step hs⟩
    · obtain ⟨page, ht⟩ := hs.made_new hno (Nat.le_of_not_lt hold)
      exact ⟨page, s', .step hr hs, .refl, ht⟩

/-- A record is never in the table for another page than the one it was made for. -/
theorem MadeFor.filed {page : PageId} {no : RecordNo} (h : s.MadeFor page no) :
    no < s.records.size ∧ ∀ q, s.table[q]? = some no → q = page := by
  obtain ⟨s₀, h₀, path, ht⟩ := h
  induction path with
  | refl => exact ⟨h₀.bound.filed.made ht, fun q hq => h₀.bound.filed.once hq ht⟩
  | tail _ hs ih =>
    exact ⟨Nat.lt_of_lt_of_le ih.1 hs.size_le, fun q hq => ih.2 q (hs.table_old ih.1 hq)⟩

/-- A record with a holder is the one that the table has for its page. -/
theorem Reachable.table_of_holder (h : s.Reachable) {page : PageId} {no : RecordNo}
    (hm : s.MadeFor page no) {txn : TxnId} (ht : txn ∈ (s.record no).holders) :
    s.table[page]? = some no := by
  apply Decidable.byContradiction
  intro hout
  have hnowhere : ∀ q : PageId, s.table[q]? ≠ some no := by
    intro q hq
    obtain rfl := hm.filed.2 q hq
    exact hout hq
  rw [LockRecord.isIdle_iff.mp (h.retired.idle hnowhere), LockRecord.mem_holders] at ht
  simp at ht

theorem Reachable.exclusive (h : s.Reachable) {page : PageId} {no : RecordNo}
    (ht : s.table[page]? = some no) : (s.record no).Exclusive := by
  have hc := (LockManager.Reached.threaded h).consistent.exclusive page
  rw [manager_record ht] at hc
  exact hc

/-- However the sections of many threads interleave: as long as a call may still look at its
record, its reference leads to the record that the table has for the page. So does one that
is only to be dropped, unless its call has given the record up, which then nobody holds and
nobody else refers to. A record that somebody holds, or to which a call refers that does not
give it up, as a waiting request does not, stays in the table. Every record is one of a page,
and two records of a page do not both have holders; and whoever holds a page for writing
holds it alone. -/
theorem Reachable.reclaims (h : s.Reachable) :
    (∀ i now, s.Refers i now →
      (now.stage ≠ .leaving → s.table[now.page]? = some now.record) ∧
      (s.table[now.page]? = some now.record ∨ (s.record now.record).isIdle = true ∧
        (∀ page : PageId, s.table[page]? ≠ some now.record) ∧
        ∀ j other, s.Refers j other → other.record = now.record → j = i)) ∧
      (∀ s', Step s s' → ∀ (page : PageId) no, s.table[page]? = some no →
        ((∃ txn, txn ∈ (s.record no).holders) ∨
          ∃ i now, s.Refers i now ∧ now.record = no ∧ now.stage ≠ .reclaiming) →
        s'.table[page]? = some no) ∧
      (∀ no, no < s.records.size → ∃ page, s.MadeFor page no) ∧
      (∀ page no k t u, s.MadeFor page no → s.MadeFor page k → t ∈ (s.record no).holders →
        u ∈ (s.record k).holders → k = no) ∧
      ∀ page no k w u, s.MadeFor page no → s.MadeFor page k →
        (s.record no).mode? w = some .write → u ∈ (s.record k).holders → u = w := by
  have hretired := h.retired
  have hone : ∀ page no k t u, s.MadeFor page no → s.MadeFor page k →
      t ∈ (s.record no).holders → u ∈ (s.record k).holders → k = no := by
    intro page no k t u hno hk ht hu
    have hfirst := h.table_of_holder hno ht
    have hsecond := h.table_of_holder hk hu
    exact Option.some.inj (hsecond.symm.trans hfirst)
  refine ⟨?_, ?_, fun no => h.exists_madeFor, hone, ?_⟩
  · intro i now hr
    refine ⟨?_, ?_⟩
    · obtain ⟨rest, hi⟩ := hr
      exact h.bound.tabled hi
    · by_cases ht : s.table[now.page]? = some now.record
      · exact .inl ht
      · have hnowhere : ∀ page : PageId, s.table[page]? ≠ some now.record := by
          intro page hp
          rw [hretired.own hr page hp] at hp
          exact ht hp
        exact .inr ⟨hretired.idle hnowhere, hnowhere,
          fun j other ho hrec => hretired.last hr ho hrec ht⟩
  · intro s' hs page no ht hneeded
    rcases hs.table_kept ht with hkept | ⟨hidle, i, now, hr, hstage, hlast⟩
    · exact hkept
    · rcases hneeded with ⟨txn, hheld⟩ | ⟨j, other, ho, hrec, hother⟩
      · rw [LockRecord.isIdle_iff.mp hidle, LockRecord.mem_holders] at hheld
        simp at hheld
      · -- the thread that gives the record up would be the one that needs it
        obtain rfl := hlast j other ho hrec
        rw [hr.unique ho] at hother
        exact absurd hstage hother
  · intro page no k w u hno hk hw hu
    have hheld : w ∈ (s.record no).holders := by
      rw [LockRecord.mem_holders, hw]
      simp
    obtain rfl := hone page no k w u hno hk hheld hu
    have hexclusive := h.exclusive (h.table_of_holder hno hheld)
    apply Decidable.byContradiction
    intro hne
    rw [LockRecord.mem_holders] at hu
    exact hu (LockRecord.mode?_of_writer hexclusive (LockRecord.mode?_eq_write.mp hw) hne)

/-- Runs the next sections of threads in turn. -/
def sections (threads : List Nat) (s : LockSystem) : LockSystem :=
  threads.foldl (fun s i => (s.run i false).getD s) s

theorem Reachable.sections (h : s.Reachable) (threads : List Nat) :
    (s.sections threads).Reachable := by
  induction threads generalizing s with
  | nil => exact h
  | cons i threads ih =>
    have hnext : ((s.run i false).getD s).Reachable := by
      cases hr : s.run i false with
      | none => exact h
      | some s' => exact .step h (.run i false s' hr)
    exact ih hnext

/-- A thread without work makes a call, and then sections run. -/
theorem Reachable.called (h : s.Reachable) {i : Nat} (hi : s.threads[i]? = some [])
    (page : PageId) (call : PageCall) (threads : List Nat) :
    ((s.setThread i [.start page call]).sections threads).Reachable :=
  (Reachable.step h (.call i page call hi)).sections threads

/-- One thread has locked a page. -/
def taken : LockSystem :=
  ((idle 2).setThread 0 [.start ⟨1, 0⟩ (.lock ⟨1⟩ .write)]).sections [0, 0, 0]

/-- The other one waits for it. -/
def awaited : LockSystem :=
  (taken.setThread 1 [.start ⟨1, 0⟩ (.lock ⟨2⟩ .write)]).sections [1, 1]

/-- The first thread has released the page and is about to give the record up. -/
def crossed : LockSystem :=
  (awaited.setThread 0 [.start ⟨1, 0⟩ (.release ⟨1⟩)]).sections [0, 0]

theorem reachable_taken : taken.Reachable :=
  (Reachable.idle 2).called (by decide +kernel) _ _ _

theorem reachable_crossed : crossed.Reachable := by
  have h : awaited.Reachable := reachable_taken.called (by decide +kernel) _ _ _
  exact h.called (by decide +kernel) _ _ _

/-- Nobody holds the page at that moment, but the record stays, whatever comes next. -/
theorem Reachable.reclaims_crossed : crossed.Reachable ∧ (crossed.record 0).isIdle = true ∧
    crossed.Refers 0 ⟨⟨1, 0⟩, .release ⟨1⟩, 0, .reclaiming⟩ ∧
    ∀ s', Step crossed s' → s'.table[(⟨1, 0⟩ : PageId)]? = some 0 := by
  obtain ⟨-, hkept, -⟩ := reachable_crossed.reclaims
  have hwaits : crossed.Refers 1 ⟨⟨1, 0⟩, .lock ⟨2⟩ .write, 0, .waiting⟩ :=
    ⟨[], by decide +kernel⟩
  have htable : crossed.table[(⟨1, 0⟩ : PageId)]? = some 0 := by decide +kernel
  refine ⟨reachable_crossed, by decide +kernel, ⟨[], by decide +kernel⟩, fun s' hs => ?_⟩
  exact hkept s' hs _ 0 htable (.inr ⟨1, _, hwaits, rfl, by decide⟩)

/-- The only thread that had locked a page has released it and given the record up. -/
def givenUp : LockSystem :=
  (taken.setThread 0 [.start ⟨1, 0⟩ (.release ⟨1⟩)]).sections [0, 0, 0]

/-- Before it drops its reference, the other one locks the page. -/
def replaced : LockSystem :=
  (givenUp.setThread 1 [.start ⟨1, 0⟩ (.lock ⟨2⟩ .write)]).sections [1, 1]

theorem reachable_replaced : replaced.Reachable := by
  have h : givenUp.Reachable := reachable_taken.called (by decide +kernel) _ _ _
  exact h.called (by decide +kernel) _ _ _

/-- The first thread still refers to the record that it has given up, but the table has a new
one for the page, with a holder. So not every reference leads to the record in the table. -/
theorem stale_reference : replaced.Reachable ∧
    replaced.Refers 0 ⟨⟨1, 0⟩, .release ⟨1⟩, 0, .leaving⟩ ∧
    replaced.table[(⟨1, 0⟩ : PageId)]? = some 1 ∧ (replaced.record 1).holders = [⟨2⟩] ∧
    ¬ ∀ s : LockSystem, s.Reachable → ∀ i now, s.Refers i now →
      s.table[now.page]? = some now.record := by
  have hrefers : replaced.Refers 0 ⟨⟨1, 0⟩, .release ⟨1⟩, 0, .leaving⟩ := ⟨[], by decide +kernel⟩
  have htable : replaced.table[(⟨1, 0⟩ : PageId)]? = some 1 := by decide +kernel
  refine ⟨reachable_replaced, hrefers, htable, by decide +kernel, fun hall => ?_⟩
  have hsame := hall replaced reachable_replaced 0 _ hrefers
  rw [htable] at hsame
  simp at hsame

end LockSystem

end RowStore
