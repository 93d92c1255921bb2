import Mathlib.Data.List.Basic
import RowStore.Proofs.Log.Calls

/-!
  Forcing — what the flag of a record tells.

  A record's flag is to tell whether a force came in time, before the next record. But a force
  marks every record there is, so the flag tells only that some force came later
  (`Kept.sound`). Main statement: the records are the updates written, in their order, and
  the flag of one is wrong exactly if another update was written right after it and a force
  came after that (`Kept.flags`). A log that is forced late shows no violation
  (`late_force_marks`).
-/

namespace RowStore

namespace Log

/-! ## Calls -/

/-- A call of a log. -/
inductive Call where
  | write (txn : TxnId) (before after : Page)
  | force
  deriving DecidableEq

def call (l : Log) : Call → Except StoreError Unit × Log
  | .write txn before after => l.write txn before after
  | .force => l.force

/-- The record of a call, with its flag. -/
def Call.record? (forced : Bool) : Call → Option LogRecord
  | .write txn before after =>
    match before.image, after.image with
    | .ok b, .ok a => some ⟨txn, after.id, b, a, forced⟩
    | _, _ => none
  | .force => none

/-- A log that keeps records, and the calls that have succeeded since it had none. Others may
have failed between them. -/
inductive Kept : List Call → Log → Prop
  | fresh {l : Log} (hkeeps : l.keeps = true) (hempty : l.memory = .empty) : Kept [] l
  | succeeded {calls : List Call} {l : Log} {c : Call} (h : Kept calls l)
      (hc : (l.call c).1 = .ok ()) : Kept (calls ++ [c]) (l.call c).2
  | failed {calls : List Call} {l : Log} {c : Call} {e : StoreError} (h : Kept calls l)
      (hc : (l.call c).1 = .error e) : Kept calls (l.call c).2

/-- A force comes before the next update is written. -/
def InTime (later : List Call) : Prop :=
  ∃ between rest, later = between ++ .force :: rest ∧
    ∀ txn before after, .write txn before after ∉ between

/-- The records of calls, each marked if a force comes after it. -/
def recordsOf : List Call → List LogRecord
  | [] => []
  | c :: later => (c.record? (decide (.force ∈ later))).toList ++ recordsOf later

/-! ## One call -/

/-- The ways a call of a log goes that keeps records. -/
inductive Ends (l : Log) : Call → Except StoreError Unit × Log → Prop
  | failed {c : Call} {e : StoreError} {m : Log} (hkeeps : m.keeps = true)
      (hmemory : m.memory = l.memory) : Ends l c (.error e, m)
  | written {txn : TxnId} {before after : Page} {r : LogRecord} {m : Log}
      (hrecord : (Call.write txn before after).record? false = some r) (hkeeps : m.keeps = true)
      (hmemory : m.memory = { l.memory with records := l.memory.records ++ [r] }) :
      Ends l (.write txn before after) (.ok (), m)
  | forced {m : Log} (hkeeps : m.keeps = true) (hmemory : m.memory = l.memory.force) :
      Ends l .force (.ok (), m)

theorem call_ends {l : Log} (hk : l.keeps = true) (c : Call) : Ends l c (l.call c) := by
  cases c with
  | write txn before after =>
    show Ends l _ (l.write txn before after)
    have hwrites := l.writes txn before after
    generalize l.write txn before after = x at hwrites ⊢
    cases hwrites with
    | refused => exact .failed hk rfl
    | dropped _ hdrops => simp [hk] at hdrops
    | unwritable => exact .failed hk rfl
    | @recorded b a _ _ hbefore hafter =>
      refine .written (r := ⟨txn, after.id, b, a, false⟩) ?_ hk rfl
      simp only [Call.record?, hbefore, hafter]
  | force =>
    show Ends l _ l.force
    have hforces := l.forces
    generalize l.force = x at hforces ⊢
    cases hforces with
    | refused => exact .failed hk rfl
    | dropped _ hdrops => simp [hk] at hdrops
    | marked => exact .forced hk rfl

/-! ## Records and flags -/

section Records
variable {calls past later : List Call} {c : Call} {txn : TxnId} {before after : Page}

theorem Call.record?_marked (c : Call) (b : Bool) :
    (c.record? b).map ({ · with forced := true }) = c.record? true := by
  cases c with
  | write txn before after =>
    simp only [Call.record?]
    split <;> rfl
  | force => rfl

/-- Another write marks no record. -/
theorem recordsOf_write : recordsOf (calls ++ [.write txn before after]) =
    recordsOf calls ++ ((Call.write txn before after).record? false).toList := by
  induction calls with
  | nil => simp [recordsOf]
  | cons c calls ih =>
    have hmem : .force ∈ calls ++ [.write txn before after] ↔ .force ∈ calls := by simp
    simp only [List.cons_append, recordsOf, ih, hmem, List.append_assoc]

/-- A force marks all. -/
theorem recordsOf_force :
    recordsOf (calls ++ [.force]) = (recordsOf calls).map ({ · with forced := true }) := by
  induction calls with
  | nil => rfl
  | cons c calls ih =>
    have hmem : Call.force ∈ calls ++ [.force] := by simp
    simp only [List.cons_append, recordsOf, ih, hmem, decide_true, List.map_append]
    rw [← Option.toList_map, Call.record?_marked]

/-- What came before moves the records of later calls back, and changes nothing of them. -/
theorem recordsOf_append (past later : List Call) :
    ∃ front, recordsOf (past ++ later) = front ++ recordsOf later ∧
      front.length = (past.filterMap (Call.record? false)).length := by
  induction past with
  | nil => exact ⟨[], rfl, rfl⟩
  | cons c past ih =>
    obtain ⟨front, hfront, hlength⟩ := ih
    refine ⟨(c.record? (decide (.force ∈ past ++ later))).toList ++ front, ?_, ?_⟩
    · rw [List.cons_append, recordsOf, hfront, List.append_assoc]
    · rw [List.length_append, hlength, List.filterMap_cons]
      cases c with
      | write txn before after =>
        simp only [Call.record?]
        split <;> simp [Nat.add_comm]
      | force => simp [Call.record?]

/-- But for their flags, the records are those of the writes in turn. -/
theorem recordsOf_unmarked (calls : List Call) :
    (recordsOf calls).map ({ · with forced := false }) = calls.filterMap (Call.record? false) := by
  induction calls with
  | nil => rfl
  | cons c later ih =>
    rw [recordsOf, List.map_append, ih, List.filterMap_cons]
    cases c with
    | write txn before after =>
      simp only [Call.record?]
      split <;> simp
    | force => simp [Call.record?]

end Records

/-! ## Any calls -/

section Kept
variable {calls : List Call} {l : Log}

theorem Kept.sound (h : Kept calls l) : l.keeps = true ∧ l.memory.records = recordsOf calls ∧
    ∀ c ∈ calls, c = .force ∨ ∃ r, c.record? false = some r := by
  induction h with
  | fresh hkeeps hempty => exact ⟨hkeeps, by rw [hempty]; rfl, by simp⟩
  | @succeeded calls l c h hc ih =>
    obtain ⟨hkeeps, hrecords, hall⟩ := ih
    have hends := call_ends hkeeps c
    generalize l.call c = x at hends hc
    cases hends with
    | failed => simp at hc
    | written hrecord hkeeps hmemory =>
      refine ⟨hkeeps, ?_, ?_⟩
      · rw [hmemory, hrecords, recordsOf_write, hrecord]
        rfl
      · rw [List.forall_mem_append, List.forall_mem_singleton]
        exact ⟨hall, .inr ⟨_, hrecord⟩⟩
    | forced hkeeps hmemory =>
      refine ⟨hkeeps, ?_, ?_⟩
      · rw [hmemory, recordsOf_force, ← hrecords]
        rfl
      · rw [List.forall_mem_append, List.forall_mem_singleton]
        exact ⟨hall, .inl rfl⟩
  | @failed calls l c e h hc ih =>
    obtain ⟨hkeeps, hrecords, hall⟩ := ih
    have hends := call_ends hkeeps c
    generalize l.call c = x at hends hc
    cases hends with
    | failed hkeeps hmemory => exact ⟨hkeeps, by rw [hmemory, hrecords], hall⟩
    | written => simp at hc
    | forced => simp at hc

/-- A force is in time exactly if it is the very next call. -/
theorem inTime_iff {later : List Call} : InTime later ↔ later.head? = some .force := by
  constructor
  · rintro ⟨between, rest, rfl, hbetween⟩
    cases between with
    | nil => rfl
    | cons c between =>
      cases c with
      | write txn before after => exact absurd List.mem_cons_self (hbetween txn before after)
      | force => rfl
  · intro h
    obtain ⟨rest, rfl⟩ := List.head?_eq_some_iff.mp h
    exact ⟨[], rest, rfl, by simp⟩

/-- The records of a log are those of the writes that succeeded, in their order, whatever calls
failed between. A record is marked exactly if a force came after it. So its flag tells whether
a force came in time unless another update was written right after it and a force came only
then. -/
theorem Kept.flags (h : Kept calls l) :
    l.memory.records.map ({ · with forced := false }) = calls.filterMap (Call.record? false) ∧
      ∀ past txn before after later, calls = past ++ .write txn before after :: later →
        ∃ r, l.memory.records[(past.filterMap (Call.record? false)).length]? = some r ∧
          (Call.write txn before after).record? r.forced = some r ∧
          (r.forced = true ↔ .force ∈ later) ∧
          (¬ (r.forced = true ↔ InTime later) ↔
            ∃ t b a rest, later = .write t b a :: rest ∧ .force ∈ rest) := by
  obtain ⟨-, hrecords, hall⟩ := h.sound
  rw [hrecords]
  refine ⟨recordsOf_unmarked calls, ?_⟩
  rintro past txn before after later rfl
  have hwrite := hall (.write txn before after) (by simp)
  obtain ⟨front, hfront, hlength⟩ := recordsOf_append past (.write txn before after :: later)
  obtain ⟨r, hr, hflag⟩ : ∃ r, (Call.write txn before after).record? (decide (.force ∈ later)) =
      some r ∧ r.forced = decide (.force ∈ later) := by
    obtain hforce | ⟨r, hr⟩ := hwrite
    · simp at hforce
    · simp only [Call.record?] at hr ⊢
      split at hr
      · exact ⟨_, rfl, rfl⟩
      · simp at hr
  refine ⟨r, ?_, hflag ▸ hr, by simp [hflag], ?_⟩
  · rw [hfront, ← hlength, recordsOf, hr]
    simp
  · rw [hflag, decide_eq_true_iff, inTime_iff]
    cases later with
    | nil => simp
    | cons c rest => cases c <;> simp

end Kept

/-! ## A late force -/

/-- A page without rows. -/
def blank : Page := (Page.empty ⟨1, 0⟩ ⟨[⟨"n", .integer, false⟩]⟩ 128).toOption.getD default

/-- Writes an update of the page. -/
def update : Call := .write ⟨1⟩ blank blank

/-- A log that was forced after two updates, and has a third one now. -/
def forcedLate : Log := ((((keeping.call update).2.call update).2.call .force).2.call update).2

theorem kept_forcedLate : Kept [update, update, .force, update] forcedLate := by
  have hfresh : Kept [] keeping := .fresh rfl rfl
  have hfirst : (keeping.call update).1 = .ok () := by decide +kernel
  have hsecond : ((keeping.call update).2.call update).1 = .ok () := by decide +kernel
  have hforce : (((keeping.call update).2.call update).2.call .force).1 = .ok () := by
    decide +kernel
  have hthird : ((((keeping.call update).2.call update).2.call .force).2.call update).1 =
      .ok () := by
    decide +kernel
  exact .succeeded (.succeeded (.succeeded (.succeeded hfresh hfirst) hsecond) hforce) hthird

theorem Kept.flags_forcedLate : Kept [update, update, .force, update] forcedLate ∧
    ∃ r, forcedLate.memory.records[0]? = some r ∧ r.forced = true := by
  refine ⟨kept_forcedLate, ?_⟩
  obtain ⟨r, hr, -, hforced, -⟩ :=
    kept_forcedLate.flags.2 [] ⟨1⟩ blank blank [update, .force, update] rfl
  exact ⟨r, hr, hforced.mpr (by simp)⟩

/-- A force marks also a record that another has followed, so the flag of that record does not
tell whether a force came in time. -/
theorem late_force_marks : ∃ calls l, Kept calls l ∧
    calls = [update, update, .force, update] ∧
      l.memory.records.map (·.forced) = [true, true, false] ∧
        ¬ InTime [update, .force, update] := by
  refine ⟨_, _, kept_forcedLate, rfl, by decide +kernel, ?_⟩
  rw [inTime_iff]
  simp [update]

end Log

end RowStore
