import RowStore.Proofs.Store.Effects

/-!
  Acts — what a call does point by point, with the log's answers.

  An `Act` is a move, or a call of the log that succeeds or fails. A `History` is the acts
  of a call in order, each with the stores before and after it. As a log may refuse any of
  its calls, the order of the log calls and the page writes of a call shows in the store
  that it leaves. `Ahead` says of a history that every write of a page comes right behind
  its record and a force (`Ahead.behind`), and that no page is written after a log call
  that failed (`Ahead.after_refused`).
-/

namespace RowStore.Store

inductive Act where
  /-- The log takes the update of a page. -/
  | logged (txn : TxnId) (before after : Page)
  /-- The log is forced. -/
  | forced
  /-- A log call fails. -/
  | refused
  | made (e : Event)

namespace Act

inductive Does : Act → Store → Store → Prop
  | logged {s : Store} {txn : TxnId} {before after : Page} {log : Log} :
    s.log.write txn before after = (.ok (), log) →
    Does (.logged txn before after) s { s with log := log }
  | unlogged {s : Store} {txn : TxnId} {before after : Page} {err : StoreError} {log : Log} :
    s.log.write txn before after = (.error err, log) → Does .refused s { s with log := log }
  | forced {s : Store} {log : Log} : s.log.force = (.ok (), log) →
    Does .forced s { s with log := log }
  | unforced {s : Store} {err : StoreError} {log : Log} : s.log.force = (.error err, log) →
    Does .refused s { s with log := log }
  | made {s u : Store} {e : Event} : e ≠ .logged → Move e s u → Does (.made e) s u

/-- The event that an act is. -/
def event : Act → Event
  | .made e => e
  | _ => .logged

/-- A page is written over the one in its file. -/
def Overwrites : Act → Prop
  | .made (.flushed _) | .made (.committed _ _) => True
  | _ => False

/-- A call of the log. -/
def Logs : Act → Prop
  | .made _ => False
  | _ => True

theorem Does.move {a : Act} {s u : Store} (h : a.Does s u) : Move a.event s u := by
  cases h with
  | made _ hm => exact hm
  | _ => exact .logged

theorem Does.log {a : Act} {s u : Store} (h : a.Does s u) (hl : a.Logs) :
    ∃ log, u = { s with log := log } := by
  cases h with
  | made => exact hl.elim
  | _ => exact ⟨_, rfl⟩

end Act

/-- An act and the stores before and after it. -/
structure Moment where
  start : Store
  act : Act
  stop : Store

inductive History : List Moment → Store → Store → Prop
  | nil {s : Store} : History [] s s
  | cons {a : Act} {ms : List Moment} {s u v : Store} :
    a.Does s u → History ms u v → History (⟨s, a, u⟩ :: ms) s v

namespace History

variable {ms ns : List Moment} {s u v : Store}

theorem single {a : Act} (h : a.Does s u) : History [⟨s, a, u⟩] s u := .cons h .nil

theorem append (h₁ : History ms s u) (h₂ : History ns u v) : History (ms ++ ns) s v := by
  induction h₁ with
  | nil => exact h₂
  | cons hd _ ih => exact .cons hd (ih h₂)

theorem trace (h : History ms s u) : Trace (ms.map fun m => m.act.event) s u := by
  induction h with
  | nil => exact .nil
  | cons hd _ ih => exact .cons hd.move ih

/-- Calls of the log change nothing else. -/
theorem log (h : History ms s u) (hl : ∀ m ∈ ms, m.act.Logs) : ∃ log, u = { s with log := log } := by
  induction h with
  | nil => exact ⟨_, rfl⟩
  | cons hd _ ih =>
    obtain ⟨log, rfl⟩ := hd.log (hl _ List.mem_cons_self)
    obtain ⟨log', rfl⟩ := ih fun m hm => hl m (List.mem_cons_of_mem _ hm)
    exact ⟨log', rfl⟩

end History

/-- A trace without log calls is the history of its moves. -/
theorem Trace.history {es : List Event} {s u : Store} (h : Trace es s u)
    (hl : ∀ e ∈ es, e ≠ .logged) :
    ∃ ms, History ms s u ∧ ms.map Moment.act = es.map .made := by
  induction h with
  | nil => exact ⟨[], .nil, rfl⟩
  | @cons e es s u v hm _ ih =>
    obtain ⟨ms, hms, hacts⟩ := ih fun e he => hl e (List.mem_cons_of_mem _ he)
    refine ⟨⟨s, .made e, u⟩ :: ms, .cons (.made (hl e List.mem_cons_self) hm) hms, ?_⟩
    rw [List.map_cons, List.map_cons, hacts]

/-! ## Writing ahead -/

/-- What is logged is the resident instance of a page, for whoever made it dirty, and the
page that its before-image spells. -/
def Moment.Records (m : Moment) : Prop :=
  ∀ txn before after, m.act = .logged txn before after → ∃ page f,
    m.start.table.frame? page = some f ∧ m.start.frames.page f = after ∧
      after.dirtier = some txn ∧ after.beforeImage = .ok before

theorem Moment.records_of_made {m : Moment} {e : Event} (h : m.act = .made e) : m.Records := by
  intro txn before after hl
  simp [h] at hl

theorem Moment.records_of_refused {m : Moment} (h : m.act = .refused) : m.Records := by
  intro txn before after hl
  simp [h] at hl

theorem Moment.records_of_forced {m : Moment} (h : m.act = .forced) : m.Records := by
  intro txn before after hl
  simp [h] at hl

/-- A page is written behind its record: the log has just taken the update of the resident
instance, and has just been forced. -/
structure Behind (a b m : Moment) (txn : TxnId) (page : PageId) (before after : Page) :
    Prop where
  logged : a.act = .logged txn before after
  forced : b.act = .forced
  next : a.stop = b.start ∧ b.stop = m.start
  written : m.act = .made (.flushed page) ∨ m.act = .made (.committed txn page)
  resident : ∃ f, m.start.table.frame? page = some f ∧ m.start.frames.page f = after

/-- An act that neither writes a page nor is a log call that fails. -/
def Act.Quiet (a : Act) : Prop := ¬ a.Overwrites ∧ a ≠ .refused

/-- Every page is written behind its record, and none after a log call that failed. -/
inductive Ahead : List Moment → Prop
  | nil : Ahead []
  | quiet {m : Moment} {ms : List Moment} : m.act.Quiet → Ahead ms → Ahead (m :: ms)
  | refused {m : Moment} {ms : List Moment} : m.act = .refused → (∀ n ∈ ms, n.act.Quiet) →
    Ahead (m :: ms)
  | written {a b m : Moment} {ms : List Moment} {txn : TxnId} {page : PageId}
    {before after : Page} : Behind a b m txn page before after → Ahead ms →
    Ahead (a :: b :: m :: ms)

namespace Ahead

variable {ms ns : List Moment}

theorem of_quiet (h : ∀ m ∈ ms, m.act.Quiet) : Ahead ms := by
  induction ms with
  | nil => exact .nil
  | cons m ms ih =>
    exact .quiet (h m List.mem_cons_self) (ih fun n hn => h n (List.mem_cons_of_mem _ hn))

/-- Acts that are quiet may follow. -/
theorem append (h : Ahead ms) (hq : ∀ m ∈ ns, m.act.Quiet) : Ahead (ms ++ ns) := by
  induction h with
  | nil => exact of_quiet hq
  | quiet hm _ ih => exact .quiet hm ih
  | refused hm hms =>
    refine .refused hm fun n hn => ?_
    exact (List.mem_append.mp hn).elim (hms n) (hq n)
  | written hw _ ih => exact .written hw ih

/-- Where an element of a list is that begins with another. -/
theorem split_cons {α : Type} {x y : α} {xs pre post : List α} (h : x :: xs = pre ++ y :: post) :
    (pre = [] ∧ y = x ∧ post = xs) ∨ ∃ rest, pre = x :: rest ∧ xs = rest ++ y :: post := by
  rcases List.cons_eq_append_iff.mp h with ⟨rfl, heq⟩ | ⟨rest, rfl, heq⟩
  · obtain ⟨rfl, rfl⟩ := List.cons.inj heq
    exact .inl ⟨rfl, rfl, rfl⟩
  · exact .inr ⟨rest, rfl, heq⟩

/-- What comes right before a write of a page. -/
theorem behind (h : Ahead ms) {pre post : List Moment} {m : Moment} (hms : ms = pre ++ m :: post)
    (hm : m.act.Overwrites) :
    ∃ earlier a b txn page before after, pre = earlier ++ [a, b] ∧
      Behind a b m txn page before after := by
  induction h generalizing pre with
  | nil => simp at hms
  | quiet hq _ ih =>
    rcases split_cons hms with ⟨-, rfl, -⟩ | ⟨rest, rfl, hrest⟩
    · exact absurd hm hq.1
    · obtain ⟨earlier, a, b, txn, page, before, after, rfl, hb⟩ := ih hrest
      exact ⟨_ :: earlier, a, b, txn, page, before, after, rfl, hb⟩
  | refused hr hq =>
    rcases split_cons hms with ⟨-, rfl, -⟩ | ⟨rest, rfl, rfl⟩
    · rw [hr] at hm
      exact hm.elim
    · exact absurd hm (hq m (by simp)).1
  | written hb _ ih =>
    -- the two acts before the write are none themselves
    rcases split_cons hms with ⟨-, rfl, -⟩ | ⟨one, rfl, h₁⟩
    · rw [hb.logged] at hm
      exact hm.elim
    rcases split_cons h₁ with ⟨-, rfl, -⟩ | ⟨two, rfl, h₂⟩
    · rw [hb.forced] at hm
      exact hm.elim
    rcases split_cons h₂ with ⟨rfl, rfl, -⟩ | ⟨three, rfl, hrest⟩
    · exact ⟨[], _, _, _, _, _, _, rfl, hb⟩
    · obtain ⟨earlier, a, b, txn, page, before, after, rfl, hb⟩ := ih hrest
      exact ⟨_ :: _ :: _ :: earlier, a, b, txn, page, before, after, rfl, hb⟩

end Ahead

/-! ## Accounts -/

/-- What a call does from beginning to end: events in `E`, with every page written behind
its record. If a log call fails, so does the call; and it does not end after a growth that
uses up the page numbers. -/
structure Account {α : Type} (x : StoreM α) (E : Event → Prop) (s : Store) (ms : List Moment) :
    Prop where
  history : History ms s (s.after x)
  ahead : Ahead ms
  records : ∀ m ∈ ms, m.Records
  events : ∀ m ∈ ms, E m.act.event
  refused : ∀ m ∈ ms, m.act = .refused → ∃ err, x s = .error err (s.after x)
  endless : ∀ m ∈ ms, m.act.event.Endless →
    ∃ table, x s = .error (.noPageNumber table) (s.after x)

/-- Only what the call does counts. -/
theorem Account.congr {α : Type} {x y : StoreM α} {E : Event → Prop} {s : Store}
    {ms : List Moment} (h : Account x E s ms) (hxy : y s = x s) : Account y E s ms := by
  have hafter : s.after y = s.after x := by rw [after, after, hxy]
  refine ⟨hafter ▸ h.history, h.ahead, h.records, h.events, ?_, ?_⟩
  · rw [hxy, hafter]
    exact h.refused
  · rw [hxy, hafter]
    exact h.endless

/-- A trace that writes over no page is an account. -/
theorem Trace.account {α : Type} {x : StoreM α} {E : Event → Prop} {s : Store} {es : List Event}
    (h : Trace es s (s.after x)) (hE : ∀ e ∈ es, E e)
    (hq : ∀ e, E e → e ≠ .logged ∧ ¬ (Act.made e).Overwrites)
    (hn : ∀ e ∈ es, e.Endless → ∃ table, x s = .error (.noPageNumber table) (s.after x)) :
    ∃ ms, Account x E s ms := by
  obtain ⟨ms, hms, hacts⟩ := h.history fun e he => (hq e (hE e he)).1
  have hmade {m : Moment} (hm : m ∈ ms) : ∃ e ∈ es, m.act = .made e := by
    have hmem : m.act ∈ es.map .made := hacts ▸ List.mem_map_of_mem hm
    obtain ⟨e, he, heq⟩ := List.mem_map.mp hmem
    exact ⟨e, he, heq.symm⟩
  refine ⟨ms, hms, .of_quiet fun m hm => ?_, fun m hm txn before after hl => ?_,
    fun m hm => ?_, fun m hm hr => ?_, fun m hm he => ?_⟩
  · obtain ⟨e, he, heq⟩ := hmade hm
    rw [heq]
    exact ⟨(hq e (hE e he)).2, by simp⟩
  · obtain ⟨e, -, heq⟩ := hmade hm
    exact Moment.records_of_made heq txn before after hl
  · obtain ⟨e, he, heq⟩ := hmade hm
    rw [heq]
    exact hE e he
  · obtain ⟨e, -, heq⟩ := hmade hm
    simp [heq] at hr
  · obtain ⟨e, hmem, heq⟩ := hmade hm
    rw [heq] at he
    exact hn e hmem he

theorem Traced.account {α : Type} {x : StoreM α} {E : Event → Prop} {s : Store}
    {Q : α → Store → Prop} (h : Traced E x s Q)
    (hq : ∀ e, E e → e ≠ .logged ∧ ¬ (Act.made e).Overwrites) : ∃ ms, Account x E s ms := by
  cases hx : x s with
  | ok a u =>
    obtain ⟨⟨es, ht, he⟩, -⟩ := h.ok hx
    rw [← after_ok hx] at ht
    exact ht.account (fun e hm => (he e hm).1) hq fun e hm hn => absurd hn (he e hm).2
  | error err u =>
    obtain ⟨es, ht, he⟩ := h.error hx
    rw [← after_error hx] at ht
    refine ht.account (fun e hm => (he e hm).1) hq fun e hm hn => ?_
    obtain ⟨table, rfl⟩ := (he e hm).2 hn
    exact ⟨table, by rw [hx, after_error hx]⟩

end RowStore.Store
