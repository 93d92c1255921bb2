import RowStore.Proofs.Store.Scanning

/-!
  Keeping — what every call keeps, whoever holds which locks.

  Most invariants of the pool rest on the locks, so they are lost when locks are released behind
  it. Three things do not depend on locks at all: an instance stays one of its page, an open heap
  file keeps its table, and whatever is resident is an instance of its page. `Follows` says this
  of two stores, `Keeps` of a call, and `Part.follows` and `Call.follows` that all calls keep it.
-/

namespace RowStore

open Store

namespace Store

/-! ## Stores that follow each other -/

/-- Every resident instance is one of its page, and every instance is addressed. -/
structure Addressed (s : Store) : Prop where
  filed : ∀ {page : PageId} {f : FrameNo}, s.table.frame? page = some f →
    f < s.frames.size ∧ (s.frames.page f).id = page
  pages : Every Page.Addressed s

theorem Unused.addressed {s : Store} (h : s.Unused) : s.Addressed :=
  ⟨h.shaped.filed, h.every lasting_addressed⟩

/-- What is left of a store after calls of any kind. -/
structure Follows (s u : Store) : Prop where
  made : ∀ {f : FrameNo}, f < s.frames.size →
    f < u.frames.size ∧ (u.frames.page f).id = (s.frames.page f).id
  tables : ∀ {k : HandleNo}, k < s.handles.size →
    k < u.handles.size ∧ (u.heap k).table = (s.heap k).table
  resident : ∀ {page : PageId} {f : FrameNo}, u.table.frame? page = some f →
    s.table.frame? page = some f ∨ f < u.frames.size ∧ (u.frames.page f).id = page
  addressed : Every Page.Addressed s → Every Page.Addressed u

/-- A change beside the page instances: at most, pages have left the pool and heap files were
opened. -/
structure Beside (s u : Store) : Prop where
  frames : u.frames = s.frames
  resident : ∀ {page : PageId} {f : FrameNo}, u.table.frame? page = some f →
    s.table.frame? page = some f
  tables : ∀ {k : HandleNo}, k < s.handles.size →
    k < u.handles.size ∧ (u.heap k).table = (s.heap k).table

section Follows
variable {s u v : Store} {f : FrameNo}

theorem Addressed.follows (h : s.Addressed) (hu : Follows s u) : u.Addressed where
  filed hf := by
    rcases hu.resident hf with hwas | hnow
    · obtain ⟨hlt, hid⟩ := h.filed hwas
      obtain ⟨hlt', hid'⟩ := hu.made hlt
      exact ⟨hlt', hid'.trans hid⟩
    · exact hnow
  pages := hu.addressed h.pages

theorem Beside.follows (h : Beside s u) : Follows s u where
  made hlt := by rw [h.frames]; exact ⟨hlt, rfl⟩
  tables := h.tables
  resident hf := .inl (h.resident hf)
  addressed he f := by rw [h.frames]; exact he f

/-- The same, if no heap file is touched. -/
theorem Follows.of_handles (hf : u.frames = s.frames)
    (hr : ∀ {page : PageId} {f : FrameNo}, u.table.frame? page = some f →
      s.table.frame? page = some f) (hh : u.handles = s.handles) : Follows s u :=
  Beside.follows ⟨hf, hr, fun hk => ⟨hh.symm ▸ hk, by rw [heap, heap, hh]⟩⟩

theorem Follows.refl (s : Store) : Follows s s := .of_handles rfl id rfl

theorem Follows.trans (h₁ : Follows s u) (h₂ : Follows u v) : Follows s v where
  made hlt := by
    obtain ⟨hu, hid⟩ := h₁.made hlt
    obtain ⟨hv, hid'⟩ := h₂.made hu
    exact ⟨hv, hid'.trans hid⟩
  tables hk := by
    obtain ⟨hu, ht⟩ := h₁.tables hk
    obtain ⟨hv, ht'⟩ := h₂.tables hu
    exact ⟨hv, ht'.trans ht⟩
  resident hf := by
    rcases h₂.resident hf with hwas | hnow
    · rcases h₁.resident hwas with hfirst | ⟨hlt, hid⟩
      · exact .inl hfirst
      · obtain ⟨hlt', hid'⟩ := h₂.made hlt
        exact .inr ⟨hlt', hid'.trans hid⟩
    · exact .inr hnow
  addressed he := h₂.addressed (h₁.addressed he)

/-- An instance may change as long as it stays one of its page. -/
theorem Follows.setPage {q : Page} (hid : q.id = (s.frames.page f).id)
    (ha : (s.frames.page f).Addressed → q.Addressed) :
    Follows s { s with frames := s.frames.setPage f q } where
  made {g} hlt := by
    refine ⟨(Frames.size_setPage s.frames f q).symm ▸ hlt, ?_⟩
    show (Frames.page (s.frames.setPage f q) g).id = (s.frames.page g).id
    by_cases hg : g = f
    · subst hg
      rw [Frames.page_setPage_self hlt, hid]
    · rw [Frames.page_setPage_ne (Ne.symm hg)]
  tables hk := ⟨hk, rfl⟩
  resident hf := .inl hf
  addressed he := he.setPage (ha (he f))

theorem Follows.push {q : Page} (hq : q.Addressed) :
    Follows s { s with frames := s.frames.push q } where
  made {g} hlt := by
    refine ⟨Nat.lt_of_lt_of_eq (Nat.lt_succ_of_lt hlt) (Array.size_push ..).symm, ?_⟩
    show (Frames.page (s.frames.push q) g).id = (s.frames.page g).id
    rw [Frames.page_push, if_neg (Nat.ne_of_lt hlt)]
  tables hk := ⟨hk, rfl⟩
  resident hf := .inl hf
  addressed he g := by
    show (Frames.page (s.frames.push q) g).Addressed
    rw [Frames.page_push]
    split
    · exact hq
    · exact he g

/-- Any instance of a page may become the resident one. -/
theorem Follows.insert {page : PageId} (hf : f < s.frames.size) (hid : (s.frames.page f).id = page) :
    Follows s { s with table := s.table.insert page f } where
  made hlt := ⟨hlt, rfl⟩
  tables hk := ⟨hk, rfl⟩
  resident {q g} hg := by
    have hg : (s.table.insert page f).frame? q = some g := hg
    rw [PageTable.frame?_insert] at hg
    split at hg
    · rename_i hq
      obtain rfl := Option.some.inj hg
      exact .inr ⟨hf, hid.trans hq.symm⟩
    · exact .inl hg
  addressed he := he

/-- A heap file keeps its table when its reads and writes are counted. -/
theorem tables_modify {k j : HandleNo} {g : HeapFile → HeapFile} (hg : ∀ h, SameHeap (g h) h)
    (hj : j < s.handles.size) : j < (s.handles.modify k g).size ∧
      ((s.handles.modify k g).getD j default).table = (s.heap j).table :=
  ⟨Nat.lt_of_lt_of_eq hj (Array.size_modify ..).symm, (sameHeap_modify s k j hg).table⟩

theorem follows_counted (s : Store) (k : HandleNo) : Follows s (s.counted k) :=
  Beside.follows ⟨rfl, id, tables_modify fun _ => ⟨rfl, rfl, rfl, rfl, rfl⟩⟩

theorem follows_withFile (s : Store) (k : HandleNo) (file : File) :
    Follows s (s.withFile k file) :=
  Beside.follows ⟨rfl, id, tables_modify fun _ => ⟨rfl, rfl, rfl, rfl, rfl⟩⟩

theorem follows_evicting (s : Store) (page : PageId) : Follows s (s.evicting page) :=
  .of_handles rfl (fun hf => (PageTable.frame?_of_remove hf).2) rfl

theorem follows_without (s : Store) (pages : List (PageId × FrameNo)) :
    Follows s (s.without pages) := by
  refine .of_handles rfl (fun {page f} hf => ?_) rfl
  rw [frame?_without] at hf
  split at hf
  · simp at hf
  · exact hf

end Follows

end Store

/-! ## Calls -/

/-- Whatever comes of the call, the store follows the one before it; if the call succeeds, `Q`
holds. -/
def Keeps {α : Type} (x : StoreM α) (s : Store) (Q : α → Store → Prop) : Prop :=
  match x s with
  | .ok a u => Follows s u ∧ Q a u
  | .error _ u => Follows s u

namespace Keeps

section Rules
variable {α β : Type} {s u : Store} {x : StoreM α} {Q : α → Store → Prop}

theorem of_ok {a : α} (hx : x s = .ok a u) (h : Follows s u) (hq : Q a u) : Keeps x s Q := by
  rw [Keeps, hx]
  exact ⟨h, hq⟩

theorem of_error {err : StoreError} (hx : x s = .error err u) (h : Follows s u) : Keeps x s Q := by
  rw [Keeps, hx]
  exact h

theorem pure {a : α} (hq : Q a s) : Keeps (Pure.pure a : StoreM α) s Q := of_ok rfl (.refl s) hq

theorem throw {err : StoreError} : Keeps (MonadExcept.throw err : StoreM α) s Q :=
  of_error rfl (.refl s)

theorem ofExcept {r : Except StoreError α} (h : ∀ a, r = .ok a → Q a s) :
    Keeps (StoreM.ofExcept r) s Q := by
  cases r with
  | ok a => exact pure (h a rfl)
  | error err => exact throw

theorem ok (h : Keeps x s Q) {a : α} (hx : x s = .ok a u) : Follows s u ∧ Q a u := by
  rw [Keeps, hx] at h
  exact h

theorem error (h : Keeps x s Q) {err : StoreError} (hx : x s = .error err u) : Follows s u := by
  rw [Keeps, hx] at h
  exact h

theorem after (h : Keeps x s Q) : Follows s (s.after x) := by
  unfold Store.after
  cases hx : x s with
  | ok a u => exact (h.ok hx).1
  | error err u => exact h.error hx

theorem congr {y : StoreM α} (h : Keeps x s Q) (hx : y s = x s) : Keeps y s Q := by
  rw [Keeps, hx]
  exact h

theorem mono {R : α → Store → Prop} (h : Keeps x s Q) (hq : ∀ a u, Q a u → R a u) :
    Keeps x s R := by
  cases hx : x s with
  | ok a u => exact of_ok hx (h.ok hx).1 (hq a u (h.ok hx).2)
  | error err u => exact of_error hx (h.error hx)

theorem bind {f : α → StoreM β} {R : β → Store → Prop} (hx : Keeps x s Q)
    (hf : ∀ a u, Follows s u → Q a u → Keeps (f a) u R) : Keeps (x >>= f) s R := by
  have hrun := bind_run s x f
  cases hxs : x s with
  | error err u =>
    rw [hxs] at hrun
    exact of_error hrun (hx.error hxs)
  | ok a u =>
    rw [hxs] at hrun
    obtain ⟨hu, hq⟩ := hx.ok hxs
    have hfa := hf a u hu hq
    cases hfu : f a u with
    | ok b v => exact of_ok (hrun.trans hfu) (hu.trans (hfa.ok hfu).1) (hfa.ok hfu).2
    | error err v => exact of_error (hrun.trans hfu) (hu.trans (hfa.error hfu))

/-- A read of the store before the rest of a call. -/
theorem read {f : α → StoreM β} {a : α} {R : β → Store → Prop} (hx : x s = .ok a s)
    (hf : Keeps (f a) s R) : Keeps (x >>= f) s R :=
  hf.congr (by rw [bind_run, hx])

theorem attempt (h : Keeps x s Q) : Keeps x.attempt s fun _ _ => True := by
  cases hx : x s with
  | ok a u => exact of_ok (a := .ok a) (u := u) (by rw [StoreM.attempt, hx]) (h.ok hx).1 trivial
  | error err u =>
    exact of_ok (a := .error err) (u := u) (by rw [StoreM.attempt, hx]) (h.error hx) trivial

end Rules

/-! ### Fetches -/

section Fetches
variable (s : Store) (txn : TxnId) (page : PageId) (access : Access)

theorem lockPage : Keeps (Store.lockPage txn page access) s fun _ _ => True := by
  have hrun := lockPage_run s txn page access
  split at hrun
  · exact of_ok hrun (.of_handles rfl id rfl) trivial
  · exact of_error hrun (.refl s)

theorem evictUpTo (fuel : Nat) : Keeps (Store.evictUpTo fuel) s fun _ _ => True := by
  induction fuel generalizing s with
  | zero => exact pure trivial
  | succ fuel ih =>
    have hrun := evictUpTo_run s fuel
    split at hrun
    · exact of_ok hrun (.refl s) trivial
    · rw [evict_run] at hrun
      cases hv : s.table.victim? s.frames with
      | none =>
        rw [hv] at hrun
        exact of_error hrun (.refl s)
      | some victim =>
        rw [hv] at hrun
        have hgone := follows_evicting s victim
        have hrest := ih (s.evicting victim)
        cases hu : Store.evictUpTo fuel (s.evicting victim) with
        | ok a u => exact of_ok (hrun.trans hu) (hgone.trans (hrest.ok hu).1) trivial
        | error err u => exact of_error (hrun.trans hu) (hgone.trans (hrest.error hu))

theorem readPage (k : HandleNo) :
    Keeps (Store.readPage k page) s fun q _ => q.id = page ∧ q.Addressed := by
  have hrun := readPage_run s k page
  have hcounted := follows_counted s k
  split at hrun
  · split at hrun
    · rename_i q hq
      exact of_ok hrun hcounted ⟨Page.id_ofImage hq, lasting_addressed.read hq⟩
    · exact of_error hrun hcounted
  · exact of_error hrun (.refl s)

theorem tableFile (table : TableId) : Keeps (Store.tableFile table) s fun _ _ => True := by
  rcases tableFile_cases s table with ⟨err, hk⟩ | ⟨k, -, hk⟩
  · exact of_error hk (.refl s)
  · exact of_ok hk (.refl s) trivial

theorem bringIn : Keeps (Store.bringIn txn page) s fun f u => u.table.frame? page = some f := by
  refine (tableFile s page.table).bind fun k u _ _ => (readPage u page k).bind fun q v _ hq => ?_
  obtain ⟨hid, haddressed⟩ := hq
  let w : Store := { v with frames := v.frames.push q }
  have hw : Follows v w := .push haddressed
  have hpage : w.frames.page v.frames.size = q := by
    show Frames.page (v.frames.push q) v.frames.size = q
    rw [Frames.page_push, if_pos rfl]
  have hin : Follows w { w with table := w.table.insert page v.frames.size } :=
    .insert (Nat.lt_of_lt_of_eq (Nat.lt_succ_self _) (Array.size_push ..).symm)
      ((congrArg Page.id hpage).trans hid)
  have hused : Follows { w with table := w.table.insert page v.frames.size } { w with
      table := (w.table.insert page v.frames.size).relate txn page } := .of_handles rfl id rfl
  exact of_ok rfl ((hw.trans hin).trans hused)
    ((PageTable.frame?_insert ..).trans (if_pos rfl))

/-- A page that is fetched is resident in its frame. -/
theorem load : Keeps (Store.load txn page) s fun f u => u.table.frame? page = some f := by
  have hrun := load_run s txn page
  cases hf : s.table.frame? page with
  | some f =>
    rw [hf] at hrun
    exact of_ok hrun (.of_handles rfl id rfl) hf
  | none =>
    rw [hf] at hrun
    exact ((evictUpTo s _).bind fun _ u _ _ => bringIn u txn page).congr hrun

theorem getPage : Keeps (Store.getPage txn page access) s fun f u =>
    u.table.frame? page = some f :=
  (lockPage s txn page access).bind fun _ u _ _ => load u txn page

theorem loadLocked : Keeps (Store.loadLocked txn page access) s fun _ _ => True := by
  have hrun := loadLocked_run s txn page access
  split at hrun
  · have hload := load s txn page
    cases hl : Store.load txn page s with
    | ok f u =>
      rw [hl] at hrun
      exact of_ok hrun (hload.ok hl).1 trivial
    | error err u =>
      rw [hl] at hrun
      exact of_error hrun (hload.error hl)
  · exact of_ok hrun (.refl s) trivial

end Fetches

/-! ### Changes and their registration -/

section Changes
variable (s : Store) (txn : TxnId)

/-- The page that an insertion or a deletion gives is resident in its frame. -/
def Resident {α : Type} (r : FrameNo × α) (u : Store) : Prop :=
  ∃ page, u.table.frame? page = some r.1

theorem change (e : Edit) {f : FrameNo} (hf : ∃ page, s.table.frame? page = some f) :
    Keeps (e.change txn f) s Resident := by
  have hrun := e.change_run txn f s
  split at hrun
  · rename_i row p ha
    have hedit := Edit.edited_of_apply txn ha
    exact of_ok hrun (.setPage hedit.kept.id (lasting_addressed.edited hedit)) hf
  · exact of_error hrun (.refl s)

theorem allocatePage (k : HandleNo) : Keeps (Store.allocatePage k) s fun _ _ => True := by
  have hrun := allocatePage_run s k
  split at hrun
  · exact of_ok hrun (follows_withFile s k _) trivial
  · exact of_error hrun (.refl s)

theorem growOnce (i : Insertion) : Keeps i.growOnce s fun _ _ => True :=
  (allocatePage s i.handle).bind fun _ u _ _ => of_ok rfl (.refl u) trivial

theorem grow (i : Insertion) : Keeps i.grow s fun _ _ => True := by
  refine (growOnce s i).bind fun j u _ _ => ?_
  split
  · exact pure trivial
  · refine (growOnce u j).bind fun l v _ _ => ?_
    split
    · exact pure trivial
    · exact of_error rfl (.refl v)

theorem fetch (i : Insertion) : Keeps i.fetch s Resident := by
  have hgrow : Keeps (if i.next < i.stop then Pure.pure i else i.grow) s fun _ _ => True := by
    split
    · exact pure trivial
    · exact grow s i
  refine congr (hgrow.bind fun j u _ _ => read (heapFile_run u j.handle) ?_) (Insertion.fetch_run i s)
  exact (getPage u j.txn _ .write).bind fun f v _ hf => pure ⟨_, hf⟩

theorem seek (stopAt : FrameNo → Bool) (fuel : Nat) (i : Insertion) :
    Keeps (i.seek stopAt fuel) s Resident := by
  induction fuel generalizing s i with
  | zero => exact of_error rfl (.refl s)
  | succ fuel ih =>
    refine (fetch s i).bind fun r u _ hr => read (page_run u r.1) ?_
    split
    · exact pure hr
    · exact ih u r.2

theorem finish (i : Insertion) : Keeps i.finish s Resident :=
  (seek s _ pageNumbers i).bind fun r u _ hr => change u r.2.txn (.insertion 0 r.2.row) hr

theorem heapInsert (k : HandleNo) (row : Row) : Keeps (Store.heapInsert k txn row) s Resident := by
  rcases Insertion.start_cases s k txn row with ⟨err, hi⟩ | ⟨i, hi, -⟩
  · exact of_error (by rw [Store.heapInsert, bind_run, hi]) (.refl s)
  · exact read hi (finish s i)

theorem fetchForDelete (k : HandleNo) (row : Row) :
    Keeps (Store.fetchForDelete k txn row) s fun f u => ∃ page, u.table.frame? page = some f := by
  rcases recordOf_cases row s with ⟨err, hr⟩ | ⟨record, hr⟩
  · exact of_error (by rw [Store.fetchForDelete, bind_run, hr]) (.refl s)
  · refine read hr (read (heapFile_run s k) ?_)
    split
    · exact of_error rfl (.refl s)
    · exact (getPage s txn record.page .write).mono fun f u hf => ⟨_, hf⟩

theorem heapDelete (k : HandleNo) (row : Row) : Keeps (Store.heapDelete k txn row) s Resident := by
  refine (fetchForDelete s txn k row).bind fun f u _ hf => ?_
  rw [Edit.eraseFrom_eq]
  exact change u txn (.deletion row) hf

variable {s} in
theorem mark {f : FrameNo} (page : PageId) : Keeps (Store.mark txn page f) s fun _ _ => True := by
  have hused : Follows s { s with table := s.table.relate txn page } := .of_handles rfl id rfl
  exact of_ok rfl (hused.trans
    (.setPage (s := { s with table := s.table.relate txn page }) rfl
      fun h => ⟨h.labelled, h.numbered⟩)) trivial

variable {s} in
theorem register {f : FrameNo} (hf : f < s.frames.size) :
    Keeps (Store.register txn f) s fun _ _ => True := by
  have hrun := register_run s txn f
  have hmark {u : Store} (hu : Follows s u) : Keeps (Store.makeResident (s.frames.page f).id f >>=
      fun _ => Store.mark txn (s.frames.page f).id f) u fun _ _ => True := by
    obtain ⟨hlt, hid⟩ := hu.made hf
    exact bind (Q := fun _ _ => True) (of_ok rfl (.insert hlt hid) trivial)
      fun _ v _ _ => mark txn _
  split at hrun
  · exact of_error hrun (.refl s)
  · split at hrun
    · exact ((evictUpTo s _).bind fun _ u hu _ => hmark hu).congr hrun
    · split at hrun
      · split at hrun
        · exact of_error hrun (.refl s)
        · exact (hmark (.refl s)).congr hrun
      · exact (mark txn _).congr hrun

theorem registered {change : StoreM (FrameNo × Row)} (hs : s.Addressed)
    (hc : Keeps change s Resident) (row : Row) :
    Follows s (Store.registered txn row change s).store := by
  cases hx : change s with
  | error err u =>
    rw [registered_of_error hx]
    exact hc.error hx
  | ok r u =>
    obtain ⟨f, changed⟩ := r
    obtain ⟨hu, page, hf⟩ := hc.ok hx
    have hreg := register txn ((hs.follows hu).filed hf).1
    cases hr : Store.register txn f u with
    | ok a v =>
      rw [registered_of_accepted hx hr]
      exact hu.trans (hreg.ok hr).1
    | error err v =>
      rw [registered_of_refused hx hr]
      exact hu.trans (hreg.error hr)

theorem edit (hs : s.Addressed) (e : Edit) : Follows s (e.run txn s).store := by
  cases e with
  | insertion table row =>
    exact registered s txn hs
      ((tableFile s table).bind fun k u _ _ => heapInsert u txn k row) row
  | deletion row =>
    refine registered s txn hs (?_ : Keeps _ s Resident) row
    rcases recordOf_cases row s with ⟨err, hr⟩ | ⟨record, hr⟩
    · exact of_error (by rw [bind_run, hr]) (.refl s)
    · exact read hr ((tableFile s record.page.table).bind fun k u _ _ => heapDelete u txn k row)

end Changes

/-! ### Commits and flushes -/

section Writes
variable (s : Store) (txn : TxnId)

/-- Logging, forcing and writing leave every instance as it was. -/
def Spares (s : Store) (_ : Unit) (u : Store) : Prop := u.frames = s.frames

theorem log (step : Log → Except StoreError Unit × Log) : Keeps (do
    let (result, log) := step (← get).log
    modify fun s => { s with log := log }
    StoreM.ofExcept result) s (Spares s) := by
  refine read (get_run s) ?_
  refine bind (Q := Spares s) (of_ok rfl (.of_handles rfl id rfl) rfl) ?_
  exact fun _ u _ hu => ofExcept fun _ _ => hu

theorem writePage (k : HandleNo) (p : Page) : Keeps (Store.writePage k p) s (Spares s) := by
  have hrun := writePage_run s k p
  split at hrun
  · exact of_ok hrun (follows_withFile s k _) rfl
  · exact of_error hrun (.refl s)

theorem writeThrough (p : Page) : Keeps (Store.writeThrough txn p) s (Spares s) := by
  rcases tableFile_cases s p.id.table with ⟨err, hk⟩ | ⟨k, -, hk⟩
  · exact of_error (by rw [Store.writeThrough, bind_run, hk]) (.refl s)
  refine read hk (bind (Q := fun _ u => u = s) (ofExcept fun _ _ => rfl) fun before u _ hu => ?_)
  obtain rfl := hu
  refine (log u fun l => l.write txn before p).bind fun _ v _ hv => ?_
  refine (log v Log.force).bind fun _ w _ hw => (writePage w k p).mono fun _ z hz => ?_
  exact (hz.trans hw).trans hv

theorem commitPage (f : FrameNo) : Keeps (Store.commitPage txn f) s fun _ _ => True := by
  refine read (page_run s f) ((writeThrough s txn _).bind fun _ u _ hu => ?_)
  cases hq : (s.frames.page f).settle with
  | error err => exact of_error rfl (.refl u)
  | ok q =>
    obtain ⟨b, -, rfl⟩ := settle_eq_ok hq
    have hpage : u.frames.page f = s.frames.page f := congrArg (Frames.page · f) hu
    have hid := congrArg Page.id hpage.symm
    refine of_ok rfl (.setPage hid ?_) trivial
    rw [hpage]
    exact fun h => ⟨h.labelled, h.numbered⟩

theorem commitPages (pages : List (PageId × FrameNo)) :
    Keeps (Store.commitPages txn pages) s fun _ _ => True := by
  induction pages generalizing s with
  | nil => exact pure trivial
  | cons x rest ih =>
    refine (attempt (commitPage s txn x.2)).bind fun result u _ _ => ?_
    cases result with
    | ok => exact ih u
    | error err =>
      exact bind (Q := fun _ _ => True) (of_ok rfl (follows_without u (x :: rest)) trivial)
        fun _ v _ _ => pure trivial

theorem complete (commit : Bool) : Keeps (Store.complete txn commit) s fun _ _ => True := by
  have hrun := complete_run s txn commit
  have hpages : Keeps (if commit then Store.commitPages txn (s.table.dirtiedBy s.frames txn)
      else (dropPages (s.table.dirtiedBy s.frames txn) >>= fun _ => Pure.pure none)) s
      fun _ _ => True := by
    split
    · exact commitPages s txn _
    · exact of_ok rfl (follows_without s _) trivial
  have hended (u : Store) : Follows u (u.ended txn) :=
    .of_handles rfl id rfl
  split at hrun
  · rename_i hx
    exact of_error hrun (hpages.error hx)
  · rename_i hx
    exact of_ok hrun ((hpages.ok hx).1.trans (hended _)) trivial
  · rename_i hx
    exact of_error hrun ((hpages.ok hx).1.trans (hended _))

theorem flushEach (pages : List (PageId × FrameNo)) :
    Keeps (Store.flushEach pages) s fun _ _ => True := by
  induction pages generalizing s with
  | nil => exact pure trivial
  | cons x rest ih =>
    refine read (page_run s x.2) ?_
    cases (s.frames.page x.2).dirtier with
    | none => exact ih s
    | some txn => exact (writeThrough s txn _).bind fun _ u _ _ => ih u

end Writes

end Keeps

namespace Store

/-! ## All calls -/

theorem Call.follows {s : Store} (hs : s.Addressed) (c : Call) : Follows s (s.after c.run) := by
  cases c with
  | getPage txn page access =>
    rw [Call.after_getPage]
    exact (Keeps.getPage s txn page access).after
  | edit txn e =>
    rw [Call.after_edit]
    exact Keeps.edit s txn hs e
  | complete txn commit =>
    show Follows s (s.after (do Store.complete txn commit; return Reply.done))
    rw [Call.after_map]
    exact (Keeps.complete s txn commit).after
  | flush txn =>
    show Follows s (s.after (do Store.flush txn; return Reply.done))
    rw [Call.after_map]
    exact (Keeps.flushEach s _).after
  | flushAll =>
    show Follows s (s.after (do Store.flushAll; return Reply.done))
    rw [Call.after_map]
    exact (Keeps.flushEach s _).after
  | discard page =>
    exact .of_handles rfl (fun hf => (PageTable.frame?_of_remove hf).2) rfl
  | release txn page => exact .of_handles rfl id rfl

/-- The parts of calls keep it as well, whatever has happened since the part before. -/
theorem Part.follows {s : Store} (hs : s.Addressed) {p : Part} (hp : p.Sound s) :
    Follows s (p.after s) := by
  cases p with
  | whole c => exact c.follows hs
  | grant txn page access => exact (Keeps.lockPage s txn page access).after
  | load txn page access => exact (Keeps.loadLocked s txn page access).after
  | change f q =>
    obtain ⟨-, txn, hedit⟩ := hp
    exact .setPage hedit.kept.id (lasting_addressed.edited hedit)
  | registration txn f => exact (Keeps.register txn hp).after

end Store

end RowStore
