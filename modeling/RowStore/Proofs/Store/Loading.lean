import RowStore.Proofs.Page.Rewriting
import RowStore.Proofs.Store.Parts

/-!
  Loading — what a fetch gives, and what it costs others.

  A load finds its page resident, or makes room by at most one eviction and reads it
  (`load_ends`). It relies on the shape of the pool only, so others may do what they like
  between its grant and it.

    1. `Staggered.hands_out` — a page is handed out under a lock that is still there; the
       eviction, if there is one, takes the first clean page and its locks and nothing else,
       and a load that is refused has changed nothing;
    2. `Staggered.fetch_fails` — a fetch that fails leaves everything of the other pages as
       it was, but for the page that made way if the failure came after that;
       `Staggered.failed_fetch_costs` is such a fetch.
-/

namespace RowStore

/-- The errors of a read: there is no such table, the bytes are not there, or they are no
page. -/
def StoreError.Unreadable : StoreError → Prop
  | .io _ | .tableNotFound _ | .unsupportedPageSize _ _ | .invalidPageImage _ _ _
  | .corruptSlot _ _ => True
  | _ => False

theorem StoreError.Unreadable.ne_poolFull {err : StoreError} (h : err.Unreadable) (n : Nat) :
    err ≠ .poolFull n := by
  rintro rfl
  exact h

theorem StoreError.Unreadable.ne_noPageNumber {err : StoreError} (h : err.Unreadable)
    (table : TableId) : err ≠ .noPageNumber table := by
  rintro rfl
  exact h

namespace Store

/-! ## Reading a page -/

theorem unreadable_of_slotsFor {id : PageId} {schema : Schema} {size : Nat} {e : StoreError}
    (h : Page.slotsFor id schema size = .error e) : e.Unreadable := by
  unfold Page.slotsFor Layout.check at h
  simp only at h
  split at h
  · rw [← Except.error.inj h]
    trivial
  · split at h
    · rw [← Except.error.inj h]
      trivial
    · simp [Except.map] at h

theorem unreadable_of_readSlot {id : PageId} {schema : Schema} {cell : (Bool × Bytes) × Nat}
    {e : StoreError} (h : Page.readSlot id schema cell = .error e) : e.Unreadable := by
  obtain ⟨⟨bit, data⟩, slot⟩ := cell
  cases bit with
  | false => simp [Page.readSlot] at h
  | true =>
    simp only [Page.readSlot] at h
    split at h
    · simp at h
    · rw [← Except.error.inj h]
      trivial

theorem unreadable_of_ofImage {id : PageId} {schema : Schema} {b : Block} {e : StoreError}
    (h : Page.ofImage id schema b = .error e) : e.Unreadable := by
  unfold Page.ofImage at h
  simp only [bind, Except.bind] at h
  split at h
  · rename_i hslots
    rw [← Except.error.inj h]
    exact unreadable_of_slotsFor hslots
  · split at h
    · rename_i hrows
      obtain ⟨i, cell, -, hread, -⟩ := mapM_eq_error hrows
      rw [← Except.error.inj h]
      exact unreadable_of_readSlot hread
    · simp [pure, Except.pure] at h

theorem unreadable_of_place {h : HeapFile} {id : PageId} {e : StoreError}
    (hp : h.place id = .error e) : e.Unreadable := by
  unfold HeapFile.place at hp
  simp only at hp
  split at hp
  · simp at hp
  · rw [← Except.error.inj hp]
    trivial

theorem unreadable_of_readImage {h : HeapFile} {f : File} {id : PageId} {e : StoreError}
    (hr : h.readImage f id = .error e) : e.Unreadable := by
  unfold HeapFile.readImage at hr
  split at hr
  · rw [← Except.error.inj hr]
    trivial
  · simp only [bind, Except.bind] at hr
    cases hp : h.place id with
    | error e' =>
      simp only [hp] at hr
      rw [← Except.error.inj hr]
      exact unreadable_of_place hp
    | ok start =>
      simp only [hp] at hr
      split at hr
      · simp at hr
      · rw [← Except.error.inj hr]
        trivial

/-- What a load does once there is room. -/
inductive Brings (txn : TxnId) (page : PageId) (s : Store) :
    EStateM.Result StoreError Store FrameNo → Prop
  | unread {err : StoreError} {u : Store} : err.Unreadable →
    u = s ∨ (∃ k, u = s.counted k) → Brings txn page s (.error err u)
  | read {k : HandleNo} {p : Page} : s.handle? page.table = some k →
    (s.heap k).readPage (s.fileOf k) page = .ok p →
    Brings txn page s (.ok s.frames.size { s.counted k with
      frames := s.frames.push p
      table := (s.table.insert page s.frames.size).relate txn page })

theorem bringIn_brings (s : Store) (txn : TxnId) (page : PageId) :
    Brings txn page s (bringIn txn page s) := by
  have hrun : bringIn txn page s = match tableFile page.table s with
      | .ok k u => (match readPage k page u with
        | .ok p v => .ok v.frames.size { v with
            frames := v.frames.push p
            table := (v.table.insert page v.frames.size).relate txn page }
        | .error e v => .error e v)
      | .error e u => .error e u := by
    unfold bringIn
    rw [bind_run]
    cases tableFile page.table s with
    | error e u => rfl
    | ok k u =>
      simp only [bind_run]
      cases readPage k page u <;> rfl
  rw [hrun, tableFile_run]
  cases hk : s.handle? page.table with
  | none => exact .unread trivial (.inl rfl)
  | some k =>
    simp only
    rw [readPage_run]
    cases hi : (s.heap k).readImage (s.fileOf k) page with
    | error e => exact .unread (unreadable_of_readImage hi) (.inl rfl)
    | ok image =>
      simp only
      cases ho : Page.ofImage page (s.heap k).schema image with
      | error e => exact .unread (unreadable_of_ofImage ho) (.inr ⟨k, rfl⟩)
      | ok p =>
        refine .read hk ?_
        simp only [HeapFile.readPage, hi, bind, Except.bind, ho]

/-! ## Loads -/

/-- How a load ends. -/
inductive Loads (txn : TxnId) (page : PageId) (s : Store) :
    EStateM.Result StoreError Store FrameNo → Prop
  | resident {f : FrameNo} : s.table.frame? page = some f →
    Loads txn page s (.ok f { s with table := s.table.relate txn page })
  | full : s.Stuck page → Loads txn page s (.error (.poolFull s.maxPages) s)
  | unread {gone : Option PageId} {err : StoreError} {u : Store} :
    (∀ v, gone = some v ↔ s.MakesWay page v) → err.Unreadable →
    u = s.vacated gone ∨ (∃ k, u = (s.vacated gone).counted k) → Loads txn page s (.error err u)
  | read {gone : Option PageId} {k : HandleNo} {p : Page} : s.table.frame? page = none →
    (∀ v, gone = some v ↔ s.MakesWay page v) → s.handle? page.table = some k →
    (s.heap k).readPage (s.fileOf k) page = .ok p →
    Loads txn page s (.ok s.frames.size { (s.vacated gone).counted k with
      frames := s.frames.push p
      table := ((s.vacated gone).table.insert page s.frames.size).relate txn page })

theorem load_ends {s : Store} (h : s.Shaped) (txn : TxnId) (page : PageId) :
    Loads txn page s (load txn page s) := by
  rw [load_run]
  cases hf : s.table.frame? page with
  | some f => exact .resident hf
  | none =>
    simp only
    rw [bind_run]
    rcases makeRoom_cases h hf with ⟨hstuck, hfull⟩ | ⟨gone, hgone, hmade, -⟩
    · rw [hfull]
      exact .full hstuck
    · rw [hmade]
      simp only
      have hends := bringIn_brings (s.vacated gone) txn page
      generalize bringIn txn page (s.vacated gone) = r at hends
      -- files are read as they were before the eviction
      cases hends with
      | unread herr hu => exact .unread hgone herr hu
      | read hk hp =>
        cases gone with
        | none => exact .read hf hgone hk hp
        | some v => exact .read hf hgone hk hp

/-! ## Fetches that give a page -/

/-- What a load that gives an instance has done: `gone` is the page that made way for it. -/
structure HandedOut (txn : TxnId) (page : PageId) (access : Access) (gone : Option PageId)
    (s : Store) (f : FrameNo) (u : Store) : Prop where
  /-- The lock is still there. -/
  covered : ∃ held, u.locks.mode? txn page = some held ∧ held.covers access = true
  frame : u.table.frame? page = some f
  found : ∀ g, s.table.frame? page = some g → f = g
  read : s.table.frame? page = none → ∃ k, s.handle? page.table = some k ∧
    (s.heap k).readPage (s.fileOf k) page = .ok (u.frames.page f)
  victim : ∀ v, gone = some v ↔ s.MakesWay page v
  /-- The others stay in load order, and a page that was read is the last one. -/
  resident : u.table.resident = (s.table.resident.filter fun x => gone != some x.1) ++
    if s.table.frame? page = none then [(page, f)] else []
  kept : ∀ g, g < s.frames.size → u.frames.page g = s.frames.page g
  locks : ∀ t q, u.locks.mode? t q = if gone = some q then none else s.locks.mode? t q
  uses : ∀ t q, u.table.relation.Has t q ↔
    t = txn ∧ q = page ∨ s.table.relation.Has t q ∧ gone ≠ some q
  volume : u.volume = s.volume
  log : u.log = s.log

theorem load_handsOut {s : Store} (h : s.Shaped) {txn : TxnId} {page : PageId} {access : Access}
    (hc : s.covered txn page access = true) {f : FrameNo} {u : Store}
    (hl : load txn page s = .ok f u) : ∃ gone, HandedOut txn page access gone s f u := by
  have hends := load_ends h txn page
  rw [hl] at hends
  obtain ⟨held, hheld, hcovers⟩ := covered_iff.mp hc
  cases hends with
  | resident hf =>
    refine ⟨none, ⟨held, hheld, hcovers⟩, hf, fun g hg => Option.some.inj (hf.symm.trans hg),
      fun hn => ?_, fun v => ⟨by simp, fun hv => ?_⟩, ?_, fun _ _ => rfl, fun _ _ => rfl,
      fun t q => ?_, rfl, rfl⟩
    · rw [hf] at hn
      simp at hn
    · have hn := hv.absent
      rw [hf] at hn
      simp at hn
    · rw [if_neg (by rw [hf]; simp), List.append_nil]
      exact (Spared.refl s).resident
    · show (s.table.relation.add txn page).Has t q ↔ _
      rw [Relation.has_add]
      simp
  | @read gone k p hn hgone hk hp =>
    have hspared := h.spared gone
    have hvacated := h.vacated hgone
    -- the page that made way was resident, so it is another one
    have hne : gone ≠ some page := fun hq => ((hgone page).mp hq).ne h rfl
    have habsent : (s.vacated gone).table.frame? page = none := by
      cases gone with
      | none => exact hn
      | some v =>
        show ((s.table.remove v).unrelatePage v).frame? page = none
        have hv : page ≠ v := fun hq => hne (congrArg some hq.symm)
        rw [PageTable.frame?_unrelatePage, PageTable.frame?_remove, if_neg hv]
        exact hn
    have hpage : Frames.page (s.frames.push p) s.frames.size = p := by
      rw [Frames.page_push, if_pos rfl]
    refine ⟨gone, ⟨held, ?_, hcovers⟩, ?_, fun g hg => ?_, fun _ => ⟨k, hk, ?_⟩, hgone, ?_,
      fun g hg => ?_, hspared.locks, fun t q => ?_, hspared.volume, hspared.log⟩
    · exact (hspared.locks txn page).trans (by rw [if_neg hne, hheld])
    · show (((s.vacated gone).table.insert page s.frames.size).relate txn page).frame? page = _
      rw [PageTable.frame?_relate, PageTable.frame?_insert, if_pos rfl]
    · rw [hn] at hg
      simp at hg
    · rw [hp, hpage]
    · rw [if_pos hn, ← hspared.resident]
      exact PageTable.resident_insert hvacated.ordered habsent _
    · show Frames.page (s.frames.push p) g = _
      rw [Frames.page_push, if_neg (Nat.ne_of_lt hg)]
    · show ((s.vacated gone).table.relation.add txn page).Has t q ↔ _
      rw [Relation.has_add, hspared.uses]

/-- A fetch is a grant and what a load gives then. -/
theorem getPage_of_granted {s : Store} {txn : TxnId} {page : PageId} {access : Access}
    {locks : LockManager} (hl : s.locks.acquire? txn page access = some locks) :
    getPage txn page access s = load txn page { s with locks := locks } := by
  rw [getPage_run, hl]

theorem covered_of_granted {s : Store} (h : s.Shaped) {txn : TxnId} {page : PageId}
    {access : Access} {locks : LockManager}
    (hl : s.locks.acquire? txn page access = some locks) :
    covered { s with locks := locks } txn page access = true := by
  have hmode := LockManager.mode?_acquire? h.consistent hl txn page
  rw [if_pos ⟨rfl, rfl⟩] at hmode
  rw [covered_iff]
  split at hmode
  · exact ⟨.write, hmode, by cases access <;> rfl⟩
  · exact ⟨access, hmode, by cases access <;> rfl⟩

theorem Stuck.not_makesWay {s : Store} {page victim : PageId} (h : s.Stuck page) :
    ¬ s.MakesWay page victim := by
  intro hv
  obtain ⟨before, f, after, hsplit, -, hclean⟩ := hv.first
  exact h.dirty (victim, f) (by rw [hsplit]; simp) hclean

/-- A load that fails has cost at most one eviction, and one only if the page cannot be read.
A load that calls the pool full has found it so. -/
theorem load_fails {s : Store} (h : s.Shaped) {txn : TxnId} {page : PageId} {err : StoreError}
    {u : Store} (hl : load txn page s = .error err u) :
    ∃ gone, (∀ v, gone = some v ↔ s.MakesWay page v) ∧ Spared gone s u ∧
      (err.Unreadable ∨ gone = none ∧ err = .poolFull s.maxPages) ∧
      ∀ n, err = .poolFull n → n = s.maxPages ∧ s.Stuck page ∧ u = s := by
  have hends := load_ends h txn page
  rw [hl] at hends
  cases hends with
  | full hstuck =>
    refine ⟨none, fun v => ⟨by simp, fun hv => absurd hv hstuck.not_makesWay⟩, .refl s,
      .inr ⟨rfl, rfl⟩, fun n hn => ⟨(StoreError.poolFull.inj hn).symm, hstuck, rfl⟩⟩
  | @unread gone _ _ hgone herr hu =>
    refine ⟨gone, hgone, ?_, .inl herr, fun n hn => absurd hn (herr.ne_poolFull n)⟩
    have hspared := h.spared gone
    rcases hu with rfl | ⟨k, rfl⟩
    · exact hspared
    · exact ⟨hspared.resident, hspared.frames, hspared.locks, hspared.uses, hspared.volume,
        hspared.catalog, hspared.log⟩

/-- Why a fetch fails: the lock is denied, the pool is full, or the page cannot be read. -/
theorem getPage_error {s : Store} (h : s.Shaped) {txn : TxnId} {page : PageId} {access : Access}
    {err : StoreError} {u : Store} (he : getPage txn page access s = .error err u) :
    err = .aborted txn page ∨ err = .poolFull s.maxPages ∨ err.Unreadable := by
  cases hl : s.locks.acquire? txn page access with
  | none =>
    rw [getPage_run, hl] at he
    exact .inl (EStateM.Result.error.inj he).1.symm
  | some locks =>
    rw [getPage_of_granted hl] at he
    obtain ⟨gone, -, -, herr, -⟩ := load_fails ((Move.granted hl).shaped h) he
    exact .inr (herr.elim .inr fun hx => .inl hx.2)

/-- Whatever calls have run since its lock was granted, in full or in parts: an instance that
a transaction is given is the resident one, its lock on the page still covers what it asked
for, and its use of the page is noted. No page has made way for it, or just one has: the pool
was full, it was the first clean page in load order, and it has lost its locks and its users.
All other locks, users and pages are as before. A transaction whose lock does not cover its
request is given nothing, and nothing has changed. The pool is called full only if as many
pages are resident as may be and all of them are dirty, and then a load has changed nothing
and a fetch nothing but its own lock. -/
theorem Staggered.hands_out {s : Store} (h : Staggered s) (txn : TxnId) (page : PageId)
    (access : Access) :
    (∀ f u, loadLocked txn page access s = .ok (some f) u →
      ∃ gone, HandedOut txn page access gone s f u) ∧
    (∀ u, loadLocked txn page access s = .ok none u ↔
      (¬ ∃ held, s.locks.mode? txn page = some held ∧ held.covers access = true) ∧ u = s) ∧
    (∀ n u, loadLocked txn page access s = .error (.poolFull n) u →
      n = s.maxPages ∧ s.Stuck page ∧ u = s) ∧
    (∀ f u, getPage txn page access s = .ok f u →
      ∃ locks gone, s.locks.acquire? txn page access = some locks ∧
        HandedOut txn page access gone { s with locks := locks } f u) ∧
    (∀ n u, getPage txn page access s = .error (.poolFull n) u →
      ∃ locks, s.locks.acquire? txn page access = some locks ∧
        n = s.maxPages ∧ s.Stuck page ∧ u = { s with locks := locks }) := by
  have hs := h.shaped
  have hrun := loadLocked_run s txn page access
  refine ⟨fun f u hx => ?_, fun u => ?_, fun n u hx => ?_, fun f u hx => ?_, fun n u hx => ?_⟩
  · rw [hrun] at hx
    split at hx
    · rename_i hc
      cases hl : load txn page s with
      | error e v => simp [hl] at hx
      | ok g v =>
        simp only [hl, EStateM.Result.ok.injEq, Option.some.injEq] at hx
        obtain ⟨rfl, rfl⟩ := hx
        exact load_handsOut hs hc hl
    · simp at hx
  · rw [hrun, ← covered_iff]
    split
    · rename_i hc
      cases load txn page s <;> simp [hc]
    · rename_i hc
      simp [hc, @eq_comm _ s u]
  · rw [hrun] at hx
    split at hx
    · cases hl : load txn page s with
      | ok g v => simp [hl] at hx
      | error e v =>
        simp only [hl, EStateM.Result.error.injEq] at hx
        obtain ⟨rfl, rfl⟩ := hx
        obtain ⟨-, -, -, -, hfull⟩ := load_fails hs hl
        exact hfull n rfl
    · simp at hx
  · cases hl : s.locks.acquire? txn page access with
    | none => simp [getPage_run, hl] at hx
    | some locks =>
      rw [getPage_of_granted hl] at hx
      obtain ⟨gone, hgone⟩ :=
        load_handsOut ((Move.granted hl).shaped hs) (covered_of_granted hs hl) hx
      exact ⟨locks, gone, rfl, hgone⟩
  · cases hl : s.locks.acquire? txn page access with
    | none => simp [getPage_run, hl] at hx
    | some locks =>
      rw [getPage_of_granted hl] at hx
      obtain ⟨-, -, -, -, hfull⟩ := load_fails ((Move.granted hl).shaped hs) hx
      obtain ⟨hn, hstuck, hu⟩ := hfull n rfl
      exact ⟨locks, rfl, hn, ⟨hstuck.absent, hstuck.full, hstuck.dirty⟩, hu⟩

/-- A pool of one page, which a transaction has fetched to read it. -/
def occupied (pages : Nat) : Store :=
  (sample 1 pages).after (Call.getPage ⟨1⟩ ⟨1, 0⟩ .read).run

theorem staggered_occupied (pages : Nat) : Staggered (occupied pages) :=
  .part (.whole (.getPage ⟨1⟩ ⟨1, 0⟩ .read)) (.unused (unused_sample 1 pages)) trivial

/-- The load of another page evicts it and takes its lock away. -/
theorem Staggered.hands_out_occupied :
    let s := (occupied 2).after (lockPage ⟨2⟩ ⟨1, 1⟩ .write)
    s.locks.mode? ⟨1⟩ ⟨1, 0⟩ = some .read ∧ s.table.resident = [(⟨1, 0⟩, 0)] ∧
      ∃ u, loadLocked ⟨2⟩ ⟨1, 1⟩ .write s = .ok (some 1) u ∧
        u.locks.mode? ⟨1⟩ ⟨1, 0⟩ = none ∧ u.table.resident = [(⟨1, 1⟩, 1)] ∧
        u.locks.mode? ⟨2⟩ ⟨1, 1⟩ = some .write := by
  intro s
  have hs : Staggered s := .part (.grant ⟨2⟩ ⟨1, 1⟩ .write) (staggered_occupied 2) trivial
  have hheld : s.locks.mode? ⟨1⟩ ⟨1, 0⟩ = some .read := by decide +kernel
  have hgranted : s.locks.mode? ⟨2⟩ ⟨1, 1⟩ = some .write := by decide +kernel
  have hres : s.table.resident = [(⟨1, 0⟩, 0)] := by decide +kernel
  have habsent : s.table.frame? ⟨1, 1⟩ = none := by decide +kernel
  have hclean : (s.frames.page 0).dirtier = none := by decide +kernel
  have hgiven : s.given? (loadLocked ⟨2⟩ ⟨1, 1⟩ .write) = some (some 1) := by decide +kernel
  obtain ⟨u, hl⟩ := given?_eq_some_iff.mp hgiven
  obtain ⟨gone, hout⟩ := (hs.hands_out ⟨2⟩ ⟨1, 1⟩ .write).1 1 u hl
  have hgone := (hout.victim ⟨1, 0⟩).mpr
    ⟨habsent, by rw [hres]; rfl, [], 0, [], hres, by simp, hclean⟩
  refine ⟨hheld, hres, u, hl, ?_, ?_, ?_⟩
  · rw [hout.locks, if_pos hgone]
  · rw [hout.resident, hres, hgone, if_pos habsent]
    rfl
  · rw [hout.locks, if_neg (by rw [hgone]; decide), hgranted]

/-! ## Fetches that fail -/

/-- A fetch that fails takes nothing from others if the lock is denied, if the pool is full
of dirty pages, or if there is room. Only if it was granted its lock and the first clean page
had to make way, before the page that it asked for turned out to be unreadable, is that page
gone with its locks and its users. All other pages are resident as before and in the same
order, all instances are as before, and so are all locks on other pages and all users. -/
theorem Staggered.fetch_fails {s : Store} (h : Staggered s) {txn : TxnId} {page : PageId}
    {access : Access} {err : StoreError} {u : Store}
    (he : getPage txn page access s = .error err u) :
    ∃ gone, (∀ v, gone = some v ↔
        s.locks.acquire? txn page access ≠ none ∧ s.MakesWay page v) ∧
      (s.locks.acquire? txn page access = none → err = .aborted txn page ∧ u = s) ∧
      (∀ n, err = .poolFull n → ∃ locks, s.locks.acquire? txn page access = some locks ∧
        s.Stuck page ∧ u = { s with locks := locks }) ∧
      (gone ≠ none → err.Unreadable) ∧
      u.table.resident = (s.table.resident.filter fun x => gone != some x.1) ∧
      u.frames = s.frames ∧
      (∀ t q, q ≠ page → u.locks.mode? t q =
        if gone = some q then none else s.locks.mode? t q) ∧
      (∀ t q, u.table.relation.Has t q ↔ s.table.relation.Has t q ∧ gone ≠ some q) ∧
      u.volume = s.volume ∧ u.log = s.log := by
  have hs := h.shaped
  cases hl : s.locks.acquire? txn page access with
  | none =>
    rw [getPage_run, hl] at he
    obtain ⟨rfl, rfl⟩ := EStateM.Result.error.inj he
    have hspared := Spared.refl s
    exact ⟨none, by simp, fun _ => ⟨rfl, rfl⟩, by simp, by simp, hspared.resident, rfl,
      fun t q _ => hspared.locks t q, hspared.uses, rfl, rfl⟩
  | some locks =>
    rw [getPage_of_granted hl] at he
    obtain ⟨gone, hgone, hspared, herr, hfull⟩ := load_fails ((Move.granted hl).shaped hs) he
    refine ⟨gone, fun v => ?_, by simp, fun n hn => ?_, fun hne => ?_, hspared.resident,
      hspared.frames, fun t q hq => ?_, hspared.uses, hspared.volume, hspared.log⟩
    · rw [hgone v]
      exact ⟨fun hv => ⟨by simp, hv.absent, hv.full, hv.first⟩,
        fun hv => ⟨hv.2.absent, hv.2.full, hv.2.first⟩⟩
    · obtain ⟨-, hstuck, hu⟩ := hfull n hn
      exact ⟨locks, rfl, ⟨hstuck.absent, hstuck.full, hstuck.dirty⟩, hu⟩
    · exact herr.resolve_right fun hx => hne hx.1
    · -- the grant is a lock on the page that was asked for
      have hmode := LockManager.mode?_acquire? hs.consistent hl t q
      rw [if_neg fun hx => hq hx.2] at hmode
      rw [hspared.locks]
      show (if gone = some q then none else locks.mode? t q) = _
      rw [hmode]

/-- The other page is past the end of the file, and the first one is gone all the same. -/
theorem Staggered.fetch_fails_occupied :
    (occupied 1).table.resident = [(⟨1, 0⟩, 0)] ∧
      (occupied 1).locks.mode? ⟨1⟩ ⟨1, 0⟩ = some .read ∧
      ∃ u, getPage ⟨2⟩ ⟨1, 1⟩ .read (occupied 1) = .error (.io .unexpectedEnd) u ∧
        u.table.resident = [] ∧ u.locks.mode? ⟨1⟩ ⟨1, 0⟩ = none := by
  have hres : (occupied 1).table.resident = [(⟨1, 0⟩, 0)] := by decide +kernel
  have hheld : (occupied 1).locks.mode? ⟨1⟩ ⟨1, 0⟩ = some .read := by decide +kernel
  have hclean : ((occupied 1).frames.page 0).dirtier = none := by decide +kernel
  have hfree : ((occupied 1).locks.acquire? ⟨2⟩ ⟨1, 1⟩ .read).isSome = true := by decide +kernel
  have hend : (occupied 1).error? (getPage ⟨2⟩ ⟨1, 1⟩ .read) = some (.io .unexpectedEnd) := by
    decide +kernel
  obtain ⟨u, hget⟩ := error?_eq_some_iff.mp hend
  obtain ⟨gone, hgone, -, -, -, hresident, -, hlocks, -⟩ :=
    (staggered_occupied 1).fetch_fails hget
  have hway := (hgone ⟨1, 0⟩).mpr ⟨Option.isSome_iff_ne_none.mp hfree, by decide +kernel,
    by rw [hres]; rfl, [], 0, [], hres, by simp, hclean⟩
  refine ⟨hres, hheld, u, hget, ?_, ?_⟩
  · rw [hresident, hres, hway]
    rfl
  · rw [hlocks _ _ (by decide), if_pos hway]

/-- So a fetch that fails can cost others a page and a lock. -/
theorem Staggered.failed_fetch_costs : ¬ ∀ s, Staggered s → ∀ txn page access err u,
    getPage txn page access s = .error err u →
      u.table.resident = s.table.resident ∧
      (∀ x ∈ s.table.resident, u.frames.page x.2 = s.frames.page x.2) ∧
      ∀ t q, q ≠ page → u.locks.mode? t q = s.locks.mode? t q ∧
        (u.table.relation.Has t q ↔ s.table.relation.Has t q) := by
  intro hall
  have hres : (occupied 1).table.resident = [(⟨1, 0⟩, 0)] := by decide +kernel
  have hend : (occupied 1).error? (getPage ⟨2⟩ ⟨1, 1⟩ .read) = some (.io .unexpectedEnd) := by
    decide +kernel
  have hlost : ((occupied 1).after (getPage ⟨2⟩ ⟨1, 1⟩ .read)).table.resident = [] := by
    decide +kernel
  obtain ⟨u, hget⟩ := error?_eq_some_iff.mp hend
  obtain ⟨hsame, -⟩ := hall _ (staggered_occupied 1) _ _ _ _ _ hget
  rw [after_error hget, hsame, hres] at hlost
  simp at hlost

end Store

end RowStore
