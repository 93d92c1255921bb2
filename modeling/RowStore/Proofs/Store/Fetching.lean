import RowStore.Proofs.Store.Shape

/-!
  Fetching — what `getPage` does, whatever comes of it.

  `Cleared` says of the evictions that make room: other pages keep their frame and
  their locks, and a page that is evicted was resident and clean and is then neither
  resident nor locked. A fetch that succeeds leaves its page resident
  and locked as it was asked for (`getPage_traced`); whatever comes of a fetch, a lock is
  lost only with such an eviction (`getPage_keeps`).
-/

namespace RowStore.Store

/-! ## Runs of the pieces -/

theorem lockPage_run (s : Store) (txn : TxnId) (p : PageId) (access : Access) :
    lockPage txn p access s = match s.locks.acquire? txn p access with
      | some locks => .ok () { s with locks := locks }
      | none => .error (.aborted txn p) s := by
  unfold lockPage
  simp only [bind_run, get_run]
  cases s.locks.acquire? txn p access <;> rfl

theorem evict_run (s : Store) :
    evict s = match s.table.victim? s.frames with
      | some p => .ok () { s with
          table := (s.table.remove p).unrelatePage p
          locks := s.locks.releasePage p }
      | none => .error (.poolFull s.maxPages) s := by
  unfold evict
  simp only [bind_run, get_run]
  cases s.table.victim? s.frames <;> rfl

theorem evictUpTo_run (s : Store) (fuel : Nat) :
    evictUpTo (fuel + 1) s =
      if s.table.size < s.maxPages then .ok () s
      else match evict s with
        | .ok _ u => evictUpTo fuel u
        | .error e u => .error e u := by
  rw [evictUpTo]
  simp only [bind_run, get_run]
  split
  · rfl
  · rw [bind_run]
    cases evict s <;> rfl

theorem makeRoom_run (s : Store) : makeRoom s = evictUpTo (s.table.size + 1) s := rfl

/-- The store after a read of a heap file is counted. -/
def counted (s : Store) (k : HandleNo) : Store :=
  { s with handles := s.handles.modify k fun h => { h with reads := h.reads + 1 } }

theorem readPage_run (s : Store) (k : HandleNo) (id : PageId) :
    readPage k id s = match (s.heap k).readImage (s.fileOf k) id with
      | .ok image => (match Page.ofImage id (s.heap k).schema image with
        | .ok p => .ok p (s.counted k)
        | .error e => .error e (s.counted k))
      | .error e => .error e s := by
  unfold readPage
  simp only [bind_run, heapFile_run, contents_run, ofExcept_run]
  cases (s.heap k).readImage (s.fileOf k) id with
  | error e => rfl
  | ok image =>
    simp only [updateHandle, modify_run]
    cases Page.ofImage id (s.heap k).schema image <;> rfl

/-- The rest of a fetch once there is room. -/
def bringIn (txn : TxnId) (p : PageId) : StoreM FrameNo := do
  let k ← tableFile p.table
  let q ← readPage k p
  let f ← newFrame q
  makeResident p f
  relate txn p
  return f

theorem load_run (s : Store) (txn : TxnId) (p : PageId) :
    load txn p s = match s.table.frame? p with
      | some f => .ok f { s with table := s.table.relate txn p }
      | none => (makeRoom >>= fun _ => bringIn txn p) s := by
  unfold load
  rw [bind_run, get_run]
  cases hf : s.table.frame? p <;> simp only [hf] <;> rfl

theorem getPage_run (s : Store) (txn : TxnId) (p : PageId) (access : Access) :
    getPage txn p access s = match s.locks.acquire? txn p access with
      | some locks => load txn p { s with locks := locks }
      | none => .error (.aborted txn p) s := by
  unfold getPage
  rw [bind_run, lockPage_run]
  cases s.locks.acquire? txn p access <;> rfl

/-! ## Files keep their places -/

/-- Two heap files that differ in their counts only. -/
structure SameHeap (h h' : HeapFile) : Prop where
  table : h.table = h'.table
  file : h.file = h'.file
  path : h.path = h'.path
  schema : h.schema = h'.schema
  pageSize : h.pageSize = h'.pageSize

namespace SameHeap

theorem refl (h : HeapFile) : SameHeap h h := ⟨rfl, rfl, rfl, rfl, rfl⟩

theorem symm {a b : HeapFile} (h : SameHeap a b) : SameHeap b a :=
  ⟨h.table.symm, h.file.symm, h.path.symm, h.schema.symm, h.pageSize.symm⟩

theorem trans {a b c : HeapFile} (h₁ : SameHeap a b) (h₂ : SameHeap b c) : SameHeap a c where
  table := h₁.table.trans h₂.table
  file := h₁.file.trans h₂.file
  path := h₁.path.trans h₂.path
  schema := h₁.schema.trans h₂.schema
  pageSize := h₁.pageSize.trans h₂.pageSize

variable {h h' : HeapFile} (e : SameHeap h h')
include e

theorem readImage (f : File) (id : PageId) : h.readImage f id = h'.readImage f id := by
  simp only [HeapFile.readImage, HeapFile.place, e.table, e.pageSize]

theorem readPage (f : File) (id : PageId) : h.readPage f id = h'.readPage f id := by
  simp only [HeapFile.readPage, e.readImage f id, e.schema]

end SameHeap

theorem sameHeap_modify (s : Store) (k j : HandleNo) {g : HeapFile → HeapFile}
    (hg : ∀ h, SameHeap (g h) h) :
    SameHeap ((s.handles.modify k g).getD j default) (s.heap j) := by
  simp only [heap, Array.getD_eq_getD_getElem?, Array.getElem?_modify]
  split
  · cases s.handles[j]? with
    | none => exact SameHeap.refl _
    | some h => exact hg h
  · exact SameHeap.refl _

theorem Move.catalog {e : Event} {s s' : Store} (hm : Move e s s') : s'.catalog = s.catalog := by
  cases hm with
  | grown hk ha => obtain ⟨f, -, rfl⟩ := allocatePage_eq_ok ha; rfl
  | flushed hf hd hk hw => obtain ⟨f, -, rfl⟩ := writePage_eq_ok hw; rfl
  | committed hf hd hk hw hq => obtain ⟨f, -, rfl⟩ := writePage_eq_ok hw; rfl
  | _ => rfl

theorem Move.heap {e : Event} {s s' : Store} (hm : Move e s s') (j : HandleNo) :
    SameHeap (s'.heap j) (s.heap j) := by
  cases hm with
  | counted => exact sameHeap_modify s _ j fun _ => ⟨rfl, rfl, rfl, rfl, rfl⟩
  | grown hk ha =>
    obtain ⟨f, -, rfl⟩ := allocatePage_eq_ok ha
    exact sameHeap_modify s _ j fun _ => ⟨rfl, rfl, rfl, rfl, rfl⟩
  | flushed hf hd hk hw =>
    obtain ⟨f, -, rfl⟩ := writePage_eq_ok hw
    exact sameHeap_modify s _ j fun _ => ⟨rfl, rfl, rfl, rfl, rfl⟩
  | committed hf hd hk hw hq =>
    obtain ⟨f, -, rfl⟩ := writePage_eq_ok hw
    exact sameHeap_modify s _ j fun _ => ⟨rfl, rfl, rfl, rfl, rfl⟩
  | _ => exact SameHeap.refl _

theorem Trace.handle? {es : List Event} {s s' : Store} (ht : Trace es s s') (table : TableId) :
    s'.handle? table = s.handle? table := by
  have hc : s'.catalog = s.catalog :=
    ht.induct (P := fun u => u.catalog = s.catalog) (fun _ _ _ _ hm h => hm.catalog.trans h) rfl
  rw [Store.handle?, Store.handle?, hc]

theorem Trace.heap {es : List Event} {s s' : Store} (ht : Trace es s s') (k : HandleNo) :
    SameHeap (s'.heap k) (s.heap k) :=
  ht.induct (P := fun u => SameHeap (u.heap k) (s.heap k))
    (fun _ _ _ _ hm h => (hm.heap k).trans h) (SameHeap.refl _)

/-! ## Evictions -/

/-- What evictions do to each page: nothing, or it was clean and is gone with all its
locks. -/
structure Cleared (s u : Store) : Prop where
  frames : u.frames = s.frames
  page : ∀ p, (u.table.frame? p = s.table.frame? p ∧
      ∀ txn, u.locks.mode? txn p = s.locks.mode? txn p) ∨
    ∃ f, s.table.frame? p = some f ∧ (s.frames.page f).dirtier = none ∧
      u.table.frame? p = none ∧ ∀ txn, u.locks.mode? txn p = none

theorem Cleared.refl (s : Store) : Cleared s s := ⟨rfl, fun _ => .inl ⟨rfl, fun _ => rfl⟩⟩

theorem cleared_evicted {s : Store} (h : s.Shaped) {p : PageId}
    (hv : s.table.victim? s.frames = some p) :
    Cleared s { s with
      table := (s.table.remove p).unrelatePage p
      locks := s.locks.releasePage p } := by
  refine ⟨rfl, ?_⟩
  intro q
  have hm := LockManager.mode?_releasePage h.consistent p q
  by_cases hq : q = p
  · subst hq
    obtain ⟨f, hf, hd⟩ := PageTable.of_victim? h.ordered hv
    refine .inr ⟨f, hf, hd, ?_, ?_⟩
    · rw [PageTable.frame?_unrelatePage, PageTable.frame?_remove, if_pos rfl]
    · intro txn
      rw [hm, if_pos rfl]
  · refine .inl ⟨?_, ?_⟩
    · rw [PageTable.frame?_unrelatePage, PageTable.frame?_remove, if_neg hq]
    · intro txn
      rw [hm, if_neg hq]

theorem Cleared.trans {s u v : Store} (h₁ : Cleared s u) (h₂ : Cleared u v) : Cleared s v := by
  refine ⟨h₂.frames.trans h₁.frames, ?_⟩
  intro p
  · rcases h₂.page p with ⟨hf₂, hl₂⟩ | ⟨f, hf, hd, hn, hl₂⟩
    · rcases h₁.page p with ⟨hf₁, hl₁⟩ | ⟨f, hf, hd, hn, hl₁⟩
      · exact .inl ⟨hf₂.trans hf₁, fun txn => (hl₂ txn).trans (hl₁ txn)⟩
      · exact .inr ⟨f, hf, hd, hf₂.trans hn, fun txn => (hl₂ txn).trans (hl₁ txn)⟩
    · rcases h₁.page p with ⟨hf₁, -⟩ | ⟨g, -, -, hn', -⟩
      · exact .inr ⟨f, hf₁ ▸ hf, h₁.frames ▸ hd, hn, hl₂⟩
      · rw [hn'] at hf; simp at hf

/-- The outcomes of a search for room. -/
inductive Room (s : Store) : EStateM.Result StoreError Store Unit → Prop
  | made {u : Store} {es : List Event} : Trace es s u → (∀ e ∈ es, ∃ p, e = .evicted p) →
    Cleared s u → u.table.size < u.maxPages → Room s (.ok () u)
  | full {u : Store} {es : List Event} : Trace es s u → (∀ e ∈ es, ∃ p, e = .evicted p) →
    Cleared s u → Room s (.error (.poolFull s.maxPages) u)

theorem evictUpTo_room {fuel : Nat} {s : Store} (h : s.Shaped) (hf : s.table.size < fuel) :
    Room s (evictUpTo fuel s) := by
  induction fuel generalizing s with
  | zero => exact absurd hf (Nat.not_lt_zero _)
  | succ fuel ih =>
    rw [evictUpTo_run]
    split
    · rename_i hlt
      exact .made .nil (by simp) (.refl s) hlt
    · rw [evict_run]
      cases hv : s.table.victim? s.frames with
      | none => exact .full .nil (by simp) (.refl s)
      | some p =>
        let u : Store := { s with
          table := (s.table.remove p).unrelatePage p
          locks := s.locks.releasePage p }
        have hm : Move (.evicted p) s u := .evicted hv
        have hc : Cleared s u := cleared_evicted h hv
        obtain ⟨f, hp, -⟩ := PageTable.of_victim? h.ordered hv
        have hlt : u.table.size < s.table.size := PageTable.size_remove_lt hp
        have hr := ih (hm.shaped h) (Nat.lt_of_lt_of_le hlt (Nat.le_of_lt_succ hf))
        show Room s (evictUpTo fuel u)
        generalize evictUpTo fuel u = r at hr
        cases hr with
        | made ht he hc' hs =>
          exact .made (.cons hm ht) (by simpa using he) (hc.trans hc') hs
        | full ht he hc' =>
          exact .full (.cons hm ht) (by simpa using he) (hc.trans hc')

theorem makeRoom_room {s : Store} (h : s.Shaped) : Room s (makeRoom s) := by
  rw [makeRoom_run]
  exact evictUpTo_room h (Nat.lt_succ_self _)

/-! ## Fetches -/

/-- The events of a fetch. -/
def Event.Fetch (txn : TxnId) : Event → Prop
  | .granted u _ _ | .used u _ => u = txn
  | .evicted _ | .counted | .loaded _ => True
  | _ => False

theorem fetch_not_endless {txn : TxnId} {e : Event} (h : e.Fetch txn) : ¬ e.Endless := by
  cases e <;> simp_all [Event.Fetch, Event.Endless]

theorem readPage_traced (s : Store) (txn : TxnId) (k : HandleNo) (p : PageId) :
    Traced (Event.Fetch txn) (readPage k p) s fun q u =>
      u = s.counted k ∧ (s.heap k).readPage (s.fileOf k) p = .ok q := by
  have hc : Trace [.counted] s (s.counted k) := .single .counted
  have hr := readPage_run s k p
  unfold HeapFile.readPage
  cases hi : (s.heap k).readImage (s.fileOf k) p with
  | error e =>
    simp only [hi] at hr
    exact .of_error hr .nil (by simp)
  | ok image =>
    cases ho : Page.ofImage p (s.heap k).schema image with
    | error e =>
      simp only [hi, ho] at hr
      exact .of_error hr hc (by simp [Event.Fetch, Event.Endless])
    | ok q =>
      simp only [hi, ho] at hr
      exact .of_run hr hc (by simp [Event.Fetch, Event.Endless]) ⟨rfl, ho⟩

theorem bringIn_traced {s : Store} {txn : TxnId} {p : PageId} (hn : s.table.frame? p = none)
    (hs : s.table.size < s.maxPages) (hl : s.locks.mode? txn p ≠ none) :
    Traced (Event.Fetch txn) (bringIn txn p) s fun f u =>
      u.table.frame? p = some f ∧ u.locks = s.locks := by
  unfold bringIn
  apply (Traced.tableFile p.table).bind
  intro k u hx
  obtain ⟨rfl, hk⟩ := hx
  apply (readPage_traced u txn k p).bind
  intro q v hr
  obtain ⟨rfl, hq⟩ := hr
  let f := u.frames.size
  have hm : Move (.loaded p) (u.counted k) { u.counted k with
      frames := u.frames.push q
      table := u.table.insert p f } := by
    have hc : Trace [.counted] u (u.counted k) := .single .counted
    refine .loaded hn hs hk ?_
    rw [fileOf, (hc.heap k).file, (hc.heap k).readPage]
    exact hq
  refine .of_run rfl (.cons hm (.single (.used hl))) (by simp [Event.Fetch, Event.Endless]) ?_
  refine ⟨?_, rfl⟩
  show ((u.table.insert p f).relate txn p).frame? p = _
  rw [PageTable.frame?_relate, PageTable.frame?_insert, if_pos rfl]
  rfl

theorem makeRoom_traced {s : Store} (h : s.Shaped) (txn : TxnId) :
    Traced (Event.Fetch txn) makeRoom s fun _ u => Cleared s u ∧ u.table.size < u.maxPages := by
  have hr := makeRoom_room h
  have hev : ∀ {es : List Event}, (∀ e ∈ es, ∃ p, e = .evicted p) →
      ∀ e ∈ es, e.Fetch txn ∧ ¬ e.Endless := fun he e hm => by
    obtain ⟨q, rfl⟩ := he e hm
    exact ⟨trivial, id⟩
  cases hm : makeRoom s with
  | ok a u =>
    rw [hm] at hr
    cases hr with
    | made ht he hc hs => exact .of_run hm ht (hev he) ⟨hc, hs⟩
  | error e u =>
    rw [hm] at hr
    cases hr with
    | full ht he hc => exact .of_error hm ht (hev he)

theorem load_traced {s : Store} (h : s.Shaped) {txn : TxnId} {p : PageId}
    (hl : s.locks.mode? txn p ≠ none) :
    Traced (Event.Fetch txn) (load txn p) s fun f u =>
      u.table.frame? p = some f ∧ u.locks.mode? txn p = s.locks.mode? txn p := by
  have hrun := load_run s txn p
  cases hp : s.table.frame? p with
  | some f =>
    rw [hp] at hrun
    exact .of_run hrun (.single (.used hl)) (by simp [Event.Fetch, Event.Endless]) ⟨hp, rfl⟩
  | none =>
    rw [hp] at hrun
    have hrest : Traced (Event.Fetch txn) (makeRoom >>= fun _ => bringIn txn p) s fun f u =>
        u.table.frame? p = some f ∧ u.locks.mode? txn p = s.locks.mode? txn p := by
      apply (makeRoom_traced h txn).bind
      intro _ u hq
      obtain ⟨hc, hs⟩ := hq
      have hpage : u.table.frame? p = none ∧ u.locks.mode? txn p = s.locks.mode? txn p := by
        rcases hc.page p with ⟨hf, hm⟩ | ⟨f, hf, -⟩
        · exact ⟨hf.trans hp, hm txn⟩
        · rw [hp] at hf; simp at hf
      refine (bringIn_traced hpage.1 hs (hpage.2 ▸ hl)).mono (fun _ he => he) ?_
      intro f v hx
      obtain ⟨hf, hv⟩ := hx
      exact ⟨hf, by rw [hv, hpage.2]⟩
    unfold Traced at hrest ⊢
    rw [hrun]
    exact hrest

/-- Why a fetch leaves the page locked: the mode it was granted is still there. -/
theorem getPage_traced {s : Store} (h : s.Shaped) (txn : TxnId) (p : PageId) (access : Access) :
    Traced (Event.Fetch txn) (getPage txn p access) s fun f u =>
      u.Shaped ∧ u.table.frame? p = some f ∧
        ∃ held, u.locks.mode? txn p = some held ∧ held.covers access = true := by
  have hlock : Traced (Event.Fetch txn) (lockPage txn p access) s fun _ u =>
      u.Shaped ∧ ∃ held, u.locks.mode? txn p = some held ∧ held.covers access = true := by
    unfold Traced
    rw [lockPage_run]
    cases hl : s.locks.acquire? txn p access with
    | none => exact ⟨[], .nil, by simp⟩
    | some locks =>
      have hm : Move (.granted txn p access) s { s with locks := locks } := .granted hl
      refine ⟨⟨_, .single hm, by simp [Event.Fetch, Event.Endless]⟩, hm.shaped h, ?_⟩
      have hmode := LockManager.mode?_acquire? h.consistent hl txn p
      rw [if_pos ⟨rfl, rfl⟩] at hmode
      split at hmode
      · exact ⟨.write, hmode, by cases access <;> rfl⟩
      · exact ⟨access, hmode, by cases access <;> rfl⟩
  apply hlock.bind
  intro _ u hq
  obtain ⟨hu, held, hheld, hc⟩ := hq
  have ht : Traced (Event.Fetch txn) (load txn p) u fun f v =>
      v.table.frame? p = some f ∧ v.locks.mode? txn p = u.locks.mode? txn p :=
    load_traced hu (by rw [hheld]; simp)
  apply ht.mono_trace
  intro f v es htr hx
  obtain ⟨hf, hm⟩ := hx
  exact ⟨htr.shaped hu, hf, held, hm.trans hheld, hc⟩

/-! ## Locks that a fetch takes away -/

/-- Whatever the transaction held on the page, it holds at least that. -/
def KeepsLock (txn : TxnId) (page : PageId) (s u : Store) : Prop :=
  ∀ access, s.locks.mode? txn page = some access →
    ∃ access', u.locks.mode? txn page = some access' ∧ access'.covers access = true

/-- The page was resident and clean and is not resident any more. -/
def Swept (page : PageId) (s u : Store) : Prop :=
  ∃ f, s.table.frame? page = some f ∧ (s.frames.page f).dirtier = none ∧
    u.table.frame? page = none

theorem KeepsLock.of_eq {txn : TxnId} {page : PageId} {s u : Store}
    (h : u.locks.mode? txn page = s.locks.mode? txn page) : KeepsLock txn page s u :=
  fun access hm => ⟨access, h.trans hm, by cases access <;> rfl⟩

theorem KeepsLock.trans {txn : TxnId} {page : PageId} {s u v : Store}
    (h₁ : KeepsLock txn page s u) (h₂ : KeepsLock txn page u v) : KeepsLock txn page s v := by
  intro access hm
  obtain ⟨a, ha, hc⟩ := h₁ access hm
  obtain ⟨b, hb, hc'⟩ := h₂ a ha
  refine ⟨b, hb, ?_⟩
  cases access <;> cases a <;> cases b <;> simp_all [Access.covers]

/-- What is left to do once there is room touches no lock and no other page. -/
theorem bringIn_after (s : Store) (txn : TxnId) (p : PageId) :
    (s.after (bringIn txn p)).locks = s.locks ∧
      ∀ q, q ≠ p → (s.after (bringIn txn p)).table.frame? q = s.table.frame? q := by
  unfold bringIn
  rw [after_bind, tableFile_run]
  cases s.handle? p.table with
  | none => exact ⟨rfl, fun q _ => rfl⟩
  | some k =>
    simp only
    rw [after_bind, readPage_run]
    cases (s.heap k).readImage (s.fileOf k) p with
    | error e => exact ⟨rfl, fun q _ => rfl⟩
    | ok image =>
      simp only
      cases Page.ofImage p (s.heap k).schema image with
      | error e => exact ⟨rfl, fun q _ => rfl⟩
      | ok page =>
        refine ⟨rfl, ?_⟩
        intro q hq
        show ((s.table.insert p s.frames.size).relate txn p).frame? q = _
        rw [PageTable.frame?_relate, PageTable.frame?_insert, if_neg hq]

theorem load_keeps {s : Store} (h : s.Shaped) (txn u : TxnId) (p q : PageId) :
    KeepsLock u q s (s.after (load txn p)) ∨ Swept q s (s.after (load txn p)) := by
  unfold after
  rw [load_run]
  cases hp : s.table.frame? p with
  | some f => exact .inl (.of_eq rfl)
  | none =>
    show KeepsLock u q s (s.after (makeRoom >>= fun _ => bringIn txn p)) ∨
      Swept q s (s.after (makeRoom >>= fun _ => bringIn txn p))
    have hr := makeRoom_room h
    rw [after_bind]
    cases hm : makeRoom s with
    | error e v =>
      rw [hm] at hr
      cases hr with
      | full _ _ hc =>
        rcases hc.page q with ⟨-, hl⟩ | ⟨f, hf, hd, hn, -⟩
        · exact .inl (.of_eq (hl u))
        · exact .inr ⟨f, hf, hd, hn⟩
    | ok a v =>
      rw [hm] at hr
      cases hr with
      | made _ _ hc _ =>
        obtain ⟨hl', hf'⟩ := bringIn_after v txn p
        simp only
        rcases hc.page q with ⟨-, hl⟩ | ⟨f, hf, hd, hn, -⟩
        · exact .inl (.of_eq (by rw [hl']; exact hl u))
        · -- the page that comes in was not resident, so it is not the one swept out
          have hq : q ≠ p := fun hq => by rw [hq, hp] at hf; simp at hf
          exact .inr ⟨f, hf, hd, (hf' q hq).trans hn⟩

theorem getPage_keeps {s : Store} (h : s.Shaped) (txn u : TxnId) (p q : PageId)
    (access : Access) :
    KeepsLock u q s (s.after (getPage txn p access)) ∨
      Swept q s (s.after (getPage txn p access)) := by
  unfold after
  rw [getPage_run]
  cases hl : s.locks.acquire? txn p access with
  | none => exact .inl (.of_eq rfl)
  | some locks =>
    have hm : Move (.granted txn p access) s { s with locks := locks } := .granted hl
    have hkeep : KeepsLock u q s { s with locks := locks } := fun a ha =>
      hm.lock_kept h ha (by simp [Event.Strips])
    exact (load_keeps (hm.shaped h) txn u p q).imp hkeep.trans id

end RowStore.Store
