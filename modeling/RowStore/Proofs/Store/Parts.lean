import RowStore.Proofs.Store.Reloading

/-!
  Parts — calls that run in parts, with those of others between them.

  A fetch may stop between its grant and its load, an edit between its change and its
  registration. Room is made by at most one eviction, of the first clean page in load order
  (`makeRoom_cases`), and whatever an instance was marked with when its change is registered,
  the pool keeps its shape (`Part.shaped`). So it has its shape in every state that calls lead
  to, in whatever order their parts run (`Staggered.shaped`).
-/

namespace RowStore.Store

/-! ## Making room -/

/-- The page that has to leave so that another can be loaded: the pool is full, and this is
the first clean page in load order. -/
structure MakesWay (s : Store) (page victim : PageId) : Prop where
  absent : s.table.frame? page = none
  full : s.table.resident.length = s.maxPages
  first : ∃ before f after, s.table.resident = before ++ (victim, f) :: after ∧
    (∀ x ∈ before, (s.frames.page x.2).dirtier ≠ none) ∧ (s.frames.page f).dirtier = none

/-- There is no room for a page, and no page can make way for it. -/
structure Stuck (s : Store) (page : PageId) : Prop where
  absent : s.table.frame? page = none
  full : s.table.resident.length = s.maxPages
  dirty : ∀ x ∈ s.table.resident, (s.frames.page x.2).dirtier ≠ none

/-- The store after a page has made way, if one has. -/
def vacated (s : Store) : Option PageId → Store
  | none => s
  | some page => s.evicting page

/-- Room is made by one eviction or by none. -/
theorem makeRoom_cases {s : Store} (h : s.Shaped) {page : PageId}
    (hn : s.table.frame? page = none) :
    (s.Stuck page ∧ makeRoom s = .error (.poolFull s.maxPages) s) ∨
      ∃ gone, (∀ v, gone = some v ↔ s.MakesWay page v) ∧
        makeRoom s = .ok () (s.vacated gone) ∧
        (s.vacated gone).table.size < (s.vacated gone).maxPages := by
  have hrun := makeRoom_run s
  rw [evictUpTo_run] at hrun
  have hlength := PageTable.length_resident h.ordered
  by_cases hroom : s.table.size < s.maxPages
  · rw [if_pos hroom] at hrun
    refine .inr ⟨none, fun v => ⟨by simp, fun hv => ?_⟩, hrun, hroom⟩
    have hfull := hv.full
    omega
  · rw [if_neg hroom, evict_run] at hrun
    have hfull : s.table.size = s.maxPages := Nat.le_antisymm h.bounded (Nat.le_of_not_lt hroom)
    cases hv : s.table.victim? s.frames with
    | none =>
      rw [hv] at hrun
      exact .inl ⟨⟨hn, hlength.trans hfull, PageTable.victim?_eq_none_iff.mp hv⟩, hrun⟩
    | some v =>
      rw [hv] at hrun
      simp only at hrun
      obtain ⟨f, hf, -⟩ := PageTable.of_victim? h.ordered hv
      have hless : (s.evicting v).table.size < s.table.size := PageTable.size_remove_lt hf
      have hpos : s.table.size = s.table.size - 1 + 1 := by omega
      -- the eviction has made room, so the search ends there
      have hdone : evictUpTo s.table.size (s.evicting v) = .ok () (s.evicting v) := by
        rw [hpos, evictUpTo_run]
        exact if_pos (Nat.lt_of_lt_of_eq hless hfull)
      refine .inr ⟨some v, fun w => ⟨fun hw => ?_, fun hw => ?_⟩, hrun.trans hdone,
        Nat.lt_of_lt_of_eq hless hfull⟩
      · rw [Option.some.inj hw] at hv
        exact ⟨hn, hlength.trans hfull, PageTable.victim?_eq_some_iff.mp hv⟩
      · exact hv.symm.trans (PageTable.victim?_eq_some_iff.mpr hw.first)

/-- What is left of a page after another may have made way: `gone` says which has. -/
structure Spared (gone : Option PageId) (s u : Store) : Prop where
  resident : u.table.resident = s.table.resident.filter fun x => gone != some x.1
  frames : u.frames = s.frames
  locks : ∀ txn page, u.locks.mode? txn page =
    if gone = some page then none else s.locks.mode? txn page
  uses : ∀ txn page, u.table.relation.Has txn page ↔
    s.table.relation.Has txn page ∧ gone ≠ some page
  volume : u.volume = s.volume
  catalog : u.catalog = s.catalog
  log : u.log = s.log

theorem Spared.refl (s : Store) : Spared none s s where
  resident := (List.filter_eq_self.mpr fun _ _ => rfl).symm
  frames := rfl
  locks _ _ := rfl
  uses _ _ := by simp
  volume := rfl
  catalog := rfl
  log := rfl

theorem Shaped.spared {s : Store} (h : s.Shaped) (gone : Option PageId) :
    Spared gone s (s.vacated gone) := by
  cases gone with
  | none => exact .refl s
  | some v =>
    refine ⟨?_, rfl, fun txn page => ?_, fun txn page => ?_, rfl, rfl, rfl⟩
    · refine (PageTable.resident_remove h.ordered v).trans (List.filter_congr fun x _ => ?_)
      by_cases hx : v = x.1
      · simp [hx]
      · have hv : x.1 ≠ v := Ne.symm hx
        rw [bne_iff_ne.mpr hv, bne_iff_ne.mpr fun he => hx (Option.some.inj he)]
    · show (s.locks.releasePage v).mode? txn page = _
      rw [LockManager.mode?_releasePage h.consistent]
      simp only [Option.some.injEq, @eq_comm _ v page]
    · show ((s.table.remove v).relation.removePage v).Has txn page ↔ _
      rw [PageTable.relation_remove, Relation.has_removePage h.paired]
      simp only [ne_eq, Option.some.injEq, @eq_comm _ v page]

theorem MakesWay.ne {s : Store} (h : s.Shaped) {page victim : PageId}
    (hv : s.MakesWay page victim) : victim ≠ page := by
  obtain ⟨before, f, after, hsplit, -⟩ := hv.first
  have hmem : (victim, f) ∈ s.table.resident := by rw [hsplit]; simp
  have hres := (PageTable.mem_resident h.ordered).mp hmem
  intro he
  rw [he, hv.absent] at hres
  simp at hres

theorem Shaped.vacated {s : Store} (h : s.Shaped) {page : PageId} {gone : Option PageId}
    (hg : ∀ v, gone = some v ↔ s.MakesWay page v) : (s.vacated gone).Shaped := by
  cases gone with
  | none => exact h
  | some v =>
    have hv := PageTable.victim?_eq_some_iff.mpr ((hg v).mp rfl).first
    exact (Move.evicted hv).shaped h

/-! ## Registrations -/

/-- Any instance may become the resident one if there is room. -/
theorem Shaped.install {s : Store} (h : s.Shaped) {f : FrameNo} (hf : f < s.frames.size)
    (hroom : s.table.frame? (s.frames.page f).id ≠ none ∨ s.table.size < s.maxPages) :
    Shaped { s with table := s.table.insert (s.frames.page f).id f } where
  ordered := h.ordered.insert _ f
  paired := h.paired
  consistent := h.consistent
  bounded := by
    show (s.table.insert _ f).size ≤ s.maxPages
    rw [PageTable.size_insert]
    split
    · exact h.bounded
    · rename_i hc
      rw [PageTable.contains_iff] at hc
      exact hroom.resolve_left hc
  filed {page g} hg := by
    have hg' : (s.table.insert (s.frames.page f).id f).frame? page = some g := hg
    rw [PageTable.frame?_insert] at hg'
    split at hg'
    · rename_i hp
      rw [← Option.some.inj hg', hp]
      exact ⟨hf, rfl⟩
    · exact h.filed hg'
  held := h.held

/-- The store after an instance has become the resident one, dirty and used. -/
def marking (s : Store) (txn : TxnId) (f : FrameNo) (table : PageTable) : Store :=
  { s with
    table := table.relate txn (s.frames.page f).id
    frames := s.frames.setPage f ((s.frames.page f).markedBy (some txn)) }

theorem Shaped.marking {s : Store} {txn : TxnId} {f : FrameNo} {table : PageTable}
    (h : Shaped { s with table := table })
    (hl : s.locks.mode? txn (s.frames.page f).id ≠ none) : (s.marking txn f table).Shaped := by
  have hused := (Move.used (s := { s with table := table }) hl).shaped h
  exact hused.setPage (q := (s.frames.page f).markedBy (some txn)) rfl

/-- How a registration ends, whoever has marked the instance by then. -/
inductive Registers (txn : TxnId) (f : FrameNo) (s : Store) : Store → Prop
  | refused : Registers txn f s s
  | resident {g : FrameNo} {table : PageTable} :
    s.locks.mode? txn (s.frames.page f).id = some .write →
    s.table.frame? (s.frames.page f).id = some g →
    table = s.table ∨ table = s.table.insert (s.frames.page f).id f →
    Registers txn f s (s.marking txn f table)
  | absent {gone : Option PageId} : s.locks.mode? txn (s.frames.page f).id = some .write →
    (∀ v, gone = some v ↔ s.MakesWay (s.frames.page f).id v) →
    (s.vacated gone).table.size < (s.vacated gone).maxPages →
    Registers txn f s ((s.vacated gone).marking txn f
      ((s.vacated gone).table.insert (s.frames.page f).id f))

theorem register_ends {s : Store} (h : s.Shaped) (txn : TxnId) (f : FrameNo) :
    Registers txn f s (s.after (register txn f)) := by
  have hrun := register_run s txn f
  split at hrun
  · rw [after_error hrun]
    exact .refused
  rename_i hlock
  have hlock := not_not.mp hlock
  cases hg : s.table.frame? (s.frames.page f).id with
  | none =>
    rw [hg] at hrun
    simp only at hrun
    rw [bind_run] at hrun
    rcases makeRoom_cases h hg with ⟨-, hfull⟩ | ⟨gone, hgone, hmade, hroom⟩
    · rw [hfull] at hrun
      rw [after_error hrun]
      exact .refused
    · rw [hmade] at hrun
      have hends := Registers.absent hlock hgone hroom
      have hpage : (s.vacated gone).frames = s.frames := (h.spared gone).frames
      have hmarked : (makeResident (s.frames.page f).id f >>= fun _ =>
          mark txn (s.frames.page f).id f) (s.vacated gone) =
            .ok () ((s.vacated gone).marking txn f
              ((s.vacated gone).table.insert (s.frames.page f).id f)) := by
        rw [marking, hpage, ← hpage]
        rfl
      rw [after_ok (hrun.trans hmarked)]
      exact hends
  | some g =>
    rw [hg] at hrun
    simp only at hrun
    split at hrun
    · split at hrun
      · rw [after_error hrun]
        exact .refused
      · have hmarked : s.after (register txn f) =
            s.marking txn f (s.table.insert (s.frames.page f).id f) := after_ok hrun
        rw [hmarked]
        exact .resident hlock hg (.inr rfl)
    · have hmarked : s.after (register txn f) = s.marking txn f s.table := after_ok hrun
      rw [hmarked]
      exact .resident hlock hg (.inl rfl)

/-- A registration keeps the shape of the pool. -/
theorem Shaped.register {s : Store} (h : s.Shaped) (txn : TxnId) {f : FrameNo}
    (hf : f < s.frames.size) : (s.after (register txn f)).Shaped := by
  have hends := register_ends h txn f
  generalize s.after (Store.register txn f) = u at hends
  cases hends with
  | refused => exact h
  | resident hlock hg htable =>
    refine Shaped.marking ?_ (by rw [hlock]; simp)
    rcases htable with rfl | rfl
    · exact h
    · exact h.install hf (.inl (by rw [hg]; simp))
  | @absent gone hlock hgone hroom =>
    -- the page itself has kept its lock, since it was not resident
    have hspared := h.spared gone
    have hid : ((s.vacated gone).frames.page f).id = (s.frames.page f).id := by
      rw [hspared.frames]
    have hin := (h.vacated hgone).install (hspared.frames.symm ▸ hf) (.inr hroom)
    rw [hid] at hin
    refine hin.marking ?_
    rw [hid, hspared.locks, if_neg fun hq => ((hgone _).mp hq).ne h rfl, hlock]
    simp

/-! ## Calls that run in parts -/

/-- A part of a call that nothing interrupts: a fetch may stop between its grant and its
load, an edit between its change and its registration. -/
inductive Part where
  | whole (c : Call)
  | grant (txn : TxnId) (page : PageId) (access : Access)
  | load (txn : TxnId) (page : PageId) (access : Access)
  /-- An instance is changed in its frame. -/
  | change (f : FrameNo) (q : Page)
  | registration (txn : TxnId) (f : FrameNo)

namespace Part

/-- The store after a part of a call. -/
def after (s : Store) : Part → Store
  | .whole c => s.after c.run
  | .grant txn page access => s.after (lockPage txn page access)
  | .load txn page access => s.after (loadLocked txn page access)
  | .change f q => { s with frames := s.frames.setPage f q }
  | .registration txn f => s.after (register txn f)

/-- A page stays the same page when it is changed, and only an instance is registered. -/
def Fits (s : Store) : Part → Prop
  | .change f q => q.id = (s.frames.page f).id
  | .registration _ f => f < s.frames.size
  | _ => True

end Part

theorem loadLocked_run (s : Store) (txn : TxnId) (page : PageId) (access : Access) :
    loadLocked txn page access s =
      if s.covered txn page access then
        match load txn page s with
        | .ok f u => .ok (some f) u
        | .error e u => .error e u
      else .ok none s := by
  unfold loadLocked
  rw [bind_run, get_run]
  simp only
  split
  · rw [bind_run]
    cases load txn page s <;> rfl
  · rfl

theorem covered_iff {s : Store} {txn : TxnId} {page : PageId} {access : Access} :
    s.covered txn page access = true ↔
      ∃ held, s.locks.mode? txn page = some held ∧ held.covers access = true := by
  unfold covered
  cases s.locks.mode? txn page <;> simp

theorem lockPage_trace (s : Store) (txn : TxnId) (page : PageId) (access : Access) :
    ∃ es, Trace es s (s.after (lockPage txn page access)) := by
  have hrun := lockPage_run s txn page access
  cases hl : s.locks.acquire? txn page access with
  | none =>
    rw [hl] at hrun
    rw [after_error hrun]
    exact ⟨[], .nil⟩
  | some locks =>
    rw [hl] at hrun
    rw [after_ok hrun]
    exact ⟨_, .single (.granted hl)⟩

theorem loadLocked_trace {s : Store} (h : s.Shaped) (txn : TxnId) (page : PageId)
    (access : Access) : ∃ es, Trace es s (s.after (loadLocked txn page access)) := by
  have hrun := loadLocked_run s txn page access
  cases hc : s.covered txn page access with
  | false =>
    rw [hc] at hrun
    rw [after_ok hrun]
    exact ⟨[], .nil⟩
  | true =>
    obtain ⟨held, hheld, -⟩ := covered_iff.mp hc
    obtain ⟨es, ht, -⟩ := (load_traced h (by rw [hheld]; simp)).after
    rw [hc] at hrun
    refine ⟨es, ?_⟩
    cases hl : load txn page s with
    | ok f u =>
      simp only [hl, if_true] at hrun
      rwa [after_ok hrun, ← after_ok hl]
    | error e u =>
      simp only [hl, if_true] at hrun
      rwa [after_error hrun, ← after_error hl]

theorem Part.shaped {s : Store} (h : s.Shaped) {p : Part} (hp : p.Fits s) :
    (p.after s).Shaped := by
  cases p with
  | whole c => exact c.shaped h
  | grant txn page access =>
    obtain ⟨es, ht⟩ := lockPage_trace s txn page access
    exact ht.shaped h
  | load txn page access =>
    obtain ⟨es, ht⟩ := loadLocked_trace h txn page access
    exact ht.shaped h
  | change f q => exact h.setPage hp
  | registration txn f => exact h.register txn hp

/-- The states that calls of any transactions lead to from an unused pool, in whatever order
their parts run and if files, catalog and log may change in any way between two parts. -/
inductive Staggered : Store → Prop
  | unused {s : Store} : s.Unused → Staggered s
  | part {s : Store} (p : Part) : Staggered s → p.Fits s → Staggered (p.after s)
  | outside {s s' : Store} : Staggered s → SamePool s s' → Staggered s'

theorem Staggered.shaped {s : Store} (h : Staggered s) : s.Shaped := by
  induction h with
  | unused hu => exact hu.shaped
  | part p _ hp ih => exact p.shaped ih hp
  | outside _ hp ih => exact ih.congr hp.table hp.locks hp.frames hp.maxPages

end RowStore.Store
