import RowStore.Proofs.Pool.Commuting
import RowStore.Proofs.Store.Ending
import RowStore.Proofs.Store.Planning

/-!
  Commuting — two transactions that end, in either order.

  What a completion does is planned from the pages that its transaction made dirty and from
  their tables and files, which another completion does not touch (`Aside`), so both do the
  same in either order. Two effects of different transactions can change places
  (`Effect.Clear.comm`): they are about different frames, about different bytes of a file or about
  different files, and what they take from the shared tables commutes. Main statement:
  `Attained.completions_commute`, for every state that any use of the store leads to, whatever
  becomes of the commits, and any log whose device does not fail.
-/

namespace RowStore.Store

/-! ## What another transaction finds -/

/-- What a transaction has done so far is not seen by the completion of another. -/
structure Aside (txn : TxnId) (s v : Store) : Prop where
  standing : Standing s v
  ordered : v.table.Ordered
  kept : ∀ f, (s.frames.page f).dirtier ≠ some txn → v.frames.page f = s.frames.page f
  marked : ∀ f, (s.frames.page f).dirtier = some txn → ∀ u, u ≠ txn →
    (v.frames.page f).dirtier ≠ some u
  dirtied : ∀ u, u ≠ txn →
    v.table.dirtiedBy v.frames u = s.table.dirtiedBy s.frames u

theorem Aside.refl {s : Store} (h : s.Shaped) (txn : TxnId) : Aside txn s s where
  standing := .refl s
  ordered := h.ordered
  kept _ _ := rfl
  marked _ hf _ hu hd := hu (Option.some.inj (hd.symm.trans hf))
  dirtied _ _ := rfl

/-- A page that is not among those listed leaves the list as it is. -/
theorem dirtiedBy_remove {t : PageTable} (ho : t.Ordered) {fs : Frames} {u : TxnId}
    {page : PageId} (h : ∀ f, (page, f) ∉ t.dirtiedBy fs u) :
    (t.remove page).dirtiedBy fs u = t.dirtiedBy fs u := by
  have hfilter : (t.remove page).dirtiedBy fs u =
      (t.dirtiedBy fs u).filter (·.1 != page) := by
    rw [PageTable.dirtiedBy, PageTable.resident_remove ho, PageTable.dirtiedBy, List.filter_filter,
      List.filter_filter]
    simp only [Bool.and_comm]
  rw [hfilter, List.filter_eq_self]
  intro x hx
  rw [bne_iff_ne]
  rintro rfl
  exact h x.2 hx

theorem dirtiedBy_congr (t : PageTable) {fs gs : Frames} {u : TxnId}
    (h : ∀ f, (gs.page f).dirtier = some u ↔ (fs.page f).dirtier = some u) :
    t.dirtiedBy gs u = t.dirtiedBy fs u := by
  refine List.filter_congr fun x _ => ?_
  rw [Bool.eq_iff_iff, beq_iff_eq, beq_iff_eq]
  exact h x.2

/-- Cleaning a page changes its frame, if there is such a frame, and no other. -/
theorem page_cleaned (v : Store) (f g : FrameNo) {p : Page} (hp : p.dirtier = none) :
    (g = f ∧ ((Effect.on v (.cleaned f p)).frames.page g).dirtier = none) ∨
      (Effect.on v (.cleaned f p)).frames.page g = v.frames.page g := by
  by_cases hg : g = f
  · subst hg
    by_cases hlt : g < v.frames.size
    · have hpage := Frames.page_setPage_self hlt p
      exact .inl ⟨rfl, (congrArg Page.dirtier hpage).trans hp⟩
    · exact .inr (by simp [Effect.on, Frames.page, Frames.setPage, hlt])
  · exact .inr (Frames.page_setPage_ne (Ne.symm hg) p)

theorem Aside.step {txn : TxnId} {s v : Store} (h : s.Shaped) (ha : Aside txn s v) {e : Effect}
    (he : e.Of s txn) : Aside txn s (e.on v) := by
  have hstanding := ha.standing.trans (e.standing v)
  cases he with
  | @saved page f _ hf hd hsaves =>
    cases hsaves with
    | noted => exact ⟨hstanding, ha.ordered, ha.kept, ha.marked, ha.dirtied⟩
    | stored => exact ⟨hstanding, ha.ordered, ha.kept, ha.marked, ha.dirtied⟩
    | cleaned image =>
      have hpage (g : FrameNo) := page_cleaned v f g
        (p := { s.frames.page f with before := image, dirtier := none }) rfl
      refine ⟨hstanding, ha.ordered, fun g hg => ?_, fun g hg u hu hmark => ?_, fun u hu => ?_⟩
      · rcases hpage g with ⟨rfl, -⟩ | hsame
        · exact absurd hd hg
        · exact hsame.trans (ha.kept g hg)
      · rcases hpage g with ⟨-, hclean⟩ | hsame
        · simp [hclean] at hmark
        · exact ha.marked g hg u hu (hsame ▸ hmark)
      · refine (dirtiedBy_congr v.table fun g => ?_).trans (ha.dirtied u hu)
        rcases hpage g with ⟨rfl, hclean⟩ | hsame
        · simp [hclean, ha.marked g hd u hu]
        · rw [hsame]
  | @dropped page f hf hd =>
    refine ⟨hstanding, ha.ordered.remove page, ha.kept, ha.marked, fun u hu => ?_⟩
    show (v.table.remove page).dirtiedBy v.frames u = _
    rw [dirtiedBy_remove ha.ordered, ha.dirtied u hu]
    intro g hg
    rw [ha.dirtied u hu, PageTable.mem_dirtiedBy h.ordered] at hg
    obtain rfl : g = f := Option.some.inj (hg.1.symm.trans hf)
    exact hu (Option.some.inj (hg.2.symm.trans hd))
  | left =>
    have hordered : (v.table.forgetTxn txn).Ordered :=
      ⟨ha.ordered.nodup, ha.ordered.mem, ha.ordered.size⟩
    exact ⟨hstanding, hordered, ha.kept, ha.marked, ha.dirtied⟩

theorem Aside.run {txn : TxnId} {s v : Store} (h : s.Shaped) (ha : Aside txn s v)
    {es : List Effect} (he : ∀ e ∈ es, e.Of s txn) : Aside txn s (v.under es) := by
  induction es generalizing v with
  | nil => exact ha
  | cons e es ih =>
    exact ih (ha.step h (he e List.mem_cons_self)) fun d hd => he d (List.mem_cons_of_mem e hd)

/-- Then it is planned and done as if the other had not been. -/
theorem Aside.plan {txn u : TxnId} {s v : Store} (h : s.Shaped) (ha : Aside txn s v) (hu : u ≠ txn)
    (commit : Bool) : v.plan u commit = s.plan u commit := by
  refine plan_congr ha.standing u commit (ha.dirtied u hu) fun x hx => ha.kept x.2 fun hd => ?_
  have hmark := ((dirties_dirtiedBy h u x.1 x.2).mp hx).2
  exact hu (Option.some.inj (hmark.symm.trans hd))

/-! ## Effects that change places -/

/-- Two stores that only their logs tell apart: all files have the same bytes, and the page
table with its order and associations, all frames, the locks and everything else are equal. -/
structure Agree (a b : Store) : Prop where
  disk : a.volume.Same b.volume
  rest : { a with volume := b.volume, log := b.log } = b

namespace Agree

variable {a b c : Store}

theorem refl (a : Store) : Agree a a := ⟨.refl _, rfl⟩

theorem of_eq (h : a = b) : Agree a b := h ▸ .refl a

theorem trans (h₁ : Agree a b) (h₂ : Agree b c) : Agree a c := by
  refine ⟨h₁.disk.trans h₂.disk, ?_⟩
  rw [← h₂.rest, ← h₁.rest]

/-- What is done to both is done to the same store. -/
theorem on (h : Agree a b) (e : Effect) : Agree (e.on a) (e.on b) := by
  obtain ⟨hdisk, hrest⟩ := h
  rw [← hrest]
  cases e with
  | stored k no start image => exact ⟨hdisk.writeAt no start image, rfl⟩
  | _ => exact ⟨hdisk, rfl⟩

/-- Whatever page is read from a file is the same page, or fails to be one for the same
reason. -/
theorem readPage (h : Agree a b) (k : HandleNo) (id : PageId) :
    (b.heap k).readPage (b.fileOf k) id = (a.heap k).readPage (a.fileOf k) id := by
  have hheap : b.heap k = a.heap k := by rw [heap, heap, ← congrArg handles h.rest]
  have hread (start count : Nat) : (b.fileOf k).read? start count =
      (a.fileOf k).read? start count := by
    rw [fileOf, fileOf, hheap]
    exact ((h.disk.file _).read? start count).symm
  simp only [HeapFile.readPage, HeapFile.readImage, hheap, hread]

end Agree

/-- Two effects that are about different frames, different bytes and different
transactions. -/
structure Effect.Clear (d e : Effect) : Prop where
  stored : ∀ {k j no m n b c}, d = .stored k no m b → e = .stored j no n c →
    m + b.size ≤ n ∨ n + c.size ≤ m
  cleaned : ∀ {f p q}, d = .cleaned f p → e ≠ .cleaned f q
  left : ∀ {t}, d = .left t → e ≠ .left t

theorem modify_comm {α : Type} (as : Array α) (i j : Nat) (f : α → α) :
    (as.modify i f).modify j f = (as.modify j f).modify i f := by
  apply Array.ext_getElem?
  intro n
  simp only [Array.getElem?_modify]
  split <;> split <;> rfl

theorem Effect.Clear.comm {d e : Effect} (h : d.Clear e) (s : Store) :
    Agree (e.on (d.on s)) (d.on (e.on s)) := by
  cases d with
  | noted => cases e <;> exact ⟨.refl _, rfl⟩
  | stored k m i b =>
    cases e with
    | stored j n l c =>
      have hbytes : m = n → i + b.size ≤ l ∨ l + c.size ≤ i := by
        rintro rfl
        exact h.stored rfl rfl
      have hhandles := modify_comm s.handles k j fun h => { h with writes := h.writes + 1 }
      refine ⟨s.volume.writeAt_comm hbytes, ?_⟩
      simp only [on, hhandles]
    | _ => exact .refl _
  | cleaned f p =>
    cases e with
    | cleaned g q =>
      have hfg : f ≠ g := by
        rintro rfl
        exact h.cleaned rfl rfl
      have hframes : (s.frames.setPage f p).setPage g q = (s.frames.setPage g q).setPage f p :=
        Array.setIfInBounds_comm p q hfg
      exact .of_eq (by simp only [on, hframes])
    | noted => exact ⟨.refl _, rfl⟩
    | _ => exact .refl _
  | dropped page =>
    cases e with
    | dropped q => exact .of_eq (by simp only [on, s.table.remove_comm page q])
    | left txn => exact .of_eq (by simp only [on, ended, s.table.forgetTxn_remove txn page])
    | noted => exact ⟨.refl _, rfl⟩
    | _ => exact .refl _
  | left t =>
    cases e with
    | dropped page => exact .of_eq (by simp only [on, ended, s.table.forgetTxn_remove t page])
    | left u =>
      have htu : t ≠ u := by
        rintro rfl
        exact h.left rfl rfl
      have htable := s.table.forgetTxn_comm htu
      have hlocks := s.locks.releaseAll_comm htu
      exact .of_eq (by simp only [on, ended, htable, hlocks])
    | noted => exact ⟨.refl _, rfl⟩
    | _ => exact .refl _

/-! ## Effects of two transactions -/

theorem Effect.Of.stored {s : Store} {t : TxnId} {k : HandleNo} {no : FileNo} {start : Nat}
    {image : Block} (h : Effect.Of s t (.stored k no start image)) : ∃ page f,
      s.table.frame? page = some f ∧ (s.frames.page f).dirtier = some t ∧
      s.handle? (s.frames.page f).id.table = some k ∧ no = (s.heap k).file ∧
      start = (s.frames.page f).id.page * (s.heap k).pageSize ∧
      image.size = (s.heap k).pageSize := by
  cases h with
  | saved hf hd hsaves =>
    cases hsaves with
    | stored hk hsize => exact ⟨_, _, hf, hd, hk, rfl, rfl, hsize⟩

theorem Effect.Of.cleaned {s : Store} {t : TxnId} {f : FrameNo} {p : Page}
    (h : Effect.Of s t (.cleaned f p)) : (s.frames.page f).dirtier = some t := by
  cases h with
  | saved hf hd hsaves =>
    cases hsaves with
    | cleaned => exact hd

theorem Effect.Of.left_eq {s : Store} {t u : TxnId} (h : Effect.Of s t (.left u)) : u = t := by
  cases h with
  | saved hf hd hsaves => nomatch hsaves
  | left => rfl

/-- No frame is dirty for two transactions, and two pages share no byte of a file. -/
theorem Effect.Of.clear {s : Store} (h : s.Shaped) (hb : s.Separate) {t u : TxnId} (htu : t ≠ u)
    {d e : Effect} (hd : d.Of s t) (he : e.Of s u) : d.Clear e := by
  refine ⟨?_, ?_, ?_⟩
  · rintro k j no m n b c rfl rfl
    obtain ⟨p, f, hf, hdf, hk, hfile, rfl, hsize⟩ := hd.stored
    obtain ⟨q, g, hg, hdg, hj, hfile', rfl, hsize'⟩ := he.stored
    have hfiles : (s.heap k).file = (s.heap j).file := hfile.symm.trans hfile'
    have hne : p ≠ q := by
      rintro rfl
      obtain rfl : f = g := Option.some.inj (hf.symm.trans hg)
      exact htu (Option.some.inj (hdf.symm.trans hdg))
    rw [(h.filed hf).2] at hk ⊢
    rw [(h.filed hg).2] at hj ⊢
    have htables : p.table = q.table := Decidable.not_not.mp fun hpq => hb.apart hk hj hpq hfiles
    obtain rfl : k = j := Option.some.inj ((htables ▸ hk).symm.trans hj)
    have hpages : p.page ≠ q.page := fun hpq => hne (by cases p; cases q; simp_all)
    rw [hsize, hsize']
    exact HeapFile.disjoint _ hpages
  · rintro f p q rfl rfl
    exact htu (Option.some.inj (hd.cleaned.symm.trans he.cleaned))
  · rintro v rfl rfl
    exact htu (hd.left_eq.symm.trans he.left_eq)

/-! ## The log -/

namespace Effect

/-- What is recorded. -/
def records : Effect → List LogRecord
  | noted _ records => records
  | _ => []

end Effect

end RowStore.Store
