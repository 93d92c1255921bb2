import RowStore.Proofs.Store.Placing
import RowStore.Proofs.Store.Threading

/-!
  Wasting — what a row that no page can take does to its table's file.

  The schema of a row is compared before the search for room, its values are encoded by the page
  that is found. So a row of the right schema that cannot be encoded is looked after like any
  other, and if every page is fetched and full the file grows for it (`Insertion.seek_looks`).
  Main statement: the insertion always fails, and the file changes exactly then, by one blank
  page (`Threaded.wasted_iff`).
-/

namespace RowStore

theorem Page.insert_of_unencodable {p : Page} {row : Row} (h : row.encode = none) :
    ∃ err, p.insert row = .error err := by
  unfold insert slotFrom
  by_cases hs : row.schema = p.schema
  · exact ⟨.unencodable row.display, by simp [hs, h]⟩
  · exact ⟨.schemaMismatch, by simp [hs]⟩

namespace Store

/-- The pages from `next` to before `stop` are fetched in turn for writing, and none of them
has room. -/
inductive Exhausts (txn : TxnId) (table : TableId) (stop : Nat) : Nat → Store → Prop
  | done {s : Store} : Exhausts txn table stop stop s
  | full {next : Nat} {s u : Store} {f : FrameNo} : next < stop →
    getPage txn ⟨table, next⟩ .write s = .ok f u → (u.frames.page f).hasRoom = false →
    Exhausts txn table stop (next + 1) u → Exhausts txn table stop next s

theorem exhausts_iff {txn : TxnId} {table : TableId} {stop next : Nat} {s : Store}
    (hlt : next < stop) : Exhausts txn table stop next s ↔
      ∃ f u, getPage txn ⟨table, next⟩ .write s = .ok f u ∧
        (u.frames.page f).hasRoom = false ∧ Exhausts txn table stop (next + 1) u := by
  constructor
  · intro h
    cases h with
    | done => exact absurd hlt (Nat.lt_irrefl _)
    | full _ hget hroom hrest => exact ⟨_, _, hget, hroom, hrest⟩
  · rintro ⟨f, u, hget, hroom, hrest⟩
    exact .full hlt hget hroom hrest

theorem Looks.allocate {s u : Store} (h : Looks none s u) (k : HandleNo) :
    (u.heap k).allocate (u.fileOf k) = (s.heap k).allocate (s.fileOf k) := by
  have hheap := h.heap k
  rw [h.fileOf]
  simp only [HeapFile.allocate, HeapFile.place, HeapFile.nextPage, HeapFile.pageCount,
    hheap.pageSize, hheap.table]

/-- Such pages were shown as full before the first of them was fetched. -/
theorem Exhausts.shown {txn : TxnId} {table : TableId} {stop next : Nat} {s : Store}
    (h : Exhausts txn table stop next s) (hs : s.Mirrored) (hn : s.Numbered table) :
    ∀ m, next ≤ m → m < stop → s.Full ⟨table, m⟩ := by
  induction h with
  | done => exact fun m h₁ h₂ => absurd h₂ (Nat.not_lt_of_le h₁)
  | @full next s u f hlt hget hroom _ ih =>
    obtain ⟨hlooks, hown, hid⟩ := hs.getPage_ok hget
    have hview : u.view ⟨table, next⟩ = some (u.frames.page f) := by
      rw [← hid]
      exact view_of_resident hown.resident
    intro m h₁ h₂
    rcases Nat.eq_or_lt_of_le h₁ with rfl | h₁
    · exact hlooks.full hn ⟨_, hview, Page.hasRoom_eq_false_iff.mp hroom⟩
    · exact hlooks.full hn (ih hlooks.mirrored (hlooks.numbered table hn) m h₁ h₂)

end Store

namespace Insertion

open Store

section Searching
variable {table : TableId} {i : Insertion} {s : Store}

theorem after_seek (i : Insertion) (s : Store) (fuel : Nat) :
    s.after (i.seek (fun _ => false) (fuel + 1)) = match i.fetch s with
      | .error _ u => u
      | .ok (f, j) u =>
        if (u.frames.page f).hasRoom then u else u.after (j.seek (fun _ => false) fuel) := by
  have hrun := i.seek_run s (fun _ => false) fuel
  unfold after
  rw [hrun]
  cases i.fetch s with
  | error err u => rfl
  | ok r u =>
    obtain ⟨f, j⟩ := r
    simp only [Bool.false_or]
    cases (u.frames.page f).hasRoom <;> rfl

/-- When all pages were tried, the file grows if there is a place for one more page. -/
theorem seek_grows_looks (h : s.Mirrored) (hk : s.handle? table = some i.handle)
    (hn : s.wholePages i.handle + 1 < pageNumbers) (hstop : i.stop = s.wholePages i.handle)
    (hnext : i.next = i.stop) (fuel : Nat) :
    ∃ added, Looks added s (s.after (i.seek (fun _ => false) (fuel + 1))) ∧
      ∀ page, added = some page ↔ page = ⟨table, i.stop⟩ ∧
        ∃ file, (s.heap i.handle).allocate (s.fileOf i.handle) = .ok file := by
  have hfetch : i.fetch s = (i.grow >>= reach) s := by
    rw [fetch_run, if_neg (by rw [hnext]; exact Nat.lt_irrefl _)]
    rfl
  rw [after_seek, hfetch, bind_run]
  rcases grow_looks h hk hn hstop with ⟨err, ha, hgrow⟩ | ⟨u, hgrow, hlooks⟩
  · rw [hgrow]
    refine ⟨none, .refl h, fun page => iff_of_false (by simp) ?_⟩
    rintro ⟨-, file, hfile⟩
    rw [allocatePage_run, hfile] at ha
    simp at ha
  refine ⟨some ⟨table, i.stop⟩, ?_, fun page => ?_⟩
  · have hnum : ∀ page, some (PageId.mk table i.stop) = some page → s.Numbered page.table := by
      intro page hp
      rw [← Option.some.inj hp]
      exact numbered_of_lt hk (Nat.lt_of_succ_lt hn)
    have htable : (u.heap (i.behind u).handle).table = table :=
      (hlooks.heap i.handle).table.trans (h.laid.registered hk).2
    rw [hgrow]
    simp only
    rw [reach_run, htable]
    cases hget : getPage (i.behind u).txn ⟨table, (i.behind u).next⟩ .write u with
    | error err v => exact hlooks.followed (hlooks.mirrored.getPage_error hget).1 hnum
    | ok f v =>
      obtain ⟨hfetched, hown, hid⟩ := hlooks.mirrored.getPage_ok hget
      have hsearched := hlooks.followed hfetched hnum
      -- the page is blank, so the search is over
      have hroom : (v.frames.page f).hasRoom = true := hsearched.hasRoom_added hown hid
      simp only [hroom, if_true]
      exact hsearched
  · obtain ⟨k, file, -, hk', -, -, hfile, -⟩ := hlooks.appended _ rfl
    obtain rfl : i.handle = k := Option.some.inj (hk.symm.trans hk')
    constructor
    · intro hp
      exact ⟨(Option.some.inj hp).symm, file, hfile⟩
    · rintro ⟨rfl, -⟩
      rfl

/-- The search adds a page exactly if it finds none with room and there is a place for one
more. -/
theorem seek_looks (h : s.Mirrored) (hk : s.handle? table = some i.handle)
    (hn : s.wholePages i.handle + 1 < pageNumbers) (hstop : i.stop = s.wholePages i.handle)
    (hnext : i.next ≤ i.stop) {fuel : Nat} (hfuel : i.stop < fuel + i.next) :
    ∃ added, Looks added s (s.after (i.seek (fun _ => false) fuel)) ∧
      ∀ page, added = some page ↔ page = ⟨table, i.stop⟩ ∧
        Exhausts i.txn table i.stop i.next s ∧
        ∃ file, (s.heap i.handle).allocate (s.fileOf i.handle) = .ok file := by
  induction fuel generalizing i s with
  | zero => omega
  | succ fuel ih =>
    have hnum := numbered_of_lt hk (Nat.lt_of_succ_lt hn)
    rcases Nat.eq_or_lt_of_le hnext with hall | hlt
    · obtain ⟨added, hlooks, hadded⟩ := seek_grows_looks h hk hn hstop hall fuel
      have hdone : Exhausts i.txn table i.stop i.next s := hall ▸ .done
      exact ⟨added, hlooks, fun page => by simp only [hadded, hdone, true_and]⟩
    -- a search that ends before the last page adds none
    have hnone {u : Store} (hlooks : Looks none s u)
        (hends : ¬ Exhausts i.txn table i.stop i.next s) : ∃ added, Looks added s u ∧
          ∀ page, added = some page ↔ page = ⟨table, i.stop⟩ ∧
            Exhausts i.txn table i.stop i.next s ∧
            ∃ file, (s.heap i.handle).allocate (s.fileOf i.handle) = .ok file :=
      ⟨none, hlooks, fun page => iff_of_false (by simp) fun hp => hends hp.2.1⟩
    have htable : (s.heap i.handle).table = table := (h.laid.registered hk).2
    rw [after_seek, fetch_of_lt hlt, reach_run, htable]
    cases hget : getPage i.txn ⟨table, i.next⟩ .write s with
    | error err u =>
      refine hnone (h.getPage_error hget).1 fun hx => ?_
      obtain ⟨f, v, hok, -⟩ := (exhausts_iff hlt).mp hx
      rw [hget] at hok
      simp at hok
    | ok f u =>
      obtain ⟨hlooks, -, -⟩ := h.getPage_ok hget
      simp only
      cases hroom : (u.frames.page f).hasRoom with
      | true =>
        refine hnone hlooks fun hx => ?_
        obtain ⟨g, v, hok, hfull, -⟩ := (exhausts_iff hlt).mp hx
        rw [hget] at hok
        obtain ⟨rfl, rfl⟩ := EStateM.Result.ok.inj hok
        rw [hroom] at hfull
        simp at hfull
      | false =>
        have hpages : u.wholePages i.handle = s.wholePages i.handle := hlooks.wholePages i.handle
        obtain ⟨added, hrest, hadded⟩ := ih (i := { i with next := i.next + 1 }) hlooks.mirrored
          ((hlooks.handle table).trans hk) (hpages ▸ hn) (hstop.trans hpages.symm) hlt
          (by show i.stop < fuel + (i.next + 1); omega)
        refine ⟨added, hlooks.trans hrest fun page hp => ?_, fun page => ?_⟩
        · rw [((hadded page).mp hp).1]
          exact hnum
        · have hiff : Exhausts i.txn table i.stop i.next s ↔
              Exhausts i.txn table i.stop (i.next + 1) u := by
            rw [exhausts_iff hlt, hget]
            constructor
            · rintro ⟨g, v, hok, -, hrest⟩
              obtain ⟨rfl, rfl⟩ := EStateM.Result.ok.inj hok
              exact hrest
            · exact fun hrest => ⟨f, u, rfl, hroom, hrest⟩
          rw [hadded page, hiff, ← hlooks.allocate i.handle]

end Searching

end Insertion

namespace Store

/-! ## Rows that no page can take -/

/-- A row of another schema, or one of which a value does not fit its field. -/
def Unfit (s : Store) (table : TableId) (row : Row) : Prop :=
  row.encode = none ∨ ∀ k, s.handle? table = some k → row.schema ≠ (s.heap k).schema

/-- Such a row is refused in every state, after the search for a page or instead of it. -/
theorem insertRow_of_unfit {s : Store} {table : TableId} {row : Row} (h : s.Unfit table row)
    (txn : TxnId) : ∃ err, insertRow txn table row s =
      ⟨.error err, row, s.after ((Edit.insertion table row).search txn)⟩ := by
  have hrun : insertRow txn table row s = _ := Edit.run_eq (.insertion table row) txn s
  cases hs : (Edit.insertion table row).search txn s with
  | error err u =>
    rw [registered_of_unfound hs] at hrun
    exact ⟨err, by rw [after_error hs]; exact hrun⟩
  | ok f u =>
    rcases h with hnone | hschema
    · obtain ⟨err, herr⟩ := Page.insert_of_unencodable (p := u.frames.page f) hnone
      rw [registered_of_unchanged (e := .insertion table row) hs herr] at hrun
      exact ⟨err, by rw [after_ok hs]; exact hrun⟩
    · -- the search does not begin
      exfalso
      cases hk : s.handle? table with
      | none =>
        rw [Edit.search, bind_run, tableFile_run, hk] at hs
        simp at hs
      | some k =>
        rw [insertion_search hk, if_pos (hschema k hk)] at hs
        simp at hs

/-- The row is of the table's schema, every page is fetched and full, and there is a place for
one more. -/
structure Wastes (s : Store) (txn : TxnId) (table : TableId) (k : HandleNo) (row : Row) :
    Prop where
  schema : row.schema = (s.heap k).schema
  full : Exhausts txn table (s.wholePages k) 0 s
  place : ∃ file, (s.heap k).allocate (s.fileOf k) = .ok file

/-- The file of a table is one blank page longer, and no other page on disk has changed. -/
structure Longer (table : TableId) (k : HandleNo) (s v : Store) : Prop where
  pages : v.wholePages k = s.wholePages k + 1
  blank : v.onDisk ⟨table, s.wholePages k⟩ = Block.blank (s.heap k).pageSize
  others : ∀ page, page ≠ ⟨table, s.wholePages k⟩ → v.onDisk page = s.onDisk page

theorem Looks.longer {s v : Store} {table : TableId} {k : HandleNo} (hs : s.Mirrored)
    (hk : s.handle? table = some k) (hn : s.wholePages k < pageNumbers)
    (h : Looks (some ⟨table, s.wholePages k⟩) s v) : Longer table k s v := by
  obtain ⟨j, file, -, hj, -, hpages, hfile, hvolume, -⟩ := h.appended _ rfl
  obtain rfl : k = j := Option.some.inj (hk.symm.trans hj)
  have ha : allocatePage k s = .ok ((s.heap k).nextPage (s.fileOf k)) (s.withFile k file) := by
    rw [allocatePage_run, hfile]
  have happ := hs.laid.appended hk hn ha
  -- on disk nothing else has happened than the growth
  have hfiles : SameFiles (s.withFile k file) v :=
    ⟨hvolume, h.handle, fun i => (h.heap i).trans (happ.heap i).symm⟩
  refine ⟨hpages, (hfiles.onDisk _).trans happ.blank, fun page hne => ?_⟩
  rw [hfiles.onDisk]
  by_cases ht : page.table = table
  · obtain ⟨t, m⟩ := page
    obtain rfl : t = table := ht
    exact happ.onDisk m fun hm => hne (by rw [hm])
  · exact onDisk_withFile_other hs.laid.separate hk ht file

/-- A row that no page of a table can take is refused in every state that calls in parts lead
to, and no file changes, unless the row is of the table's schema, every page of the table is
fetched and full, and the file has a place for one more page. Then the file is one blank page
longer, and nothing else on disk has changed. So an empty table grows for such a row, a table
with a free slot or a page that cannot be fetched does not, and for a row of another schema
nothing changes at all. -/
theorem Threaded.wasted_iff {s₀ s : Store} (hu : s₀.Unused) (hl : s₀.Laid) (h : Threaded s₀ s)
    {table : TableId} {k : HandleNo} (hk : s.handle? table = some k)
    (hn : s.wholePages k + 1 < pageNumbers) (txn : TxnId) {row : Row} (hrow : s.Unfit table row) :
    ∃ err v, insertRow txn table row s = ⟨.error err, row, v⟩ ∧
      (v.volume = s.volume ↔ ¬ s.Wastes txn table k row) ∧
      (s.Wastes txn table k row → Longer table k s v ∧
        ∀ n, n < s.wholePages k → s.Full ⟨table, n⟩) ∧
      (row.schema ≠ (s.heap k).schema → err = .schemaMismatch ∧ v = s) := by
  have hs := (h.woven hu hl).mirrored
  have hlt : s.wholePages k < pageNumbers := Nat.lt_of_succ_lt hn
  have hcount : (s.heap k).pageCount (s.fileOf k) = s.wholePages k := HeapFile.pageCount_of_lt hlt
  have hsearch := insertion_search hk txn row
  obtain ⟨err, hrun⟩ := insertRow_of_unfit hrow txn
  by_cases hschema : row.schema = (s.heap k).schema
  · rw [if_neg (not_not.mpr hschema), hcount] at hsearch
    have hfuel : s.wholePages k < pageNumbers + 0 := hlt
    obtain ⟨added, hlooks, hadded⟩ := Insertion.seek_looks (i := ⟨k, txn, row, 0, s.wholePages k⟩)
      hs hk hn rfl (Nat.zero_le _) hfuel
    have hafter : s.after ((Edit.insertion table row).search txn) =
        s.after (Insertion.seek (fun _ => false) pageNumbers ⟨k, txn, row, 0, s.wholePages k⟩) := by
      unfold after
      rw [hsearch]
      cases Insertion.seek (fun _ => false) pageNumbers ⟨k, txn, row, 0, s.wholePages k⟩ s <;> rfl
    rw [hafter] at hrun
    generalize s.after (Insertion.seek _ _ _) = v at hlooks hrun
    have hlonger (hw : s.Wastes txn table k row) : Longer table k s v := by
      obtain rfl := (hadded ⟨table, s.wholePages k⟩).mpr ⟨rfl, hw.full, hw.place⟩
      exact hlooks.longer hs hk hlt
    refine ⟨err, v, hrun, ⟨fun hv hw => ?_, fun hw => ?_⟩, fun hw => ⟨hlonger hw, fun n hlt => ?_⟩,
      fun hne => absurd hschema hne⟩
    · have hpages := (hlonger hw).pages
      rw [wholePages, wholePages, fileOf, hv, (hlooks.heap k).file, (hlooks.heap k).pageSize]
        at hpages
      exact absurd hpages (Nat.ne_of_lt (Nat.lt_succ_self _))
    · refine hlooks.volume (Option.eq_none_iff_forall_ne_some.mpr fun page hp => hw ?_)
      obtain ⟨-, hfull, hplace⟩ := (hadded page).mp hp
      exact ⟨hschema, hfull, hplace⟩
    · exact hw.full.shown hs (numbered_of_lt hk (Nat.lt_of_succ_lt hn)) n (Nat.zero_le n) hlt
  · have hfound : (Edit.insertion table row).search txn s = .error .schemaMismatch s := by
      rw [hsearch, if_pos hschema]
    have hsame : insertRow txn table row s = ⟨.error .schemaMismatch, row, s⟩ :=
      (Edit.run_eq (.insertion table row) txn s).trans (registered_of_unfound hfound row)
    exact ⟨.schemaMismatch, s, hsame, iff_of_true rfl fun hw => hschema hw.schema,
      fun hw => absurd hw.schema hschema, fun _ => ⟨rfl, rfl⟩⟩

/-- A row without a value for its field. -/
def blankNumber : Row := .ofFields numbers fun _ => .null

/-- An empty file grows by a page for a row that cannot be stored. -/
theorem Threaded.refused_row_grows :
    ¬ ∀ (s₀ s : Store) (txn : TxnId) (table : TableId) (k : HandleNo) (row : Row),
      s₀.Unused → s₀.Laid → Threaded s₀ s → s.handle? table = some k →
      s.wholePages k + 1 < pageNumbers → s.Unfit table row →
      (insertRow txn table row s).store.volume = s.volume := by
  intro h
  have hready : (sample 1 0).Ready := ready_sample 1 (by decide)
  have hunfit : (sample 1 0).Unfit 1 blankNumber := .inl rfl
  have hsame := h _ _ ⟨1⟩ 1 0 blankNumber hready.unused hready.laid .start rfl (by decide) hunfit
  have hpages := congrArg (fun v : Volume => (v.file 0).size) hsame
  have hbefore : ((sample 1 0).volume.file 0).size = 0 := rfl
  have hafter : ((insertRow ⟨1⟩ 1 blankNumber (sample 1 0)).store.volume.file 0).size = 128 := by
    decide +kernel
  simp only [hbefore, hafter] at hpages
  omega

/-- There are no pages to fetch, so nothing keeps the row from wasting one. -/
theorem Threaded.wasted_iff_empty :
    (sample 1 0).Wastes ⟨1⟩ 1 0 blankNumber ∧
      Longer 1 0 (sample 1 0) (insertRow ⟨1⟩ 1 blankNumber (sample 1 0)).store := by
  have hready : (sample 1 0).Ready := ready_sample 1 (by decide)
  have hunfit : (sample 1 0).Unfit 1 blankNumber := .inl rfl
  have hplace : ((sample 1 0).heap 0).allocate ((sample 1 0).fileOf 0) =
      .ok (((sample 1 0).fileOf 0).write 0 (Block.blank 128)) := rfl
  have hwastes : (sample 1 0).Wastes ⟨1⟩ 1 0 blankNumber := ⟨rfl, .done, _, hplace⟩
  have hhandle : (sample 1 0).handle? 1 = some 0 := rfl
  obtain ⟨err, v, hrun, -, hlonger, -⟩ := Threaded.wasted_iff hready.unused hready.laid .start
    hhandle (by decide) ⟨1⟩ hunfit
  rw [hrun]
  exact ⟨hwastes, (hlonger hwastes).1⟩

end Store

end RowStore
