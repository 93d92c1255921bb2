import RowStore.Proofs.Store.Keeping

/-!
  Passing — a scan of a store that changes meanwhile.

  Between two requests for a row anything may be called, by anyone: rows come and go on pages
  that the scan has passed, holds or has still ahead, files grow, pages are evicted and loaded
  anew, locks are taken away. What the scan still holds of a page is a copy, and the next page
  has a higher number, whatever is on it by then. So from the moment a scan is opened its record
  ids only ascend. `Passed` is the invariant; the main statement is `Course.ascends`.
-/

namespace RowStore

namespace Store

/-! ## What may happen meanwhile -/

/-- A call of the pool, as a whole or in part, a call of a heap file or of the lock manager past
the pool, or anything beside the page instances. -/
inductive Disturbs (s : Store) : Store → Prop
  | part (p : Part) : p.Sound s → Disturbs s (p.after s)
  /-- The change is not registered. -/
  | heapInsert (k : HandleNo) (txn : TxnId) (row : Row) :
    Disturbs s (s.after (heapInsert k txn row))
  | heapDelete (k : HandleNo) (txn : TxnId) (row : Row) :
    Disturbs s (s.after (heapDelete k txn row))
  | readPage (k : HandleNo) (page : PageId) : Disturbs s (s.after (readPage k page))
  | writePage (k : HandleNo) (p : Page) : Disturbs s (s.after (writePage k p))
  | allocatePage (k : HandleNo) : Disturbs s (s.after (allocatePage k))
  | locks (locks : LockManager) : Disturbs s { s with locks := locks }
  | beside {u : Store} : Beside s u → Disturbs s u

theorem Disturbs.follows {s u : Store} (hs : s.Addressed) (h : Disturbs s u) : Follows s u := by
  cases h with
  | part p hp => exact p.follows hs hp
  | heapInsert k txn row => exact (Keeps.heapInsert s txn k row).after
  | heapDelete k txn row => exact (Keeps.heapDelete s txn k row).after
  | readPage k page => exact (Keeps.readPage s page k).after
  | writePage k p => exact (Keeps.writePage s k p).after
  | allocatePage k => exact (Keeps.allocatePage s k).after
  | locks => exact .of_handles rfl id rfl
  | beside hu => exact hu.follows

/-- The states that any of this leads to from an unused pool. -/
inductive Disturbed : Store → Prop
  | unused {s : Store} : s.Unused → Disturbed s
  | step {s u : Store} : Disturbed s → Disturbs s u → Disturbed u

theorem Disturbed.addressed {s : Store} (h : s.Disturbed) : s.Addressed := by
  induction h with
  | unused hu => exact hu.addressed
  | step _ hu ih => exact ih.follows (hu.follows ih)

end Store

namespace Scan

open Store

/-! ## The course of a scan -/

/-- What a scan gives when it is asked for a row. -/
abbrev Answer := Option (Except StoreError Row)

/-- The rows among the answers to requests for a row. -/
def given (items : List Answer) : List Row :=
  items.filterMap fun
    | some (.ok r) => some r
    | _ => none

/-- Nothing is given after an error. -/
def Stops (a b : Answer) : Prop := ∀ err, a = some (.error err) → b = none

/-- The pages that are fetched to find a row, each with the store before its fetch. -/
def fetchesIn : Nat → Scan → Store → List (Store × PageId)
  | 0, _, _ => []
  | fuel + 1, scan, s =>
    match scan.buffered with
    | _ :: _ => []
    | [] =>
      let page : PageId := ⟨(s.heap scan.handle).table, scan.next⟩
      if (s.heap scan.handle).pageCount (s.fileOf scan.handle) ≤ scan.next then []
      else match getPage scan.txn page .read s with
        | .error _ _ => []
        | .ok f u => (s, page) ::
          fetchesIn fuel { scan with next := scan.next + 1, buffered := (u.frames.page f).rows } u

/-- The pages that a request for a row fetches, each with the store before its fetch. -/
def fetches (scan : Scan) (s : Store) : List (Store × PageId) :=
  if scan.isOpen then scan.fetchesIn (pageNumbers + 1) s else []

/-- A scan since it was opened or started over: where it is, what it has fetched, and what it has
answered to the requests for a row. Between them anything may happen to the store. -/
inductive Course : Scan → Store → List (Store × PageId) → List Answer → Prop
  | opened {s : Store} (scan : Scan) : s.Disturbed → scan.handle < s.handles.size →
    Course scan.restart s [] []
  | disturbed {scan : Scan} {s u : Store} {fetched : List (Store × PageId)} {items : List Answer} :
    Course scan s fetched items → s.Disturbs u → Course scan u fetched items
  | asked {scan : Scan} {s : Store} {fetched : List (Store × PageId)} {items : List Answer} :
    Course scan s fetched items →
    Course (scan.yield s).scan (scan.yield s).store (fetched ++ scan.fetches s)
      (items ++ [(scan.yield s).item])
  | closed {scan : Scan} {s : Store} {fetched : List (Store × PageId)} {items : List Answer} :
    Course scan s fetched items → Course scan.close s fetched items
  /-- Starting over does nothing to a scan that is not open. -/
  | rewound {scan : Scan} {s : Store} {fetched : List (Store × PageId)} {items : List Answer} :
    Course scan s fetched items → scan.isOpen = false → Course scan.rewind s fetched items

/-- When its page was fetched, the row was in the slot that its record id names. -/
def Seen (txn : TxnId) (table : TableId) (fetched : List (Store × PageId)) (r : Row) : Prop :=
  ∃ a w f u, r.record = some a ∧ a.page.table = table ∧ (w, a.page) ∈ fetched ∧
    getPage txn a.page .read w = .ok f u ∧ (u.frames.page f).row? a.slot.toNat = some r

/-- What holds of a scan at every moment of its course: the rows that it has given and those that
it still holds ascend, and are on pages before the next one. -/
structure Passed (scan : Scan) (s : Store) (fetched : List (Store × PageId))
    (items : List Answer) : Prop where
  addressed : s.Addressed
  handle : scan.handle < s.handles.size
  ascending : (given items ++ scan.buffered).Pairwise Row.Precedes
  behind : ∀ r ∈ given items ++ scan.buffered, ∃ a, r.record = some a ∧ a.page.page < scan.next
  seen : ∀ r ∈ given items ++ scan.buffered,
    Seen scan.txn (s.heap scan.handle).table fetched r
  sound : scan.isOpen = true → ∀ item ∈ items, ∀ err, item ≠ some (.error err)
  final : items.Pairwise Stops

section Passed
variable {scan next : Scan} {s u : Store} {fetched : List (Store × PageId)}
  {items : List Answer} {item : Answer}

theorem given_concat (items : List Answer) (item : Answer) :
    given (items ++ [item]) = given items ++ given [item] := List.filterMap_append

theorem Seen.mono {txn : TxnId} {table : TableId} {r : Row} (h : Seen txn table fetched r)
    (more : List (Store × PageId)) : Seen txn table (fetched ++ more) r := by
  obtain ⟨a, w, f, u, hr, ht, hm, hget, hrow⟩ := h
  exact ⟨a, w, f, u, hr, ht, List.mem_append_left _ hm, hget, hrow⟩

theorem Passed.follows (h : Passed scan s fetched items) (hu : Follows s u) :
    Passed scan u fetched items where
  addressed := h.addressed.follows hu
  handle := (hu.tables h.handle).1
  ascending := h.ascending
  behind := h.behind
  seen := by rw [(hu.tables h.handle).2]; exact h.seen
  sound := h.sound
  final := h.final

/-- An answer that is given from the rows at hand, or that is none. -/
theorem Passed.answered (h : Passed scan s fetched items) (hopen : scan.isOpen = true)
    (hhandle : next.handle = scan.handle) (htxn : next.txn = scan.txn)
    (hnext : next.next = scan.next) (hrows : given [item] ++ next.buffered = scan.buffered)
    (hitem : next.isOpen = true → ∀ err, item ≠ some (.error err)) :
    Passed next s fetched (items ++ [item]) := by
  have hsame : given (items ++ [item]) ++ next.buffered = given items ++ scan.buffered := by
    rw [given_concat, List.append_assoc, hrows]
  refine ⟨h.addressed, hhandle ▸ h.handle, hsame ▸ h.ascending, ?_, ?_, fun hn => ?_, ?_⟩
  · rw [hsame, hnext]
    exact h.behind
  · rw [hsame, hhandle, htxn]
    exact h.seen
  · intro x hx
    rcases List.mem_append.mp hx with hx | hx
    · exact h.sound hopen x hx
    · rw [List.mem_singleton.mp hx]
      exact hitem hn
  · refine List.pairwise_append.mpr ⟨h.final, List.pairwise_singleton .., ?_⟩
    intro a ha b _ err he
    exact absurd he (h.sound hopen a ha err)

/-- The page that is fetched next comes after all that was given. -/
theorem Passed.fetches {f : FrameNo} (h : Passed scan s fetched items)
    (hbuffered : scan.buffered = [])
    (hget : getPage scan.txn ⟨(s.heap scan.handle).table, scan.next⟩ .read s = .ok f u) :
    Passed { scan with next := scan.next + 1, buffered := (u.frames.page f).rows } u
      (fetched ++ [(s, ⟨(s.heap scan.handle).table, scan.next⟩)]) items := by
  obtain ⟨hu, hf⟩ := (Keeps.getPage s scan.txn _ .read).ok hget
  have hpassed := h.follows hu
  obtain ⟨-, hid⟩ := hpassed.addressed.filed hf
  have haddressed := hpassed.addressed.pages f
  have hbehind := h.behind
  have hascending := h.ascending
  have hseen := h.seen
  rw [hbuffered, List.append_nil] at hbehind hascending hseen
  refine ⟨hpassed.addressed, hpassed.handle, ?_, fun r hr => ?_, fun r hr => ?_, h.sound, h.final⟩
  · refine List.pairwise_append.mpr ⟨hascending, haddressed.ascending, fun r hr q hq => ?_⟩
    obtain ⟨a, hra, hlt⟩ := hbehind r hr
    obtain ⟨b, hqb, hpage, -⟩ := haddressed.record hq
    refine ⟨a, b, hra, hqb, .inl ?_⟩
    rw [hpage, hid]
    exact hlt
  · show ∃ a, r.record = some a ∧ a.page.page < scan.next + 1
    rcases List.mem_append.mp hr with hr | hr
    · obtain ⟨a, hra, hlt⟩ := hbehind r hr
      exact ⟨a, hra, Nat.lt_succ_of_lt hlt⟩
    · obtain ⟨a, hra, hpage, -⟩ := haddressed.record hr
      refine ⟨a, hra, ?_⟩
      rw [hpage, hid]
      exact Nat.lt_succ_self _
  · show Seen scan.txn (u.heap scan.handle).table _ r
    rw [(hu.tables h.handle).2]
    rcases List.mem_append.mp hr with hr | hr
    · exact (hseen r hr).mono _
    · obtain ⟨a, hra, hpage, hrow⟩ := haddressed.record hr
      rw [hid] at hpage
      refine ⟨a, s, f, u, hra, congrArg PageId.table hpage, ?_, ?_, hrow⟩
      · rw [hpage]
        exact List.mem_append_right _ (List.mem_singleton_self _)
      · rw [hpage]
        exact hget

theorem fetchesIn_run (fuel : Nat) (scan : Scan) (s : Store) :
    scan.fetchesIn (fuel + 1) s = match scan.buffered with
      | _ :: _ => []
      | [] =>
        if (s.heap scan.handle).pageCount (s.fileOf scan.handle) ≤ scan.next then []
        else match getPage scan.txn ⟨(s.heap scan.handle).table, scan.next⟩ .read s with
          | .error _ _ => []
          | .ok f u => (s, ⟨(s.heap scan.handle).table, scan.next⟩) ::
            fetchesIn fuel
              { scan with next := scan.next + 1, buffered := (u.frames.page f).rows } u := by
  obtain ⟨handle, txn, isOpen, next, buffered⟩ := scan
  cases buffered <;> rfl

theorem Passed.advance (fuel : Nat) (h : Passed scan s fetched items)
    (hopen : scan.isOpen = true) :
    Passed (scan.advance fuel s).scan (scan.advance fuel s).store
      (fetched ++ scan.fetchesIn fuel s) (items ++ [(scan.advance fuel s).item]) := by
  have hnone : Passed scan s (fetched ++ []) (items ++ [none]) := by
    rw [List.append_nil]
    exact h.answered hopen rfl rfl rfl rfl fun _ _ => by simp
  induction fuel generalizing scan s fetched with
  | zero => exact hnone
  | succ fuel ih =>
    rw [advance_run, fetchesIn_run]
    cases hb : scan.buffered with
    | cons r rest =>
      rw [List.append_nil]
      exact h.answered hopen rfl rfl rfl hb.symm fun _ _ => by simp
    | nil =>
      simp only
      split
      · exact hnone
      · cases hget : getPage scan.txn ⟨(s.heap scan.handle).table, scan.next⟩ .read s with
        | error err u =>
          rw [List.append_nil]
          have hu := (Keeps.getPage s scan.txn _ .read).error hget
          exact (h.follows hu).answered hopen rfl rfl rfl hb.symm fun hn => by simp [close] at hn
        | ok f u =>
          have hpassed := h.fetches hb hget
          have hrest := ih hpassed hopen (by
            rw [List.append_nil]
            exact hpassed.answered hopen rfl rfl rfl rfl fun _ _ => by simp)
          rw [List.append_assoc] at hrest
          exact hrest

theorem Passed.yield (h : Passed scan s fetched items) :
    Passed (scan.yield s).scan (scan.yield s).store (fetched ++ scan.fetches s)
      (items ++ [(scan.yield s).item]) := by
  unfold Scan.yield Scan.fetches
  cases hopen : scan.isOpen with
  | true => exact h.advance _ hopen
  | false =>
    simp only [Bool.false_eq_true, if_false, List.append_nil]
    have hgiven : given (items ++ [none]) = given items :=
      (given_concat items none).trans (List.append_nil _)
    refine ⟨h.addressed, h.handle, hgiven.symm ▸ h.ascending, hgiven.symm ▸ h.behind,
      hgiven.symm ▸ h.seen, fun hn => ?_, ?_⟩
    · rw [hopen] at hn
      simp at hn
    · exact List.pairwise_append.mpr ⟨h.final, List.pairwise_singleton ..,
        fun _ _ b hb _ _ => List.mem_singleton.mp hb⟩

theorem Passed.close (h : Passed scan s fetched items) : Passed scan.close s fetched items where
  addressed := h.addressed
  handle := h.handle
  ascending := by
    show (given items ++ []).Pairwise Row.Precedes
    rw [List.append_nil]
    exact (List.pairwise_append.mp h.ascending).1
  behind r hr := h.behind r (List.mem_append_left _ (by simpa [Scan.close] using hr))
  seen r hr := h.seen r (List.mem_append_left _ (by simpa [Scan.close] using hr))
  sound hn := by simp [Scan.close] at hn
  final := h.final

theorem Course.passed (h : Course scan s fetched items) : Passed scan s fetched items := by
  induction h with
  | opened scan hs hk =>
    exact ⟨hs.addressed, hk, .nil, fun r hr => by simp [given, restart] at hr,
      fun r hr => by simp [given, restart] at hr, fun _ item hi => by simp at hi, .nil⟩
  | disturbed _ hu ih => exact ih.follows (hu.follows ih.addressed)
  | asked _ ih => exact ih.yield
  | closed _ ih => exact ih.close
  | rewound _ hn ih =>
    rw [rewind_closed hn]
    exact ih

/-- What a course leads to is again a store in which a scan can be opened. -/
theorem Course.store (h : Course scan s fetched items) : s.Disturbed := by
  have hfetch {s : Store} (txn : TxnId) (page : PageId) (h : s.Disturbed) :
      (s.after (getPage txn page .read)).Disturbed := by
    rw [← Call.after_getPage]
    exact h.step (.part (.whole (.getPage txn page .read)) trivial)
  induction h with
  | opened _ hs => exact hs
  | disturbed _ hu ih => exact ih.step hu
  | @asked scan s _ _ _ ih => exact yield_induct hfetch scan ih
  | closed _ ih => exact ih
  | rewound _ _ ih => exact ih

/-- Whatever happens to the store meanwhile, from the moment when a scan is opened or started over
the record ids of the rows that it gives only ascend, so no record is given twice. Every row was
in its slot when the page was fetched for this scan. After an error nothing is given any more,
until the scan is opened again. -/
theorem Course.ascends (h : Course scan s fetched items) :
    (given items).Pairwise Row.Precedes ∧
      (∀ r ∈ given items, Seen scan.txn (s.heap scan.handle).table fetched r) ∧
      items.Pairwise Stops := by
  have hpassed := h.passed
  exact ⟨(List.pairwise_append.mp hpassed.ascending).1,
    fun r hr => hpassed.seen r (List.mem_append_left _ hr), hpassed.final⟩

end Passed

/-- A scan that has given the row of the first page. -/
def begun : Yield := (Scan.new 0 ⟨2⟩).restart.yield committedOnce

/-- The second page, with a row. -/
def ahead : Page :=
  (Page.empty ⟨1, 1⟩ numbers 128 >>= fun p => (p.insert (number 9)).map Prod.snd).toOption.getD
    default

/-- Meanwhile another transaction has put a second row on the first page and committed it, and
past the pool a row was put on the second page. -/
def stirred : Store :=
  (((begun.store.after (Call.release ⟨2⟩ ⟨1, 0⟩).run).after
    (Call.edit ⟨3⟩ (.insertion 1 (number 8))).run).after (Call.complete ⟨3⟩ true).run).after
    (writePage 0 ahead)

/-- The scan has given the row of the second page. -/
def resumed : Yield := begun.scan.yield stirred

/-- Then a third row was put on the first page, and there is a third page. One page is allowed in
the pool, and this one is not committed. -/
def crowded : Store :=
  (resumed.store.after (Call.edit ⟨4⟩ (.insertion 1 (number 10))).run).after (allocatePage 0)

/-- Two rows are given, the second as it was put there after the first. The others are behind the
scan, and there is no room for the third page. -/
theorem Course.ascends_crowded : ∃ scan s fetched items, Course scan s fetched items ∧
    items.map (Option.map Except.isOk) = [some true, some true, some false, none] ∧
    (given items).map Row.shown = [(some ⟨⟨1, 0⟩, 0⟩, some [0, 7, 0, 0, 0]),
      (some ⟨⟨1, 1⟩, 0⟩, some [0, 9, 0, 0, 0])] ∧
    s.listing ⟨1, 0⟩ = [(some ⟨⟨1, 0⟩, 0⟩, some [0, 7, 0, 0, 0]),
      (some ⟨⟨1, 0⟩, 1⟩, some [0, 8, 0, 0, 0]), (some ⟨⟨1, 0⟩, 2⟩, some [0, 10, 0, 0, 0])] ∧
    (given items).Pairwise Row.Precedes ∧
    (∀ r ∈ given items, Seen scan.txn (s.heap scan.handle).table fetched r) ∧
    items.Pairwise Stops := by
  have hcommitted : committedOnce.Disturbed :=
    ((Disturbed.unused (unused_sample 1 2)).step
      (.part (.whole (.edit ⟨1⟩ (.insertion 1 (number 7)))) trivial)).step
      (.part (.whole (.complete ⟨1⟩ true)) trivial)
  have hbegun := (Course.opened (Scan.new 0 ⟨2⟩) hcommitted (by decide +kernel)).asked
  have hstirred : Course begun.scan stirred _ _ :=
    (((hbegun.disturbed (.part (.whole (.release ⟨2⟩ ⟨1, 0⟩)) trivial)).disturbed
      (.part (.whole (.edit ⟨3⟩ (.insertion 1 (number 8)))) trivial)).disturbed
      (.part (.whole (.complete ⟨3⟩ true)) trivial)).disturbed (.writePage 0 ahead)
  have hcrowded : Course resumed.scan crowded _ _ :=
    (hstirred.asked.disturbed
      (.part (.whole (.edit ⟨4⟩ (.insertion 1 (number 10)))) trivial)).disturbed (.allocatePage 0)
  have hended := hcrowded.asked.asked
  exact ⟨_, _, _, _, hended, by decide +kernel, by decide +kernel, by decide +kernel,
    hended.ascends⟩

end Scan

end RowStore
