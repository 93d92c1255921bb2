import RowStore.Proofs.Log.Calls
import RowStore.Proofs.Page.Rewriting
import RowStore.Proofs.Store.Calls

/-!
  Committing pages that were read — what a page's rows have to be for that.

  When nothing else is in the way (`Unhindered`), a page is committed exactly if it has an
  image, and so has its before-image if the log keeps records (`commitPage_ok_iff`). Main
  statement: a page that was read can be written again exactly if none of its rows is flawed,
  it is then read as the same rows, and a change of other slots can be committed exactly if
  the flawed rows are gone and the log does not keep what was there before
  (`ofImage_writes_iff`). One flawed row in a file keeps every other row of its page from
  being committed (`ofImage_unwritable`).
-/

namespace RowStore

/-! ## Logging two images -/

theorem Log.write_ok_iff {l : Log} (h : l.failingWrite (l.writeCalls + 1) = none) (txn : TxnId)
    (before after : Page) : (l.write txn before after).1 = .ok () ↔
      (l.keeps = true → (∃ b, before.image = .ok b) ∧ ∃ a, after.image = .ok a) := by
  have hwrites := l.writes txn before after
  generalize l.write txn before after = x at hwrites ⊢
  cases hwrites with
  | refused hdevice => simp [h] at hdevice
  | dropped _ hkeeps => simp [hkeeps]
  | unwritable _ hkeeps himages =>
    rcases himages with hbefore | ⟨-, hafter⟩
    · simp [hkeeps, hbefore]
    · simp [hkeeps, hafter]
  | recorded _ hkeeps hbefore hafter => simp [hkeeps, hbefore, hafter]

theorem Log.force_ok {l : Log} (h : l.failingForce (l.forceCalls + 1) = none) :
    l.force.1 = .ok () := by
  have hforces := l.forces
  generalize l.force = x at hforces ⊢
  cases hforces with
  | refused hdevice => simp [h] at hdevice
  | dropped | marked => rfl

/-- Writing records is not seen by the device when it forces them. -/
theorem Log.force_write (l : Log) (txn : TxnId) (before after : Page) :
    (l.write txn before after).2.failingForce = l.failingForce ∧
      (l.write txn before after).2.forceCalls = l.forceCalls := by
  have hwrites := l.writes txn before after
  generalize l.write txn before after = x at hwrites ⊢
  cases hwrites <;> exact ⟨rfl, rfl⟩

namespace Store

open Page

theorem logWrite_eq (s : Store) (txn : TxnId) (before after : Page) :
    logWrite txn before after s =
      StoreM.ofExcept (s.log.write txn before after).1
        { s with log := (s.log.write txn before after).2 } := rfl

theorem logForce_eq (s : Store) :
    logForce s = StoreM.ofExcept s.log.force.1 { s with log := s.log.force.2 } := rfl

/-! ## Committing a page -/

/-- Nothing but its rows keeps a page from being committed: its table is registered, the file
has a place for it, and the next calls of the log's device do not fail. -/
structure Unhindered (s : Store) (p : Page) : Prop where
  handle : ∃ k, s.handle? p.id.table = some k ∧ (s.heap k).table = p.id.table ∧
    (s.heap k).pageSize = p.size ∧ p.id.page * p.size + p.size < File.positions
  write : s.log.failingWrite (s.log.writeCalls + 1) = none
  force : s.log.failingForce (s.log.forceCalls + 1) = none

theorem writePage_ok_iff {h : HeapFile} {f : File} {p : Page} (ht : h.table = p.id.table)
    (hs : h.pageSize = p.size) (hlt : p.id.page * p.size + p.size < File.positions) :
    (∃ f', h.writePage f p = .ok f') ↔ ∃ b, p.image = .ok b := by
  constructor
  · rintro ⟨f', hw⟩
    obtain ⟨-, -, -, b, hb, -⟩ := HeapFile.writePage_eq_ok hw
    exact ⟨b, hb⟩
  · rintro ⟨b, hb⟩
    rw [← hs] at hlt
    have hplace := HeapFile.place_eq_ok_iff.mpr ⟨rfl, hlt⟩
    refine ⟨f.write (p.id.page * h.pageSize) b, ?_⟩
    unfold HeapFile.writePage
    rw [if_neg (by simp [ht]), if_neg (by simp [hs])]
    simp only [hb, hplace, bind, Except.bind]
    rfl

theorem commitPage_eq {s : Store} {f : FrameNo} {k : HandleNo} {before : Page} (txn : TxnId)
    (hk : s.handle? (s.frames.page f).id.table = some k)
    (hb : (s.frames.page f).beforeImage = .ok before) :
    commitPage txn f s = (logWrite txn before (s.frames.page f) >>= fun _ => logForce >>= fun _ =>
      writePage k (s.frames.page f) >>= fun _ => StoreM.ofExcept (s.frames.page f).settle >>=
        fun q => setPage f (q.markedBy none)) s := by
  have hthrough := writeThrough_run s txn (s.frames.page f)
  simp only [hk, hb, bind_run] at hthrough
  unfold commitPage
  simp only [bind_run, page_run, hthrough]
  cases logWrite txn before (s.frames.page f) s with
  | error e u => rfl
  | ok a u =>
    simp only
    cases logForce u <;> rfl

/-- A page that nothing hinders is committed exactly if it has an image, and so has its
before-image if the log keeps it. -/
theorem commitPage_ok_iff {s : Store} {f : FrameNo} {before : Page} (txn : TxnId)
    (h : s.Unhindered (s.frames.page f)) (hb : (s.frames.page f).beforeImage = .ok before) :
    (∃ u, commitPage txn f s = .ok () u) ↔ (∃ a, (s.frames.page f).image = .ok a) ∧
      (s.log.keeps = true → ∃ b, before.image = .ok b) := by
  obtain ⟨k, hk, ht, hs, hlt⟩ := h.handle
  have hrun := commitPage_eq txn hk hb
  generalize s.frames.page f = p at h ht hs hlt hrun
  have hlog := Log.write_ok_iff h.write txn before p
  obtain ⟨hfail, hcalls⟩ := s.log.force_write txn before p
  have hforce : (s.log.write txn before p).2.force.1 = .ok () := by
    apply Log.force_ok
    rw [hfail, hcalls]
    exact h.force
  rw [hrun, bind_run, logWrite_eq, ofExcept_run]
  cases hw : (s.log.write txn before p).1 with
  | error e =>
    rw [hw] at hlog
    simp only [reduceCtorEq, false_iff, exists_false] at hlog ⊢
    intro hboth
    exact hlog fun hkeeps => ⟨hboth.2 hkeeps, hboth.1⟩
  | ok a =>
    have himages := hlog.mp hw
    have hfile := writePage_ok_iff (f := s.fileOf k) ht hs hlt
    -- the file does not depend on the log
    have hheap (log : Log) : heap { s with log := log } k = s.heap k := rfl
    have hcontents (log : Log) : fileOf { s with log := log } k = s.fileOf k := rfl
    simp only [bind_run, logForce_eq, hforce, ofExcept_run, writePage_run, hheap, hcontents]
    cases hfw : (s.heap k).writePage (s.fileOf k) p with
    | error e =>
      rw [hfw] at hfile
      simp only [reduceCtorEq, false_iff, exists_false] at hfile ⊢
      exact fun hboth => hfile hboth.1
    | ok f' =>
      obtain ⟨b, hb'⟩ := hfile.mp ⟨f', hfw⟩
      have hsettle : p.settle = .ok { p with before := b } := by
        simp [Page.settle, hb', bind, Except.bind, pure, Except.pure]
      simp only [hsettle]
      exact ⟨fun _ => ⟨⟨b, hb'⟩, fun hkeeps => (himages hkeeps).1⟩, fun _ => ⟨_, rfl⟩⟩

/-- A page that was read can be written again exactly if none of its rows is flawed, with a
null where none is allowed or a text that is too long. If there are flawed rows, one of them
is named by the error. Else what is written is read as a page with the same used slots and
the same rows. After changes to it, and unless something else is in the way, the page is
committed exactly if no flawed row is left and, where the log keeps records, there was none. -/
theorem ofImage_writes_iff {id : PageId} {schema : Schema} {b : Block} {p : Page}
    (h : ofImage id schema b = .ok p) :
    ((∃ c, p.image = .ok c) ↔ p.Unflawed) ∧
      (∀ e, p.image = .error e → ∃ i r, p.row? i = some r ∧ r.Flawed ∧
        e = .unencodable r.display) ∧
      (∀ c, p.image = .ok c → ∃ q, ofImage id schema c = .ok q ∧ q.slotCount = p.slotCount ∧
        ∀ i, q.isUsed i = p.isUsed i ∧ q.row? i = p.row? i) ∧
      ∀ (s : Store) (f : FrameNo) (txn : TxnId) (es : List Page.Edit),
        s.frames.page f = (p.edits es).markedBy (some txn) → s.Unhindered (s.frames.page f) →
        ((∃ u, commitPage txn f s = .ok () u) ↔
          (p.edits es).Unflawed ∧ (s.log.keeps = true → p.Unflawed)) := by
  have hlegible := legible_ofImage h
  refine ⟨hlegible.image_iff, ?_, ?_, ?_⟩
  · intro e he
    obtain ⟨i, r, hr, hflaw, hdisplay, -⟩ := hlegible.image_error he
    exact ⟨i, r, hr, hflaw, hdisplay⟩
  · intro c hc
    obtain ⟨hread, -⟩ := hlegible.formed.rereads hc
    have hschema : p.schema = schema := by
      obtain ⟨slots, rows, -, -, rfl⟩ := ofImage_eq_ok h
      rfl
    rw [id_ofImage h, hschema] at hread
    exact ⟨p.reread, hread, slotCount_reread p,
      fun i => ⟨isUsed_reread p i, row?_reread_ofImage h i⟩⟩
  · intro s f txn es hf hfree
    have hbefore : (s.frames.page f).beforeImage = .ok p := by
      rw [hf]
      show (p.edits es).beforeImage = .ok p
      rw [beforeImage_edits]
      exact beforeImage_ofImage h
    have himage : (∃ a, (s.frames.page f).image = .ok a) ↔ (p.edits es).Unflawed := by
      rw [hf]
      exact (hlegible.edits es).image_iff
    rw [commitPage_ok_iff txn hfree hbefore, himage, hlegible.image_iff]

/-- A page with a row whose null bits have a bit too many set. -/
def stray : Block := Block.ofBytes 128 [1, 0, 0, 2, 5]

/-- The page can be written, though not with that bit, it is then read as the same row, and
it can be committed. -/
theorem ofImage_writes_iff_stray : ∃ p c q r u, ofImage ⟨1, 0⟩ numbers stray = .ok p ∧
    p.image = .ok c ∧ c ≠ stray ∧ ofImage ⟨1, 0⟩ numbers c = .ok q ∧
    p.row? 0 = some r ∧ q.row? 0 = some r ∧
    commitPage ⟨1⟩ 0 { sample 1 1 with frames := #[p.markedBy (some ⟨1⟩)] } = .ok () u := by
  have hread : (ofImage ⟨1, 0⟩ numbers stray).toOption.isSome = true := by decide +kernel
  have hwritten : (ofImage ⟨1, 0⟩ numbers stray).toOption.bind (·.image.toOption) =
      some (Block.ofBytes 128 [1, 0, 0, 0, 5]) := by decide +kernel
  have hrow : ((ofImage ⟨1, 0⟩ numbers stray).toOption.bind (·.row? 0)).isSome = true := by
    decide +kernel
  cases h : ofImage ⟨1, 0⟩ numbers stray with
  | error e => simp [h, Except.toOption] at hread
  | ok p =>
    rw [h] at hwritten hrow
    obtain ⟨r, hr⟩ := Option.isSome_iff_exists.mp hrow
    obtain ⟨hiff, -, hagain, hcommit⟩ := ofImage_writes_iff h
    cases hc : p.image with
    | error e => simp [hc, Except.toOption] at hwritten
    | ok c =>
      obtain ⟨q, hq, -, hrows⟩ := hagain c hc
      have hne : c ≠ stray := by
        simp only [Except.toOption, Option.bind_some, hc] at hwritten
        rw [Option.some.inj hwritten]
        decide +kernel
      have hclear := hiff.mp ⟨c, hc⟩
      have hfree : Unhindered { sample 1 1 with frames := #[p.markedBy (some ⟨1⟩)] }
          (p.markedBy (some ⟨1⟩)) := by
        obtain ⟨slots, rows, -, -, rfl⟩ := ofImage_eq_ok h
        have hend : 0 * 128 + 128 < File.positions := by decide
        exact ⟨⟨0, rfl, rfl, rfl, hend⟩, rfl, rfl⟩
      obtain ⟨u, hu⟩ := (hcommit _ 0 ⟨1⟩ [] rfl hfree).mpr ⟨hclear, fun _ => hclear⟩
      exact ⟨p, c, q, r, u, rfl, hc, hne, hq, hr, (hrows 0).2.trans hr, hu⟩

/-- A page with a null where none is allowed. -/
def flawed : Block := Block.ofBytes 128 [1, 0, 0, 1]

/-- A store whose file holds the flawed page. -/
def flawedStore : Store := { sample 1 1 with volume := ⟨[], 1, #[⟨128, [⟨0, flawed⟩]⟩]⟩ }

/-- Why a call fails. -/
def Call.failure? (c : Call) (s : Store) : Option StoreError :=
  match c.run s with
  | .ok _ _ => none
  | .error e _ => some e

/-- The flawed page is read but cannot be written. So a row can be inserted next to the flawed
one, but it cannot be committed. -/
theorem ofImage_unwritable :
    (¬ ∀ id schema b p, ofImage id schema b = .ok p → ∃ c, p.image = .ok c) ∧
      (Call.edit ⟨1⟩ (.insertion 1 (number 7))).failure? flawedStore = none ∧
      (Call.complete ⟨1⟩ true).failure?
        (flawedStore.after (Call.edit ⟨1⟩ (.insertion 1 (number 7))).run) =
          some (.unencodable "NULL") := by
  refine ⟨fun hall => ?_, by decide +kernel, by decide +kernel⟩
  have hread : (ofImage ⟨1, 0⟩ numbers flawed).toOption.isSome = true := by decide +kernel
  have hunwritten : (ofImage ⟨1, 0⟩ numbers flawed).toOption.bind (·.image.toOption) = none := by
    decide +kernel
  cases h : ofImage ⟨1, 0⟩ numbers flawed with
  | error e => simp [h, Except.toOption] at hread
  | ok p =>
    obtain ⟨c, hc⟩ := hall _ _ _ p h
    simp [h, Except.toOption, hc] at hunwritten

end Store

end RowStore
