import RowStore.Proofs.Store.Viewing

/-!
  Growing — what appending a page does to a file, whatever the file holds.

  The number of the new page is the count of whole pages in 32 bits, so it is the number
  behind the last whole page only while there are page numbers left. Main statement: the
  page is a new one, counted, and harms no other exactly if the file has a place for it and
  the count of pages with it is still below the count of page numbers
  (`allocatePage_grows_iff`). With the last number the page is appended, but the count goes
  back to zero; after it, the number of a page that the file holds is given out again, and
  what the page held is lost.
-/

namespace RowStore

namespace HeapFile

variable {h : HeapFile} {f g : File}

/-- Whether the page after the last counted one ends at a position. -/
def HasPlace (h : HeapFile) (f : File) : Prop :=
  h.pageCount f * h.pageSize + h.pageSize < File.positions

theorem allocate_cases (h : HeapFile) (f : File) :
    (h.HasPlace f ∧ ∃ g, h.allocate f = .ok g) ∨
      (¬ h.HasPlace f ∧ h.allocate f = .error (.io .invalidPosition)) := by
  by_cases hp : h.HasPlace f
  · exact .inl ⟨hp, _, allocate_eq_ok_iff.mpr ⟨hp, rfl⟩⟩
  · have hend : File.checkEnd (h.pageCount f * h.pageSize + h.pageSize) = .error .invalidPosition :=
      if_neg hp
    have hplace : h.place (h.nextPage f) = .error (.io .invalidPosition) := by
      simp only [place, PageId.offset, nextPage, hend]
    refine .inr ⟨hp, ?_⟩
    simp only [allocate, hplace, bind, Except.bind]

theorem byteAt_allocate (ha : h.allocate f = .ok g) (i : Nat) :
    g.byteAt i = if h.pageCount f * h.pageSize ≤ i ∧ i < h.pageCount f * h.pageSize + h.pageSize
      then 0 else f.byteAt i := by
  obtain ⟨-, rfl⟩ := allocate_eq_ok_iff.mp ha
  rw [File.byteAt_write, Block.size_blank, Block.byteAt_blank]

theorem size_allocate (hs : 0 < h.pageSize) (ha : h.allocate f = .ok g) :
    g.size = max f.size (h.pageCount f * h.pageSize + h.pageSize) := by
  obtain ⟨-, rfl⟩ := allocate_eq_ok_iff.mp ha
  rw [File.size_write, Block.size_blank, if_neg (Nat.ne_of_gt hs)]

/-- The page that a file has grown by is read as an empty one. -/
theorem readPage_allocate (hs : checkPageSize h.schema h.pageSize = .ok ())
    (ha : h.allocate f = .ok g) : ∃ p, h.readPage g (h.nextPage f) = .ok p ∧ p.Blank := by
  obtain ⟨p, hp, hblank⟩ := Page.ofImage_blank hs (h.nextPage f)
  have hholds : h.Holds g (h.nextPage f).page := by
    refine ⟨?_, (allocate_eq_ok_iff.mp ha).1⟩
    rw [size_allocate (Store.pageSize_pos hs) ha]
    exact Nat.le_max_right _ _
  have himage : h.blockAt g (h.nextPage f).page = Block.blank h.pageSize := by
    obtain ⟨-, rfl⟩ := allocate_eq_ok_iff.mp ha
    exact blockAt_write rfl
  have hread := readImage_eq_ok_iff.mpr ⟨rfl, hholds, himage.symm⟩
  refine ⟨p, ?_, hblank⟩
  simp only [readPage, hread, bind, Except.bind]
  exact hp

/-- While there are page numbers, the bytes before the new page are those of the whole pages. -/
theorem byteAt_allocate_of_lt (hn : f.size / h.pageSize < pageNumbers)
    (ha : h.allocate f = .ok g) {i : Nat} (hi : i < f.size / h.pageSize * h.pageSize) :
    g.byteAt i = f.byteAt i := by
  rw [byteAt_allocate ha, pageCount_of_lt hn, if_neg (by omega)]

/-- Otherwise the page that is written was a whole page before. -/
theorem holds_nextPage (hn : pageNumbers ≤ f.size / h.pageSize) (hp : h.HasPlace f) :
    h.Holds f (h.nextPage f).page := by
  have hlt : h.pageCount f < f.size / h.pageSize :=
    Nat.lt_of_lt_of_le (Nat.mod_lt _ (by decide)) hn
  refine ⟨?_, hp⟩
  calc h.pageCount f * h.pageSize + h.pageSize
      = (h.pageCount f + 1) * h.pageSize := (Nat.succ_mul _ _).symm
    _ ≤ f.size / h.pageSize * h.pageSize := Nat.mul_le_mul_right _ hlt
    _ ≤ f.size := Nat.div_mul_le_self _ _

end HeapFile

namespace Store

variable {s u : Store} {k : HandleNo} {page : PageId}

/-- A page that the count did not cover is there and empty, and every whole page is as it was. -/
structure Prolonged (k : HandleNo) (s : Store) (page : PageId) (u : Store) : Prop where
  table : page.table = (s.heap k).table
  fresh : (s.heap k).pageCount (s.fileOf k) ≤ page.page
  longer : (s.fileOf k).size ≤ (u.fileOf k).size
  kept : ∀ i, i < s.wholePages k * (s.heap k).pageSize →
    (u.fileOf k).byteAt i = (s.fileOf k).byteAt i
  empty : ∃ p v, readPage k page u = .ok p v ∧ p.Blank

/-- And the count of pages is larger by one. -/
structure Grown (k : HandleNo) (s : Store) (page : PageId) (u : Store) : Prop
    extends Prolonged k s page u where
  counted : (u.heap k).pageCount (u.fileOf k) = (s.heap k).pageCount (s.fileOf k) + 1

/-- A page that the file holds has become blank, and the file is no longer than it was. -/
structure Overwritten (k : HandleNo) (s : Store) (page : PageId) (u : Store) : Prop where
  table : page.table = (s.heap k).table
  held : (s.heap k).Holds (s.fileOf k) page.page
  size : (u.fileOf k).size = (s.fileOf k).size
  lost : (s.heap k).blockAt (u.fileOf k) page.page = Block.blank (s.heap k).pageSize
  others : ∀ n, n ≠ page.page →
    (s.heap k).blockAt (u.fileOf k) n = (s.heap k).blockAt (s.fileOf k) n

/-- What growing a file comes to. -/
inductive Growth (k : HandleNo) (s : Store) : EStateM.Result StoreError Store PageId → Prop
  | refused : ¬ (s.heap k).HasPlace (s.fileOf k) →
    Growth k s (.error (.io .invalidPosition) s)
  | grown {page : PageId} {u : Store} : s.wholePages k + 1 < pageNumbers → Grown k s page u →
    Growth k s (.ok page u)
  | uncounted {page : PageId} {u : Store} : s.wholePages k + 1 = pageNumbers →
    Prolonged k s page u → (u.heap k).pageCount (u.fileOf k) = 0 → Growth k s (.ok page u)
  | overwritten {page : PageId} {u : Store} : pageNumbers ≤ s.wholePages k →
    Overwritten k s page u → Growth k s (.ok page u)

section Allocated

variable {g : File} (hmade : (s.heap k).file < s.volume.files.size)
  (hsize : HeapFile.checkPageSize (s.heap k).schema (s.heap k).pageSize = .ok ())
  (ha : (s.heap k).allocate (s.fileOf k) = .ok g)
include hmade hsize ha

theorem prolonged_of_allocate (hn : s.wholePages k < pageNumbers) :
    Prolonged k s ((s.heap k).nextPage (s.fileOf k)) (s.withFile k g) := by
  have hheap := heap_withFile s k k g
  have hfile := fileOf_withFile hmade g
  refine ⟨rfl, Nat.le_refl _, ?_, fun i hi => ?_, ?_⟩
  · rw [hfile, HeapFile.size_allocate (pageSize_pos hsize) ha]
    exact Nat.le_max_left _ _
  · rw [hfile]
    exact HeapFile.byteAt_allocate_of_lt hn ha hi
  · obtain ⟨p, hp, hblank⟩ := HeapFile.readPage_allocate hsize ha
    obtain ⟨b, hb, hread⟩ := Page.readPage_eq_ok hp
    refine ⟨p, (s.withFile k g).counted k, ?_, hblank⟩
    rw [readPage_run, hfile, hheap.readImage, hb, hheap.schema]
    simp only [hread]

theorem pageCount_of_allocate (hn : s.wholePages k < pageNumbers) :
    ((s.withFile k g).heap k).pageCount ((s.withFile k g).fileOf k) =
      (s.wholePages k + 1) % pageNumbers := by
  have hpages := HeapFile.pages_allocate (pageSize_pos hsize) hn ha
  rw [HeapFile.pageCount, (heap_withFile s k k g).pageSize, fileOf_withFile hmade, hpages,
    wholePages]

theorem overwritten_of_allocate (hn : pageNumbers ≤ s.wholePages k) :
    Overwritten k s ((s.heap k).nextPage (s.fileOf k)) (s.withFile k g) := by
  have hps := pageSize_pos hsize
  have hheld := HeapFile.holds_nextPage hn (HeapFile.allocate_eq_ok_iff.mp ha).1
  have hlong := HeapFile.size_allocate hps ha
  have hfile := fileOf_withFile hmade g
  refine ⟨rfl, hheld, ?_, ?_, fun n hne => ?_⟩
  · rw [hfile, hlong]
    exact Nat.max_eq_left hheld.1
  · obtain ⟨-, rfl⟩ := HeapFile.allocate_eq_ok_iff.mp ha
    rw [hfile]
    exact HeapFile.blockAt_write rfl
  · obtain ⟨-, rfl⟩ := HeapFile.allocate_eq_ok_iff.mp ha
    rw [hfile]
    exact HeapFile.blockAt_write_other rfl hne

end Allocated

theorem allocatePage_growth (hmade : (s.heap k).file < s.volume.files.size)
    (hsize : HeapFile.checkPageSize (s.heap k).schema (s.heap k).pageSize = .ok ()) :
    Growth k s (allocatePage k s) := by
  rw [allocatePage_run]
  rcases (s.heap k).allocate_cases (s.fileOf k) with ⟨-, g, ha⟩ | ⟨hp, ha⟩
  · rw [ha]
    rcases Nat.lt_or_ge (s.wholePages k) pageNumbers with hn | hn
    · have hext := prolonged_of_allocate hmade hsize ha hn
      have hcount := pageCount_of_allocate hmade hsize ha hn
      rcases Nat.lt_or_eq_of_le (show s.wholePages k + 1 ≤ pageNumbers from hn) with hleft | hlast
      · refine .grown hleft ⟨hext, ?_⟩
        rw [hcount, Nat.mod_eq_of_lt hleft, HeapFile.pageCount_of_lt hn, wholePages]
      · refine .uncounted hlast hext ?_
        rw [hcount, hlast, Nat.mod_self]
    · exact .overwritten hn (overwritten_of_allocate hmade hsize ha hn)
  · rw [ha]
    exact .refused hp

/-- A page that is written over is not counted as one more. -/
theorem Overwritten.not_grown (h : Overwritten k s page u)
    (hheap : SameHeap (u.heap k) (s.heap k)) : ¬ Grown k s page u := by
  intro hg
  have hcount := hg.counted
  rw [HeapFile.pageCount, HeapFile.pageCount, hheap.pageSize, h.size] at hcount
  exact absurd hcount (Nat.ne_of_lt (Nat.lt_succ_self _))

/-- For every accepted page size and whatever the file holds, growing it appends an empty
page that was not counted before, leaves every whole page alone and counts one page more,
exactly if the file has a place for the page and the pages with it do not use up the page
numbers. Without a place nothing changes. With the last number the count of pages is zero
afterwards; without numbers left, a page that the file holds is made blank. -/
theorem allocatePage_grows_iff (hmade : (s.heap k).file < s.volume.files.size)
    (hsize : HeapFile.checkPageSize (s.heap k).schema (s.heap k).pageSize = .ok ()) :
    Growth k s (allocatePage k s) ∧
      ((∃ page u, allocatePage k s = .ok page u ∧ Grown k s page u) ↔
        (s.heap k).HasPlace (s.fileOf k) ∧ s.wholePages k + 1 < pageNumbers) := by
  have hgrowth := allocatePage_growth hmade hsize
  refine ⟨hgrowth, ⟨?_, ?_⟩⟩
  · rintro ⟨page, u, ha, hg⟩
    obtain ⟨f, hf, rfl⟩ := allocatePage_eq_ok ha
    refine ⟨(HeapFile.allocate_eq_ok_iff.mp hf).1, ?_⟩
    rw [ha] at hgrowth
    cases hgrowth with
    | grown hn => exact hn
    | uncounted _ _ hzero => exact absurd (hzero.symm.trans hg.counted) (Nat.succ_ne_zero _).symm
    | overwritten _ hover => exact absurd hg (hover.not_grown (heap_withFile s k k f))
  · rintro ⟨hp, hn⟩
    have hleft := hgrowth
    generalize allocatePage k s = result at hleft
    cases hleft with
    | refused hnone => exact absurd hp hnone
    | grown _ hg => exact ⟨_, _, rfl, hg⟩
    | uncounted hlast => exact absurd hlast (Nat.ne_of_lt hn)
    | overwritten hfull => omega

/-- A store with a table in a file of this length, the first byte of which is not zero. -/
def sampleSized (size : Nat) : Store :=
  { sample 1 0 with volume := ⟨[], 1, #[⟨size, [⟨0, Block.ofBytes 128 [1]⟩]⟩]⟩ }

/-- A file that ends in a part of a page grows over that part. -/
theorem allocatePage_grows_iff_partial :
    ∃ u, allocatePage 0 (sampleSized 300) = .ok ⟨1, 2⟩ u ∧
      Grown 0 (sampleSized 300) ⟨1, 2⟩ u := by
  have hmade : ((sampleSized 300).heap 0).file < (sampleSized 300).volume.files.size := by decide
  have hplace : ((sampleSized 300).heap 0).HasPlace ((sampleSized 300).fileOf 0) := by
    unfold HeapFile.HasPlace
    decide
  obtain ⟨page, u, ha, hg⟩ := (allocatePage_grows_iff hmade rfl).2.mpr ⟨hplace, by decide⟩
  have hpage : page = ⟨1, 2⟩ := by
    rw [allocatePage_run] at ha
    exact (EStateM.Result.ok.inj ha).1.symm
  exact ⟨u, hpage ▸ ha, hpage ▸ hg⟩

/-- A file with as many pages as there are page numbers loses the first when it grows. -/
theorem growth_overwrites :
    ¬ ∀ (s : Store) (k : HandleNo), (s.heap k).file < s.volume.files.size →
      HeapFile.checkPageSize (s.heap k).schema (s.heap k).pageSize = .ok () →
      (s.heap k).HasPlace (s.fileOf k) →
      ∃ page u, allocatePage k s = .ok page u ∧ Grown k s page u := by
  intro h
  have hplace : ((sampleSized (128 * pageNumbers)).heap 0).HasPlace
      ((sampleSized (128 * pageNumbers)).fileOf 0) := by
    unfold HeapFile.HasPlace
    decide
  obtain ⟨page, u, ha, hg⟩ := h (sampleSized (128 * pageNumbers)) 0 (by decide) rfl hplace
  obtain ⟨f, hf, rfl⟩ := allocatePage_eq_ok ha
  have hbyte := hg.kept 0 (by decide)
  have hbefore : ((sampleSized (128 * pageNumbers)).fileOf 0).byteAt 0 = 1 := by decide
  have hafter : f.byteAt 0 = 0 := HeapFile.byteAt_allocate hf 0
  rw [fileOf_withFile (by decide), hbefore, hafter] at hbyte
  exact absurd hbyte (by decide)

end Store

end RowStore
