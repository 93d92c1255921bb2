import RowStore.Disk.HeapFile

/-!
  Page images in a file — what reading, writing and growing do to each of them.

  `blockAt` is the image of a page, zeros as far as the file does not reach. Reading
  gives it if the file holds it whole (`readImage_eq_ok_iff`). Writing a page changes
  that image and no other (`blockAt_write`, `blockAt_write_other`). Growing adds one
  page as long as there are page numbers (`pages_allocate`).
-/

namespace RowStore

namespace File

theorem size_write (f : File) (start : Nat) (b : Block) :
    (f.write start b).size = if b.size = 0 then f.size else max f.size (start + b.size) := by
  unfold write
  split <;> rfl

theorem checkEnd_eq_ok_iff {stop : Nat} : checkEnd stop = .ok () ↔ stop < positions := by
  unfold checkEnd
  split <;> simp_all

end File

namespace HeapFile

variable {h : HeapFile} {f : File}

/-- The image of a page, zeros where the file does not reach. -/
def blockAt (h : HeapFile) (f : File) (n : Nat) : Block :=
  Piece.read f.pieces (n * h.pageSize) h.pageSize

@[simp] theorem size_blockAt (h : HeapFile) (f : File) (n : Nat) :
    (h.blockAt f n).size = h.pageSize := by
  simp [blockAt]

theorem byteAt_blockAt (h : HeapFile) (f : File) (n i : Nat) :
    (h.blockAt f n).byteAt i = if i < h.pageSize then f.byteAt (n * h.pageSize + i) else 0 := by
  split
  · rename_i hi
    exact Piece.byteAt_read _ _ _ _ hi
  · rename_i hi
    exact Block.byteAt_of_size_le (by simpa using hi)

/-- Whether a file holds a page whole, at a place that it can have. -/
def Holds (h : HeapFile) (f : File) (n : Nat) : Prop :=
  n * h.pageSize + h.pageSize ≤ f.size ∧ n * h.pageSize + h.pageSize < File.positions

theorem place_eq_ok_iff {id : PageId} {start : Nat} :
    h.place id = .ok start ↔
      start = id.page * h.pageSize ∧ id.page * h.pageSize + h.pageSize < File.positions := by
  unfold place PageId.offset
  have hc := @File.checkEnd_eq_ok_iff (id.page * h.pageSize + h.pageSize)
  cases he : File.checkEnd (id.page * h.pageSize + h.pageSize) with
  | error fault => simp [← hc, he]
  | ok a => simp [← hc, he, eq_comm]

theorem readImage_eq_ok_iff {id : PageId} {b : Block} :
    h.readImage f id = .ok b ↔
      id.table = h.table ∧ h.Holds f id.page ∧ b = h.blockAt f id.page := by
  unfold readImage Holds
  by_cases ht : id.table = h.table
  · rw [if_neg (by simp [ht])]
    cases hp : h.place id with
    -- no file reaches as far as the page
    | error e =>
      have hn : ¬ id.page * h.pageSize + h.pageSize < File.positions := fun hn => by
        rw [place_eq_ok_iff.mpr ⟨rfl, hn⟩] at hp
        simp at hp
      simp [bind, Except.bind, hn]
    | ok start =>
      obtain ⟨rfl, hlt⟩ := place_eq_ok_iff.mp hp
      simp only [bind, Except.bind, File.read?, blockAt]
      split
      · rename_i image hi
        split at hi
        · obtain rfl := Option.some.inj hi
          simp_all [eq_comm]
        · simp at hi
      · rename_i hi
        split at hi
        · simp at hi
        · rename_i hsize
          simp only [reduceCtorEq, false_iff]
          intro hq
          obtain ⟨-, ⟨hle, -⟩, -⟩ := hq
          exact hsize hle
  · simp [ht]

theorem writePage_eq_ok {p : Page} {f' : File} (hw : h.writePage f p = .ok f') :
    p.id.table = h.table ∧ p.size = h.pageSize ∧
      p.id.page * h.pageSize + h.pageSize < File.positions ∧
      ∃ b, p.image = .ok b ∧ f' = f.write (p.id.page * h.pageSize) b := by
  unfold writePage at hw
  split at hw
  · simp at hw
  · rename_i ht
    split at hw
    · simp at hw
    · rename_i hs
      cases hb : p.image with
      | error e => simp [hb, bind, Except.bind] at hw
      | ok b =>
        cases hp : h.place p.id with
        | error e => simp [hb, hp, bind, Except.bind] at hw
        | ok start =>
          obtain ⟨rfl, hlt⟩ := place_eq_ok_iff.mp hp
          simp only [hb, hp, bind, Except.bind] at hw
          exact ⟨by simpa using ht, by simpa using hs, hlt, b, rfl, (Except.ok.inj hw).symm⟩

theorem allocate_eq_ok_iff {f' : File} :
    h.allocate f = .ok f' ↔
      h.pageCount f * h.pageSize + h.pageSize < File.positions ∧
        f' = f.write (h.pageCount f * h.pageSize) (Block.blank h.pageSize) := by
  unfold allocate
  cases hp : h.place (h.nextPage f) with
  | error e =>
    have hn : ¬ h.pageCount f * h.pageSize + h.pageSize < File.positions := fun hn => by
      rw [place_eq_ok_iff.mpr ⟨rfl, hn⟩] at hp
      simp at hp
    simp [bind, Except.bind, hn]
  | ok start =>
    obtain ⟨rfl, hlt⟩ := place_eq_ok_iff.mp hp
    have hn : (h.nextPage f).page = h.pageCount f := rfl
    rw [hn] at hlt ⊢
    simp only [bind, Except.bind, pure, Except.pure, Except.ok.injEq]
    exact ⟨fun hf => ⟨hlt, hf.symm⟩, fun hf => hf.2.symm⟩

/-! ## Writing -/

/-- The bytes of two pages do not overlap. -/
theorem disjoint (ps : Nat) {m n : Nat} (hmn : m ≠ n) : m * ps + ps ≤ n * ps ∨ n * ps + ps ≤ m * ps := by
  rcases Nat.lt_or_gt_of_ne hmn with hlt | hgt
  · exact .inl (by rw [← Nat.succ_mul]; exact Nat.mul_le_mul_right _ hlt)
  · exact .inr (by rw [← Nat.succ_mul]; exact Nat.mul_le_mul_right _ hgt)

theorem blockAt_write {n : Nat} {b : Block} (hb : b.size = h.pageSize) :
    h.blockAt (f.write (n * h.pageSize) b) n = b := by
  apply Block.ext_byteAt (by simp [hb])
  intro i
  rw [byteAt_blockAt, File.byteAt_write]
  split
  · rw [if_pos (by omega)]
    congr 1
    omega
  · rw [Block.byteAt_of_size_le (by omega)]

theorem blockAt_write_other {m n : Nat} {b : Block} (hb : b.size = h.pageSize) (hmn : m ≠ n) :
    h.blockAt (f.write (n * h.pageSize) b) m = h.blockAt f m := by
  have hd := disjoint h.pageSize hmn
  apply Block.ext_byteAt (by simp)
  intro i
  rw [byteAt_blockAt, byteAt_blockAt, File.byteAt_write]
  split
  · rw [if_neg (by omega)]
  · rfl

theorem holds_write {m start : Nat} {b : Block} (hm : h.Holds f m) :
    h.Holds (f.write start b) m := by
  refine ⟨Nat.le_trans hm.1 ?_, hm.2⟩
  rw [File.size_write]
  split
  · exact Nat.le_refl _
  · exact Nat.le_max_left _ _

/-- Writing a page that the file holds does not make the file longer. -/
theorem size_write_of_holds {n : Nat} {b : Block} (hb : b.size = h.pageSize) (hn : h.Holds f n) :
    (f.write (n * h.pageSize) b).size = f.size := by
  rw [File.size_write]
  split
  · rfl
  · exact Nat.max_eq_left (hb ▸ hn.1)

theorem lt_pages_of_holds {n : Nat} (hs : 0 < h.pageSize) (hn : h.Holds f n) :
    n < f.size / h.pageSize := by
  apply (Nat.le_div_iff_mul_le hs).mpr
  rw [Nat.succ_mul]
  exact hn.1

/-! ## Growing -/

theorem pageCount_of_lt (hn : f.size / h.pageSize < pageNumbers) :
    h.pageCount f = f.size / h.pageSize :=
  Nat.mod_eq_of_lt hn

/-- As long as there are page numbers, growing adds one page. -/
theorem pages_allocate {f' : File} (hs : 0 < h.pageSize)
    (hn : f.size / h.pageSize < pageNumbers) (ha : h.allocate f = .ok f') :
    f'.size / h.pageSize = f.size / h.pageSize + 1 := by
  obtain ⟨-, rfl⟩ := allocate_eq_ok_iff.mp ha
  have hlt : f.size < (f.size / h.pageSize + 1) * h.pageSize := by
    rw [Nat.mul_comm]
    exact Nat.lt_mul_div_succ f.size hs
  rw [File.size_write, Block.size_blank, if_neg (by omega), pageCount_of_lt hn, ← Nat.succ_mul,
    Nat.max_eq_right (Nat.le_of_lt hlt), Nat.mul_div_cancel _ hs]

/-- Then it holds the pages that it held, and that one. -/
theorem holds_allocate {f' : File} (hs : 0 < h.pageSize)
    (hn : f.size / h.pageSize < pageNumbers) (ha : h.allocate f = .ok f') (m : Nat) :
    h.Holds f' m ↔ m = f.size / h.pageSize ∨ h.Holds f m := by
  have hpages := pages_allocate hs hn ha
  obtain ⟨hplace, rfl⟩ := allocate_eq_ok_iff.mp ha
  rw [pageCount_of_lt hn] at hplace hpages ⊢
  generalize hlast : f.size / h.pageSize = n at hplace hpages ⊢
  have hle : n * h.pageSize ≤ f.size := hlast ▸ Nat.div_mul_le_self f.size h.pageSize
  constructor
  · intro hm
    have hlt := lt_pages_of_holds hs hm
    rw [hpages] at hlt
    rcases Nat.lt_succ_iff_lt_or_eq.mp hlt with hlt | heq
    · refine .inr ⟨Nat.le_trans ?_ hle, hm.2⟩
      rw [← Nat.succ_mul]
      exact Nat.mul_le_mul_right _ hlt
    · exact .inl heq
  · rintro (rfl | hm)
    · refine ⟨?_, hplace⟩
      rw [File.size_write, Block.size_blank, if_neg (Nat.ne_of_gt hs)]
      exact Nat.le_max_right _ _
    · exact holds_write hm

/-- Once the numbers are used up, growing writes over the first page. -/
theorem allocate_of_full (hn : f.size / h.pageSize = pageNumbers)
    (hp : h.pageSize < File.positions) :
    ∃ f', h.allocate f = .ok f' ∧ f'.size = f.size := by
  have hc : h.pageCount f = 0 := by rw [pageCount, hn, Nat.mod_self]
  refine ⟨f.write 0 (Block.blank h.pageSize), ?_, ?_⟩
  · rw [allocate_eq_ok_iff, hc]
    exact ⟨by omega, by rw [Nat.zero_mul]⟩
  · have hle : h.pageSize ≤ f.size := by
      have h1 : 1 ≤ f.size / h.pageSize := by rw [hn]; decide
      have hs : 0 < h.pageSize := by
        apply Nat.pos_of_ne_zero
        intro h0
        rw [h0, Nat.div_zero] at h1
        omega
      have := (Nat.le_div_iff_mul_le hs).mp h1
      omega
    rw [File.size_write, Block.size_blank]
    split
    · rfl
    · exact Nat.max_eq_left (by omega)

end HeapFile

end RowStore
