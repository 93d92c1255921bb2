import RowStore.Proofs.Disk.Images

/-!
  Contents — files that hold the same bytes, and writes that do not overlap.

  A file is kept as the blocks written to it, newest first, so files with the same bytes can
  differ in how they came about. `File.Same` is what a reader sees of that. Writing respects
  it (`Volume.Same.writeAt`), and two writes that share no byte of one file can change places
  (`Volume.writeAt_comm`).
-/

namespace RowStore

namespace File

/-- The same size and the same bytes. -/
structure Same (f g : File) : Prop where
  size : f.size = g.size
  byteAt : ∀ i, f.byteAt i = g.byteAt i

namespace Same

variable {f g h : File}

theorem refl (f : File) : Same f f := ⟨rfl, fun _ => rfl⟩

theorem trans (h₁ : Same f g) (h₂ : Same g h) : Same f h :=
  ⟨h₁.size.trans h₂.size, fun i => (h₁.byteAt i).trans (h₂.byteAt i)⟩

/-- Then reading gives the same. -/
theorem read? (hs : Same f g) (start count : Nat) : f.read? start count = g.read? start count := by
  have hread : Piece.read f.pieces start count = Piece.read g.pieces start count := by
    refine Block.ext_byteAt (by simp) fun i => ?_
    by_cases hi : i < count
    · rw [Piece.byteAt_read _ _ _ _ hi, Piece.byteAt_read _ _ _ _ hi]
      exact hs.byteAt _
    · rw [Block.byteAt_of_size_le (by simpa using hi), Block.byteAt_of_size_le (by simpa using hi)]
  rw [File.read?, File.read?, hs.size, hread]

theorem write (hs : Same f g) (start : Nat) (b : Block) :
    Same (f.write start b) (g.write start b) := by
  refine ⟨by rw [size_write, size_write, hs.size], fun i => ?_⟩
  rw [byteAt_write, byteAt_write, hs.byteAt]

end Same

theorem write_comm (f : File) {i j : Nat} {b c : Block} (h : i + b.size ≤ j ∨ j + c.size ≤ i) :
    Same ((f.write i b).write j c) ((f.write j c).write i b) := by
  constructor
  · simp only [size_write]
    split <;> split <;> omega
  · intro n
    simp only [byteAt_write]
    by_cases hb : i ≤ n ∧ n < i + b.size
    · rw [if_pos hb, if_neg (by omega), if_pos hb]
    · rw [if_neg hb, if_neg hb]

end File

namespace Volume

/-- The volume with a block written into one file. -/
def writeAt (v : Volume) (no : FileNo) (start : Nat) (b : Block) : Volume :=
  v.setFile no ((v.file no).write start b)

theorem file_writeAt (v : Volume) (no n : FileNo) (start : Nat) (b : Block) :
    (v.writeAt no start b).file n =
      if n = no ∧ n < v.files.size then (v.file n).write start b else v.file n := by
  simp only [writeAt, setFile, file, Array.getD_eq_getD_getElem?, Array.getElem?_setIfInBounds]
  by_cases hn : n = no
  · subst hn
    by_cases hlt : n < v.files.size <;> simp [hlt]
  · simp [hn, Ne.symm hn]

theorem size_writeAt (v : Volume) (no : FileNo) (start : Nat) (b : Block) :
    (v.writeAt no start b).files.size = v.files.size := by
  simp [writeAt, setFile]

/-- The same directories, with files of the same contents. -/
structure Same (v w : Volume) : Prop where
  entries : v.entries = w.entries
  directories : v.directories = w.directories
  files : v.files.size = w.files.size
  file : ∀ no, (v.file no).Same (w.file no)

namespace Same

variable {u v w : Volume}

theorem refl (v : Volume) : Same v v := ⟨rfl, rfl, rfl, fun _ => .refl _⟩

theorem trans (h₁ : Same u v) (h₂ : Same v w) : Same u w where
  entries := h₁.entries.trans h₂.entries
  directories := h₁.directories.trans h₂.directories
  files := h₁.files.trans h₂.files
  file no := (h₁.file no).trans (h₂.file no)

theorem writeAt (h : Same v w) (no : FileNo) (start : Nat) (b : Block) :
    Same (v.writeAt no start b) (w.writeAt no start b) where
  entries := h.entries
  directories := h.directories
  files := by rw [size_writeAt, size_writeAt, h.files]
  file n := by
    rw [file_writeAt, file_writeAt, h.files]
    split
    · exact (h.file n).write start b
    · exact h.file n

end Same

/-- Writes to two files can change places, and so can writes to one that share no byte. -/
theorem writeAt_comm (v : Volume) {m n : FileNo} {i j : Nat} {b c : Block}
    (h : m = n → i + b.size ≤ j ∨ j + c.size ≤ i) :
    Same ((v.writeAt m i b).writeAt n j c) ((v.writeAt n j c).writeAt m i b) := by
  refine ⟨rfl, rfl, by simp only [size_writeAt], fun no => ?_⟩
  simp only [file_writeAt, size_writeAt]
  by_cases hn : no = n ∧ no < v.files.size
  · by_cases hm : no = m ∧ no < v.files.size
    · rw [if_pos hn, if_pos hm, if_pos hm, if_pos hn]
      exact File.write_comm _ (h (hm.1.symm.trans hn.1))
    · rw [if_pos hn, if_neg hm, if_neg hm, if_pos hn]
      exact .refl _
  · rw [if_neg hn, if_neg hn]
    exact .refl _

end Volume

end RowStore
