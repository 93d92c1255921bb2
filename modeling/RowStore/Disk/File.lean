import RowStore.Bytes.Block
import RowStore.Error

/-!
  Files — a size and the blocks written over zeros.

  A file is as long as its size says and zero wherever no piece covers it, so a
  gap left by a write past the end takes no room. A later piece hides the earlier
  ones; a piece that a new one covers whole is forgotten. Positions in a file are
  63 bits wide, so bytes whose end has no position can neither be read nor written.

  Main statements, byte by byte: reading gives the bytes of the file
  (`byteAt_read`), writing changes exactly the bytes written (`byteAt_write`), and
  resizing keeps the bytes before the new end (`byteAt_resize`).
-/

namespace RowStore

/-- A block written from `start` on. -/
structure Piece where
  start : Nat
  block : Block
  deriving DecidableEq, Inhabited

namespace Piece

/-- The first byte after the piece. -/
def stop (p : Piece) : Nat := p.start + p.block.size

/-- The piece cut at `size`; none if nothing of it is left. -/
def cutAt (size : Nat) (p : Piece) : Option Piece :=
  if p.start < size then
    some { p with block := p.block.slice 0 (min (size - p.start) p.block.size) }
  else none

/-- The byte at a position, the newest piece first. -/
def byteAt : List Piece → Nat → UInt8
  | [], _ => 0
  | p :: older, i => if p.start ≤ i ∧ i < p.stop then p.block.byteAt (i - p.start)
    else byteAt older i

/-- `count` bytes from `start` on: what lies before the newest piece, the part of
it in range, and what lies after it. -/
def read : List Piece → Nat → Nat → Block
  | [], _, count => Block.blank count
  | p :: older, start, count =>
    let stop := start + count
    if count = 0 then Block.blank 0
    else if p.stop ≤ start ∨ stop ≤ p.start then read older start count
    else
      let covered := p.block.slice (start - p.start) (min stop p.stop - max start p.start)
      ((read older start (p.start - start)).append covered).append
        (read older p.stop (stop - p.stop))

@[simp] theorem size_read (pieces : List Piece) (start count : Nat) :
    (read pieces start count).size = count := by
  induction pieces generalizing start count with
  | nil => rfl
  | cons p older ih =>
    have hs : p.stop = p.start + p.block.size := rfl
    simp only [read]
    split
    · simp_all
    split
    · exact ih start count
    · simp only [Block.size_append, Block.size_slice, ih]
      omega

theorem byteAt_read (pieces : List Piece) (start count i : Nat) (h : i < count) :
    (read pieces start count).byteAt i = byteAt pieces (start + i) := by
  induction pieces generalizing start count i with
  | nil => exact Block.byteAt_blank count i
  | cons p older ih =>
    have hs : p.stop = p.start + p.block.size := rfl
    simp only [read, byteAt]
    rw [if_neg (by omega)]
    split
    · rw [if_neg (by omega), ih _ _ _ h]
    · simp only [Block.byteAt_append, Block.size_append, size_read, Block.size_slice,
        Block.byteAt_slice]
      -- before the piece, in it, or behind it
      by_cases hb : start + i < p.start
      · rw [if_pos (by omega), if_pos (by omega), if_neg (by omega), ih _ _ _ (by omega)]
      · by_cases hc : start + i < p.stop
        · rw [if_pos (by omega), if_neg (by omega), if_pos (by omega), if_pos (by omega)]
          congr 1
          omega
        · rw [if_neg (by omega), if_neg (by omega), ih _ _ _ (by omega)]
          congr 1
          omega

/-- Pieces that do not cover a byte can be left out. -/
theorem byteAt_filter {pieces : List Piece} {keep : Piece → Bool} {i : Nat}
    (h : ∀ p ∈ pieces, keep p = false → ¬(p.start ≤ i ∧ i < p.stop)) :
    byteAt (pieces.filter keep) i = byteAt pieces i := by
  induction pieces with
  | nil => rfl
  | cons p older ih =>
    have ih := ih fun q hq => h q (List.mem_cons_of_mem p hq)
    cases hk : keep p with
    | true => simp [hk, byteAt, ih]
    | false =>
      have hout := h p List.mem_cons_self hk
      simp only [List.filter_cons, hk, Bool.false_eq_true, if_false, byteAt, if_neg hout, ih]

theorem byteAt_cutAt (pieces : List Piece) (size i : Nat) :
    byteAt (pieces.filterMap (cutAt size)) i = if i < size then byteAt pieces i else 0 := by
  induction pieces with
  | nil => simp [byteAt]
  | cons p older ih =>
    have hs : p.stop = p.start + p.block.size := rfl
    by_cases hp : p.start < size
    · -- the piece is cut at the new end
      let q : Piece := { p with block := p.block.slice 0 (min (size - p.start) p.block.size) }
      have hc : cutAt size p = some q := by simp [cutAt, hp, q]
      have hq : q.stop = p.start + min (size - p.start) p.block.size := rfl
      have hst : q.start = p.start := rfl
      have hb (j : Nat) : q.block.byteAt j =
          if j < min (size - p.start) p.block.size then p.block.byteAt j else 0 := by
        simp only [q, Block.byteAt_slice, Nat.zero_add]
      rw [List.filterMap_cons_some hc]
      simp only [byteAt, ih]
      by_cases hin : q.start ≤ i ∧ i < q.stop
      · rw [if_pos (by omega), if_pos (by omega), if_pos (by omega), hb, if_pos (by omega), hst]
      · rw [if_neg hin]
        by_cases hi : i < size
        · rw [if_pos hi, if_pos hi, if_neg (by omega)]
        · rw [if_neg hi, if_neg hi]
    · -- all of the piece is behind the new end
      have hc : cutAt size p = none := by simp [cutAt, hp]
      rw [List.filterMap_cons_none hc, ih]
      split
      · rename_i hi
        rw [byteAt, if_neg (by omega)]
      · rfl

end Piece

/-- The contents of a file. -/
structure File where
  size : Nat
  /-- What was written, newest first. -/
  pieces : List Piece
  deriving DecidableEq, Inhabited

namespace File

def empty : File := ⟨0, []⟩

/-- How many positions a file has. -/
def positions : Nat := 9223372036854775808

/-- Refuses an end, of a file or of bytes in it, that has no position. -/
def checkEnd (stop : Nat) : Except IoFault Unit :=
  if stop < positions then .ok () else .error .invalidPosition

/-- Writes a block at a position. What lies between the old end and the position
becomes zero. -/
def write (f : File) (start : Nat) (block : Block) : File :=
  if block.size = 0 then f
  else
    let p : Piece := ⟨start, block⟩
    { size := max f.size p.stop
      pieces := p :: f.pieces.filter fun q => !(start ≤ q.start && q.stop ≤ p.stop) }

/-- Cuts the file or extends it with zeros. -/
def resize (f : File) (size : Nat) : File :=
  { size, pieces := f.pieces.filterMap (Piece.cutAt size) }

/-- `count` bytes from `start` on, if the file has them all. -/
def read? (f : File) (start count : Nat) : Option Block :=
  if start + count ≤ f.size then some (Piece.read f.pieces start count) else none

/-- All bytes of the file. -/
def contents (f : File) : Block := Piece.read f.pieces 0 f.size

/-- The byte at a position; zero behind the end. -/
def byteAt (f : File) (i : Nat) : UInt8 := Piece.byteAt f.pieces i

theorem byteAt_write (f : File) (start : Nat) (block : Block) (i : Nat) :
    (f.write start block).byteAt i =
      if start ≤ i ∧ i < start + block.size then block.byteAt (i - start) else f.byteAt i := by
  have hs : (⟨start, block⟩ : Piece).stop = start + block.size := rfl
  unfold write
  split
  · rw [if_neg (by omega)]
  · simp only [byteAt, Piece.byteAt]
    by_cases hi : start ≤ i ∧ i < start + block.size
    · rw [if_pos hi, if_pos (hs ▸ hi)]
    · rw [if_neg hi, if_neg (hs ▸ hi)]
      apply Piece.byteAt_filter
      intro q _ hq
      simp only [Bool.not_eq_false', Bool.and_eq_true, decide_eq_true_eq] at hq
      omega

theorem byteAt_resize (f : File) (size i : Nat) :
    (f.resize size).byteAt i = if i < size then f.byteAt i else 0 :=
  Piece.byteAt_cutAt f.pieces size i

end File

end RowStore
