import RowStore.Bytes.Basic

/-!
  Blocks — byte strings of a given size, kept without the zeros at their end.

  Most of a fresh page is zero, and so is most of a file that was extended, so a
  block keeps its bytes only up to the last that is not zero. Main statements:
  blocks of one size with the same bytes are equal (`ext_byteAt`), and each
  operation is known by the bytes it gives (`byteAt_ofBytes`, `byteAt_append`,
  `byteAt_slice`).
-/

namespace RowStore

namespace Bytes

/-! ## Bytes by position, zero behind the end -/

theorem getD_of_length_le {bytes : Bytes} {i : Nat} (h : bytes.length ≤ i) :
    bytes.getD i 0 = 0 := by
  rw [List.getD_eq_getElem?_getD, List.getElem?_eq_none h, Option.getD_none]

theorem getD_take (bytes : Bytes) (n i : Nat) :
    (bytes.take n).getD i 0 = if i < n then bytes.getD i 0 else 0 := by
  rw [List.getD_eq_getElem?_getD, List.getElem?_take, List.getD_eq_getElem?_getD]
  split <;> rfl

theorem getD_drop (bytes : Bytes) (n i : Nat) :
    (bytes.drop n).getD i 0 = bytes.getD (n + i) 0 := by
  rw [List.getD_eq_getElem?_getD, List.getElem?_drop, List.getD_eq_getElem?_getD]

theorem getD_append (as bs : Bytes) (i : Nat) :
    (as ++ bs).getD i 0 = if i < as.length then as.getD i 0 else bs.getD (i - as.length) 0 := by
  simp only [List.getD_eq_getElem?_getD, List.getElem?_append]
  split <;> rfl

theorem getD_fit (n : Nat) (bytes : Bytes) (i : Nat) :
    (fit n bytes).getD i 0 = if i < n then bytes.getD i 0 else 0 := by
  have hz : (zeros (n - bytes.length)).getD (i - (bytes.take n).length) 0 = 0 := by
    simp only [zeros, List.getD_eq_getElem?_getD, List.getElem?_replicate]
    split <;> rfl
  rw [fit, getD_append, hz, getD_take]
  split
  · rfl
  · rename_i hi
    rw [List.length_take] at hi
    split
    · rw [getD_of_length_le (by omega)]
    · rfl

/-! ## Without the zeros at the end -/

/-- One byte before bytes that do not end in zero. -/
def before (b : UInt8) (rest : Bytes) : Bytes := if rest.isEmpty && b == 0 then [] else b :: rest

/-- The bytes up to the last that is not zero. -/
def trim (bytes : Bytes) : Bytes := bytes.foldr before []

/-- Pieces of one width put together, up to the last byte that is not zero. -/
def join (width : Nat) (pieces : List Bytes) : Bytes :=
  pieces.foldr (fun piece rest => if rest.isEmpty then trim piece else fit width piece ++ rest) []

theorem trim_cons (b : UInt8) (rest : Bytes) : trim (b :: rest) = before b (trim rest) := rfl

theorem join_cons (width : Nat) (piece : Bytes) (rest : List Bytes) :
    join width (piece :: rest) =
      if (join width rest).isEmpty then trim piece else fit width piece ++ join width rest := rfl

theorem getD_before (b : UInt8) (rest : Bytes) (i : Nat) :
    (before b rest).getD i 0 = (b :: rest).getD i 0 := by
  unfold before
  split
  · rename_i h
    simp only [Bool.and_eq_true, List.isEmpty_iff, beq_iff_eq] at h
    cases i <;> simp [h]
  · rfl

theorem getD_trim (bytes : Bytes) (i : Nat) : (trim bytes).getD i 0 = bytes.getD i 0 := by
  induction bytes generalizing i with
  | nil => rfl
  | cons b rest ih =>
    rw [trim_cons, getD_before]
    cases i with
    | zero => rfl
    | succ i => exact ih i

theorem length_trim_le (bytes : Bytes) : (trim bytes).length ≤ bytes.length := by
  induction bytes with
  | nil => exact Nat.le_refl 0
  | cons b rest ih =>
    rw [trim_cons, before]
    split
    · exact Nat.zero_le _
    · exact Nat.succ_le_succ ih

theorem getLast?_trim (bytes : Bytes) : (trim bytes).getLast? ≠ some 0 := by
  induction bytes with
  | nil => simp [trim]
  | cons b rest ih =>
    rw [trim_cons, before]
    cases ht : trim rest with
    | nil => by_cases hb : b = 0 <;> simp [hb]
    | cons c cs => simpa [ht] using ih

/-- Bytes that do not end in zero are told apart by their bytes. -/
theorem eq_of_getD {as bs : Bytes} (ha : as.getLast? ≠ some 0) (hb : bs.getLast? ≠ some 0)
    (h : ∀ i, as.getD i 0 = bs.getD i 0) : as = bs := by
  have short {xs ys : Bytes} (hy : ys.getLast? ≠ some 0) (h : ∀ i, xs.getD i 0 = ys.getD i 0) :
      ys.length ≤ xs.length := by
    refine Nat.le_of_not_lt fun hlt => hy ?_
    have hi : ys.length - 1 < ys.length := by omega
    have hx := h (ys.length - 1)
    rw [getD_of_length_le (by omega), List.getD_eq_getElem?_getD,
      List.getElem?_eq_getElem hi, Option.getD_some] at hx
    rw [List.getLast?_eq_getElem?, List.getElem?_eq_getElem hi, ← hx]
  refine List.ext_getElem (Nat.le_antisymm (short ha fun i => (h i).symm) (short hb h)) ?_
  intro i hi hj
  simpa [List.getD_eq_getElem?_getD, hi, hj] using h i

/-- Joined pieces are the pieces at their full width, one after the other. -/
theorem getD_join {width : Nat} {pieces : List Bytes} (h : ∀ p ∈ pieces, p.length ≤ width)
    (i : Nat) : (join width pieces).getD i 0 = (pieces.flatMap (fit width)).getD i 0 := by
  induction pieces generalizing i with
  | nil => rfl
  | cons p rest ih =>
    have ih := ih fun q hq => h q (List.mem_cons_of_mem p hq)
    have hp := h p List.mem_cons_self
    rw [List.flatMap_cons, getD_append, ← ih, join_cons]
    split
    · rename_i hr
      rw [getD_trim, List.isEmpty_iff.mp hr, length_fit, getD_fit]
      split
      · rfl
      · rw [getD_of_length_le (by omega)]; rfl
    · rw [getD_append]

end Bytes

/-! ## Blocks -/

/-- A byte string of a given size. -/
structure Block where
  size : Nat
  /-- The bytes up to the last that is not zero. -/
  bytes : Bytes
  length_le : bytes.length ≤ size
  trimmed : bytes.getLast? ≠ some 0
  deriving DecidableEq

namespace Block

open Bytes

/-- The block of `size` bytes that begins with these, cut or followed by zeros. -/
def ofBytes (size : Nat) (bytes : Bytes) : Block where
  size
  bytes := trim (bytes.take size)
  length_le := Nat.le_trans (length_trim_le _) (List.length_take_le size bytes)
  trimmed := getLast?_trim _

/-- A block of zeros. -/
def blank (size : Nat) : Block := ofBytes size []

instance : Inhabited Block := ⟨blank 0⟩

/-- All bytes of the block. -/
def toBytes (b : Block) : Bytes := fit b.size b.bytes

/-- The byte at a position; zero behind the end. -/
def byteAt (b : Block) (i : Nat) : UInt8 := b.bytes.getD i 0

/-- One block after the other. -/
def append (a b : Block) : Block :=
  ofBytes (a.size + b.size) (if b.bytes.isEmpty then a.bytes else fit a.size a.bytes ++ b.bytes)

/-- `count` bytes from `start` on, zeros behind the end. -/
def slice (b : Block) (start count : Nat) : Block := ofBytes count (b.bytes.drop start)

@[simp] theorem size_ofBytes (size : Nat) (bytes : Bytes) : (ofBytes size bytes).size = size := rfl

@[simp] theorem size_blank (size : Nat) : (blank size).size = size := rfl

@[simp] theorem size_append (a b : Block) : (a.append b).size = a.size + b.size := rfl

@[simp] theorem size_slice (b : Block) (start count : Nat) : (b.slice start count).size = count :=
  rfl

theorem byteAt_of_size_le {b : Block} {i : Nat} (h : b.size ≤ i) : b.byteAt i = 0 :=
  getD_of_length_le (Nat.le_trans b.length_le h)

theorem byteAt_ofBytes (size : Nat) (bytes : Bytes) (i : Nat) :
    (ofBytes size bytes).byteAt i = if i < size then bytes.getD i 0 else 0 := by
  rw [byteAt, ofBytes, getD_trim, getD_take]

theorem byteAt_blank (size i : Nat) : (blank size).byteAt i = 0 := by
  simp [blank, byteAt_ofBytes]

theorem byteAt_append (a b : Block) (i : Nat) :
    (a.append b).byteAt i = if i < a.size then a.byteAt i else b.byteAt (i - a.size) := by
  rw [append, byteAt_ofBytes]
  by_cases hi : i < a.size + b.size
  · rw [if_pos hi]
    split
    · rename_i he
      split
      · rfl
      · rw [getD_of_length_le (Nat.le_trans a.length_le (by omega)), byteAt,
          List.isEmpty_iff.mp he]
        rfl
    · rw [getD_append, length_fit, getD_fit]
      split <;> rfl
  · rw [if_neg hi, if_neg (by omega), byteAt_of_size_le (by omega)]

theorem byteAt_slice (b : Block) (start count i : Nat) :
    (b.slice start count).byteAt i = if i < count then b.byteAt (start + i) else 0 := by
  rw [slice, byteAt_ofBytes, getD_drop]
  rfl

/-- A block is its size and its bytes. -/
theorem ext_byteAt {a b : Block} (hs : a.size = b.size) (h : ∀ i, a.byteAt i = b.byteAt i) :
    a = b := by
  have hb := eq_of_getD a.trimmed b.trimmed h
  cases a; cases b
  congr

@[simp] theorem length_toBytes (b : Block) : b.toBytes.length = b.size := length_fit _ _

@[simp] theorem toBytes_ofBytes (size : Nat) (bytes : Bytes) :
    (ofBytes size bytes).toBytes = fit size bytes := by
  apply List.ext_getElem (by simp)
  intro i h _
  have hi : i < size := by simpa using h
  have hg : ((ofBytes size bytes).toBytes).getD i 0 = (fit size bytes).getD i 0 := by
    rw [toBytes, getD_fit, getD_fit]
    simpa [hi, byteAt] using byteAt_ofBytes size bytes i
  simpa [List.getD_eq_getElem?_getD, hi] using hg

@[simp] theorem ofBytes_toBytes (b : Block) : ofBytes b.size b.toBytes = b := by
  refine ext_byteAt rfl ?_
  intro i
  rw [byteAt_ofBytes, toBytes, getD_fit]
  split
  · rfl
  · rw [byteAt_of_size_le (by omega)]

end Block

end RowStore
