/-!
  Bytes — byte strings, and cutting a list into pieces of one width.

  `chunks` is the layout of a page body: piece `k` starts where piece `k - 1`
  ends (`chunks_succ`), and there are as many pieces as were asked for
  (`length_chunks`), short or empty ones when the list runs out.
-/

namespace RowStore

/-- A byte string. -/
abbrev Bytes := List UInt8

namespace Bytes

/-- Cuts `count` pieces of `width` elements off the front, after the pieces
already cut, which come last first. -/
def chunksOnto {α : Type} (width : Nat) : Nat → List α → List (List α) → List (List α)
  | 0, _, cut => cut.reverse
  | count + 1, xs, cut => chunksOnto width count (xs.drop width) (xs.take width :: cut)

/-- The first `count` pieces of `width` elements, in order. -/
def chunks {α : Type} (width count : Nat) (xs : List α) : List (List α) :=
  chunksOnto width count xs []

theorem chunksOnto_eq {α : Type} (width count : Nat) (xs : List α) (cut : List (List α)) :
    chunksOnto width count xs cut = cut.reverse ++ chunks width count xs := by
  unfold chunks
  induction count generalizing xs cut with
  | zero => simp [chunksOnto]
  | succ n ih =>
    rw [chunksOnto, chunksOnto, ih, ih (xs.drop width) [xs.take width]]
    simp

@[simp] theorem chunks_zero {α : Type} (width : Nat) (xs : List α) : chunks width 0 xs = [] := rfl

theorem chunks_succ {α : Type} (width count : Nat) (xs : List α) :
    chunks width (count + 1) xs = xs.take width :: chunks width count (xs.drop width) := by
  rw [chunks, chunksOnto, chunksOnto_eq]
  rfl

@[simp] theorem length_chunks {α : Type} (width count : Nat) (xs : List α) :
    (chunks width count xs).length = count := by
  induction count generalizing xs with
  | zero => rfl
  | succ n ih => simp [chunks_succ, ih]

/-- A run of zero bytes. -/
def zeros (n : Nat) : Bytes := List.replicate n 0

@[simp] theorem length_zeros (n : Nat) : (zeros n).length = n := List.length_replicate

/-- The byte string cut or zero-padded to `n` bytes. -/
def fit (n : Nat) (bytes : Bytes) : Bytes := bytes.take n ++ zeros (n - bytes.length)

@[simp] theorem length_fit (n : Nat) (bytes : Bytes) : (fit n bytes).length = n := by
  simp [fit]; omega

end Bytes

end RowStore
