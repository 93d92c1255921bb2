import RowStore.Bytes.Basic

/-!
  Little-endian numbers — a number as a fixed count of bytes, lowest first.

  Main statement: reading back `width` written bytes gives the number modulo the
  `width`-th power of 256 (`number_write`), so a number that fits comes back as it was.
-/

namespace RowStore.Bytes.LittleEndian

/-- The lowest `width` bytes of `n`, lowest first. -/
def write : Nat → Nat → Bytes
  | 0, _ => []
  | width + 1, n => UInt8.ofNat n :: write width (n / 256)

/-- The number that the bytes spell. -/
def number : Bytes → Nat
  | [] => 0
  | b :: rest => b.toNat + 256 * number rest

@[simp] theorem length_write (width n : Nat) : (write width n).length = width := by
  induction width generalizing n with
  | zero => rfl
  | succ w ih => simp [write, ih]

theorem number_write (width n : Nat) : number (write width n) = n % Nat.pow 256 width := by
  induction width generalizing n with
  | zero => simp [write, number, Nat.mod_one]
  | succ w ih =>
    simp only [write, number, ih, UInt8.toNat_ofNat']
    rw [show Nat.pow 256 (w + 1) = 256 * Nat.pow 256 w from Nat.mul_comm _ _, Nat.mod_mul]

end RowStore.Bytes.LittleEndian
