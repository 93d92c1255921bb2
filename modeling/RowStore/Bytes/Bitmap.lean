import RowStore.Bytes.Basic

/-!
  Bitmaps — a list of bits in whole bytes, the lowest bit of a byte first.

  `pack` fills the last byte with clear bits, `unpack` gives eight bits for each
  byte. Main statement: a byte string is its own bits packed again
  (`pack_unpack`), so no bit of a bitmap is lost, used or not.
-/

namespace RowStore.Bytes.Bitmap

/-- Bytes that hold `n` bits. -/
def size (n : Nat) : Nat := (n + 7) / 8

/-- The eight bits of a byte. -/
def bits (b : UInt8) : List Bool := (List.range 8).map b.toNat.testBit

/-- The byte with these bits, at most eight of them. -/
def byte (bs : List Bool) : UInt8 :=
  UInt8.ofNat (bs.foldr (fun b n => b.toNat + 2 * n) 0)

def pack (bs : List Bool) : Bytes := (chunks 8 (size bs.length) bs).map byte

def unpack (bytes : Bytes) : List Bool := bytes.flatMap bits

@[simp] theorem length_bits (b : UInt8) : (bits b).length = 8 := rfl

@[simp] theorem length_pack (bs : List Bool) : (pack bs).length = size bs.length := by
  simp [pack]

@[simp] theorem length_unpack (bytes : Bytes) : (unpack bytes).length = 8 * bytes.length := by
  induction bytes with
  | nil => rfl
  | cons b rest ih => simp_all [unpack]; omega

@[simp] theorem unpack_cons (b : UInt8) (rest : Bytes) :
    unpack (b :: rest) = bits b ++ unpack rest := rfl

theorem byte_bits (b : UInt8) : byte (bits b) = b := by
  have h : ∀ n : Fin 256, byte (bits (UInt8.ofNat n)) = UInt8.ofNat n := by decide +kernel
  simpa using h ⟨b.toNat, UInt8.toNat_lt b⟩

theorem pack_unpack (bytes : Bytes) : pack (unpack bytes) = bytes := by
  induction bytes with
  | nil => rfl
  | cons b rest ih =>
    have hs : size (unpack (b :: rest)).length = size (unpack rest).length + 1 := by
      simp [size]; omega
    rw [pack, hs, chunks_succ, unpack_cons, List.take_left' (length_bits b),
      List.drop_left' (length_bits b), List.map_cons, byte_bits]
    exact congrArg (b :: ·) ih

end RowStore.Bytes.Bitmap
