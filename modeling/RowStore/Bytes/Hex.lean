import RowStore.Bytes.Basic

/-!
  Hexadecimal — bytes written as two digits each, the high one first.

  Writing uses lower-case digits and reading accepts no others. What is written
  reads back (`read?_write`).
-/

namespace RowStore.Bytes.Hex

/-- The digit of a number below sixteen. -/
def digit (n : Nat) : Char :=
  if n < 10 then Char.ofNat ('0'.toNat + n) else Char.ofNat ('a'.toNat + (n - 10))

/-- The number that a digit stands for. -/
def digit? (c : Char) : Option Nat :=
  if '0' ≤ c && c ≤ '9' then some (c.toNat - '0'.toNat)
  else if 'a' ≤ c && c ≤ 'f' then some (c.toNat - 'a'.toNat + 10)
  else none

theorem digit?_digit {n : Nat} (h : n < 16) : digit? (digit n) = some n := by
  have all : ∀ k : Fin 16, digit? (digit k) = some k.val := by decide
  exact all ⟨n, h⟩

/-- The two digits of a byte. -/
def byteDigits (b : UInt8) : List Char := [digit (b.toNat / 16), digit (b.toNat % 16)]

def write (bytes : Bytes) : String := String.ofList (bytes.flatMap byteDigits)

/-- Reads pairs of digits, after the bytes already read, which come last first. -/
def readOnto : List Char → Bytes → Option Bytes
  | [], read => some read.reverse
  | [_], _ => none
  | a :: b :: rest, read =>
    (digit? a).bind fun high => (digit? b).bind fun low =>
      readOnto rest (UInt8.ofNat (high * 16 + low) :: read)

def read? (s : String) : Option Bytes := readOnto s.toList []

theorem readOnto_write (bytes read : Bytes) :
    readOnto (bytes.flatMap byteDigits) read = some (read.reverse ++ bytes) := by
  induction bytes generalizing read with
  | nil => simp [readOnto]
  | cons b rest ih =>
    have hb : b.toNat < 256 := UInt8.toNat_lt b
    have hd : b.toNat / 16 * 16 + b.toNat % 16 = b.toNat := by omega
    rw [List.flatMap_cons, byteDigits, List.cons_append, List.cons_append, List.nil_append,
      readOnto, digit?_digit (by omega), Option.bind_some, digit?_digit (by omega),
      Option.bind_some, hd, UInt8.ofNat_toNat, ih]
    simp

theorem read?_write (bytes : Bytes) : read? (write bytes) = some bytes := by
  rw [read?, write, String.toList_ofList, readOnto_write, List.reverse_nil, List.nil_append]

/-- The number with these digits. -/
def number? (s : String) : Option Nat :=
  s.toList.foldlM (fun n c => (digit? c).map (n * 16 + ·)) 0

end RowStore.Bytes.Hex
