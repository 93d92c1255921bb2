import RowStore.Bytes.Basic

/-!
  UTF-8 — the bytes of a text, and a reading that never fails.

  `decode` replaces what is not well formed: a lead byte is followed for as long
  as its continuation bytes are in range, and the first byte out of range ends
  the sequence, which becomes one replacement character. The byte that ended it
  is read again, so each maximal ill-formed part gives exactly one replacement.
  Main statement: the bytes of a text are read as that text (`decode_encode`).
-/

namespace RowStore.Text

/-- What an ill-formed sequence is read as. -/
def replacement : Char := '\uFFFD'

/-- The UTF-8 bytes of a text. -/
def encode (s : String) : Bytes := s.toList.flatMap String.utf8EncodeChar

@[simp] theorem length_encode (s : String) : (encode s).length = s.utf8ByteSize := by
  rw [encode, ← String.size_toByteArray]
  conv => rhs; rw [← @String.ofList_toList s]
  rw [String.toByteArray_ofList, List.utf8Encode, List.size_toByteArray]

/-- What a lead byte announces: how many continuation bytes follow, the range of
the first of them, and the high bits of the scalar value. -/
structure Lead where
  tail : Nat
  low : UInt8
  high : UInt8
  value : Nat
  deriving DecidableEq

/-- The lead bytes of sequences of two, three and four bytes. The narrower first
ranges leave out overlong forms, surrogates and values beyond the last scalar. -/
def lead? (b : UInt8) : Option Lead :=
  if b < 0xC2 then none
  else if b < 0xE0 then some ⟨1, 0x80, 0xBF, b.toNat - 0xC0⟩
  else if b == 0xE0 then some ⟨2, 0xA0, 0xBF, 0⟩
  else if b == 0xED then some ⟨2, 0x80, 0x9F, 0xD⟩
  else if b < 0xF0 then some ⟨2, 0x80, 0xBF, b.toNat - 0xE0⟩
  else if b == 0xF0 then some ⟨3, 0x90, 0xBF, 0⟩
  else if b < 0xF4 then some ⟨3, 0x80, 0xBF, b.toNat - 0xF0⟩
  else if b == 0xF4 then some ⟨3, 0x80, 0x8F, 4⟩
  else none

/-- Follows a sequence that still lacks some continuation bytes, the next of them
between `low` and `high`. Gives the character read and the bytes left. -/
def follow : Nat → UInt8 → UInt8 → Nat → Bytes → Char × Bytes
  | 0, _, _, value, rest => (Char.ofNat value, rest)
  | _ + 1, _, _, _, [] => (replacement, [])
  | missing + 1, low, high, value, c :: rest =>
    if low ≤ c && c ≤ high then
      follow missing 0x80 0xBF (value * 64 + (c.toNat - 0x80)) rest
    else (replacement, c :: rest)

/-- One character off the front of a byte string that begins with `b`. -/
def next (b : UInt8) (rest : Bytes) : Char × Bytes :=
  if b < 0x80 then (Char.ofNat b.toNat, rest)
  else match lead? b with
    | none => (replacement, rest)
    | some l => follow l.tail l.low l.high l.value rest

/-- Reads at most `fuel` characters, after those already read, which come last
first. -/
def readOnto : Nat → Bytes → List Char → List Char
  | 0, _, read => read.reverse
  | _ + 1, [], read => read.reverse
  | fuel + 1, b :: rest, read =>
    let (c, left) := next b rest
    readOnto fuel left (c :: read)

/-- The text that the bytes spell. Each character takes at least one byte, so the
number of bytes bounds the number of characters. -/
def decode (bytes : Bytes) : String := String.ofList (readOnto bytes.length bytes [])

/-! ## Reading what was written -/

theorem lead?_two {n : Nat} (h : 2 ≤ n ∧ n < 32) :
    lead? (UInt8.ofNat (n + 0xC0)) = some ⟨1, 0x80, 0xBF, n⟩ := by
  have all : ∀ k : Fin 32, 2 ≤ k.val →
      lead? (UInt8.ofNat (k + 0xC0)) = some ⟨1, 0x80, 0xBF, k⟩ := by decide
  exact all ⟨n, h.2⟩ h.1

theorem lead?_three {n : Nat} (h : n < 16) :
    lead? (UInt8.ofNat (n + 0xE0)) =
      some ⟨2, if n = 0 then 0xA0 else 0x80, if n = 13 then 0x9F else 0xBF, n⟩ := by
  have all : ∀ k : Fin 16, lead? (UInt8.ofNat (k + 0xE0)) =
      some ⟨2, if k.val = 0 then 0xA0 else 0x80, if k.val = 13 then 0x9F else 0xBF, k⟩ := by
    decide
  exact all ⟨n, h⟩

theorem lead?_four {n : Nat} (h : n < 5) :
    lead? (UInt8.ofNat (n + 0xF0)) =
      some ⟨3, if n = 0 then 0x90 else 0x80, if n = 4 then 0x8F else 0xBF, n⟩ := by
  have all : ∀ k : Fin 5, lead? (UInt8.ofNat (k + 0xF0)) =
      some ⟨3, if k.val = 0 then 0x90 else 0x80, if k.val = 4 then 0x8F else 0xBF, k⟩ := by
    decide
  exact all ⟨n, h⟩

theorem next_of_lead? {b : UInt8} {l : Lead} (h : lead? b = some l) (rest : Bytes) :
    next b rest = follow l.tail l.low l.high l.value rest := by
  have hb : ¬b < 0x80 := by
    intro hlt
    have hlow : b < 0xC2 := by
      rw [UInt8.lt_iff_toNat_lt] at hlt ⊢
      exact Nat.lt_trans hlt (by decide)
    simp [lead?, hlow] at h
  simp only [next, if_neg hb, h]

/-- A continuation byte in range adds six bits. -/
theorem follow_cons {missing value x : Nat} {low high : UInt8} {rest : Bytes} (hx : x < 64)
    (hl : low.toNat ≤ x + 0x80) (hh : x + 0x80 ≤ high.toNat) :
    follow (missing + 1) low high value (UInt8.ofNat (x + 0x80) :: rest) =
      follow missing 0x80 0xBF (value * 64 + x) rest := by
  have hn : (UInt8.ofNat (x + 0x80)).toNat = x + 0x80 := by
    rw [UInt8.toNat_ofNat']
    omega
  have hr : (low ≤ UInt8.ofNat (x + 0x80) && UInt8.ofNat (x + 0x80) ≤ high) = true := by
    simp only [UInt8.le_iff_toNat_le, hn, Bool.and_eq_true, decide_eq_true_eq]
    exact ⟨hl, hh⟩
  rw [follow, if_pos hr, hn, Nat.add_sub_cancel]

/-- A continuation byte after the first may be any. -/
theorem follow_cons_any {missing value x : Nat} {rest : Bytes} (hx : x < 64) :
    follow (missing + 1) 0x80 0xBF value (UInt8.ofNat (x + 0x80) :: rest) =
      follow missing 0x80 0xBF (value * 64 + x) rest := by
  have h80 : (0x80 : UInt8).toNat = 128 := rfl
  have hBF : (0xBF : UInt8).toNat = 191 := rfl
  exact follow_cons hx (by omega) (by omega)

/-- Writing a character and reading one gives that character, whatever follows. -/
theorem next_encodeChar (c : Char) (rest : Bytes) :
    ∃ b tail, String.utf8EncodeChar c = b :: tail ∧ next b (tail ++ rest) = (c, rest) := by
  have hv : c.val.toNat < 0xD800 ∨ 0xDFFF < c.val.toNat ∧ c.val.toNat < 0x110000 := c.valid
  have hc : Char.ofNat c.val.toNat = c := Char.ofNat_toNat c
  have h80 : (0x80 : UInt8).toNat = 128 := rfl
  have h8F : (0x8F : UInt8).toNat = 143 := rfl
  have h90 : (0x90 : UInt8).toNat = 144 := rfl
  have h9F : (0x9F : UInt8).toNat = 159 := rfl
  have hA0 : (0xA0 : UInt8).toNat = 160 := rfl
  have hBF : (0xBF : UInt8).toNat = 191 := rfl
  unfold String.utf8EncodeChar
  generalize c.val.toNat = v at *
  simp only
  split
  · -- one byte
    refine ⟨_, _, rfl, ?_⟩
    have hb : (UInt8.ofNat v).toNat = v := by
      rw [UInt8.toNat_ofNat']
      omega
    have hlt : UInt8.ofNat v < 0x80 := by
      rw [UInt8.lt_iff_toNat_lt, hb]
      omega
    rw [next, if_pos hlt, hb, hc]
    rfl
  split
  · -- two bytes, of five and six bits
    refine ⟨_, _, rfl, ?_⟩
    rw [next_of_lead? (lead?_two (by omega))]
    simp only [List.cons_append, List.nil_append]
    rw [follow_cons_any (by omega), follow, show v / 64 % 32 * 64 + v % 64 = v by omega, hc]
  split
  · -- three bytes, where the second keeps surrogates and overlong forms out
    refine ⟨_, _, rfl, ?_⟩
    rw [next_of_lead? (lead?_three (by omega))]
    simp only [List.cons_append, List.nil_append]
    rw [follow_cons (by omega) (by split <;> omega) (by split <;> omega),
      follow_cons_any (by omega), follow,
      show (v / 4096 % 16 * 64 + v / 64 % 64) * 64 + v % 64 = v by omega, hc]
  · -- four bytes, where the second keeps what is past the last character out
    refine ⟨_, _, rfl, ?_⟩
    rw [show v / 262144 % 8 = v / 262144 by omega, next_of_lead? (lead?_four (by omega))]
    simp only [List.cons_append, List.nil_append]
    rw [follow_cons (by omega) (by split <;> omega) (by split <;> omega),
      follow_cons_any (by omega), follow_cons_any (by omega), follow,
      show ((v / 262144 * 64 + v / 4096 % 64) * 64 + v / 64 % 64) * 64 + v % 64 = v by omega, hc]

theorem readOnto_encode (cs : List Char) (fuel : Nat) (read : List Char)
    (h : (cs.flatMap String.utf8EncodeChar).length ≤ fuel) :
    readOnto fuel (cs.flatMap String.utf8EncodeChar) read = read.reverse ++ cs := by
  induction cs generalizing fuel read with
  | nil => cases fuel <;> simp [readOnto]
  | cons c cs ih =>
    obtain ⟨b, tail, hb, hn⟩ := next_encodeChar c (cs.flatMap String.utf8EncodeChar)
    rw [List.flatMap_cons, hb] at h ⊢
    cases fuel with
    | zero => simp at h
    | succ fuel =>
      rw [List.cons_append, readOnto, hn]
      simp only [List.cons_append, List.length_cons, List.length_append] at h
      show readOnto fuel (cs.flatMap String.utf8EncodeChar) (c :: read) = _
      rw [ih _ _ (by omega)]
      simp

theorem decode_encode (s : String) : decode (encode s) = s := by
  rw [decode, encode, readOnto_encode _ _ _ (Nat.le_refl _), List.reverse_nil, List.nil_append,
    String.ofList_toList]

end RowStore.Text
