import RowStore.Bytes.Block
import RowStore.Page.Layout
import RowStore.Row.Codec

/-!
  Pages — the slots of one page and who has changed them.

  A page keeps its bitmap beside its slots, bits after the last slot included,
  the transaction that made it dirty, and the image it had when it was last
  clean. Insertion takes the lowest free slot; deletion frees the slot that the
  row's record id names. Both leave a page they refuse as it was.
-/

namespace RowStore

structure Page where
  id : PageId
  schema : Schema
  size : Nat
  /-- The bits of the bitmap's bytes. Those after the last slot mean nothing. -/
  used : Array Bool
  slots : Array (Option Row)
  dirtier : Option TxnId
  /-- The image at the last clean point. -/
  before : Block
  deriving DecidableEq, Inhabited

namespace Page

def slotCount (p : Page) : Nat := p.slots.size

def isUsed (p : Page) (slot : Nat) : Bool := slot < p.slotCount && p.used.getD slot false

def freeCount (p : Page) : Nat := (List.range p.slotCount).countP fun slot => !p.isUsed slot

/-- The lowest clear bit among `more` bits from `slot` on. -/
def clearFrom (used : Array Bool) (slot : Nat) : Nat → Option Nat
  | 0 => none
  | more + 1 => if used.getD slot false then clearFrom used (slot + 1) more else some slot

/-- The lowest free slot. -/
def firstFree? (p : Page) : Option Nat := clearFrom p.used 0 p.slotCount

/-- Whether a slot is free. -/
def hasRoom (p : Page) : Bool := p.firstFree?.isSome

/-- The row in a slot. -/
def row? (p : Page) (slot : Nat) : Option Row := p.slots[slot]?.join

/-- The rows of the page in slot order. -/
def rows (p : Page) : List Row := p.slots.toList.filterMap fun cell => cell

/-- The record id of a slot. -/
def recordOf (id : PageId) (slot : Nat) : RecordId := ⟨id, UInt16.ofNat slot⟩

/-- Puts a row into a slot. Gives the row as stored. -/
def put (p : Page) (slot : Nat) (r : Row) : Row × Page :=
  let stored := r.storedAt (some (recordOf p.id slot))
  (stored, { p with
    used := p.used.setIfInBounds slot true
    slots := p.slots.setIfInBounds slot (some stored) })

/-- The slot for a row, the lowest that is free, if the slots below `slot` are used. -/
def slotFrom (p : Page) (slot : Nat) (r : Row) : Except StoreError Nat :=
  if r.schema != p.schema then .error .schemaMismatch
  else if r.encode.isNone then .error (.unencodable r.display)
  else match clearFrom p.used slot (p.slotCount - slot) with
    | none => .error (.pageFull p.id)
    | some slot => .ok slot

/-- Stores a row in the lowest free slot. Gives the row as stored. -/
def insert (p : Page) (r : Row) : Except StoreError (Row × Page) :=
  match p.slotFrom 0 r with
  | .error e => .error e
  | .ok slot => .ok (p.put slot r)

/-- Stores `more` rows of a series in turn, each in the lowest free slot, `stored` of
them being stored already and the slots below `slot` used. Gives how many were stored
and why the next one was not. -/
def insertMore (p : Page) (series : Nat → Row) (stored slot : Nat) :
    Nat → Nat × Option StoreError × Page
  | 0 => (stored, none, p)
  | more + 1 =>
    match p.slotFrom slot (series stored) with
    | .error e => (stored, some e, p)
    | .ok slot => (p.put slot (series stored)).2.insertMore series (stored + 1) (slot + 1) more

/-- Stores the first `count` rows of a series in turn. -/
def insertAll (p : Page) (series : Nat → Row) (count : Nat) : Nat × Option StoreError × Page :=
  p.insertMore series 0 0 count

/-- Frees the slot of a record. -/
def erase (p : Page) (record : RecordId) : Except StoreError Page :=
  let slot := record.slot.toNat
  if record.page ≠ p.id then .error (.wrongPage record p.id)
  else if p.slotCount ≤ slot then .error (.invalidSlot p.id record.slot)
  else if !p.isUsed slot then .error (.emptySlot p.id record.slot)
  else .ok { p with
    used := p.used.setIfInBounds slot false
    slots := p.slots.setIfInBounds slot none }

/-- Frees the slot that the row's record id names. -/
def delete (p : Page) (r : Row) : Except StoreError Page :=
  match r.record with
  | none => .error .missingRecordId
  | some record => p.erase record

/-- The page dirtied by a transaction, or clean. -/
def markedBy (p : Page) (txn : Option TxnId) : Page := { p with dirtier := txn }

def isDirty (p : Page) : Bool := p.dirtier.isSome

theorem clearFrom_eq_some_iff {used : Array Bool} {slot more i : Nat} :
    clearFrom used slot more = some i ↔ slot ≤ i ∧ i < slot + more ∧ used.getD i false = false ∧
      ∀ j, slot ≤ j → j < i → used.getD j false = true := by
  induction more generalizing slot with
  | zero => simp [clearFrom]; omega
  | succ more ih =>
    rw [clearFrom]
    split
    · -- the first slot is used, so the search goes on behind it
      rename_i hs
      rw [ih]
      constructor
      · intro hq
        obtain ⟨hi, hm, hc, hj⟩ := hq
        refine ⟨by omega, by omega, hc, ?_⟩
        intro j h₁ h₂
        rcases Nat.eq_or_lt_of_le h₁ with rfl | h₁
        · exact hs
        · exact hj j h₁ h₂
      · intro hx
        obtain ⟨hi, hm, hc, hj⟩ := hx
        rcases Nat.eq_or_lt_of_le hi with rfl | hi
        · rw [hs] at hc
          exact absurd hc (by decide)
        · exact ⟨hi, by omega, hc, fun j h₁ h₂ => hj j (by omega) h₂⟩
    · -- the first slot is free, so it is the one
      rename_i hs
      constructor
      · intro h
        obtain rfl := Option.some.inj h
        exact ⟨Nat.le_refl _, by omega, by simpa using hs, fun j h₁ h₂ => by omega⟩
      · intro hr
        obtain ⟨hi, hm, hc, hj⟩ := hr
        rcases Nat.eq_or_lt_of_le hi with rfl | hi
        · rfl
        · exact absurd (hj slot (Nat.le_refl _) hi) hs

/-- The slot found is free, and every slot below it is used. -/
theorem firstFree?_eq_some_iff {p : Page} {i : Nat} :
    p.firstFree? = some i ↔
      i < p.slotCount ∧ p.isUsed i = false ∧ ∀ j, j < i → p.isUsed j = true := by
  rw [firstFree?, clearFrom_eq_some_iff]
  simp only [isUsed, Bool.and_eq_false_iff, Bool.and_eq_true, decide_eq_true_eq]
  constructor
  · intro hq
    obtain ⟨-, hi, hc, hj⟩ := hq
    exact ⟨by omega, .inr hc, fun j h => ⟨by omega, hj j (Nat.zero_le _) h⟩⟩
  · intro hx
    obtain ⟨hi, hc, hj⟩ := hx
    refine ⟨Nat.zero_le _, by omega, ?_, fun j _ h => (hj j h).2⟩
    rcases hc with hc | hc
    · exact absurd hi (by simpa using hc)
    · exact hc

end Page

end RowStore
