import RowStore.Proofs.Page.Formed
import RowStore.Proofs.Page.RoundTrip

/-!
  Rewriting pages — which pages that were read can be written again.

  A page that was read may hold rows that could never have been written: reading trusts the
  null bits and repairs texts, writing checks both. Every row of such a page can be stored or
  is flawed (`legible_ofImage`), and so it stays whatever is inserted and deleted
  (`Legible.edits`). Main statement: a legible page has an image exactly if none of its rows
  is flawed, and if it has none, then because of the first flawed row (`Legible.image_iff`,
  `Legible.image_error`).
-/

namespace RowStore

theorem mapM_eq_error {α β : Type} {f : α → Except StoreError β} {xs : List α} {e : StoreError}
    (h : xs.mapM f = .error e) : ∃ (i : Nat) (x : α), xs[i]? = some x ∧ f x = .error e ∧
      ∀ (j : Nat) (y : α), j < i → xs[j]? = some y → ∃ z, f y = .ok z := by
  induction xs with
  | nil => simp [pure, Except.pure] at h
  | cons a xs ih =>
    rw [List.mapM_cons] at h
    cases ha : f a with
    | error e' =>
      simp only [ha, bind, Except.bind] at h
      obtain rfl := Except.error.inj h
      exact ⟨0, a, rfl, ha, fun j y hj _ => absurd hj (Nat.not_lt_zero j)⟩
    | ok b =>
      simp only [ha, bind, Except.bind] at h
      split at h
      · rename_i e' he
        obtain rfl := Except.error.inj h
        obtain ⟨i, x, hx, hfx, hbefore⟩ := ih he
        refine ⟨i + 1, x, hx, hfx, ?_⟩
        intro j y hj hy
        cases j with
        | zero =>
          obtain rfl := Option.some.inj hy
          exact ⟨b, ha⟩
        | succ j => exact hbefore j y (Nat.lt_of_succ_lt_succ hj) hy
      · simp [pure, Except.pure] at h

theorem Row.Storable.encode_ne_none {r : Row} (h : r.Storable) : r.encode ≠ none :=
  Option.isSome_iff_ne_none.mp (r.isSome_encode.mpr h)

namespace Page

/-- The first row that cannot be encoded is what keeps a page from being written. -/
theorem image_eq_error {p : Page} {e : StoreError} (he : p.image = .error e) :
    ∃ i r, p.row? i = some r ∧ r.encode = none ∧ e = .unencodable r.display ∧
      ∀ j s, j < i → p.row? j = some s → s.encode ≠ none := by
  have hrows : p.slots.toList.mapM Page.writeSlot = .error e := by
    unfold image at he
    cases hm : p.slots.toList.mapM Page.writeSlot with
    | error e' =>
      simp only [hm, bind, Except.bind] at he
      rw [Except.error.inj he]
    | ok rows => simp [hm, bind, Except.bind, pure, Except.pure] at he
  obtain ⟨i, cell, hcell, hwrite, hbefore⟩ := mapM_eq_error hrows
  cases cell with
  | none => simp [Page.writeSlot] at hwrite
  | some r =>
    simp only [Page.writeSlot] at hwrite
    split at hwrite
    · simp at hwrite
    · rename_i hnone
      refine ⟨i, r, row?_of_getElem? hcell, hnone, (Except.error.inj hwrite).symm, ?_⟩
      intro j s hj hs hencode
      have hlt : j < p.slotCount :=
        Nat.lt_trans hj (List.getElem?_eq_some_iff.mp hcell).1
      obtain ⟨bytes, hbytes⟩ := hbefore j _ hj (hs ▸ getElem?_slots hlt)
      simp [Page.writeSlot, hencode] at hbytes

/-- A page whose rows can be stored or are flawed. -/
structure Legible (p : Page) : Prop where
  formed : p.Formed
  rows : ∀ i r, p.row? i = some r → r.Storable ∨ r.Flawed

/-- A page without flawed rows. -/
def Unflawed (p : Page) : Prop := ∀ i r, p.row? i = some r → ¬ r.Flawed

theorem legible_ofImage {id : PageId} {schema : Schema} {b : Block} {p : Page}
    (h : ofImage id schema b = .ok p) : p.Legible where
  formed := formed_ofImage h
  rows i r hr := by
    obtain ⟨bytes, row, hrow, rfl⟩ := decode_of_ofImage h hr
    show row.Storable ∨ row.Flawed
    rw [Row.storable_iff_of_decode hrow]
    exact (Classical.em row.Flawed).symm

namespace Legible

variable {p : Page}

theorem withSlot (h : p.Legible) {slot : Nat} (hlt : slot < p.slotCount) {row : Option Row}
    (hrow : ∀ r, row = some r → r.schema = p.schema ∧ r.encode.isSome = true) :
    (p.withSlot slot row).Legible := by
  refine ⟨h.formed.withSlot hlt fun r hr => (hrow r hr).1, fun i r hr => ?_⟩
  rw [row?_withSlot hlt] at hr
  split at hr
  · exact .inl (r.isSome_encode.mp (hrow r hr).2)
  · exact h.rows i r hr

theorem edit (h : p.Legible) (e : Edit) : (p.edit e).Legible := by
  rcases p.edit_cases e with heq | ⟨slot, row, hlt, hrow, heq⟩
  · rw [heq]
    exact h
  · rw [heq]
    exact h.withSlot hlt fun r hr => ⟨(hrow r hr).1, (hrow r hr).2.1⟩

theorem edits (h : p.Legible) (es : List Edit) : (p.edits es).Legible := by
  induction es generalizing p with
  | nil => exact h
  | cons e es ih => exact ih (h.edit e)

theorem sound (h : p.Legible) (hu : p.Unflawed) : p.Sound where
  slots := h.formed.slots
  bits := h.formed.bits
  filled := h.formed.filled
  rows i r hr := by
    have hstorable : r.Storable := (h.rows i r hr).resolve_right (hu i r hr)
    exact ⟨h.formed.schema i r hr, hstorable.encode_ne_none⟩

/-- A legible page can be written exactly if none of its rows is flawed. -/
theorem image_iff (h : p.Legible) : (∃ c, p.image = .ok c) ↔ p.Unflawed := by
  constructor
  · rintro ⟨c, hc⟩ i r hr hflaw
    have hstorable := r.isSome_encode.mp (Option.isSome_iff_ne_none.mpr (encode_of_image hc hr))
    exact hflaw.not_storable hstorable
  · intro hu
    exact ⟨p.block, (h.sound hu).image⟩

/-- The first flawed row is what keeps a legible page from being written. -/
theorem image_error (h : p.Legible) {e : StoreError} (he : p.image = .error e) :
    ∃ i r, p.row? i = some r ∧ r.Flawed ∧ e = .unencodable r.display ∧
      ∀ j s, j < i → p.row? j = some s → ¬ s.Flawed := by
  obtain ⟨i, r, hr, hnone, hdisplay, hbefore⟩ := image_eq_error he
  refine ⟨i, r, hr, ?_, hdisplay, fun j s hj hs hflaw => ?_⟩
  · exact (h.rows i r hr).resolve_left fun hstorable => hstorable.encode_ne_none hnone
  · have hencode := Option.isSome_iff_ne_none.mpr (hbefore j s hj hs)
    exact hflaw.not_storable (s.isSome_encode.mp hencode)

end Legible

/-- Changes touch neither the page's number and schema nor its last clean point. -/
theorem beforeImage_edits (p : Page) (es : List Edit) :
    (p.edits es).beforeImage = p.beforeImage := by
  induction es generalizing p with
  | nil => rfl
  | cons e es ih =>
    show ((p.edit e).edits es).beforeImage = _
    rw [ih]
    rcases p.edit_cases e with heq | ⟨slot, row, -, -, heq⟩
    · rw [heq]
    · rw [heq]
      rfl

/-- Reading what was written gives the rows that were read before. -/
theorem row?_reread_ofImage {id : PageId} {schema : Schema} {b : Block} {p : Page}
    (h : ofImage id schema b = .ok p) (i : Nat) : p.reread.row? i = p.row? i := by
  rw [row?_reread]
  cases hr : p.row? i with
  | none => rfl
  | some r =>
    obtain ⟨bytes, row, hrow, rfl⟩ := decode_of_ofImage h hr
    have hsame : (row.storedAt (some (recordOf id i))).reread =
        row.reread.storedAt (some (recordOf id i)) := rfl
    rw [rereadSlot, Option.map_some, hsame, Row.reread_of_decode hrow, id_ofImage h]
    rfl

end Page

end RowStore
