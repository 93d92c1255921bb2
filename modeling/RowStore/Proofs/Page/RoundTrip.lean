import RowStore.Proofs.Page.Rereading

/-!
  Round trip — a page made by insertions and deletions comes back from its image.

  Every edit of an empty page keeps it sound and its rows labelled with their slots
  (`Made.edits`), and a sound page is read from its image with every row reread. Main
  statement: such a page has an image of exactly its size, which is read as a page with
  the same used slots, in each of them the row that is stored there, and with the same
  image again (`empty_edits_roundTrip`). What tells a sound labelled page from the one
  that its image is read as is stated in full by `Sound.givesBack_reread`.
-/

namespace RowStore

namespace Page

/-! ## Edits -/

/-- A change to the rows of a page. -/
inductive Edit where
  | insert (r : Row)
  | delete (r : Row)

/-- The page after a change. One that is refused leaves it as it was. -/
def edit (p : Page) : Edit → Page
  | .insert r =>
    match p.insert r with
    | .ok (_, q) => q
    | .error _ => p
  | .delete r =>
    match p.delete r with
    | .ok q => q
    | .error _ => p

/-- The page after changes in turn. -/
def edits (p : Page) (es : List Edit) : Page := es.foldl edit p

/-- A change leaves the page as it was, or it fills a slot with a row of the schema that can
be encoded and is labelled with the slot, or frees one. -/
theorem edit_cases (p : Page) (e : Edit) : p.edit e = p ∨ ∃ slot row, slot < p.slotCount ∧
    (∀ r, row = some r → r.schema = p.schema ∧ r.encode.isSome = true ∧
      r.record = some (recordOf p.id slot)) ∧ p.edit e = p.withSlot slot row := by
  cases e with
  | insert r =>
    unfold Page.edit
    simp only
    split
    · rename_i hi
      obtain ⟨slot, hfree, hschema, hencode, rfl, rfl⟩ := insert_withSlot hi
      refine .inr ⟨slot, _, (firstFree?_eq_some_iff.mp hfree).1, fun r' hr' => ?_, rfl⟩
      obtain rfl := Option.some.inj hr'
      exact ⟨hschema, hencode, rfl⟩
    · exact .inl rfl
  | delete r =>
    unfold Page.edit
    simp only
    split
    · rename_i hd
      obtain ⟨record, -, hlt, -, rfl⟩ := delete_withSlot hd
      exact .inr ⟨_, none, hlt, by simp, rfl⟩
    · exact .inl rfl

/-- A sound page whose rows are labelled with their slots. -/
structure Made (id : PageId) (schema : Schema) (size : Nat) (p : Page) : Prop where
  sound : p.Sound
  id_eq : p.id = id
  schema_eq : p.schema = schema
  size_eq : p.size = size
  labelled : ∀ i r, p.row? i = some r → r.record = some (recordOf id i)

variable {id : PageId} {schema : Schema} {size : Nat} {p : Page}

theorem made_empty (h : Page.empty id schema size = .ok p) : p.Made id schema size := by
  unfold Page.empty at h
  cases hs : slotsFor id schema size with
  | error e =>
    rw [hs] at h
    simp [bind, Except.bind] at h
  | ok slots =>
    have hread := (sound_vacant hs).ofImage_block
    rw [block_vacant] at hread
    rw [hs] at h
    obtain rfl : (vacant id schema size slots).reread = p := Except.ok.inj (hread.symm.trans h)
    refine ⟨(sound_vacant hs).reread, rfl, rfl, rfl, ?_⟩
    intro i r hr
    rw [row?_reread] at hr
    obtain ⟨row, -, rfl⟩ := Option.map_eq_some_iff.mp hr
    rfl

theorem Made.labels (h : p.Made id schema size) : p.Labelled := by
  intro i r hr
  rw [h.id_eq]
  exact h.labelled i r hr

theorem Made.withSlot (h : p.Made id schema size) {slot : Nat} (hlt : slot < p.slotCount)
    {row : Option Row} (hrow : ∀ r, row = some r → r.schema = p.schema ∧
      r.encode.isSome = true ∧ r.record = some (recordOf p.id slot)) :
    (p.withSlot slot row).Made id schema size := by
  refine ⟨h.sound.withSlot hlt fun r hr => ⟨(hrow r hr).1, (hrow r hr).2.1⟩, h.id_eq,
    h.schema_eq, h.size_eq, ?_⟩
  have hlabelled := h.labels.withSlot hlt fun r hr => (hrow r hr).2.2
  rw [← h.id_eq]
  exact hlabelled

theorem Made.edit (h : p.Made id schema size) (e : Edit) : (p.edit e).Made id schema size := by
  rcases p.edit_cases e with heq | ⟨slot, row, hlt, hrow, heq⟩
  · rw [heq]
    exact h
  · rw [heq]
    exact h.withSlot hlt hrow

theorem Made.edits (h : p.Made id schema size) (es : List Edit) :
    (p.edits es).Made id schema size := by
  induction es generalizing p with
  | nil => exact h
  | cons e es ih => exact ih (h.edit e)

/-! ## Labelled pages -/

theorem Labelled.slots_reread (h : p.Labelled) :
    p.reread.slots = p.slots.map (Option.map Row.reread) := by
  apply Array.ext_getElem?
  intro i
  show (p.slots.mapIdx (rereadSlot p.id))[i]? = _
  rw [Array.getElem?_mapIdx, Array.getElem?_map]
  cases hcell : p.slots[i]? with
  | none => rfl
  | some cell =>
    cases cell with
    | none => rfl
    | some r =>
      have hr : p.row? i = some r := by
        rw [row?, hcell]
        rfl
      have hback := h.row?_reread hr
      rw [Page.row?_reread, hr] at hback
      exact congrArg some hback

/-- The rows of a labelled page come back in their order. -/
theorem Labelled.rows_reread (h : p.Labelled) : p.reread.rows = p.rows.map Row.reread := by
  rw [rows, rows, h.slots_reread, Array.toList_map, List.filterMap_map, List.map_filterMap]
  rfl

/-- A page that is read from the image of another: of the same number and image, with the
same used slots, and in each of them the row given back. Only a row with an integer in a
bigint field is not given back as it was. -/
structure GivesBack (p q : Page) : Prop where
  id : q.id = p.id
  image : q.image = p.image
  used : ∀ i, q.isUsed i = p.isUsed i
  free : ∀ i, p.row? i = none → q.row? i = none
  rows : ∀ i r, p.row? i = some r →
    ∃ w, q.row? i = some w ∧ r.GivesBack w ∧ (w = r ↔ ¬ r.Narrow)
  shown : q.rows = p.rows ↔ ∀ r ∈ p.rows, ¬ r.Narrow

theorem Sound.givesBack_reread (h : p.Sound) (hl : p.Labelled) : p.GivesBack p.reread where
  id := rfl
  image := h.image_reread.trans h.image.symm
  used := isUsed_reread p
  free i hr := by
    rw [row?_reread, hr]
    rfl
  rows i r hr := ⟨r.reread, hl.row?_reread hr, r.givesBack_reread, Row.reread_eq_self_iff⟩
  shown := by
    calc p.reread.rows = p.rows
        ↔ p.rows.map Row.reread = p.rows.map fun r => r := by rw [hl.rows_reread, List.map_id']
      _ ↔ ∀ r ∈ p.rows, r.reread = r := List.map_inj_left
      _ ↔ ∀ r ∈ p.rows, ¬ r.Narrow := forall₂_congr fun r _ => Row.reread_eq_self_iff

/-! ## Round trip -/

/-- A page made from an empty one by insertions and deletions has an image of exactly its
size. The image is read as a page with the same used slots and in each of them the row
that is stored there, and that page has the same image. -/
theorem empty_edits_roundTrip (h : Page.empty id schema size = .ok p) (es : List Edit) :
    ∃ b, (p.edits es).image = .ok b ∧ b.toBytes.length = size ∧
      ∃ q, ofImage id schema (Block.ofBytes b.toBytes.length b.toBytes) = .ok q ∧
        q.slotCount = (p.edits es).slotCount ∧
        (∀ i, q.isUsed i = (p.edits es).isUsed i) ∧
        (∀ i, (p.edits es).isUsed i = true → ∃ r s, (p.edits es).row? i = some r ∧
          q.row? i = some s ∧ r.schema = schema ∧ r.record = some (recordOf id i) ∧
          r.GivesBack s) ∧
        (∀ i, (p.edits es).isUsed i = false → q.row? i = none) ∧
        ∃ c, q.image = .ok c ∧ c.toBytes = b.toBytes := by
  have hmade := (made_empty h).edits es
  have hsound := hmade.sound
  generalize p.edits es = p at hmade hsound
  have hfilled (i : Nat) : p.isUsed i = (p.row? i).isSome := by
    by_cases hi : i < p.slotCount
    · exact hsound.filled i hi
    · rw [row?_of_ge (Nat.le_of_not_lt hi), isUsed, decide_eq_false hi]
      rfl
  have hsize : p.block.toBytes.length = size := by
    rw [Block.length_toBytes]
    exact hmade.size_eq
  have hread := hsound.ofImage_block
  rw [hmade.id_eq, hmade.schema_eq, ← p.block.ofBytes_toBytes, ← Block.length_toBytes] at hread
  refine ⟨p.block, hsound.image, hsize, p.reread, hread, slotCount_reread p, isUsed_reread p,
    ?_, ?_, p.block, hsound.image_reread, rfl⟩
  · intro i hi
    rw [hfilled i] at hi
    obtain ⟨r, hr⟩ := Option.isSome_iff_exists.mp hi
    have hschema := (hsound.rows i r hr).1.trans hmade.schema_eq
    exact ⟨r, r.reread, hr, hmade.labels.row?_reread hr, hschema, hmade.labelled i r hr,
      r.givesBack_reread⟩
  · intro i hi
    rw [hfilled i] at hi
    rw [Page.row?_reread, Option.isNone_iff_eq_none.mp (Option.isSome_eq_false_iff.mp hi)]
    rfl

/-- Rows of a number, a short text and a double. -/
def mixed : Schema :=
  ⟨[⟨"n", .bigint, false⟩, ⟨"s", .text 3, true⟩, ⟨"x", .double, true⟩]⟩

/-- Fills both slots of a page of 64 bytes, has a third row refused, frees the lower slot
and fills it again. -/
def mixedEdits : List Edit :=
  [.insert ⟨mixed, [.bigint 7, .null, .double ⟨0x7ff8000000000001⟩], none, rfl⟩,
    .insert ⟨mixed, [.integer (-5), .text "é", .null], none, rfl⟩,
    .insert ⟨mixed, [.integer 3, .null, .null], none, rfl⟩,
    .delete ⟨mixed, [.null, .null, .null], some (recordOf ⟨1, 0⟩ 0), rfl⟩,
    .insert ⟨mixed, [.integer 3, .text "abc", .null], none, rfl⟩]

theorem empty_edits_roundTrip_mixed :
    Page.empty ⟨1, 0⟩ mixed 64 = .ok (vacant ⟨1, 0⟩ mixed 64 2) ∧
      ∃ b q s, ((vacant ⟨1, 0⟩ mixed 64 2).edits mixedEdits).image = .ok b ∧
        b.toBytes.length = 64 ∧ ofImage ⟨1, 0⟩ mixed (Block.ofBytes 64 b.toBytes) = .ok q ∧
        q.row? 1 = some s ∧ s.record = some ⟨⟨1, 0⟩, 1⟩ ∧
        ∃ w, s.value? 0 = some w ∧ Value.GivesBack .bigint (.integer (-5)) w := by
  have hempty : Page.empty ⟨1, 0⟩ mixed 64 = .ok (vacant ⟨1, 0⟩ mixed 64 2) := by rfl
  obtain ⟨b, hb, hlen, q, hq, -, -, hrows, -, -⟩ := empty_edits_roundTrip hempty mixedEdits
  have hused : ((vacant ⟨1, 0⟩ mixed 64 2).edits mixedEdits).isUsed 1 = true := by decide +kernel
  obtain ⟨r, s, hr, hs, hschema, hrecord, hback⟩ := hrows 1 hused
  obtain ⟨v, w, hv, hw, hvw⟩ := hback.values 0 ⟨"n", .bigint, false⟩ (by rw [hschema]; rfl)
  refine ⟨hempty, b, q, s, hb, hlen, hlen ▸ hq, hs, ?_, w, hw, ?_⟩
  · rw [hback.record, hrecord]
    rfl
  · have hrow : (((vacant ⟨1, 0⟩ mixed 64 2).edits mixedEdits).row? 1).bind (·.value? 0) =
        some (.integer (-5)) := by decide +kernel
    rw [hr] at hrow
    obtain rfl := Option.some.inj (hv.symm.trans hrow)
    exact hvw

end Page

end RowStore
