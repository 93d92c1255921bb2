import Mathlib.Data.List.Basic
import RowStore.Pool.PageTable

/-!
  Residency — the page table seen through its lookups.

  `Ordered` says that the load order lists each resident page once, `Paired` that
  the two indexes of the associations are each other's inverse. Under them a table
  is known by `frame?`, which frame a page is in, and by `Has`, which transaction
  is associated with which page; there is one lemma for each operation and lookup.
-/

namespace RowStore

/-! ## Associations -/

namespace MultiMap

variable {κ μ : Type} [Ord κ] [Std.TransOrd κ] [Ord μ] [Std.TransOrd μ]

theorem remove_eq (m : MultiMap κ μ) (k : κ) (x : μ) :
    m.remove k x = if ((m.members k).erase x).isEmpty then m.erase k
      else m.insert k ((m.members k).erase x) := rfl

theorem members_remove_self (m : MultiMap κ μ) (k : κ) (x : μ) :
    (m.remove k x).members k = (m.members k).erase x := by
  rw [remove_eq]
  split
  · rename_i he
    rw [Std.ExtTreeSet.isEmpty_iff] at he
    rw [he]
    simp [members]
  · simp [members]

variable [Std.LawfulEqOrd κ]

theorem members_remove_other (m : MultiMap κ μ) {k j : κ} (hj : j ≠ k) (x : μ) :
    (m.remove k x).members j = m.members j := by
  rw [remove_eq]
  split <;>
    simp [members, Std.ExtTreeMap.getD_erase, Std.ExtTreeMap.getD_insert, Ne.symm hj]

variable [Std.LawfulEqOrd μ]

theorem mem_members_add (m : MultiMap κ μ) (k j : κ) (x y : μ) :
    y ∈ (m.add k x).members j ↔ (j = k ∧ y = x) ∨ y ∈ m.members j := by
  simp only [members, add, Std.ExtTreeMap.getD_insert, Std.compare_eq_iff_eq]
  by_cases hj : k = j
  · subst hj
    simp [Std.ExtTreeSet.mem_insert, @eq_comm _ x y]
  · simp [hj, Ne.symm hj]

theorem mem_members_remove (m : MultiMap κ μ) (k j : κ) (x y : μ) :
    y ∈ (m.remove k x).members j ↔ y ∈ m.members j ∧ ¬ (j = k ∧ y = x) := by
  by_cases hj : j = k
  · subst hj
    rw [members_remove_self]
    simp [Std.ExtTreeSet.mem_erase, and_comm, @eq_comm _ x y]
  · rw [members_remove_other m hj]
    simp [hj]

theorem mem_members_foldl_remove (ks : List κ) (m : MultiMap κ μ) (j : κ) (x y : μ) :
    y ∈ (ks.foldl (fun m k => m.remove k x) m).members j ↔
      y ∈ m.members j ∧ ¬ (j ∈ ks ∧ y = x) := by
  induction ks generalizing m with
  | nil => simp
  | cons k ks ih =>
    rw [List.foldl_cons, ih, mem_members_remove]
    by_cases hj : j = k <;> by_cases hy : y = x <;> simp [hj, hy]

end MultiMap

namespace Relation

/-- Whether a transaction is associated with a page. -/
def Has (r : Relation) (txn : TxnId) (page : PageId) : Prop := page ∈ r.pages.members txn

/-- The two indexes say the same. -/
def Paired (r : Relation) : Prop :=
  ∀ txn page, r.Has txn page ↔ txn ∈ r.txns.members page

theorem has_add (r : Relation) (txn u : TxnId) (page q : PageId) :
    (r.add txn page).Has u q ↔ (u = txn ∧ q = page) ∨ r.Has u q :=
  MultiMap.mem_members_add r.pages txn u page q

theorem has_remove (r : Relation) (txn u : TxnId) (page q : PageId) :
    (r.remove txn page).Has u q ↔ r.Has u q ∧ ¬ (u = txn ∧ q = page) :=
  MultiMap.mem_members_remove r.pages txn u page q

theorem has_removePage {r : Relation} (hp : r.Paired) (page q : PageId) (u : TxnId) :
    (r.removePage page).Has u q ↔ r.Has u q ∧ q ≠ page := by
  have h := MultiMap.mem_members_foldl_remove (r.txns.members page).toList r.pages u page q
  rw [Std.ExtTreeSet.mem_toList, ← hp] at h
  rw [Has, removePage, h]
  apply and_congr_right
  intro hu
  apply not_congr
  constructor
  · intro hq
    exact hq.2
  · intro hq
    exact ⟨hq ▸ hu, hq⟩

theorem has_removeTxn (r : Relation) (txn u : TxnId) (q : PageId) :
    (r.removeTxn txn).Has u q ↔ r.Has u q ∧ u ≠ txn := by
  simp only [Has, removeTxn, MultiMap.members, Std.ExtTreeMap.getD_erase, Std.compare_eq_iff_eq]
  by_cases hu : txn = u
  · simp [hu]
  · simp [hu, Ne.symm hu]

theorem paired_empty : Paired empty := fun txn page => by
  simp [Has, empty, MultiMap.members]

theorem Paired.add {r : Relation} (hp : r.Paired) (txn : TxnId) (page : PageId) :
    (r.add txn page).Paired := fun u q => by
  rw [has_add, Relation.add, MultiMap.mem_members_add, hp u q, and_comm]

theorem Paired.remove {r : Relation} (hp : r.Paired) (txn : TxnId) (page : PageId) :
    (r.remove txn page).Paired := fun u q => by
  rw [has_remove, Relation.remove, MultiMap.mem_members_remove, hp u q, @and_comm (u = txn)]

theorem Paired.removePage {r : Relation} (hp : r.Paired) (page : PageId) :
    (r.removePage page).Paired := fun u q => by
  rw [has_removePage hp, hp u q]
  simp only [Relation.removePage, MultiMap.members, Std.ExtTreeMap.getD_erase,
    Std.compare_eq_iff_eq]
  by_cases hq : page = q
  · simp [hq]
  · simp [hq, Ne.symm hq]

theorem Paired.removeTxn {r : Relation} (hp : r.Paired) (txn : TxnId) :
    (r.removeTxn txn).Paired := fun u q => by
  rw [has_removeTxn, Relation.removeTxn, MultiMap.mem_members_foldl_remove,
    Std.ExtTreeSet.mem_toList, ← hp u q]
  refine and_congr_right fun hu => ⟨fun hn h => hn h.2, fun hn h => hn ⟨?_, h⟩⟩
  exact h ▸ hu

end Relation

/-! ## Resident pages -/

namespace PageTable

/-- The load order lists every resident page once and nothing else. -/
structure Ordered (t : PageTable) : Prop where
  nodup : t.order.Nodup
  mem : ∀ page, page ∈ t.order ↔ t.frame? page ≠ none
  size : t.size = t.order.length

theorem ordered_empty : Ordered empty where
  nodup := List.nodup_nil
  mem page := by simp [empty, frame?]
  size := rfl

section Lookups
variable (t : PageTable) (txn : TxnId) (page q : PageId) (f : FrameNo)

@[simp] theorem frame?_relate : (t.relate txn page).frame? q = t.frame? q := rfl

@[simp] theorem frame?_unrelate : (t.unrelate txn page).frame? q = t.frame? q := rfl

@[simp] theorem frame?_unrelatePage : (t.unrelatePage page).frame? q = t.frame? q := rfl

@[simp] theorem frame?_forgetTxn : (t.forgetTxn txn).frame? q = t.frame? q := rfl

theorem frame?_insert : (t.insert page f).frame? q = if q = page then some f else t.frame? q := by
  simp [frame?, insert, Std.ExtTreeMap.getElem?_insert, @eq_comm _ page q]

theorem contains_iff : t.contains page = true ↔ t.frame? page ≠ none := by
  simp [contains, frame?]

theorem frame?_remove : (t.remove page).frame? q = if q = page then none else t.frame? q := by
  unfold remove
  split
  · simp [frame?, Std.ExtTreeMap.getElem?_erase, @eq_comm _ page q]
  · rename_i h
    split
    · rename_i hq
      subst hq
      simpa [contains, frame?] using h
    · rfl

@[simp] theorem relation_insert : (t.insert page f).relation = t.relation := rfl

@[simp] theorem relation_remove : (t.remove page).relation = t.relation := by
  unfold remove
  split <;> rfl

end Lookups

variable {t : PageTable} {page : PageId} {f : FrameNo}

theorem frame?_of_remove {q : PageId} (h : (t.remove page).frame? q = some f) :
    q ≠ page ∧ t.frame? q = some f := by
  rw [frame?_remove] at h
  split at h
  · simp at h
  · rename_i hq
    exact ⟨hq, h⟩

theorem Ordered.insert (ho : t.Ordered) (page : PageId) (f : FrameNo) :
    (t.insert page f).Ordered where
  nodup := by
    show (if t.contains page then t.order else t.order ++ [page]).Nodup
    split
    · exact ho.nodup
    · rename_i h
      rw [contains_iff, ← ho.mem] at h
      exact List.nodup_append.mpr ⟨ho.nodup, by simp, by simp only [List.mem_singleton]; grind⟩
  mem q := by
    rw [frame?_insert]
    show q ∈ (if t.contains page then t.order else t.order ++ [page]) ↔ _
    by_cases hq : q = page
    · subst hq
      by_cases hc : t.contains q = true
      · have hm := (ho.mem q).mpr ((contains_iff t q).mp hc)
        simp [hc, hm]
      · simp [hc]
    · split <;> simp [hq, ho.mem q]
  size := by
    show (t.frames.insert page f).size = (if t.contains page then t.order else t.order ++ [page]).length
    have hs : t.frames.size = t.order.length := ho.size
    rw [Std.ExtTreeMap.size_insert]
    show (if t.contains page = true then _ else _) = _
    split <;> simp [hs]

theorem Ordered.remove (ho : t.Ordered) (page : PageId) : (t.remove page).Ordered := by
  by_cases hc : t.contains page = true
  · have he : t.remove page =
        { t with order := t.order.filter (· != page), frames := t.frames.erase page } := if_pos hc
    have hm : page ∈ t.order := (ho.mem page).mpr ((contains_iff t page).mp hc)
    refine ⟨?_, ?_, ?_⟩
    · rw [he]
      exact ho.nodup.filter _
    · intro q
      rw [frame?_remove, he]
      show q ∈ t.order.filter (· != page) ↔ _
      rw [List.mem_filter, ho.mem]
      by_cases hq : q = page <;> simp [hq]
    · rw [he]
      show (t.frames.erase page).size = (t.order.filter (· != page)).length
      have hs : t.frames.size = t.order.length := ho.size
      rw [Std.ExtTreeMap.size_erase]
      show (if t.contains page = true then _ else _) = _
      rw [if_pos hc, hs, ← List.length_erase_of_mem hm, ho.nodup.erase_eq_filter]
  · rw [PageTable.remove, if_neg hc]
    exact ho

theorem size_insert (t : PageTable) (page : PageId) (f : FrameNo) :
    (t.insert page f).size = if t.contains page then t.size else t.size + 1 :=
  Std.ExtTreeMap.size_insert

theorem contains_of_none (h : t.frame? page = none) : t.contains page = false := by
  rw [← Bool.not_eq_true, contains_iff, h]
  simp

theorem contains_of_some (h : t.frame? page = some f) : t.contains page = true := by
  rw [contains_iff, h]
  simp

theorem size_remove_lt {g : FrameNo} (h : t.frame? page = some g) : (t.remove page).size < t.size := by
  have hc := contains_of_some h
  have hpos : t.frames.size ≠ 0 := fun h0 => by
    have he : t.frames = ∅ := Std.ExtTreeMap.eq_empty_iff_size_eq_zero.mpr h0
    simp [frame?, he] at h
  have hr : t.remove page =
      { t with order := t.order.filter (· != page), frames := t.frames.erase page } := by
    unfold remove
    exact if_pos hc
  have hs : (t.remove page).size = t.frames.size - 1 := by
    rw [hr]
    exact Std.ExtTreeMap.size_erase.trans (if_pos hc)
  exact hs ▸ Nat.sub_lt (Nat.pos_of_ne_zero hpos) Nat.one_pos

theorem size_remove_le (t : PageTable) (page : PageId) : (t.remove page).size ≤ t.size := by
  cases h : t.frame? page with
  | none =>
    have hr : t.remove page = t := by
      unfold remove
      exact if_neg (by simp [contains_of_none h])
    exact Nat.le_of_eq (congrArg PageTable.size hr)
  | some g => exact Nat.le_of_lt (size_remove_lt h)

/-! ### Lists of resident pages -/

theorem mem_resident (ho : t.Ordered) : (page, f) ∈ t.resident ↔ t.frame? page = some f := by
  simp only [resident, List.mem_filterMap, Option.map_eq_some_iff, Prod.mk.injEq]
  constructor
  · intro hq
    obtain ⟨q, -, g, hg, rfl, rfl⟩ := hq
    exact hg
  · intro h
    exact ⟨page, (ho.mem page).mpr (by simp [h]), f, h, rfl, rfl⟩

theorem pages_resident (ho : t.Ordered) : t.resident.map Prod.fst = t.order := by
  have key : ∀ ps : List PageId, (∀ p ∈ ps, t.frame? p ≠ none) →
      (ps.filterMap fun p => (t.frame? p).map (p, ·)).map Prod.fst = ps := by
    intro ps
    induction ps with
    | nil => intro _; rfl
    | cons p ps ih =>
      intro h
      obtain ⟨g, hg⟩ := Option.ne_none_iff_exists'.mp (h p List.mem_cons_self)
      simp [hg, ih fun q hq => h q (List.mem_cons_of_mem p hq)]
  exact key t.order fun p hp => (ho.mem p).mp hp

theorem length_resident (ho : t.Ordered) : t.resident.length = t.size := by
  rw [ho.size, ← pages_resident ho, List.length_map]

/-- A page that becomes resident is listed last. -/
theorem resident_insert (ho : t.Ordered) (h : t.frame? page = none) (f : FrameNo) :
    (t.insert page f).resident = t.resident ++ [(page, f)] := by
  have hmem : page ∉ t.order := fun hm => (ho.mem page).mp hm h
  have hrest : t.order.filterMap (fun p => ((t.insert page f).frame? p).map (p, ·)) =
      t.resident := by
    refine List.filterMap_congr fun p hp => ?_
    have hne : p ≠ page := fun he => hmem (he ▸ hp)
    rw [frame?_insert, if_neg hne]
  have horder : (t.insert page f).order = t.order ++ [page] :=
    if_neg (by simp [contains_of_none h])
  rw [resident, horder, List.filterMap_append, hrest]
  simp [frame?_insert]

/-- The others keep their places when a page leaves. -/
theorem order_remove (ho : t.Ordered) (page : PageId) :
    (t.remove page).order = t.order.filter (· != page) := by
  unfold remove
  split
  · rfl
  · rename_i hc
    refine (List.filter_eq_self.mpr fun p hp => ?_).symm
    rw [bne_iff_ne]
    rintro rfl
    exact hc ((contains_iff t p).mpr ((ho.mem p).mp hp))

theorem resident_remove (ho : t.Ordered) (page : PageId) :
    (t.remove page).resident = t.resident.filter (·.1 != page) := by
  rw [resident, order_remove ho, List.filterMap_filter, resident, List.filter_filterMap]
  refine List.filterMap_congr fun p _ => ?_
  rw [frame?_remove]
  by_cases hp : p = page <;> cases t.frame? p <;> simp [hp, Option.filter]

theorem mem_dirtiedBy (ho : t.Ordered) {fs : Frames} {txn : TxnId} :
    (page, f) ∈ t.dirtiedBy fs txn ↔
      t.frame? page = some f ∧ (fs.page f).dirtier = some txn := by
  simp [dirtiedBy, mem_resident ho]

theorem mem_dirtyPages (ho : t.Ordered) {fs : Frames} :
    (page, f) ∈ t.dirtyPages fs ↔ t.frame? page = some f ∧ (fs.page f).isDirty = true := by
  simp [dirtyPages, mem_resident ho]

/-- A page is listed once, in whatever part of the resident pages. -/
theorem nodup_sublist_resident (ho : t.Ordered) {pages : List (PageId × FrameNo)}
    (h : pages.Sublist t.resident) : (pages.map Prod.fst).Nodup := by
  apply List.Nodup.sublist (h.map _)
  rw [pages_resident ho]
  exact ho.nodup

theorem nodup_dirtiedBy (ho : t.Ordered) (fs : Frames) (txn : TxnId) :
    ((t.dirtiedBy fs txn).map Prod.fst).Nodup :=
  nodup_sublist_resident ho List.filter_sublist

/-- The victim is the first clean page in load order. -/
theorem victim?_eq_some_iff {fs : Frames} : t.victim? fs = some page ↔
    ∃ before g after, t.resident = before ++ (page, g) :: after ∧
      (∀ x ∈ before, (fs.page x.2).dirtier ≠ none) ∧ (fs.page g).dirtier = none := by
  simp only [victim?, Option.map_eq_some_iff, List.find?_eq_some_iff_append]
  constructor
  · intro h
    obtain ⟨⟨p, g⟩, ⟨hc, before, after, hsplit, hd⟩, rfl⟩ := h
    exact ⟨before, g, after, hsplit, by simpa [Page.isDirty, Option.ne_none_iff_isSome] using hd,
      by simpa [Page.isDirty] using hc⟩
  · intro h
    obtain ⟨before, g, after, hsplit, hd, hc⟩ := h
    exact ⟨(page, g), ⟨by simp [Page.isDirty, hc], before, after, hsplit,
      by simpa [Page.isDirty, Option.ne_none_iff_isSome] using hd⟩, rfl⟩

theorem victim?_eq_none_iff {fs : Frames} :
    t.victim? fs = none ↔ ∀ x ∈ t.resident, (fs.page x.2).dirtier ≠ none := by
  simp [victim?, Page.isDirty, Option.ne_none_iff_isSome]

/-- The victim is resident and clean. -/
theorem of_victim? (ho : t.Ordered) {fs : Frames} (h : t.victim? fs = some page) :
    ∃ g, t.frame? page = some g ∧ (fs.page g).dirtier = none := by
  obtain ⟨⟨q, g⟩, hg, rfl⟩ := Option.map_eq_some_iff.mp h
  have hd := List.find?_some hg
  refine ⟨g, (mem_resident ho).mp (List.mem_of_find?_eq_some hg), ?_⟩
  simpa [Page.isDirty] using hd

end PageTable

end RowStore
