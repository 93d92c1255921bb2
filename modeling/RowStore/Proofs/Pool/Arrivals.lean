import Mathlib.Data.List.Forall2
import RowStore.Proofs.Pool.Residency
import RowStore.Proofs.Since

/-!
  Arrivals — a page table against the history of its changes.

  A page arrives with an insertion that finds it absent, and leaves when it is removed; an
  association begins and ends likewise. Main statement: after any changes the load order lists
  the resident pages by when they arrived, the two indexes of the associations are each other's
  inverse and have no empty entry, and what is listed as dirty, or chosen as the victim, is
  just what the load order and the dirty markers say (`changes_represent`).
-/

namespace RowStore

/-! ## Entries that are not empty -/

namespace MultiMap

variable {κ μ : Type} [Ord κ] [Std.TransOrd κ] [Ord μ] {m : MultiMap κ μ}

/-- No key has an empty set of members. -/
def Full (m : MultiMap κ μ) : Prop := ∀ (k : κ) (s : Std.ExtTreeSet μ), m[k]? = some s → s ≠ ∅

theorem full_empty : Full (∅ : MultiMap κ μ) := fun k s h => by simp at h

theorem Full.insert (h : m.Full) {k : κ} {s : Std.ExtTreeSet μ} (hs : s ≠ ∅) :
    Full (Std.ExtTreeMap.insert m k s) := by
  intro j t ht
  rw [Std.ExtTreeMap.getElem?_insert] at ht
  split at ht
  · rw [← Option.some.inj ht]
    exact hs
  · exact h j t ht

theorem Full.erase (h : m.Full) (k : κ) : Full (Std.ExtTreeMap.erase m k) := by
  intro j t ht
  rw [Std.ExtTreeMap.getElem?_erase] at ht
  split at ht
  · simp at ht
  · exact h j t ht

variable [Std.TransOrd μ]

theorem Full.add (h : m.Full) (k : κ) (x : μ) : (m.add k x).Full := by
  refine h.insert fun he => ?_
  have hmem : x ∈ (m.members k).insert x := Std.ExtTreeSet.mem_insert_self
  rw [he] at hmem
  exact Std.ExtTreeSet.not_mem_empty hmem

theorem Full.remove (h : m.Full) (k : κ) (x : μ) : (m.remove k x).Full := by
  rw [remove_eq]
  split
  · exact h.erase k
  · rename_i hne
    rw [Std.ExtTreeSet.isEmpty_iff] at hne
    exact h.insert hne

theorem Full.foldl_remove (h : m.Full) (ks : List κ) (x : μ) :
    Full (ks.foldl (fun m k => m.remove k x) m) := by
  induction ks generalizing m with
  | nil => exact h
  | cons k ks ih => exact ih (h.remove k x)

end MultiMap

namespace Relation

/-- Neither index has an empty entry. -/
structure Full (r : Relation) : Prop where
  pages : r.pages.Full
  txns : r.txns.Full

theorem full_empty : Full empty := ⟨MultiMap.full_empty, MultiMap.full_empty⟩

section Full
variable {r : Relation} (h : r.Full) (txn : TxnId) (page : PageId)
include h

theorem Full.add : (r.add txn page).Full := ⟨h.pages.add txn page, h.txns.add page txn⟩

theorem Full.remove : (r.remove txn page).Full := ⟨h.pages.remove txn page, h.txns.remove page txn⟩

theorem Full.removePage : (r.removePage page).Full :=
  ⟨h.pages.foldl_remove _ page, h.txns.erase page⟩

theorem Full.removeTxn : (r.removeTxn txn).Full :=
  ⟨h.pages.erase txn, h.txns.foldl_remove _ txn⟩

end Full

end Relation

namespace PageTable

/-! ## Changes -/

/-- A change of a page table. -/
inductive Change where
  | insert (page : PageId) (frame : FrameNo)
  | remove (page : PageId)
  | relate (txn : TxnId) (page : PageId)
  | unrelate (txn : TxnId) (page : PageId)
  | unrelatePage (page : PageId)
  | forgetTxn (txn : TxnId)
  deriving DecidableEq

def change (t : PageTable) : Change → PageTable
  | .insert page frame => t.insert page frame
  | .remove page => t.remove page
  | .relate txn page => t.relate txn page
  | .unrelate txn page => t.unrelate txn page
  | .unrelatePage page => t.unrelatePage page
  | .forgetTxn txn => t.forgetTxn txn

/-- The page table after changes in turn. -/
def changes (cs : List Change) : PageTable := cs.foldl change .empty

namespace Change

def Inserts (page : PageId) (c : Change) : Prop := ∃ f, c = .insert page f

def Removes (page : PageId) (c : Change) : Prop := c = .remove page

def Relates (txn : TxnId) (page : PageId) (c : Change) : Prop := c = .relate txn page

def Unrelates (txn : TxnId) (page : PageId) (c : Change) : Prop :=
  c = .unrelate txn page ∨ c = .unrelatePage page ∨ c = .forgetTxn txn

end Change

/-- After these changes a page has been inserted, and not removed since. -/
def Stays (page : PageId) (cs : List Change) : Prop :=
  Since (Change.Inserts page) (Change.Removes page) cs

/-- A page arrived with the change of that number: it was inserted when it did not stay, and
not removed since. -/
def Arrived (cs : List Change) (page : PageId) (time : Nat) : Prop :=
  ∃ past c later, cs = past ++ c :: later ∧ past.length = time ∧ c.Inserts page ∧
    ¬ Stays page past ∧ ∀ d ∈ later, ¬ d.Removes page

/-- The pages arrived at ascending times. -/
def ByArrival (cs : List Change) (pages : List PageId) : Prop :=
  ∃ times, times.Pairwise (· < ·) ∧ List.Forall₂ (Arrived cs) pages times

/-- The transaction that made a resident page dirty. -/
def marker (t : PageTable) (fs : Frames) (page : PageId) : Option TxnId :=
  (t.frame? page).bind fun f => (fs.page f).dirtier

/-- A page table is what its changes make it. -/
structure Represents (cs : List Change) (t : PageTable) : Prop where
  /-- Each resident page is listed once, and nothing else. -/
  nodup : t.order.Nodup
  size : t.size = t.order.length
  resident : ∀ page, page ∈ t.order ↔ t.frame? page ≠ none
  stays : ∀ page, page ∈ t.order ↔ Stays page cs
  arrivals : ByArrival cs t.order
  /-- A resident page is in the frame inserted last. -/
  frame : ∀ page f, t.frame? page = some f ↔
    Since (· = .insert page f) (fun c => c.Inserts page ∨ c.Removes page) cs
  /-- The two indexes are each other's inverse, without empty entries. -/
  inverse : ∀ txn page, page ∈ t.relation.pages.members txn ↔ txn ∈ t.relation.txns.members page
  full : t.relation.Full
  related : ∀ txn page, t.relation.Has txn page ↔
    Since (Change.Relates txn page) (Change.Unrelates txn page) cs

/-- Dirty pages and the victim are found by the load order and the dirty markers. -/
structure Finds (t : PageTable) (fs : Frames) : Prop where
  dirtyPages : (t.dirtyPages fs).map Prod.fst = t.order.filter fun page => (t.marker fs page).isSome
  dirtiedBy : ∀ txn, (t.dirtiedBy fs txn).map Prod.fst =
    t.order.filter fun page => t.marker fs page == some txn
  frames : ∀ page f, (page, f) ∈ t.dirtyPages fs ∨ (∃ txn, (page, f) ∈ t.dirtiedBy fs txn) →
    t.frame? page = some f
  victim : t.victim? fs = t.order.find? fun page => (t.marker fs page).isNone
  no_victim : t.victim? fs = none ↔ ∀ page ∈ t.order, t.marker fs page ≠ none

/-! ## One change -/

section Change
variable {t : PageTable} {page : PageId} {txn : TxnId} {f : FrameNo} {c : Change}

theorem Ordered.change (h : t.Ordered) (c : Change) : (t.change c).Ordered := by
  cases c with
  | insert page f => exact h.insert page f
  | remove page => exact h.remove page
  | _ => exact ⟨h.nodup, h.mem, h.size⟩

theorem frame?_change : (t.change c).frame? page = some f ↔
    c = .insert page f ∨ t.frame? page = some f ∧ ¬ (c.Inserts page ∨ c.Removes page) := by
  cases c with
  | insert q g =>
    simp only [change, frame?_insert, Change.Inserts, Change.Removes]
    by_cases hq : page = q <;> simp [hq, eq_comm]
  | remove q =>
    simp only [change, frame?_remove, Change.Inserts, Change.Removes]
    by_cases hq : page = q <;> simp [hq, eq_comm]
  | _ => simp [change, Change.Inserts, Change.Removes]

theorem Ordered.mem_change (h : t.Ordered) :
    page ∈ (t.change c).order ↔ c.Inserts page ∨ page ∈ t.order ∧ ¬ c.Removes page := by
  rw [(h.change c).mem, h.mem, Option.ne_none_iff_exists', Option.ne_none_iff_exists']
  simp only [frame?_change, exists_or, exists_and_right]
  show c.Inserts page ∨ _ ↔ _
  tauto

theorem has_change (h : t.relation.Paired) : (t.change c).relation.Has txn page ↔
    c.Relates txn page ∨ t.relation.Has txn page ∧ ¬ c.Unrelates txn page := by
  cases c with
  | insert => simp [change, Change.Relates, Change.Unrelates]
  | remove => simp [change, Change.Relates, Change.Unrelates]
  | relate u q =>
    simp [change, relate, Relation.has_add, Change.Relates, Change.Unrelates, eq_comm]
  | unrelate u q =>
    simp [change, unrelate, Relation.has_remove, Change.Relates, Change.Unrelates, eq_comm]
  | unrelatePage q =>
    simp [change, unrelatePage, Relation.has_removePage h, Change.Relates, Change.Unrelates,
      eq_comm]
  | forgetTxn u =>
    simp [change, forgetTxn, Relation.has_removeTxn, Change.Relates, Change.Unrelates, eq_comm]

end Change

/-! ## Arrivals -/

section Arrivals
variable {cs : List Change} {c : Change} {page : PageId} {time : Nat} {t : PageTable}

theorem Arrived.lt (h : Arrived cs page time) : time < cs.length := by
  obtain ⟨past, d, later, rfl, rfl, -⟩ := h
  simp

/-- A page that is not removed arrived when it did. -/
theorem Arrived.concat (h : Arrived cs page time) (hc : ¬ c.Removes page) :
    Arrived (cs ++ [c]) page time := by
  obtain ⟨past, d, later, rfl, htime, hd, hpast, hlater⟩ := h
  refine ⟨past, d, later ++ [c], by simp, htime, hd, hpast, ?_⟩
  rw [List.forall_mem_append, List.forall_mem_singleton]
  exact ⟨hlater, hc⟩

theorem arrived_insert (hc : c.Inserts page) (h : ¬ Stays page cs) :
    Arrived (cs ++ [c]) page cs.length :=
  ⟨cs, c, [], rfl, rfl, hc, h, by simp⟩

theorem Arrived.times_lt {pages : List PageId} {times : List Nat}
    (h : List.Forall₂ (Arrived cs) pages times) : ∀ time ∈ times, time < cs.length := by
  induction h with
  | nil => simp
  | cons harrived _ ih => exact List.forall_mem_cons.mpr ⟨harrived.lt, ih⟩

/-- The times of some of the pages are some of the times. -/
theorem exists_forall₂_filter {α β : Type} {R : α → β → Prop} {xs : List α} {ys : List β}
    (h : List.Forall₂ R xs ys) (p : α → Bool) :
    ∃ zs, zs.Sublist ys ∧ List.Forall₂ (fun x z => R x z ∧ p x = true) (xs.filter p) zs := by
  induction h with
  | nil => exact ⟨[], .slnil, .nil⟩
  | @cons x y xs ys hxy _ ih =>
    obtain ⟨zs, hzs, hall⟩ := ih
    by_cases hp : p x = true
    · rw [List.filter_cons_of_pos hp]
      exact ⟨y :: zs, hzs.cons_cons y, .cons ⟨hxy, hp⟩ hall⟩
    · rw [List.filter_cons_of_neg hp]
      exact ⟨zs, hzs.cons y, hall⟩

theorem ByArrival.kept {pages : List PageId} (h : ByArrival cs pages)
    (hc : ∀ page, ¬ c.Removes page) : ByArrival (cs ++ [c]) pages := by
  obtain ⟨times, hsorted, harrived⟩ := h
  exact ⟨times, hsorted, harrived.imp fun page _ hpage => hpage.concat (hc page)⟩

/-- A page that arrives is listed last. -/
theorem ByArrival.insert {pages : List PageId} (h : ByArrival cs pages) (hc : c.Inserts page)
    (hs : ¬ Stays page cs) : ByArrival (cs ++ [c]) (pages ++ [page]) := by
  obtain ⟨f, rfl⟩ := hc
  obtain ⟨times, hsorted, harrived⟩ := h
  refine ⟨times ++ [cs.length], ?_, List.rel_append ?_ (.cons (arrived_insert ⟨f, rfl⟩ hs) .nil)⟩
  · rw [List.pairwise_append]
    refine ⟨hsorted, List.pairwise_singleton _ _, fun x hx y hy => ?_⟩
    rw [List.mem_singleton.mp hy]
    exact Arrived.times_lt harrived x hx
  · exact harrived.imp fun q _ hq => hq.concat (by simp [Change.Removes])

theorem ByArrival.remove {pages : List PageId} (h : ByArrival cs pages) (page : PageId) :
    ByArrival (cs ++ [.remove page]) (pages.filter (· != page)) := by
  obtain ⟨times, hsorted, harrived⟩ := h
  obtain ⟨rest, hrest, hall⟩ := exists_forall₂_filter harrived (· != page)
  refine ⟨rest, hsorted.sublist hrest, hall.imp fun q _ ⟨hq, hne⟩ => hq.concat fun he => ?_⟩
  rw [bne_iff_ne] at hne
  exact hne (Change.remove.inj he).symm

theorem ByArrival.change (ho : t.Ordered) (hs : ∀ page, page ∈ t.order ↔ Stays page cs)
    (h : ByArrival cs t.order) (c : Change) : ByArrival (cs ++ [c]) (t.change c).order := by
  cases c with
  | insert page f =>
    show ByArrival _ (if t.contains page then t.order else t.order ++ [page])
    split
    · exact h.kept fun q => by simp [Change.Removes]
    · rename_i hc
      rw [contains_iff, ← ho.mem, hs] at hc
      exact h.insert ⟨f, rfl⟩ hc
  | remove page =>
    show ByArrival _ (t.remove page).order
    rw [order_remove ho]
    exact h.remove page
  | _ => exact h.kept fun q => by simp [Change.Removes]

end Arrivals

/-! ## Any changes -/

section Changes

theorem changes_concat (cs : List Change) (c : Change) :
    changes (cs ++ [c]) = (changes cs).change c := by
  simp [changes]

/-- What every change keeps of a table, all changes keep. -/
theorem changes_induct {P : PageTable → Prop} (hempty : P empty)
    (hchange : ∀ t c, P t → P (t.change c)) (cs : List Change) : P (changes cs) := by
  induction cs using List.reverseRecOn with
  | nil => exact hempty
  | append_singleton cs c ih =>
    rw [changes_concat]
    exact hchange _ c ih

theorem ordered_changes (cs : List Change) : (changes cs).Ordered :=
  changes_induct ordered_empty (fun _ c h => h.change c) cs

/-- What every operation keeps of a relation, all changes keep of the associations. -/
theorem relation_changes {P : Relation → Prop} (hempty : P .empty)
    (hadd : ∀ {r} txn page, P r → P (r.add txn page))
    (hremove : ∀ {r} txn page, P r → P (r.remove txn page))
    (hremovePage : ∀ {r} page, P r → P (r.removePage page))
    (hremoveTxn : ∀ {r} txn, P r → P (r.removeTxn txn)) (cs : List Change) :
    P (changes cs).relation := by
  refine changes_induct (P := fun t => P t.relation) hempty (fun t c h => ?_) cs
  cases c with
  | insert => exact h
  | remove page => exact (relation_remove t page).symm ▸ h
  | relate txn page => exact hadd txn page h
  | unrelate txn page => exact hremove txn page h
  | unrelatePage page => exact hremovePage page h
  | forgetTxn txn => exact hremoveTxn txn h

theorem paired_changes (cs : List Change) : (changes cs).relation.Paired :=
  relation_changes Relation.paired_empty (fun txn page h => h.add txn page)
    (fun txn page h => h.remove txn page) (fun page h => h.removePage page)
    (fun txn h => h.removeTxn txn) cs

theorem full_changes (cs : List Change) : (changes cs).relation.Full :=
  relation_changes Relation.full_empty (fun txn page h => h.add txn page)
    (fun txn page h => h.remove txn page) (fun page h => h.removePage page)
    (fun txn h => h.removeTxn txn) cs

theorem mem_order_changes (cs : List Change) (page : PageId) :
    page ∈ (changes cs).order ↔ Stays page cs := by
  refine since_iff (P := fun cs => page ∈ (changes cs).order) ?_ (fun cs c => ?_) cs
  · simp [changes, empty]
  · rw [changes_concat, (ordered_changes cs).mem_change]

theorem frame?_changes (cs : List Change) (page : PageId) (f : FrameNo) :
    (changes cs).frame? page = some f ↔
      Since (· = .insert page f) (fun c => c.Inserts page ∨ c.Removes page) cs := by
  refine since_iff (P := fun cs => (changes cs).frame? page = some f) ?_ (fun cs c => ?_) cs
  · simp [changes, empty, frame?]
  · rw [changes_concat, frame?_change]

theorem has_changes (cs : List Change) (txn : TxnId) (page : PageId) :
    (changes cs).relation.Has txn page ↔
      Since (Change.Relates txn page) (Change.Unrelates txn page) cs := by
  refine since_iff (P := fun cs => (changes cs).relation.Has txn page) ?_ (fun cs c => ?_) cs
  · simp [changes, empty, Relation.Has, Relation.empty, MultiMap.members]
  · rw [changes_concat, has_change (paired_changes cs)]

theorem byArrival_changes (cs : List Change) : ByArrival cs (changes cs).order := by
  induction cs using List.reverseRecOn with
  | nil => exact ⟨[], .nil, .nil⟩
  | append_singleton cs c ih =>
    rw [changes_concat]
    exact ih.change (ordered_changes cs) (mem_order_changes cs) c

theorem represents_changes (cs : List Change) : (changes cs).Represents cs where
  nodup := (ordered_changes cs).nodup
  size := (ordered_changes cs).size
  resident := (ordered_changes cs).mem
  stays := mem_order_changes cs
  arrivals := byArrival_changes cs
  frame := frame?_changes cs
  inverse := paired_changes cs
  full := full_changes cs
  related := has_changes cs

end Changes

/-! ## Dirty pages -/

section Finds
variable {t : PageTable} {fs : Frames}

/-- To select resident pages by their frames is to select pages of the load order. -/
theorem pages_filter (ho : t.Ordered) {p : PageId × FrameNo → Bool} {q : PageId → Bool}
    (h : ∀ page f, t.frame? page = some f → p (page, f) = q page) :
    (t.resident.filter p).map Prod.fst = t.order.filter q := by
  rw [← pages_resident ho, List.filter_map]
  congr 1
  exact List.filter_congr fun x hx => h x.1 x.2 ((mem_resident ho).mp hx)

theorem Ordered.finds (ho : t.Ordered) (fs : Frames) : t.Finds fs where
  dirtyPages := pages_filter ho fun page f hf => by simp [marker, hf, Page.isDirty]
  dirtiedBy txn := pages_filter ho fun page f hf => by simp [marker, hf]
  frames page f h := by
    rcases h with h | ⟨txn, h⟩
    · exact ((mem_dirtyPages ho).mp h).1
    · exact ((mem_dirtiedBy ho).mp h).1
  victim := by
    have hclean := pages_filter ho (p := fun x => !(fs.page x.2).isDirty)
      (q := fun page => (t.marker fs page).isNone) fun page f hf => by
        simp [marker, hf, Page.isDirty]
    rw [victim?, ← List.head?_filter, ← List.head?_map, hclean, List.head?_filter]
  no_victim := by
    rw [victim?_eq_none_iff]
    constructor
    · intro h page hpage
      obtain ⟨f, hf⟩ := Option.ne_none_iff_exists'.mp ((ho.mem page).mp hpage)
      rw [marker, hf]
      exact h (page, f) ((mem_resident ho).mpr hf)
    · intro h x hx
      have hf := (mem_resident ho).mp hx
      have hmarked := h x.1 ((ho.mem x.1).mpr (by simp [hf]))
      rwa [marker, hf] at hmarked

end Finds

/-- After any changes, whatever the frames hold, the load order has each resident page once, by
when it arrived, and a resident page is in the frame inserted last. A transaction is associated
with a page if it was related to it and not separated since; the two indexes say the same and
have no empty entry. The dirty pages, those of one transaction, and the victim, which is
missing only if all pages are dirty, are found by going through the load order. -/
theorem changes_represent (cs : List Change) :
    (changes cs).Represents cs ∧ ∀ fs, (changes cs).Finds fs :=
  ⟨represents_changes cs, (ordered_changes cs).finds⟩

/-- A page in another frame keeps its place, one that comes back goes to the end. -/
example : (changes [.insert ⟨1, 0⟩ 0, .insert ⟨1, 1⟩ 1, .insert ⟨1, 2⟩ 2, .insert ⟨1, 1⟩ 3,
    .remove ⟨1, 0⟩, .insert ⟨1, 0⟩ 4]).order = [⟨1, 1⟩, ⟨1, 2⟩, ⟨1, 0⟩] := by decide +kernel

end PageTable

end RowStore
