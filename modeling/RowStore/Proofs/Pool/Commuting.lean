import RowStore.Lock.Alone
import RowStore.Proofs.Lock.Modes
import RowStore.Proofs.Pool.Residency

/-!
  Commuting — what two transactions take away, in either order.

  A page that leaves the pool, the associations of a transaction and its locks are taken from
  structures that all transactions share. Whichever comes first, what is left is the same
  value, from any state: what one transaction takes away is not what the other goes through
  (`members_removeTxn_other`, `pagesOf_releaseAll`). Main statements: `PageTable.remove_comm`,
  `Relation.removeTxn_comm` and `LockManager.releaseAll_comm`.
-/

namespace RowStore

/-- Two loops change places, up to a relation that their steps respect, if their steps do. -/
theorem foldl_foldl_comm {σ α β : Type} {R : σ → σ → Prop} (hrefl : ∀ s, R s s)
    (htrans : ∀ {s u v}, R s u → R u v → R s v) {f : σ → α → σ} {g : σ → β → σ}
    (hf : ∀ {s u} a, R s u → R (f s a) (f u a)) (hg : ∀ {s u} b, R s u → R (g s b) (g u b))
    {as : List α} {bs : List β} (h : ∀ a ∈ as, ∀ b ∈ bs, ∀ s, R (g (f s a) b) (f (g s b) a))
    (s : σ) : R (bs.foldl g (as.foldl f s)) (as.foldl f (bs.foldl g s)) := by
  -- one step of the first loop passes all of the second
  have hone (a : α) (bs : List β) (ha : ∀ b ∈ bs, ∀ s, R (g (f s a) b) (f (g s b) a)) (s : σ) :
      R (bs.foldl g (f s a)) (f (bs.foldl g s) a) := by
    induction bs generalizing s with
    | nil => exact hrefl _
    | cons b bs ih =>
      have hstep := List.foldl_rel (l := bs) (ha b List.mem_cons_self s) fun c _ _ _ => hg c
      exact htrans hstep (ih (fun c hc => ha c (List.mem_cons_of_mem _ hc)) (g s b))
  induction as generalizing s with
  | nil => exact hrefl _
  | cons a as ih =>
    have hstep := List.foldl_rel (l := as) (hone a bs (h a List.mem_cons_self) s) fun c _ _ _ => hf c
    exact htrans (ih (fun c hc => h c (List.mem_cons_of_mem _ hc)) (f s a)) hstep

/-- Two loops whose steps commute do so themselves. -/
theorem foldl_foldl_eq {σ α β : Type} {f : σ → α → σ} {g : σ → β → σ}
    (h : ∀ a b s, g (f s a) b = f (g s b) a) (as : List α) (bs : List β) (s : σ) :
    bs.foldl g (as.foldl f s) = as.foldl f (bs.foldl g s) :=
  foldl_foldl_comm (fun _ => rfl) Eq.trans (fun a h => congrArg (f · a) h)
    (fun b h => congrArg (g · b) h) (fun a _ b _ s => h a b s) s

theorem erase_erase_map {κ β : Type} [Ord κ] [Std.TransOrd κ] [Std.LawfulEqOrd κ]
    (m : Std.ExtTreeMap κ β) (i j : κ) : (m.erase i).erase j = (m.erase j).erase i := by
  apply Std.ExtTreeMap.ext_getElem?
  intro k
  simp only [Std.ExtTreeMap.getElem?_erase]
  split <;> split <;> rfl

theorem erase_erase_set {κ : Type} [Ord κ] [Std.TransOrd κ] [Std.LawfulEqOrd κ]
    (s : Std.ExtTreeSet κ) (x y : κ) : (s.erase x).erase y = (s.erase y).erase x := by
  apply Std.ExtTreeSet.ext_mem
  intro z
  simp only [Std.ExtTreeSet.mem_erase]
  tauto

/-! ## Associations -/

namespace MultiMap

variable {κ μ : Type} [Ord κ] [Std.TransOrd κ] [Std.LawfulEqOrd κ] [DecidableEq κ] [Ord μ]
  [Std.TransOrd μ]

theorem getElem?_remove (m : MultiMap κ μ) (k j : κ) (x : μ) :
    (m.remove k x)[j]? = if j = k then
        if ((m.members k).erase x).isEmpty then none else some ((m.members k).erase x)
      else m[j]? := by
  rw [remove_eq]
  by_cases hj : j = k
  · subst hj
    rw [if_pos rfl]
    split <;> simp
  · rw [if_neg hj]
    split <;> simp [Std.ExtTreeMap.getElem?_erase, Std.ExtTreeMap.getElem?_insert, Ne.symm hj]

variable [Std.LawfulEqOrd μ]

theorem remove_comm (m : MultiMap κ μ) (k j : κ) (x y : μ) :
    (m.remove k x).remove j y = (m.remove j y).remove k x := by
  apply Std.ExtTreeMap.ext_getElem?
  intro i
  by_cases hkj : j = k
  · subst hkj
    simp only [getElem?_remove, members_remove_self, erase_erase_set _ x y]
    split <;> rfl
  · simp only [getElem?_remove, members_remove_other m hkj, members_remove_other m (Ne.symm hkj)]
    by_cases hi : i = j
    · rw [if_pos hi, if_neg fun hk => hkj (hi.symm.trans hk), if_pos hi]
    · rw [if_neg hi, if_neg hi]

end MultiMap

namespace Relation

theorem members_removeTxn_other (r : Relation) {txn u : TxnId} (hu : u ≠ txn) :
    (r.removeTxn txn).pages.members u = r.pages.members u := by
  simp [removeTxn, MultiMap.members, Std.ExtTreeMap.getD_erase, Ne.symm hu]

theorem removeTxn_comm (r : Relation) {t u : TxnId} (htu : t ≠ u) :
    (r.removeTxn t).removeTxn u = (r.removeTxn u).removeTxn t := by
  have ht := members_removeTxn_other r (Ne.symm htu)
  have hu := members_removeTxn_other r htu
  unfold removeTxn at ht hu ⊢
  simp only [Relation.mk.injEq]
  refine ⟨erase_erase_map r.pages t u, ?_⟩
  rw [ht, hu]
  exact foldl_foldl_eq (fun page q m => m.remove_comm page q t u) _ _ r.txns

end Relation

/-! ## Resident pages -/

namespace PageTable

theorem contains_remove (t : PageTable) {p q : PageId} (hq : q ≠ p) :
    (t.remove p).contains q = t.contains q := by
  unfold remove
  split
  · simp [contains, Ne.symm hq]
  · rfl

theorem remove_comm (t : PageTable) (p q : PageId) :
    (t.remove p).remove q = (t.remove q).remove p := by
  by_cases hqp : q = p
  · rw [hqp]
  have hp := contains_remove t (Ne.symm hqp)
  have hq := contains_remove t hqp
  have herase := erase_erase_map t.frames p q
  have hfilter : (t.order.filter (· != p)).filter (· != q) =
      (t.order.filter (· != q)).filter (· != p) := by
    simp only [List.filter_filter, Bool.and_comm]
  rw [remove.eq_1 (t.remove p), remove.eq_1 (t.remove q), hp, hq]
  unfold remove
  split <;> split <;> simp [herase, hfilter]

theorem forgetTxn_remove (t : PageTable) (txn : TxnId) (page : PageId) :
    (t.remove page).forgetTxn txn = (t.forgetTxn txn).remove page := by
  have hc : (t.forgetTxn txn).contains page = t.contains page := rfl
  unfold remove
  rw [hc]
  split <;> rfl

theorem forgetTxn_comm (p : PageTable) {t u : TxnId} (htu : t ≠ u) :
    (p.forgetTxn t).forgetTxn u = (p.forgetTxn u).forgetTxn t :=
  congrArg (fun r => { p with relation := r }) (p.relation.removeTxn_comm htu)

end PageTable

/-! ## Locks -/

namespace LockRecord

theorem without_comm (r : LockRecord) (t u : TxnId) :
    (r.without t).without u = (r.without u).without t := by
  unfold without
  simp only [LockRecord.mk.injEq]
  refine ⟨erase_erase_set r.readers t u, ?_⟩
  grind

theorem mode?_without_other (r : LockRecord) {t u : TxnId} (hu : u ≠ t) :
    (r.without t).mode? u = r.mode? u := by
  have hwriter : ((r.without t).writer == some u) = (r.writer == some u) := by
    unfold without
    grind
  have hreaders : (r.without t).readers.contains u = r.readers.contains u := by
    simp [without, Ne.symm hu]
  rw [mode?, hwriter, hreaders, mode?]

end LockRecord

namespace HeldIndex

theorem getElem?_forget (held : HeldIndex) (t u : TxnId) (page : PageId) :
    (held.forget t page)[u]? = if u = t then
        held[t]?.bind fun pages =>
          if (pages.erase page).isEmpty then none else some (pages.erase page)
      else held[u]? := by
  cases h : held[t]? with
  | none =>
    rw [forget_of_none h]
    split
    · rename_i hu
      simpa [hu] using h
    · rfl
  | some pages =>
    rw [forget_of_some h]
    by_cases hu : u = t
    · subst hu
      simp only [if_true, Option.bind_some]
      split <;> simp
    · rw [if_neg hu]
      split <;> simp [Std.ExtTreeMap.getElem?_erase, Std.ExtTreeMap.getElem?_insert, Ne.symm hu]

theorem forget_comm (held : HeldIndex) {t u : TxnId} (htu : t ≠ u) (p q : PageId) :
    (held.forget t p).forget u q = (held.forget u q).forget t p := by
  apply Std.ExtTreeMap.ext_getElem?
  intro i
  simp only [getElem?_forget, if_neg htu, if_neg (Ne.symm htu)]
  by_cases hi : i = t
  · rw [if_pos hi, if_neg fun hu => htu (hi.symm.trans hu), if_pos hi]
  · rw [if_neg hi, if_neg hi]

end HeldIndex

namespace LockManager

theorem getElem?_setRecord (m : LockManager) (page q : PageId) (r : LockRecord) :
    (m.setRecord page r).records[q]? =
      if q = page then if r.isIdle then none else some r else m.records[q]? := by
  unfold setRecord
  by_cases hq : q = page
  · subst hq
    rw [if_pos rfl]
    split <;> simp
  · rw [if_neg hq]
    split <;> simp [Std.ExtTreeMap.getElem?_erase, Std.ExtTreeMap.getElem?_insert, Ne.symm hq]

/-- A release where nothing is held changes nothing, else it changes the record and the
index. -/
theorem release_eq (m : LockManager) (txn : TxnId) (page : PageId) :
    m.release txn page = if ((m.record page).mode? txn).isSome then
        { m.setRecord page ((m.record page).without txn) with held := m.held.forget txn page }
      else m := rfl

theorem mode?_record_release (m : LockManager) {t u : TxnId} (hu : u ≠ t) (p q : PageId) :
    ((m.release t p).record q).mode? u = (m.record q).mode? u := by
  rw [release_eq]
  split
  · show ((m.setRecord p ((m.record p).without t)).record q).mode? u = _
    rw [record_setRecord]
    split
    · rename_i hq
      rw [hq, LockRecord.mode?_without_other _ hu]
    · rfl
  · rfl

/-- What is left of the record of a page that somebody has left. -/
theorem strike_comm (m : LockManager) (t u : TxnId) (p q : PageId) :
    (m.setRecord p ((m.record p).without t)).setRecord q
        (((m.setRecord p ((m.record p).without t)).record q).without u) =
      (m.setRecord q ((m.record q).without u)).setRecord p
        (((m.setRecord q ((m.record q).without u)).record p).without t) := by
  refine LockSystem.manager_ext (fun i => ?_) rfl
  simp only [getElem?_setRecord, record_setRecord]
  by_cases hpq : p = q
  · subst hpq
    simp only [if_true, LockRecord.without_comm _ t u]
    split <;> rfl
  · simp only [if_neg hpq, if_neg (Ne.symm hpq)]
    by_cases hi : i = q
    · have hp : i ≠ p := fun hp => hpq (hp.symm.trans hi)
      simp only [if_pos hi, if_neg hp]
    · simp only [if_neg hi]

theorem release_comm (m : LockManager) {t u : TxnId} (htu : t ≠ u) (p q : PageId) :
    (m.release t p).release u q = (m.release u q).release t p := by
  have ht := mode?_record_release m htu q p
  have hu := mode?_record_release m (Ne.symm htu) p q
  rw [release_eq (m.release t p), release_eq (m.release u q), hu, ht]
  rw [release_eq m t, release_eq m u]
  split <;> split
  · refine LockSystem.manager_ext (fun i => ?_) (HeldIndex.forget_comm m.held htu p q)
    exact congrArg (·.records[i]?) (strike_comm m t u p q)
  all_goals rfl

theorem pagesOf_release (m : LockManager) {t u : TxnId} (hu : u ≠ t) (page : PageId) :
    (m.release t page).pagesOf u = m.pagesOf u := by
  rw [release_eq]
  split
  · simp only [pagesOf, Std.ExtTreeMap.getD_eq_getD_getElem?]
    rw [HeldIndex.getElem?_forget, if_neg hu]
  · rfl

theorem pagesOf_releaseAll (m : LockManager) {t u : TxnId} (hu : u ≠ t) :
    (m.releaseAll t).pagesOf u = m.pagesOf u := by
  apply List.foldlRecOn (motive := fun n : LockManager => n.pagesOf u = m.pagesOf u)
  · rfl
  · intro n hn page _
    exact (pagesOf_release n hu page).trans hn

theorem releaseAll_comm (m : LockManager) {t u : TxnId} (htu : t ≠ u) :
    (m.releaseAll t).releaseAll u = (m.releaseAll u).releaseAll t := by
  have ht := pagesOf_releaseAll m htu
  have hu := pagesOf_releaseAll m (Ne.symm htu)
  unfold releaseAll at ht hu ⊢
  rw [ht, hu]
  exact foldl_foldl_eq (fun p q n => release_comm n htu p q) _ _ m

end LockManager

end RowStore
