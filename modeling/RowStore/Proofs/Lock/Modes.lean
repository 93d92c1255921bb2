import RowStore.Lock.Alone

/-!
  Lock modes — what each operation of the lock manager does to who holds what.

  `Consistent` ties the two structures of a manager together: every record has one
  writer or readers, and the index says of a transaction and a page what the
  page's record says. Under it each operation is known by the modes it leaves:

    1. `mode?_acquire?` — a grant changes the requester's mode on that page only;
    2. `mode?_release`, `mode?_releaseAll`, `mode?_releasePage` — a release takes
       away one mode, all modes of a transaction, or all modes on a page.

  Each operation keeps `Consistent`.
-/

namespace RowStore

/-! ## Records -/

namespace LockRecord

/-- A page has one writer or any number of readers, never both. -/
def Exclusive (r : LockRecord) : Prop := r.writer = none ∨ r.readers = ∅

theorem mode?_eq_write {r : LockRecord} {txn : TxnId} :
    r.mode? txn = some .write ↔ r.writer = some txn := by
  unfold mode?
  split
  · rename_i h
    simpa using h
  · rename_i h
    split <;> simp_all

theorem mode?_of_writer {r : LockRecord} (hx : r.Exclusive) {w : TxnId} (hw : r.writer = some w)
    {u : TxnId} (hu : u ≠ w) : r.mode? u = none := by
  have hr : r.readers = ∅ := by
    rcases hx with h | h
    · rw [hw] at h; simp at h
    · exact h
  simp [mode?, hw, hr, Ne.symm hu]

@[simp] theorem mode?_idle (txn : TxnId) : idle.mode? txn = none := rfl

/-- A page that only `txn` may read has no other reader. -/
theorem eq_of_noOtherReader {r : LockRecord} {txn u : TxnId} (h : r.noOtherReader txn = true)
    (hu : u ∈ r.readers) : u = txn := by
  simp only [noOtherReader, Bool.or_eq_true, Bool.and_eq_true, beq_iff_eq] at h
  rcases h with h | ⟨h1, ht⟩
  · rw [Std.ExtTreeSet.isEmpty_iff] at h
    rw [h] at hu
    exact absurd hu Std.ExtTreeSet.not_mem_empty
  · rw [Std.ExtTreeSet.contains_iff_mem] at ht
    rw [← Std.ExtTreeSet.length_toList] at h1
    obtain ⟨x, hx⟩ := List.length_eq_one_iff.mp h1
    rw [← Std.ExtTreeSet.mem_toList, hx, List.mem_singleton] at hu ht
    rw [hu, ht]

/-- What a grant does to a record whose holders are compatible with each other. -/
structure Granted (r : LockRecord) (txn : TxnId) (access : Access) (r' : LockRecord) : Prop where
  exclusive : r'.Exclusive
  self : r'.mode? txn = if r.mode? txn = some .write then some .write else some access
  other : ∀ u, u ≠ txn → r'.mode? u = r.mode? u
  /-- Nobody else writes, and nobody else holds anything if the request is to write. -/
  free : ∀ u, u ≠ txn → r.mode? u ≠ some .write ∧ (access = .write → r.mode? u = none)

theorem granted_of_grant? {r r' : LockRecord} (hx : r.Exclusive) {txn : TxnId} {access : Access}
    (h : r.grant? txn access = some r') : r.Granted txn access r' := by
  unfold grant? at h
  split at h
  · -- there is a writer, who can only be the requester
    rename_i w hw
    split at h
    · rename_i hwt
      obtain rfl : w = txn := by simpa using hwt
      obtain rfl := Option.some.inj h
      have hm : r.mode? w = some .write := mode?_eq_write.mpr hw
      have hn : ∀ u, u ≠ w → r.mode? u = none := fun u hu => mode?_of_writer hx hw hu
      exact ⟨hx, by simp [hm], fun u _ => rfl, fun u hu => by simp [hn u hu]⟩
    · simp at h
  · -- one more reader
    rename_i hw
    obtain rfl := Option.some.inj h
    have hm : ∀ u, r.mode? u ≠ some .write := fun u hu => by
      rw [mode?_eq_write, hw] at hu; simp at hu
    refine ⟨.inl hw, ?_, ?_, fun u _ => ⟨hm u, by simp⟩⟩
    · rw [if_neg (hm txn)]
      simp [mode?, hw]
    · intro u hu
      have hc : compare txn u ≠ .eq := by simpa using Ne.symm hu
      simp [mode?, hw, Std.ExtTreeSet.contains_insert, hc]
  · -- a writer where nobody else reads
    rename_i hw
    split at h
    · rename_i hn
      obtain rfl := Option.some.inj h
      have hm : ∀ u, u ≠ txn → r.mode? u = none := fun u hu => by
        have hr : ¬ u ∈ r.readers := fun hr => hu (eq_of_noOtherReader hn hr)
        simp [mode?, hw, hr]
      refine ⟨.inr rfl, ?_, ?_, ?_⟩
      · simp [mode?]
      · intro u hu
        rw [hm u hu]
        simp [mode?, Ne.symm hu]
      · intro u hu
        simp [hm u hu]
    · simp at h

/-- What nobody holds is granted. -/
theorem grant?_of_free {r : LockRecord} {txn : TxnId} {access : Access}
    (hn : ∀ u, r.mode? u = none) : r.grant? txn access ≠ none := by
  have hwriter : r.writer = none := by
    cases hw : r.writer with
    | none => rfl
    | some w =>
      have hwrite := mode?_eq_write.mpr hw
      rw [hn w] at hwrite
      simp at hwrite
  have hreaders : r.readers = ∅ := by
    rw [Std.ExtTreeSet.eq_empty_iff_forall_not_mem]
    intro u hu
    have hmode := hn u
    rw [← Std.ExtTreeSet.contains_iff_mem] at hu
    simp [mode?, hwriter, hu] at hmode
  cases access <;> simp [grant?, hwriter, hreaders, noOtherReader]

theorem exclusive_without {r : LockRecord} (hx : r.Exclusive) (txn : TxnId) :
    (r.without txn).Exclusive := by
  rcases hx with h | h
  · left; simp [without, h]
  · right
    rw [Std.ExtTreeSet.eq_empty_iff_forall_not_mem]
    intro u hu
    rw [without, Std.ExtTreeSet.mem_erase, h] at hu
    exact absurd hu.2 Std.ExtTreeSet.not_mem_empty

theorem mode?_without {r : LockRecord} (hx : r.Exclusive) (txn u : TxnId) :
    (r.without txn).mode? u = if u = txn then none else r.mode? u := by
  by_cases hu : u = txn
  · subst hu
    have hw : ¬ (if r.writer = some u then none else r.writer) = some u := by split <;> simp_all
    simp [mode?, without, hw]
  · have hc : compare txn u ≠ .eq := by simpa using Ne.symm hu
    by_cases hw : r.writer = some txn
    · have hn := mode?_of_writer hx hw hu
      have hr : r.readers = ∅ := by
        rcases hx with h | h
        · rw [hw] at h; simp at h
        · exact h
      simp [mode?, without, hw, hu, hr, Ne.symm hu]
    · simp [mode?, without, hw, hu, Std.ExtTreeSet.contains_erase, hc]

theorem mem_holders {r : LockRecord} {txn : TxnId} :
    txn ∈ r.holders ↔ r.mode? txn ≠ none := by
  simp only [holders, List.mem_append, Option.mem_toList, Std.ExtTreeSet.mem_toList, mode?]
  by_cases hw : r.writer = some txn
  · simp [hw]
  · by_cases hr : txn ∈ r.readers <;> simp [hw, hr]

theorem isIdle_iff_holders {r : LockRecord} : r.isIdle = true ↔ ∀ txn, txn ∉ r.holders := by
  rw [← List.eq_nil_iff_forall_not_mem]
  simp only [isIdle, holders, List.append_eq_nil_iff, Option.toList_eq_nil_iff,
    Bool.and_eq_true, Option.isNone_iff_eq_none]
  rw [← Std.ExtTreeSet.isEmpty_toList, List.isEmpty_iff]

/-- Whoever is granted a request is a holder. -/
theorem holders_of_grant? {r r' : LockRecord} {txn : TxnId} {access : Access}
    (h : r.grant? txn access = some r') : txn ∈ r'.holders := by
  rw [mem_holders]
  unfold grant? at h
  split at h
  · rename_i w hw
    split at h
    · obtain rfl := Option.some.inj h
      simp_all [mode?]
    · simp at h
  · obtain rfl := Option.some.inj h
    simp [mode?, *]
  · split at h
    · obtain rfl := Option.some.inj h
      simp [mode?]
    · simp at h

end LockRecord

/-! ## The index -/

namespace HeldIndex

theorem mode?_note (held : HeldIndex) (txn u : TxnId) (page q : PageId) (access : Access) :
    (held.note txn page access).mode? u q =
      if u = txn ∧ q = page then some access else held.mode? u q := by
  simp only [mode?, note, Std.ExtTreeMap.getElem?_insert, Std.compare_eq_iff_eq]
  by_cases hu : txn = u
  · subst hu
    simp only [if_true, Option.bind_some, Std.ExtTreeMap.getElem?_insert, Std.compare_eq_iff_eq,
      true_and]
    by_cases hq : page = q
    · simp [hq]
    · rw [if_neg hq, if_neg (Ne.symm hq), Std.ExtTreeMap.getD_eq_getD_getElem?]
      cases held[txn]? <;> simp
  · rw [if_neg hu, if_neg fun h => hu h.1.symm]

theorem forget_of_none {held : HeldIndex} {txn : TxnId} (h : held[txn]? = none) (page : PageId) :
    held.forget txn page = held := by
  simp [forget, h]

theorem forget_of_some {held : HeldIndex} {txn : TxnId} {pages : Std.ExtTreeMap PageId Access}
    (h : held[txn]? = some pages) (page : PageId) :
    held.forget txn page =
      if (pages.erase page).isEmpty then held.erase txn
      else held.insert txn (pages.erase page) := by
  simp only [forget, h]

theorem mode?_forget (held : HeldIndex) (txn u : TxnId) (page q : PageId) :
    (held.forget txn page).mode? u q =
      if u = txn ∧ q = page then none else held.mode? u q := by
  cases h : held[txn]? with
  | none =>
    rw [forget_of_none h]
    split
    · rename_i huq
      rw [mode?, huq.1, h]
      rfl
    · rfl
  | some pages =>
    rw [forget_of_some h]
    by_cases hu : txn = u
    · subst hu
      have hr : (pages.erase page)[q]? =
          if txn = txn ∧ q = page then none else held.mode? txn q := by
        simp only [mode?, h, Option.bind_some, true_and, Std.ExtTreeMap.getElem?_erase,
          Std.compare_eq_iff_eq, @eq_comm _ page q]
      rw [← hr]
      split
      · rename_i he
        rw [Std.ExtTreeMap.isEmpty_iff] at he
        simp [mode?, he]
      · simp [mode?]
    · have hn : ¬ (u = txn ∧ q = page) := fun huq => hu huq.1.symm
      rw [if_neg hn]
      split <;>
        simp [mode?, Std.ExtTreeMap.getElem?_erase, Std.ExtTreeMap.getElem?_insert, hu]

theorem mode?_foldl_forget (txns : List TxnId) (held : HeldIndex) (u : TxnId) (page q : PageId) :
    (txns.foldl (fun held txn => held.forget txn page) held).mode? u q =
      if u ∈ txns ∧ q = page then none else held.mode? u q := by
  induction txns generalizing held with
  | nil => simp
  | cons txn txns ih =>
    rw [List.foldl_cons, ih, mode?_forget]
    by_cases hq : q = page <;> by_cases hu : u = txn <;> simp [hq, hu]

end HeldIndex

/-! ## The manager -/

namespace LockManager

/-- Every record is in order, the index agrees with the records, and it has no
transaction without locks. -/
structure Consistent (m : LockManager) : Prop where
  exclusive : ∀ page, (m.record page).Exclusive
  agree : ∀ txn page, m.mode? txn page = (m.record page).mode? txn
  tight : ∀ txn : TxnId, m.held[txn]? ≠ some ∅

theorem record_setRecord (m : LockManager) (page q : PageId) (r : LockRecord) :
    (m.setRecord page r).record q = if q = page then r else m.record q := by
  simp only [record, setRecord, Std.ExtTreeMap.getD_eq_getD_getElem?]
  by_cases hq : page = q
  · subst hq
    split
    · rename_i hi
      simp [LockRecord.isIdle_iff.mp hi]
    · simp
  · rw [if_neg (Ne.symm hq)]
    split <;> simp [Std.ExtTreeMap.getElem?_erase, Std.ExtTreeMap.getElem?_insert, hq]

theorem consistent_empty : Consistent empty where
  exclusive _ := .inl rfl
  agree _ _ := rfl
  tight txn := by simp [empty]

theorem tight_note {held : HeldIndex} (h : ∀ txn : TxnId, held[txn]? ≠ some ∅) (txn : TxnId)
    (page : PageId) (access : Access) (u : TxnId) : (held.note txn page access)[u]? ≠ some ∅ := by
  simp only [HeldIndex.note, Std.ExtTreeMap.getElem?_insert, Std.compare_eq_iff_eq]
  split
  · intro he
    have hp := congrArg (·[page]?) (Option.some.inj he)
    simp at hp
  · exact h u

theorem tight_forget {held : HeldIndex} (h : ∀ txn : TxnId, held[txn]? ≠ some ∅) (txn : TxnId)
    (page : PageId) (u : TxnId) : (held.forget txn page)[u]? ≠ some ∅ := by
  cases hp : held[txn]? with
  | none =>
    rw [HeldIndex.forget_of_none hp]
    exact h u
  | some pages =>
    rw [HeldIndex.forget_of_some hp]
    split
    · simp only [Std.ExtTreeMap.getElem?_erase, Std.compare_eq_iff_eq]
      split
      · simp
      · exact h u
    · rename_i he
      simp only [Std.ExtTreeMap.getElem?_insert, Std.compare_eq_iff_eq]
      split
      · intro hs
        rw [Option.some.inj hs] at he
        simp at he
      · exact h u

theorem tight_foldl_forget {held : HeldIndex} (h : ∀ txn : TxnId, held[txn]? ≠ some ∅)
    (txns : List TxnId) (page : PageId) (u : TxnId) :
    (txns.foldl (fun held txn => held.forget txn page) held)[u]? ≠ some ∅ := by
  induction txns generalizing held with
  | nil => exact h u
  | cons txn txns ih => exact ih (tight_forget h txn page)

variable {m m' : LockManager} {txn : TxnId} {page : PageId} {access : Access}

/-- A manager whose record of one page is replaced, with an index that follows. -/
theorem Consistent.setRecord (hc : m.Consistent) {r : LockRecord} (hx : r.Exclusive)
    {held : HeldIndex}
    (ha : ∀ u q, held.mode? u q = if q = page then r.mode? u else m.mode? u q)
    (ht : ∀ u : TxnId, held[u]? ≠ some ∅) :
    Consistent { m.setRecord page r with held := held } where
  exclusive q := by
    show ((m.setRecord page r).record q).Exclusive
    rw [record_setRecord]
    split
    · exact hx
    · exact hc.exclusive q
  agree u q := by
    show held.mode? u q = ((m.setRecord page r).record q).mode? u
    rw [ha, record_setRecord]
    split
    · rfl
    · exact hc.agree u q
  tight := ht

/-! ### Requests -/

theorem acquire?_eq_some (h : m.acquire? txn page access = some m') :
    ∃ r, (m.record page).grant? txn access = some r ∧
      m' = { m.setRecord page r with
        held := m.held.note txn page ((r.mode? txn).getD access) } := by
  obtain ⟨r, hr, rfl⟩ := Option.map_eq_some_iff.mp h
  exact ⟨r, hr, rfl⟩

/-- A grant gives the requester the stronger of what it had and what it asked for. -/
theorem mode?_acquire? (hc : m.Consistent) (h : m.acquire? txn page access = some m')
    (u : TxnId) (q : PageId) :
    m'.mode? u q =
      if u = txn ∧ q = page then
        if m.mode? txn page = some .write then some .write else some access
      else m.mode? u q := by
  obtain ⟨r, hr, rfl⟩ := acquire?_eq_some h
  have hg := LockRecord.granted_of_grant? (hc.exclusive page) hr
  show (HeldIndex.note ..).mode? u q = _
  rw [HeldIndex.mode?_note, hg.self, hc.agree]
  split <;> (try split) <;> rfl

/-- A page that nobody holds is granted to whoever asks for it. -/
theorem acquire?_of_free (hc : m.Consistent) (hn : ∀ u, m.mode? u page = none) :
    m.acquire? txn page access ≠ none := by
  have hmode u : (m.record page).mode? u = none := (hc.agree u page).symm.trans (hn u)
  simpa [acquire?] using LockRecord.grant?_of_free hmode

theorem Consistent.acquire? (hc : m.Consistent) (h : m.acquire? txn page access = some m') :
    m'.Consistent := by
  obtain ⟨r, hr, rfl⟩ := acquire?_eq_some h
  have hg := LockRecord.granted_of_grant? (hc.exclusive page) hr
  refine hc.setRecord hg.exclusive (?_) (tight_note hc.tight _ _ _)
  intro u q
  rw [HeldIndex.mode?_note]
  by_cases hq : q = page
  · subst hq
    by_cases hu : u = txn
    · subst hu
      rw [if_pos ⟨rfl, rfl⟩, if_pos rfl, hg.self]
      split <;> rfl
    · rw [if_neg fun h => hu h.1, if_pos rfl, hg.other u hu]
      exact hc.agree u q
  · rw [if_neg fun h => hq h.2, if_neg hq]
    rfl

/-- Two transactions do not hold a page together if one of them writes. -/
theorem mode?_of_write (hc : m.Consistent) (h : m.mode? txn page = some .write) {u : TxnId}
    (hu : u ≠ txn) : m.mode? u page = none := by
  rw [hc.agree] at h ⊢
  exact LockRecord.mode?_of_writer (hc.exclusive page) (LockRecord.mode?_eq_write.mp h) hu

theorem holdersOf_of_write (hc : m.Consistent) (h : m.mode? txn page = some .write) :
    m.holdersOf page = [txn] := by
  rw [hc.agree, LockRecord.mode?_eq_write] at h
  have hr : (m.record page).readers = ∅ := by
    rcases hc.exclusive page with hn | hr
    · rw [hn] at h
      simp at h
    · exact hr
  simp [holdersOf, LockRecord.holders, h, hr]

/-! ### Releases -/

theorem mode?_release (hc : m.Consistent) (txn u : TxnId) (page q : PageId) :
    (m.release txn page).mode? u q = if u = txn ∧ q = page then none else m.mode? u q := by
  unfold release
  dsimp only
  split
  · exact HeldIndex.mode?_forget m.held txn u page q
  · rename_i h
    split
    · rename_i huq
      rw [huq.1, huq.2, hc.agree]
      simpa using h
    · rfl

theorem Consistent.release (hc : m.Consistent) (txn : TxnId) (page : PageId) :
    (m.release txn page).Consistent := by
  unfold LockManager.release
  dsimp only
  split
  · refine hc.setRecord (LockRecord.exclusive_without (hc.exclusive page) txn) (?_)
      (tight_forget hc.tight _ _)
    intro u q
    rw [HeldIndex.mode?_forget, LockRecord.mode?_without (hc.exclusive page)]
    by_cases hq : q = page
    · subst hq
      by_cases hu : u = txn
      · simp [hu]
      · rw [if_neg fun h => hu h.1, if_pos rfl, if_neg hu]
        exact hc.agree u q
    · rw [if_neg fun h => hq h.2, if_neg hq]
      rfl
  · exact hc

theorem foldl_release (hc : m.Consistent) (txn : TxnId) (pages : List PageId) :
    (pages.foldl (fun m page => m.release txn page) m).Consistent ∧
      ∀ u q, (pages.foldl (fun m page => m.release txn page) m).mode? u q =
        if u = txn ∧ q ∈ pages then none else m.mode? u q := by
  induction pages generalizing m with
  | nil => exact ⟨hc, fun u q => by simp⟩
  | cons page pages ih =>
    obtain ⟨h1, h2⟩ := ih (hc.release txn page)
    refine ⟨h1, ?_⟩
    intro u q
    rw [List.foldl_cons, h2, mode?_release hc]
    by_cases hu : u = txn <;> by_cases hq : q = page <;> simp [hu, hq]

theorem mem_pagesOf : page ∈ m.pagesOf txn ↔ m.mode? txn page ≠ none := by
  rw [pagesOf, Std.ExtTreeMap.mem_keys, Std.ExtTreeMap.mem_iff_isSome_getElem?, mode?,
    HeldIndex.mode?, Std.ExtTreeMap.getD_eq_getD_getElem?]
  cases m.held[txn]? with
  | none => simp
  | some pages => simp

theorem mode?_releaseAll (hc : m.Consistent) (txn u : TxnId) (q : PageId) :
    (m.releaseAll txn).mode? u q = if u = txn then none else m.mode? u q := by
  rw [releaseAll, (foldl_release hc txn (m.pagesOf txn)).2]
  by_cases hu : u = txn
  · subst hu
    by_cases hq : q ∈ m.pagesOf u
    · simp [hq]
    · have hn : m.mode? u q = none := by simpa [mem_pagesOf] using hq
      simp [hn]
  · simp [hu]

theorem Consistent.releaseAll (hc : m.Consistent) (txn : TxnId) : (m.releaseAll txn).Consistent :=
  (foldl_release hc txn (m.pagesOf txn)).1

theorem mode?_releasePage (hc : m.Consistent) (page q : PageId) (u : TxnId) :
    (m.releasePage page).mode? u q = if q = page then none else m.mode? u q := by
  rw [mode?, releasePage, HeldIndex.mode?_foldl_forget]
  by_cases hq : q = page
  · subst hq
    by_cases hu : u ∈ m.holdersOf q
    · simp [hu]
    · have hn : m.mode? u q = none := by
        rw [hc.agree]
        simpa [holdersOf, LockRecord.mem_holders] using hu
      rw [if_neg fun h => hu h.1, if_pos rfl]
      exact hn
  · rw [if_neg fun h => hq h.2, if_neg hq]
    rfl

theorem Consistent.releasePage (hc : m.Consistent) (page : PageId) :
    (m.releasePage page).Consistent := by
  refine hc.setRecord (.inl rfl) (?_) (tight_foldl_forget hc.tight _ _)
  intro u q
  rw [LockRecord.mode?_idle, ← mode?_releasePage hc]
  rfl

end LockManager

end RowStore
