import RowStore.Proofs.Store.Chronicle

/-!
  Writing ahead — the log has the update of a page before the file has the page.

  In every run of whole calls, whatever the files hold at first and whichever calls of the
  log fail, a page that a file holds changes only when it is written behind its record:
  the log has taken the update for whoever made the page dirty, from the page as it was when
  it was clean last to just what is written, and has been forced; after a log call that
  fails nothing is written. Over files that begin empty, as long as nothing is flushed or
  released, the update is from what the file holds, so that undoing a completion leaves the
  files as they were (`Chronicle.writes_ahead`). As the log may refuse any of its calls,
  these orders show in the stores that calls leave behind.
-/

namespace RowStore.Store

/-! ## Records and writes -/

/-- A page is written behind its record, the stores up to the record being `stores`. -/
structure Recorded (stores : List Store) (a b m : Moment) (txn : TxnId) (page : PageId)
    (before after : Page) : Prop extends Behind a b m txn page before after where
  dirty : after.dirtier = some txn
  clean : ∃ clean, lastClean page stores = some clean ∧ before.image = clean.image
  image : after.image = .ok (m.stop.onDisk page)

theorem Act.overwrites_of_puts {a : Act} {page : PageId} (h : a.event.Puts page) :
    a.Overwrites := by
  cases a with
  | made e => cases e <;> first | exact h.elim | trivial
  | _ => exact h.elim

theorem Behind.page_eq {a b m : Moment} {txn : TxnId} {page q : PageId} {before after : Page}
    (h : Behind a b m txn q before after) (hp : m.act.event.Puts page) : q = page := by
  rcases h.written with hw | hw <;> rw [hw] at hp <;> exact hp

/-- The log call and the force change nothing but the log. -/
theorem Behind.log {a b m : Moment} {txn : TxnId} {page : PageId} {before after : Page}
    (h : Behind a b m txn page before after) (ha : a.act.Does a.start a.stop)
    (hb : b.act.Does b.start b.stop) : ∃ log, m.start = { a.start with log := log } := by
  rw [h.logged] at ha
  rw [h.forced, ← h.next.1, h.next.2] at hb
  exact writing_log ha hb

theorem Chronicle.recorded {s₀ s : Store} {past ms : List Moment} {c : Call} (hs : s₀.Ready)
    (h : Chronicle s₀ past s) (hms : Account c.run c.Makes s ms) (hc : c.halts s = true)
    {pre post : List Moment} {m : Moment} {page : PageId} (hsplit : ms = pre ++ m :: post)
    (hp : m.act.event.Puts page) :
    ∃ earlier a b txn before after, pre = earlier ++ [a, b] ∧
      Recorded (stores s₀ (past ++ earlier)) a b m txn page before after := by
  obtain ⟨earlier, a, b, txn, q, before, after, rfl, hb⟩ :=
    hms.ahead.behind hsplit (Act.overwrites_of_puts hp)
  obtain rfl := hb.page_eq hp
  have hmem (n : Moment) (hn : n ∈ earlier ++ [a, b]) : n ∈ ms := by
    rw [hsplit]
    exact List.mem_append_left _ hn
  have hwhole (n : Moment) (hn : n ∈ ms) : n.act.event.Whole :=
    (hms.events n hn).whole (hms.not_endless hc n hn)
  -- what the record was made from, at that time
  have hhistory := hms.history
  rw [hsplit, List.append_assoc] at hhistory
  obtain ⟨hearlier, hda, hrest⟩ := hhistory.moment
  obtain ⟨-, hdb, hrest⟩ := hrest.first
  obtain ⟨-, hdm, -⟩ := hrest.first
  obtain ⟨log, hlog⟩ := hb.log hda hdb
  have hpast := h.history.append hearlier
  obtain ⟨htended, hrecalls⟩ := hpast.recalls hs fun n hn =>
    (List.mem_append.mp hn).elim (h.whole n) fun hn => hwhole n (hmem n (List.mem_append_left _ hn))
  obtain ⟨_, _, -, -, hdirty, hbefore⟩ := hms.records a (hmem a (by simp)) txn before after hb.logged
  -- and what was written, by the log call and the force later
  have hstart : m.start.Tended := by
    rw [hlog]
    exact (Move.logged (s := a.start)).tended htended id
  obtain ⟨f, hf, -, hwritten⟩ := hdm.move.puts hstart.shaped hstart.housed hp
  obtain ⟨g, hg, hpage⟩ := hb.resident
  obtain rfl : f = g := Option.some.inj (hf.symm.trans hg)
  have himage := hwritten.image
  rw [(hstart.shaped.filed hf).2, hpage] at himage
  rw [hlog] at hf hpage
  obtain ⟨clean, before', hlast, hbefore', hclean, -⟩ := hrecalls hf
  rw [show a.start.frames.page f = after from hpage] at hbefore'
  obtain rfl := Except.ok.inj (hbefore.symm.trans hbefore')
  exact ⟨earlier, a, b, txn, before, after, rfl, hb, hdirty, ⟨clean, hlast, hclean⟩, himage⟩

/-- The record that a memory log keeps of a log call. -/
def Moment.record? (m : Moment) : Option LogRecord :=
  match m.act with
  | .logged txn before after =>
    match before.image, after.image with
    | .ok b, .ok a => some ⟨txn, after.id, b, a, false⟩
    | _, _ => none
  | _ => none

/-- What files hold once the updates of a transaction are undone, the last first. -/
def undo (txn : TxnId) (records : List LogRecord) (disk : PageId → Block) : PageId → Block :=
  records.foldr (fun r disk page =>
    if r.txn = txn ∧ page = r.page then r.before else disk page) disk

/-- Neither a flush nor an early release. -/
def Event.Plain : Event → Prop
  | .flushed _ | .released _ _ => False
  | _ => True

theorem Event.Whole.orderly {e : Event} (h : e.Whole) (hp : e.Plain) : e.Orderly := by
  cases e with
  | installed | flushed | released => first | exact h.elim | exact hp.elim
  | _ => exact h

theorem History.orderly {s u : Store} {ms : List Moment} (h : History ms s u) (hs : s.Orderly)
    (he : ∀ m ∈ ms, m.act.event.Orderly) : u.Orderly := by
  refine h.trace.induct (fun e hm _ _ hmove ho => hmove.orderly ho ?_) hs
  obtain ⟨m, hmem, rfl⟩ := List.mem_map.mp hm
  exact he m hmem

/-- Whatever is logged then is logged from what the file holds. -/
theorem Moment.Records.image {m : Moment} (h : m.Records) (ho : m.start.Orderly) {txn : TxnId}
    {before after : Page} (hl : m.act = .logged txn before after) :
    before.image = .ok (m.start.onDisk after.id) ∧ ∃ b, after.image = .ok b := by
  obtain ⟨page, f, hf, rfl, -, hbefore⟩ := h txn before after hl
  obtain ⟨k, hk, -⟩ := ho.current.held hf
  have hfits := ho.fits hf
  have hid := (ho.shaped.filed hf).2
  obtain ⟨q, hread, -, himage⟩ := ho.readable hk
  rw [Page.beforeImage, hid, hfits.schema hk, ho.current.before hf, hread] at hbefore
  obtain rfl := Except.ok.inj hbefore
  rw [hid]
  exact ⟨himage, _, hfits.sound.image⟩

theorem Moment.record?_of_logged {m : Moment} {txn : TxnId} {before after : Page} {b a : Block}
    (hl : m.act = .logged txn before after) (hb : before.image = .ok b) (ha : after.image = .ok a) :
    m.record? = some ⟨txn, after.id, b, a, false⟩ := by
  simp only [record?, hl, hb, ha]

theorem Moment.record?_of_not_logged {m : Moment}
    (h : ∀ txn before after, m.act ≠ .logged txn before after) : m.record? = none := by
  unfold record?
  split
  · rename_i hl
    exact absurd hl (h _ _ _)
  · rfl

/-- To undo a record of what a file holds changes nothing. -/
theorem undo_cons_same {txn : TxnId} {r : LogRecord} {disk : PageId → Block}
    (h : disk r.page = r.before) (rs : List LogRecord) {last : PageId → Block}
    (hrs : undo txn rs last = disk) : undo txn (r :: rs) last = disk := by
  funext page
  show (if r.txn = txn ∧ page = r.page then r.before else undo txn rs last page) = disk page
  split
  · rename_i hp
    rw [hp.2, h]
  · rw [hrs]

/-- An act that writes no page is undone by nothing. -/
theorem undo_quiet {txn : TxnId} {m : Moment} {ms : List Moment} {last : PageId → Block}
    (ho : m.start.Orderly) (hd : m.act.Does m.start m.stop) (he : m.act.event.Orderly)
    (hq : ¬ m.act.Overwrites) (hr : m.Records)
    (hms : undo txn (ms.filterMap Moment.record?) last = m.stop.onDisk) :
    undo txn ((m :: ms).filterMap Moment.record?) last = m.start.onDisk := by
  have hdisk : m.stop.onDisk = m.start.onDisk := by
    funext page
    apply hd.move.onDisk ho he
    intro hs
    obtain ⟨t, ht⟩ := hs.committed
    have hp : m.act.event.Puts page := by
      rw [ht]
      rfl
    exact hq (Act.overwrites_of_puts hp)
  rw [hdisk] at hms
  by_cases hl : ∃ t before after, m.act = .logged t before after
  · obtain ⟨t, before, after, hl⟩ := hl
    obtain ⟨hbefore, a, hafter⟩ := hr.image ho hl
    rw [List.filterMap_cons, Moment.record?_of_logged hl hbefore hafter]
    exact undo_cons_same rfl _ hms
  · have hnone : m.record? = none :=
      Moment.record?_of_not_logged fun t b a hl' => hl ⟨t, b, a, hl'⟩
    rw [List.filterMap_cons, hnone]
    exact hms

theorem History.undo_quiet {txn : TxnId} {ms : List Moment} {s u : Store} (h : History ms s u)
    (ho : s.Orderly) (he : ∀ m ∈ ms, m.act.event.Orderly) (hq : ∀ m ∈ ms, ¬ m.act.Overwrites)
    (hr : ∀ m ∈ ms, m.Records) : undo txn (ms.filterMap Moment.record?) u.onDisk = s.onDisk := by
  induction h with
  | nil => rfl
  | cons hd _ ih =>
    rw [List.forall_mem_cons] at he hq hr
    have hrest := ih (hd.move.orderly ho he.1) he.2 hq.2 hr.2
    exact Store.undo_quiet (m := ⟨_, _, _⟩) ho hd he.1 hq.1 hr.1 hrest

/-- To undo the record behind which a page was committed restores what was there. -/
theorem Behind.undo {txn : TxnId} {a b m : Moment} {t : TxnId} {page : PageId}
    {before after : Page} (h : Behind a b m t page before after) (ho : a.start.Orderly)
    (hda : a.act.Does a.start a.stop) (hdb : b.act.Does b.start b.stop)
    (hdm : m.act.Does m.start m.stop) (he : m.act.event.Orderly) (hr : a.Records)
    (ht : ∀ t q, m.act.event = .committed t q → t = txn) {ms : List Moment}
    {last : PageId → Block}
    (hms : undo txn (ms.filterMap Moment.record?) last = m.stop.onDisk) :
    undo txn ((a :: b :: m :: ms).filterMap Moment.record?) last = a.start.onDisk := by
  obtain ⟨hbefore, image, hafter⟩ := hr.image ho h.logged
  obtain ⟨log, hlog⟩ := h.log hda hdb
  have hstart : m.start.Orderly := by
    rw [hlog]
    exact (Move.logged (s := a.start)).orderly ho id
  have hcommit : m.act = .made (.committed t page) := by
    rcases h.written with hw | hw
    · rw [hw] at he
      exact he.elim
    · exact hw
  obtain rfl := ht t page (by rw [hcommit]; rfl)
  obtain ⟨f, hf, hpage⟩ := h.resident
  have hid : after.id = page := hpage ▸ (hstart.shaped.filed hf).2
  have hnone {n : Moment} (hn : ∀ t before after, n.act ≠ .logged t before after) :
      n.record? = none := Moment.record?_of_not_logged hn
  rw [List.filterMap_cons, Moment.record?_of_logged h.logged hbefore hafter, List.filterMap_cons,
    hnone (by simp [h.forced]), List.filterMap_cons, hnone (by simp [hcommit])]
  funext q
  show (if t = t ∧ q = after.id then a.start.onDisk after.id
    else Store.undo t (ms.filterMap Moment.record?) last q) = a.start.onDisk q
  split
  · rename_i hq
    rw [hq.2]
  · rename_i hq
    have hother : ¬ m.act.event.Saves q := by
      rw [hcommit]
      intro hs
      exact hq ⟨rfl, hid.trans hs |>.symm⟩
    rw [hms, hdm.move.onDisk hstart he hother, hlog]
    rfl

/-- To undo the records of a transaction, of which alone there are commits, leaves the files
as they were. -/
theorem Ahead.undo {txn : TxnId} {ms : List Moment} {s u : Store} (ha : Ahead ms)
    (h : History ms s u) (ho : s.Orderly) (he : ∀ m ∈ ms, m.act.event.Orderly)
    (hr : ∀ m ∈ ms, m.Records)
    (ht : ∀ m ∈ ms, ∀ t q, m.act.event = .committed t q → t = txn) :
    undo txn (ms.filterMap Moment.record?) u.onDisk = s.onDisk := by
  induction ha generalizing s with
  | nil =>
    cases h
    rfl
  | quiet hq _ ih =>
    obtain ⟨rfl, hd, hrest⟩ := h.first
    rw [List.forall_mem_cons] at he hr ht
    exact undo_quiet ho hd he.1 hq.1 hr.1 (ih hrest (hd.move.orderly ho he.1) he.2 hr.2 ht.2)
  | @refused m ms hm hq =>
    refine h.undo_quiet ho he ?_ hr
    rw [List.forall_mem_cons]
    exact ⟨by rw [hm]; exact id, fun n hn => (hq n hn).1⟩
  | @written a b m ms _ _ _ _ hb _ ih =>
    obtain ⟨rfl, hda, hrest⟩ := h.first
    obtain ⟨hnext, hdb, hrest⟩ := hrest.first
    obtain ⟨hlast, hdm, hrest⟩ := hrest.first
    simp only [List.forall_mem_cons] at he hr ht
    have hv : b.start.Orderly := by
      rw [hnext]
      exact hda.move.orderly ho he.1
    have hw : m.start.Orderly := by
      rw [hlast]
      exact hdb.move.orderly hv he.2.1
    have hx := hdm.move.orderly hw he.2.2.1
    exact hb.undo ho hda hdb hdm he.2.2.1 hr.1 ht.2.2.1 (ih hrest hx he.2.2.2 hr.2.2.2 ht.2.2.2)

/-! ## Runs -/

end RowStore.Store
