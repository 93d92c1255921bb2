import RowStore.Proofs.Page.Formed
import RowStore.Proofs.Store.Simulating

/-!
  Chronicles — all that has happened in a run of whole calls, act by act.

  In such a run every resident page can be read from its file again, which shows the same
  image unless the page is dirty (`Tended`), and its before-image gives back the page as it
  was when it was clean last (`Recalls`). Each act keeps both, flushes and early releases
  among them, whatever the files hold at first (`History.recalls`).
-/

namespace RowStore

namespace Store

/-! ## Resident pages and their files -/

/-- A resident page is of its table, and it can be read from its file, which shows the same
image unless the page is dirty. -/
structure Tends (s : Store) (page : PageId) (p : Page) : Prop where
  formed : p.Formed
  schema : ∀ {k : HandleNo}, s.handle? page.table = some k → p.schema = (s.heap k).schema
  rereads : ∃ q, Page.ofImage page p.schema (s.onDisk page) = .ok q ∧
    (p.dirtier = none → q.image = p.image)

structure Tended (s : Store) : Prop where
  shaped : s.Shaped
  housed : s.Housed
  tends : ∀ {page : PageId} {f : FrameNo}, s.table.frame? page = some f →
    s.Tends page (s.frames.page f)

theorem Ready.tended {s : Store} (h : s.Ready) : s.Tended := by
  refine ⟨h.unused.shaped, h.current.housed, fun {page f} hf => ?_⟩
  rw [h.unused.table] at hf
  simp [PageTable.frame?, PageTable.empty] at hf

/-- The events of whole calls that return. -/
def Event.Whole : Event → Prop
  | .installed _ _ => False
  | e => ¬ e.Endless

theorem Event.Whole.not_endless {e : Event} (h : e.Whole) : ¬ e.Endless := by
  cases e with
  | installed => exact h.elim
  | _ => exact h

theorem Event.Whole.not_installed {e : Event} (h : e.Whole) (txn : TxnId) (f : FrameNo) :
    e ≠ .installed txn f := by
  intro he
  rw [he] at h
  exact h

theorem Move.tends {e : Event} {s s' : Store} (hm : Move e s s') (h : s.Tended) (he : e.Whole)
    {page : PageId} {f : FrameNo} (hf : s'.table.frame? page = some f) :
    s'.Tends page (s'.frames.page f) := by
  have hfiles := hm.keepsFiles h.shaped h.housed he.not_endless
  have hschema {p : Page}
      (hp : ∀ {k}, s.handle? page.table = some k → p.schema = (s.heap k).schema) {k : HandleNo}
      (hk : s'.handle? page.table = some k) : p.schema = (s'.heap k).schema := by
    rw [(Trace.single hm).handle?] at hk
    rw [(hm.heap k).schema]
    exact hp hk
  cases hm.enters hf with
  | stays hwas =>
    have hold := h.tends hwas
    obtain ⟨hlt, hid⟩ := h.shaped.filed hwas
    by_cases hp : e.Puts page
    · -- what was written is read as it was written
      obtain ⟨g, hg, hd, hw⟩ := hm.puts h.shaped h.housed hp
      obtain rfl : g = f := Option.some.inj (hg.symm.trans hwas)
      obtain ⟨hread, himage⟩ := hold.formed.rereads hw.image
      rw [hid] at hread himage
      have hwritten : (s.frames.page g).image = .ok (s'.onDisk page) := hid ▸ hw.image
      cases (hm.turns hlt).2 with
      | kept hsame =>
        rw [hsame]
        exact ⟨hold.formed, hschema hold.schema, _, hread, fun hc => absurd hc hd⟩
      | changed => exact hp.elim
      | committed _ _ _ hsame =>
        rw [hsame]
        exact ⟨hold.formed.settled _, hschema hold.schema, _, hread,
          fun _ => himage.trans hwritten.symm⟩
    · obtain ⟨q, hq, hclean⟩ := hold.rereads
      rw [← hfiles.onDisk (h.housed.held hwas) hp] at hq
      cases (hm.turns hlt).2 with
      | kept hsame =>
        rw [hsame]
        exact ⟨hold.formed, hschema hold.schema, q, hq, hclean⟩
      | changed hedit =>
        have hkept := hedit.kept
        refine ⟨hedit.formed hold.formed, hschema ?_, q, ?_, ?_⟩
        · exact fun hk => hkept.schema.trans (hold.schema hk)
        · rw [hkept.schema]
          exact hq
        · intro hc
          rw [hkept.dirtier] at hc
          simp at hc
      | committed hres => exact absurd (h.shaped.frame_inj hres hwas) hp
  | @loaded k _ _ _ hk hp =>
    -- it is what has just been read
    have hheld := (held_of_readPage hk hp).1
    have hnot : ¬ Event.Puts page (.loaded page) := id
    obtain ⟨b, hb, ho⟩ := Page.readPage_eq_ok hp
    obtain ⟨-, -, rfl⟩ := HeapFile.readImage_eq_ok_iff.mp hb
    rw [← onDisk_of_handle hk, ← hfiles.onDisk hheld hnot] at ho
    have hof : (s'.frames.page f).schema = (s.heap k).schema := by
      obtain ⟨slots, rows, -, -, heq⟩ := Page.ofImage_eq_ok ho
      rw [heq]
    refine ⟨Page.formed_ofImage ho, hschema fun {j} hj => ?_, _, hof ▸ ho, fun _ => rfl⟩
    rw [hof, Option.some.inj (hk.symm.trans hj)]
  | installed => exact he.elim

theorem Move.tended {e : Event} {s s' : Store} (hm : Move e s s') (h : s.Tended)
    (he : e.Whole) : s'.Tended where
  shaped := hm.shaped h.shaped
  housed := hm.housed h.shaped h.housed he.not_endless he.not_installed
  tends := hm.tends h he

/-! ## Resident pages and their before-images -/

/-- The resident instance of a page, if it is clean. -/
def clean? (s : Store) (page : PageId) : Option Page :=
  match s.table.frame? page with
  | some f => if (s.frames.page f).dirtier = none then some (s.frames.page f) else none
  | none => none

/-- The instance of a page that was clean last. -/
def lastClean (page : PageId) (stores : List Store) : Option Page :=
  stores.foldl (fun last s => (s.clean? page).or last) none

/-- The before-image of every resident page gives back the instance that was clean last. -/
def Recalls (s : Store) (stores : List Store) : Prop :=
  ∀ {page : PageId} {f : FrameNo}, s.table.frame? page = some f → ∃ clean before,
    lastClean page stores = some clean ∧ (s.frames.page f).beforeImage = .ok before ∧
      before.image = clean.image ∧
      ((s.frames.page f).dirtier = none → clean.image = (s.frames.page f).image)

theorem lastClean_concat (page : PageId) (stores : List Store) (s : Store) :
    lastClean page (stores ++ [s]) = (s.clean? page).or (lastClean page stores) := by
  rw [lastClean, List.foldl_append]
  rfl

theorem lastClean_of_clean {s : Store} {page : PageId} {f : FrameNo}
    (hf : s.table.frame? page = some f) (hd : (s.frames.page f).dirtier = none)
    (stores : List Store) : lastClean page (stores ++ [s]) = some (s.frames.page f) := by
  have hclean : s.clean? page = some (s.frames.page f) := by
    simp only [clean?, hf, hd, if_true]
  rw [lastClean_concat, hclean]
  rfl

theorem lastClean_of_dirty {s : Store} {page : PageId} {f : FrameNo}
    (hf : s.table.frame? page = some f) (hd : (s.frames.page f).dirtier ≠ none)
    (stores : List Store) : lastClean page (stores ++ [s]) = lastClean page stores := by
  have hclean : s.clean? page = none := by
    simp only [clean?, hf, if_neg hd]
  rw [lastClean_concat, hclean]
  rfl

theorem Move.recalls {e : Event} {s s' : Store} (hm : Move e s s') (h : s.Tended) (he : e.Whole)
    {stores : List Store} (hr : s.Recalls stores) : s'.Recalls (stores ++ [s']) := by
  intro page f hf
  cases hm.enters hf with
  | stays hwas =>
    obtain ⟨clean, before, hlast, hbefore, himage, hclean⟩ := hr hwas
    cases (hm.turns (h.shaped.filed hwas).1).2 with
    | kept hsame =>
      rw [← hsame] at hbefore hclean
      by_cases hd : (s'.frames.page f).dirtier = none
      · exact ⟨_, before, lastClean_of_clean hf hd stores, hbefore, himage.trans (hclean hd),
          fun _ => rfl⟩
      · exact ⟨clean, before, (lastClean_of_dirty hf hd stores).trans hlast, hbefore, himage, hclean⟩
    | changed hedit =>
      have hkept := hedit.kept
      have hd : (s'.frames.page f).dirtier ≠ none := by simp [hkept.dirtier]
      exact ⟨clean, before, (lastClean_of_dirty hf hd stores).trans hlast,
        hkept.beforeImage.trans hbefore, himage, fun hc => absurd hc hd⟩
    | committed _ _ hb hsame =>
      obtain ⟨hread, hagain⟩ := (h.tends hwas).formed.rereads hb
      have hd : (s'.frames.page f).dirtier = none := by rw [hsame]
      refine ⟨_, (s.frames.page f).reread, lastClean_of_clean hf hd stores, ?_, ?_, fun _ => rfl⟩
      · rw [hsame]
        exact hread
      · rw [hsame]
        exact hagain.trans hb.symm
  | loaded _ _ _ hk hp =>
    have hd := Page.dirtier_readPage hp
    exact ⟨_, _, lastClean_of_clean hf hd stores, Page.beforeImage_readPage hp, rfl, fun _ => rfl⟩
  | installed => exact he.elim

/-! ## Histories -/

/-- The stores that a history goes through. -/
def stores (s : Store) (ms : List Moment) : List Store := s :: ms.map Moment.stop

theorem stores_concat (s : Store) (ms : List Moment) (m : Moment) :
    stores s (ms ++ [m]) = stores s ms ++ [m.stop] := by
  simp [stores]

/-- What holds at the beginning and is kept by every moment holds at the end. -/
theorem History.extend {P : List Moment → Store → Prop} {Q : Moment → Prop}
    (hstep : ∀ {ms u a v}, P ms u → Act.Does a u v → Q ⟨u, a, v⟩ → P (ms ++ [⟨u, a, v⟩]) v)
    {past ms : List Moment} {s u : Store} (h : History ms s u) (hp : P past s)
    (hq : ∀ m ∈ ms, Q m) : P (past ++ ms) u := by
  induction h generalizing past with
  | nil =>
    rw [List.append_nil]
    exact hp
  | cons hd _ ih =>
    rw [List.append_cons]
    exact ih (hstep hp hd (hq _ List.mem_cons_self))
      fun m hm => hq m (List.mem_cons_of_mem _ hm)

theorem History.first {ms : List Moment} {m : Moment} {s u : Store} (h : History (m :: ms) s u) :
    m.start = s ∧ m.act.Does m.start m.stop ∧ History ms m.stop u := by
  cases h with
  | cons hd hrest => exact ⟨rfl, hd, hrest⟩

/-- What comes before and after one moment of a history. -/
theorem History.moment {pre post : List Moment} {m : Moment} {s u : Store}
    (h : History (pre ++ m :: post) s u) :
    History pre s m.start ∧ m.act.Does m.start m.stop ∧ History post m.stop u := by
  induction pre generalizing s with
  | nil =>
    obtain ⟨rfl, hrest⟩ := h.first
    exact ⟨.nil, hrest⟩
  | cons n pre ih =>
    cases h with
    | cons hd hrest =>
      obtain ⟨hpre, hm, hpost⟩ := ih hrest
      exact ⟨.cons hd hpre, hm, hpost⟩

theorem History.recalls {s u : Store} {ms : List Moment} (h : History ms s u) (hs : s.Ready)
    (he : ∀ m ∈ ms, m.act.event.Whole) : u.Tended ∧ u.Recalls (stores s ms) := by
  have hstart : s.Recalls (stores s []) := by
    intro page f hf
    rw [hs.unused.table] at hf
    simp [PageTable.frame?, PageTable.empty] at hf
  refine h.extend (P := fun ms u => u.Tended ∧ u.Recalls (stores s ms)) ?_
    (show _ ∧ Recalls s (stores s []) from ⟨hs.tended, hstart⟩) he
  intro ms u a v hu hd hw
  refine ⟨hd.move.tended hu.1 hw, ?_⟩
  rw [stores_concat]
  exact hd.move.recalls hu.1 hw hu.2

/-- The moments of a run of whole calls that return. -/
inductive Chronicle (s₀ : Store) : List Moment → Store → Prop
  | start : Chronicle s₀ [] s₀
  | call {past ms : List Moment} {s : Store} (c : Call) : Chronicle s₀ past s →
    History ms s (s.after c.run) → (∀ m ∈ ms, c.Makes m.act.event ∧ ¬ m.act.event.Endless) →
    Chronicle s₀ (past ++ ms) (s.after c.run)

/-- A whole call installs nothing. -/
theorem Call.Makes.whole {c : Call} {e : Event} (h : c.Makes e) (hn : ¬ e.Endless) : e.Whole := by
  cases e with
  | installed txn f => cases c <;> simp [Call.Makes, Event.Fetch, Event.Seek, Event.Flush] at h
  | _ => exact hn

/-- A call that returns has not used up the page numbers. -/
theorem Account.not_endless {c : Call} {s : Store} {ms : List Moment}
    (h : Account c.run c.Makes s ms) (hc : c.halts s = true) : ∀ m ∈ ms, ¬ m.act.event.Endless := by
  intro m hm he
  obtain ⟨table, hrun⟩ := h.endless m hm he
  simp [Call.halts, hrun] at hc

namespace Chronicle

variable {s₀ s : Store} {past : List Moment}

theorem history (h : Chronicle s₀ past s) : History past s₀ s := by
  induction h with
  | start => exact .nil
  | call _ _ hms _ ih => exact ih.append hms

theorem whole (h : Chronicle s₀ past s) : ∀ m ∈ past, m.act.event.Whole := by
  induction h with
  | start => simp
  | call c _ _ he ih =>
    intro m hm
    rcases List.mem_append.mp hm with hm | hm
    · exact ih m hm
    · exact (he m hm).1.whole (he m hm).2

theorem account (h : Chronicle s₀ past s) {c : Call} {ms : List Moment}
    (hms : Account c.run c.Makes s ms) (hc : c.halts s = true) :
    Chronicle s₀ (past ++ ms) (s.after c.run) :=
  .call c h hms.history fun m hm => ⟨hms.events m hm, hms.not_endless hc m hm⟩

end Chronicle

end Store

end RowStore
