import RowStore.Proofs.Catalog.Naming
import RowStore.Proofs.Store.Backing

/-!
  Preparing — the stores that calls on the pool begin with.

  A store is prepared by making directories, opening heap files and registering them as
  tables; files may hold anything by then. The number of a table is the place of its file
  among those opened, so two tables are never in one file (`Prepared.laid`). As long as
  each file has page numbers left, that is all that the pool needs (`Ready.current`).
-/

namespace RowStore

/-! ## Volumes -/

namespace Volume

/-- Every file that has a name is there. -/
def Linked (v : Volume) : Prop := ∀ place no, (place, Entry.file no) ∈ v.entries → no < v.files.size

theorem linked_empty : Linked empty := by
  intro place no h
  simp [empty] at h

theorem Linked.setFile {v : Volume} (h : v.Linked) (no : FileNo) (f : File) :
    (v.setFile no f).Linked := by
  intro place n hn
  simpa [Volume.setFile] using h place n hn

theorem mem_of_lookup {v : Volume} {place : DirNo × String} {x : Entry}
    (h : v.entries.lookup place = some x) : (place, x) ∈ v.entries := by
  obtain ⟨before, rest, heq, -⟩ := List.lookup_eq_some_iff.mp h
  rw [heq]
  simp

theorem child?_eq_ok {v : Volume} {directory : DirNo} {name : String} {x : Option Entry}
    (h : v.child? directory name = .ok x) : x = v.entries.lookup (directory, name) := by
  unfold child? at h
  split at h
  · simp at h
  · exact (Except.ok.inj h).symm

/-- Opening a file gives a file that is there, and takes no file away. -/
theorem Linked.openFile {v w : Volume} (h : v.Linked) {path : String} {canonical : Path}
    {no : FileNo} (ho : v.openFile path = .ok (canonical, no, w)) :
    w.Linked ∧ no < w.files.size ∧ v.files.size ≤ w.files.size := by
  unfold Volume.openFile at ho
  simp only [bind, Except.bind, throw, throwThe, MonadExceptOf.throw, pure, Except.pure] at ho
  split at ho
  · simp at ho
  split at ho
  · simp at ho
  split at ho
  · simp at ho
  rename_i name _
  split at ho
  · simp at ho
  split at ho
  · simp at ho
  rename_i x hx
  have hlook := child?_eq_ok hx
  split at ho
  · obtain ⟨-, rfl, rfl⟩ := by simpa using ho
    exact ⟨h, h _ _ (mem_of_lookup hlook.symm), Nat.le_refl _⟩
  · simp at ho
  · obtain ⟨-, rfl, rfl⟩ := by simpa using ho
    refine ⟨?_, by simp, by simp⟩
    intro place n hn
    rcases List.mem_cons.mp hn with heq | hn
    · obtain ⟨-, hfile⟩ := Prod.mk.inj heq
      obtain rfl := Entry.file.inj hfile
      simp
    · simpa using Nat.lt_succ_of_lt (h place n hn)

theorem Linked.makeWay {names : List String} {way : Way} {v : Volume} (h : v.Linked) :
    (v.makeWay way names).1.Linked ∧ (v.makeWay way names).1.files = v.files := by
  induction names generalizing way v with
  | nil => exact ⟨h, rfl⟩
  | cons name rest ih =>
    rw [Volume.makeWay]
    split
    · exact ih h
    split
    · exact ih h
    split
    · exact ⟨h, rfl⟩
    · exact ⟨h, rfl⟩
    · exact ih h
    · split
      · exact ⟨h, rfl⟩
      · apply ih
        intro place n hn
        rcases List.mem_cons.mp hn with heq | hn
        · simp at heq
        · exact h place n hn

end Volume

namespace Store

/-! ## Heap files and tables -/

/-- Handles and catalog fit the files. -/
structure Laid (s : Store) : Prop where
  linked : s.volume.Linked
  opened : s.opened.Nodup
  numbered : ∀ {k : HandleNo}, k < s.handles.size → 0 < (s.heap k).table ∧
    s.opened[(s.heap k).table - 1]? = some (s.heap k).file
  made : ∀ {k : HandleNo}, k < s.handles.size → (s.heap k).file < s.volume.files.size
  sized : ∀ {k : HandleNo}, k < s.handles.size →
    HeapFile.checkPageSize (s.heap k).schema (s.heap k).pageSize = .ok ()
  registered : ∀ {table : TableId} {k : HandleNo}, s.handle? table = some k →
    k < s.handles.size ∧ (s.heap k).table = table

theorem laid_new (maxPages : Nat) (log : Log) : (new maxPages log).Laid where
  linked := Volume.linked_empty
  opened := List.nodup_nil
  numbered hk := absurd hk (Nat.not_lt_zero _)
  made hk := absurd hk (Nat.not_lt_zero _)
  sized hk := absurd hk (Nat.not_lt_zero _)
  registered hk := by simp [handle?, new, Catalog.empty] at hk

/-- Files may be written and more of them made. -/
theorem Laid.withVolume {s : Store} (h : s.Laid) {v : Volume} (hv : v.Linked)
    (hs : s.volume.files.size ≤ v.files.size) : Laid { s with volume := v } where
  linked := hv
  opened := h.opened
  numbered := h.numbered
  made hk := Nat.lt_of_lt_of_le (h.made hk) hs
  sized := h.sized
  registered := h.registered

theorem tableOf_run (s : Store) (no : FileNo) :
    tableOf no s = match s.opened.idxOf? no with
      | some i => .ok (i + 1) s
      | none => .ok (s.opened.length + 1) { s with opened := s.opened ++ [no] } := by
  unfold tableOf
  rw [bind_run, get_run]
  cases hi : s.opened.idxOf? no <;> simp only [hi] <;> rfl

/-- The number of a table is the place of its file among those opened. -/
theorem tableOf_place (s : Store) (no : FileNo) :
    ∃ table opened, tableOf no s = .ok table { s with opened := opened } ∧ 0 < table ∧
      opened[table - 1]? = some no ∧ (s.opened.Nodup → opened.Nodup) ∧
      ∀ (i : Nat) (x : FileNo), s.opened[i]? = some x → opened[i]? = some x := by
  have hrun := tableOf_run s no
  cases hi : s.opened.idxOf? no with
  | some i =>
    rw [hi] at hrun
    refine ⟨i + 1, s.opened, hrun, Nat.succ_pos i, ?_, id, fun _ _ hx => hx⟩
    obtain ⟨hlt, heq, -⟩ := List.idxOf?_eq_some_iff.mp hi
    rw [Nat.add_sub_cancel, List.getElem?_eq_getElem hlt]
    simpa using heq
  | none =>
    rw [hi] at hrun
    have hnot : no ∉ s.opened := List.idxOf?_eq_none_iff.mp hi
    refine ⟨_, _, hrun, Nat.succ_pos _, by simp, ?_, ?_⟩
    · intro hn
      refine List.nodup_append.mpr ⟨hn, by simp, ?_⟩
      intro a ha b hb hq
      subst hq
      rw [List.mem_singleton] at hb
      exact hnot (hb ▸ ha)
    · intro i x hx
      obtain ⟨hlt, -⟩ := List.getElem?_eq_some_iff.mp hx
      rw [List.getElem?_append_left hlt]
      exact hx

theorem heap_push (s : Store) (h : HeapFile) (k : HandleNo) :
    (s.handles.push h).getD k default = if k = s.handles.size then h else s.heap k := by
  simp only [heap, Array.getD_eq_getD_getElem?, Array.getElem?_push]
  split <;> rfl

theorem openHeap_run (s : Store) (path : String) (schema : Schema) (n : Nat) :
    openHeap path schema n s = match HeapFile.checkPageSize schema n with
      | .error e => .error e s
      | .ok _ => match s.volume.openFile path with
        | .error fault => .error (.io fault) s
        | .ok (canonical, no, v) => match tableOf no { s with volume := v } with
          | .error e u => .error e u
          | .ok table u => .ok u.handles.size { u with
              handles := u.handles.push ⟨table, no, canonical, schema, n, 0, 0⟩ } := by
  unfold openHeap
  rw [bind_run, ofExcept_run]
  cases HeapFile.checkPageSize schema n with
  | error e => rfl
  | ok a =>
    simp only
    rw [bind_run, get_run]
    simp only
    rw [bind_run]
    cases s.volume.openFile path with
    | error fault => rfl
    | ok r =>
      obtain ⟨canonical, no, v⟩ := r
      simp only [ofVolume, pure_run]
      rw [bind_run, modify_run]
      simp only
      rw [bind_run]
      cases tableOf no { s with volume := v } <;> rfl

/-- A store with one more handle is laid out well if the handle is. -/
theorem Laid.pushed {s : Store} (h : s.Laid) {v : Volume} {opened : List FileNo} (hv : v.Linked)
    (hle : s.volume.files.size ≤ v.files.size) (ho : opened.Nodup)
    (hkept : ∀ (i : Nat) (x : FileNo), s.opened[i]? = some x → opened[i]? = some x)
    {file : HeapFile} (hpos : 0 < file.table) (hplace : opened[file.table - 1]? = some file.file)
    (hno : file.file < v.files.size)
    (hc : HeapFile.checkPageSize file.schema file.pageSize = .ok ()) :
    Laid { s with volume := v, opened := opened, handles := s.handles.push file } := by
  have hheap (k : HandleNo) : (s.handles.push file).getD k default =
      if k = s.handles.size then file else s.heap k := heap_push s file k
  have hold {k : HandleNo} (hk : k < (s.handles.push file).size) (hne : k ≠ s.handles.size) :
      k < s.handles.size := by
    rw [Array.size_push] at hk
    exact Nat.lt_of_le_of_ne (Nat.le_of_lt_succ hk) hne
  -- every handle is the new one, or an old one that is as it was
  refine ⟨hv, ho, fun {k} hk => ?_, fun {k} hk => ?_, fun {k} hk => ?_, fun {t k} hk => ?_⟩
  · rw [heap, hheap]
    split
    · exact ⟨hpos, hplace⟩
    · rename_i hne
      obtain ⟨hp, hf⟩ := h.numbered (hold hk hne)
      exact ⟨hp, hkept _ _ hf⟩
  · rw [heap, hheap]
    split
    · exact hno
    · rename_i hne
      exact Nat.lt_of_lt_of_le (h.made (hold hk hne)) hle
  · rw [heap, hheap]
    split
    · exact hc
    · rename_i hne
      exact h.sized (hold hk hne)
  · have hk' : s.handle? t = some k := hk
    obtain ⟨hlt, ht⟩ := h.registered hk'
    refine ⟨?_, ?_⟩
    · rw [Array.size_push]
      exact Nat.lt_succ_of_lt hlt
    · rw [heap, hheap, if_neg (Nat.ne_of_lt hlt)]
      exact ht

theorem Laid.openHeap {s : Store} (h : s.Laid) (path : String) (schema : Schema) (n : Nat) :
    (s.after (openHeap path schema n)).Laid := by
  have hrun := openHeap_run s path schema n
  cases hc : HeapFile.checkPageSize schema n with
  | error e =>
    rw [hc] at hrun
    rw [after_error hrun]
    exact h
  | ok a =>
    rw [hc] at hrun
    cases ho : s.volume.openFile path with
    | error fault =>
      rw [ho] at hrun
      rw [after_error hrun]
      exact h
    | ok r =>
      obtain ⟨canonical, no, v⟩ := r
      obtain ⟨hv, hno, hle⟩ := h.linked.openFile ho
      obtain ⟨table, opened, htable, hpos, hplace, hnodup, hkept⟩ :=
        tableOf_place { s with volume := v } no
      rw [ho] at hrun
      simp only [htable] at hrun
      rw [after_ok hrun]
      exact h.pushed hv hle (hnodup h.opened) hkept hpos hplace hno hc

/-- A table that is registered was so before, or it is the one just added. -/
theorem tables_add {c : Catalog} {file : FileRef} {name key : String} {t : TableId}
    {e : TableEntry} (h : (c.add file name key).tables[t]? = some e) :
    (t = file.table ∧ e.file = file) ∨ c.tables[t]? = some e := by
  rw [Catalog.tables_add] at h
  split at h
  · rename_i ht
    obtain rfl := Option.some.inj h
    exact .inl ⟨ht, rfl⟩
  · rw [Catalog.tables_dropName] at h
    split at h
    · simp at h
    · exact .inr h

theorem Laid.addTable {s : Store} (h : s.Laid) {k : HandleNo} (hk : k < s.handles.size)
    (name key : String) : (s.after (addTable k name key)).Laid := by
  refine ⟨h.linked, h.opened, h.numbered, h.made, h.sized, fun {t j} hj => ?_⟩
  obtain ⟨e, he, hjk⟩ := Option.map_eq_some_iff.mp hj
  have he' : (s.catalog.add ⟨k, (s.heap k).table⟩ name key).tables[t]? = some e := he
  rcases tables_add he' with ⟨ht, hfile⟩ | hold
  · rw [hfile] at hjk
    obtain rfl : k = j := hjk
    exact ⟨hk, ht.symm⟩
  · exact h.registered (Option.map_eq_some_iff.mpr ⟨e, hold, hjk⟩)

theorem Laid.separate {s : Store} (h : s.Laid) : s.Separate := by
  refine ⟨fun hk => h.made (h.registered hk).1, fun {t u k j} hk hj htu hfile => ?_⟩
  obtain ⟨hkl, hkt⟩ := h.registered hk
  obtain ⟨hjl, hjt⟩ := h.registered hj
  obtain ⟨hkp, hko⟩ := h.numbered hkl
  obtain ⟨hjp, hjo⟩ := h.numbered hjl
  -- one file has one place among those opened
  rw [hfile] at hko
  have hplace : (s.heap k).table - 1 = (s.heap j).table - 1 :=
    (List.getElem?_inj (List.getElem?_eq_some_iff.mp hko).1 h.opened).mp (hko.trans hjo.symm)
  have hsame : (s.heap k).table = (s.heap j).table := Nat.sub_one_cancel hkp hjp hplace
  exact htu (hkt.symm.trans (hsame.trans hjt))

theorem Laid.backed {s : Store} (h : s.Laid)
    (hn : ∀ table k, s.handle? table = some k → s.wholePages k < pageNumbers) : s.Backed := by
  refine ⟨fun {table k} hk => ?_, h.separate.apart⟩
  obtain ⟨hlt, ht⟩ := h.registered hk
  exact ⟨ht, h.made hlt, h.sized hlt, hn table k hk⟩

/-! ## Preparation -/

/-- The stores that are prepared for calls on the pool: directories are made, heap files
opened and registered as tables, and whatever files hold is put there. -/
inductive Prepared : Store → Prop
  | new (maxPages : Nat) (log : Log) : Prepared (new maxPages log)
  | directory {s : Store} (path : String) : Prepared s → Prepared (s.after (makeDirectory path))
  | opened {s : Store} (path : String) (schema : Schema) (pageSize : Nat) :
    Prepared s → Prepared (s.after (openHeap path schema pageSize))
  | added {s : Store} {k : HandleNo} (name primaryKey : String) : Prepared s →
    k < s.handles.size → Prepared (s.after (addTable k name primaryKey))
  | filled {s : Store} (no : FileNo) (f : File) : Prepared s →
    Prepared { s with volume := s.volume.setFile no f }

theorem makeDirectory_linked {v : Volume} (h : v.Linked) (path : String) :
    (v.makeDirectory path).1.Linked ∧ (v.makeDirectory path).1.files = v.files := by
  unfold Volume.makeDirectory
  split
  · exact ⟨h, rfl⟩
  · exact h.makeWay

theorem openHeap_pool (s : Store) (path : String) (schema : Schema) (n : Nat) :
    SamePool s (s.after (openHeap path schema n)) := by
  have hrun := openHeap_run s path schema n
  cases hc : HeapFile.checkPageSize schema n with
  | error e =>
    rw [hc] at hrun
    rw [after_error hrun]
    exact ⟨rfl, rfl, rfl, rfl⟩
  | ok a =>
    rw [hc] at hrun
    cases ho : s.volume.openFile path with
    | error fault =>
      rw [ho] at hrun
      rw [after_error hrun]
      exact ⟨rfl, rfl, rfl, rfl⟩
    | ok r =>
      obtain ⟨canonical, no, v⟩ := r
      obtain ⟨table, opened, htable, -⟩ := tableOf_place { s with volume := v } no
      rw [ho] at hrun
      simp only [htable] at hrun
      rw [after_ok hrun]
      exact ⟨rfl, rfl, rfl, rfl⟩

theorem Unused.congr {s s' : Store} (h : s.Unused) (hp : SamePool s s') : s'.Unused :=
  ⟨hp.table.trans h.table, hp.locks.trans h.locks, hp.frames.trans h.frames⟩

theorem Prepared.laid {s : Store} (h : Prepared s) : s.Laid ∧ s.Unused := by
  induction h with
  | new maxPages log => exact ⟨laid_new maxPages log, rfl, rfl, rfl⟩
  | @directory s path _ ih =>
    obtain ⟨hv, hf⟩ := makeDirectory_linked ih.1.linked path
    have hafter : s.after (makeDirectory path) =
        { s with volume := (s.volume.makeDirectory path).1 } := by
      unfold makeDirectory
      rw [after_bind, get_run]
      simp only
      rw [after_bind, modify_run]
      simp only
      rw [after]
      cases (s.volume.makeDirectory path).2 <;> rfl
    rw [hafter]
    exact ⟨ih.1.withVolume hv (Nat.le_of_eq (by rw [hf])), ih.2.congr ⟨rfl, rfl, rfl, rfl⟩⟩
  | opened path schema n _ ih =>
    exact ⟨ih.1.openHeap path schema n, ih.2.congr (openHeap_pool _ path schema n)⟩
  | added name key _ hk ih => exact ⟨ih.1.addTable hk name key, ih.2.congr ⟨rfl, rfl, rfl, rfl⟩⟩
  | filled no f _ ih =>
    exact ⟨ih.1.withVolume (ih.1.linked.setFile no f) (by simp [Volume.setFile]),
      ih.2.congr ⟨rfl, rfl, rfl, rfl⟩⟩

/-- A pool that nobody has used, over tables that have page numbers left. -/
structure Ready (s : Store) : Prop where
  laid : s.Laid
  unused : s.Unused
  numbered : ∀ {table : TableId} {k : HandleNo}, s.handle? table = some k →
    s.wholePages k < pageNumbers

theorem Prepared.ready {s : Store} (h : Prepared s)
    (hn : ∀ table k, s.handle? table = some k → s.wholePages k < pageNumbers) : s.Ready :=
  ⟨h.laid.1, h.laid.2, fun hk => hn _ _ hk⟩

theorem Ready.current {s : Store} (h : s.Ready) : s.Current :=
  h.unused.current (h.laid.backed fun _ _ hk => h.numbered hk)

end Store

end RowStore
