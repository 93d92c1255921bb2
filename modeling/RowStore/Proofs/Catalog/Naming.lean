import Mathlib.Data.List.Induction
import RowStore.Catalog
import RowStore.Proofs.Since

/-!
  Naming — each table has one name, and each name one table.

  The catalog looks tables up by name in one map and by number in another, and adding a table
  may have to remove two others, one that has its name and one that has its number. Main
  statement: after any changes a name leads to a table exactly if the table is registered
  under it, a table is registered exactly if it was added and since then neither its name nor
  its number was, and one more addition takes away just what is in its way
  (`changes_bijective`).
-/

namespace RowStore

namespace Catalog

/-! ## Changes -/

/-- A change of the catalog. -/
inductive Change where
  | add (file : FileRef) (name primaryKey : String)
  | clear

def change (c : Catalog) : Change → Catalog
  | .add file name key => c.add file name key
  | .clear => empty

/-- The catalog after changes in turn. -/
def changes (cs : List Change) : Catalog := cs.foldl change empty

/-- The change adds a table with this entry. -/
def Change.Adds (table : TableId) (e : TableEntry) : Change → Prop
  | .add file name key => file.table = table ∧ e = ⟨file, name, key⟩
  | .clear => False

/-- The change takes away a table of this name and number. -/
def Change.Removes (table : TableId) (name : String) : Change → Prop
  | .add file n _ => file.table = table ∨ n = name
  | .clear => True

/-- Names and tables are in bijection, and every table is filed under its number. -/
structure Bijective (c : Catalog) : Prop where
  named : ∀ name table, c.tableNamed name = .ok table ↔ ∃ e, c.entry table = .ok e ∧ e.name = name
  filed : ∀ table e, c.entry table = .ok e → e.file.table = table

/-- Catalog `d` is catalog `c` with a table added and whatever had its name or number gone. -/
structure Replaces (c d : Catalog) (file : FileRef) (name key : String) : Prop where
  entry : ∀ table e, d.entry table = .ok e ↔
    (table = file.table ∧ e = ⟨file, name, key⟩) ∨
      (table ≠ file.table ∧ e.name ≠ name ∧ c.entry table = .ok e)
  named : ∀ n table, d.tableNamed n = .ok table ↔
    (n = name ∧ table = file.table) ∨
      (n ≠ name ∧ table ≠ file.table ∧ c.tableNamed n = .ok table)

/-! ## Lookups -/

section Lookups
variable {c : Catalog} {table t : TableId} {name n : String} {e : TableEntry}

theorem entry_eq_ok_iff : c.entry table = .ok e ↔ c.tables[table]? = some e := by
  unfold entry
  cases c.tables[table]? <;> simp

theorem tableNamed_eq_ok_iff : c.tableNamed name = .ok table ↔ c.names[name]? = some table := by
  unfold tableNamed
  cases c.names[name]? <;> simp

theorem mem_tableIds : table ∈ c.tableIds ↔ ∃ e, c.entry table = .ok e := by
  simp only [entry_eq_ok_iff, tableIds, Std.ExtTreeMap.mem_keys,
    Std.ExtTreeMap.mem_iff_isSome_getElem?, Option.isSome_iff_exists]

theorem nodup_tableIds (c : Catalog) : c.tableIds.Nodup :=
  (Std.ExtTreeMap.distinct_keys (t := c.tables)).imp fun h he => h (Std.compare_eq_iff_eq.mpr he)

theorem names_dropName : (c.dropName name).names[n]? = if n = name then none else c.names[n]? := by
  unfold dropName
  split
  · simp [Std.ExtTreeMap.getElem?_erase, @eq_comm _ name n]
  · rename_i h
    split
    · rename_i hn
      rw [hn, h]
    · rfl

theorem tables_dropName :
    (c.dropName name).tables[t]? = if c.names[name]? = some t then none else c.tables[t]? := by
  unfold dropName
  split
  · rename_i table h
    simp [h, Std.ExtTreeMap.getElem?_erase]
  · rename_i h
    simp [h]

theorem tables_dropTable :
    (c.dropTable table).tables[t]? = if t = table then none else c.tables[t]? := by
  unfold dropTable
  split
  · simp [Std.ExtTreeMap.getElem?_erase, @eq_comm _ table t]
  · rename_i h
    split
    · rename_i ht
      rw [ht, h]
    · rfl

theorem names_dropTable : (c.dropTable table).names[n]? =
    if (c.tables[table]?).map TableEntry.name = some n then none else c.names[n]? := by
  unfold dropTable
  split
  · rename_i old h
    simp [h, Std.ExtTreeMap.getElem?_erase]
  · rename_i h
    simp [h]

theorem tables_add {file : FileRef} {key : String} : (c.add file name key).tables[t]? =
    if t = file.table then some ⟨file, name, key⟩ else (c.dropName name).tables[t]? := by
  have hadd : (c.add file name key).tables[t]? = if t = file.table then
      some ⟨file, name, key⟩ else ((c.dropName name).dropTable file.table).tables[t]? := by
    simp [add, Std.ExtTreeMap.getElem?_insert, @eq_comm _ file.table t]
  rw [hadd, tables_dropTable]
  split <;> rfl

end Lookups

/-! ## One change -/

section Change
variable {c d : Catalog} {file : FileRef} {table t : TableId} {name key n : String} {e : TableEntry}

theorem bijective_empty : Bijective empty where
  named name table := by simp [tableNamed, entry, empty]
  filed table e h := by simp [entry, empty] at h

/-- What had the name goes with it. -/
theorem Bijective.entry_dropName (h : c.Bijective) :
    (c.dropName name).entry t = .ok e ↔ e.name ≠ name ∧ c.entry t = .ok e := by
  rw [entry_eq_ok_iff, tables_dropName, entry_eq_ok_iff]
  have hnamed := h.named name t
  simp only [tableNamed_eq_ok_iff, entry_eq_ok_iff] at hnamed
  split
  · rename_i hn
    obtain ⟨old, hold, hname⟩ := hnamed.mp hn
    refine iff_of_false (by simp) fun ⟨hne, he⟩ => hne ?_
    rw [← hname, Option.some.inj (he.symm.trans hold)]
  · rename_i hn
    exact ⟨fun he => ⟨fun hname => hn (hnamed.mpr ⟨e, he, hname⟩), he⟩, And.right⟩

theorem named_dropName :
    (c.dropName name).tableNamed n = .ok t ↔ n ≠ name ∧ c.tableNamed n = .ok t := by
  rw [tableNamed_eq_ok_iff, names_dropName, tableNamed_eq_ok_iff]
  split <;> simp [*]

theorem Bijective.dropName (h : c.Bijective) (name : String) : (c.dropName name).Bijective where
  named n table := by
    rw [named_dropName, h.named]
    constructor
    · rintro ⟨hne, e, he, rfl⟩
      exact ⟨e, h.entry_dropName.mpr ⟨hne, he⟩, rfl⟩
    · rintro ⟨e, he, rfl⟩
      obtain ⟨hne, he⟩ := h.entry_dropName.mp he
      exact ⟨hne, e, he, rfl⟩
  filed table e he := h.filed table e (h.entry_dropName.mp he).2

/-- What had the number goes with it. -/
theorem Bijective.named_dropTable (h : c.Bijective) :
    (c.dropTable table).tableNamed n = .ok t ↔ t ≠ table ∧ c.tableNamed n = .ok t := by
  have hnamed := h.named n table
  rw [tableNamed_eq_ok_iff, names_dropTable, tableNamed_eq_ok_iff]
  simp only [tableNamed_eq_ok_iff, entry_eq_ok_iff] at hnamed
  split
  · rename_i hold
    have hn := hnamed.mpr (Option.map_eq_some_iff.mp hold)
    refine iff_of_false (by simp) fun ⟨hne, ht⟩ => hne ?_
    exact Option.some.inj (ht.symm.trans hn)
  · rename_i hold
    refine ⟨fun ht => ⟨?_, ht⟩, And.right⟩
    rintro rfl
    exact hold (Option.map_eq_some_iff.mpr (hnamed.mp ht))

/-- What an addition leaves of a catalog in bijection. -/
theorem Bijective.replaces (h : c.Bijective) (file : FileRef) (name key : String) :
    Replaces c (c.add file name key) file name key where
  entry table e := by
    rw [entry_eq_ok_iff, tables_add]
    split
    · rename_i ht
      simp [ht, eq_comm]
    · rename_i ht
      rw [← entry_eq_ok_iff, h.entry_dropName]
      simp [ht]
  named n table := by
    have hadd : (c.add file name key).names[n]? = if n = name then
        some file.table else ((c.dropName name).dropTable file.table).names[n]? := by
      simp [add, Std.ExtTreeMap.getElem?_insert, @eq_comm _ name n]
    rw [tableNamed_eq_ok_iff, hadd]
    split
    · rename_i hn
      simp [hn, eq_comm]
    · rename_i hn
      rw [← tableNamed_eq_ok_iff, (h.dropName name).named_dropTable, named_dropName]
      simp [hn]

/-- Whatever such an addition leaves is in bijection again. -/
theorem Replaces.bijective (hr : Replaces c d file name key) (h : c.Bijective) : d.Bijective where
  named n table := by
    simp only [hr.named, hr.entry, h.named]
    constructor
    · rintro (⟨rfl, rfl⟩ | ⟨hn, ht, e, he, rfl⟩)
      · exact ⟨_, .inl ⟨rfl, rfl⟩, rfl⟩
      · exact ⟨e, .inr ⟨ht, hn, he⟩, rfl⟩
    · rintro ⟨e, ⟨ht, rfl⟩ | ⟨ht, hn, he⟩, rfl⟩
      · exact .inl ⟨rfl, ht⟩
      · exact .inr ⟨hn, ht, e, he, rfl⟩
  filed table e he := by
    rcases (hr.entry table e).mp he with ⟨ht, rfl⟩ | ⟨-, -, he⟩
    · exact ht.symm
    · exact h.filed table e he

theorem Bijective.change (h : c.Bijective) (x : Change) : (c.change x).Bijective := by
  cases x with
  | add file name key => exact (h.replaces file name key).bijective h
  | clear => exact bijective_empty

end Change

/-! ## Any changes -/

section Changes

theorem changes_concat (cs : List Change) (x : Change) :
    changes (cs ++ [x]) = (changes cs).change x := by
  simp [changes]

theorem bijective (cs : List Change) : (changes cs).Bijective := by
  induction cs using List.reverseRecOn with
  | nil => exact bijective_empty
  | append_singleton cs x ih =>
    rw [changes_concat]
    exact ih.change x

/-- A table is registered if it was added and nothing has taken it away since. -/
theorem entry_changes (cs : List Change) (table : TableId) (e : TableEntry) :
    (changes cs).entry table = .ok e ↔
      Since (Change.Adds table e) (Change.Removes table e.name) cs := by
  refine since_iff (P := fun cs => (changes cs).entry table = .ok e) ?_ (fun cs x => ?_) cs
  · simp [entry, changes, empty]
  · rw [changes_concat]
    cases x with
    | add file name key =>
      rw [change, ((bijective cs).replaces file name key).entry]
      simp only [Change.Adds, Change.Removes, not_or, @eq_comm _ table, @eq_comm _ e.name, ne_eq]
      tauto
    | clear => simp [change, Change.Adds, Change.Removes, entry, empty]

/-- After any additions and clearings, with whatever files and names, a name leads to a number
exactly if the table of that number is registered under it, each table is filed under the
number of its file, and the numbers of the registered tables are listed once each. A table is
registered as it was added exactly if since then neither its number nor its name was added and
nothing was cleared. One more addition registers its table, takes away just the tables with its
name or number, and leaves all others. -/
theorem changes_bijective (cs : List Change) :
    (changes cs).Bijective ∧
      ((changes cs).tableIds.Nodup ∧
        ∀ table, table ∈ (changes cs).tableIds ↔ ∃ e, (changes cs).entry table = .ok e) ∧
      (∀ table e, (changes cs).entry table = .ok e ↔
        Since (Change.Adds table e) (Change.Removes table e.name) cs) ∧
      ∀ file name key,
        Replaces (changes cs) ((changes cs).add file name key) file name key :=
  ⟨bijective cs, ⟨nodup_tableIds _, fun _ => mem_tableIds⟩, entry_changes cs,
    (bijective cs).replaces⟩

end Changes

end Catalog

end RowStore
