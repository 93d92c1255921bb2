import Std.Data.ExtTreeMap
import RowStore.Disk.HeapFile

/-!
  The catalog — which tables there are, by number and by name.

  Every table has one name and every name one table: adding a table first removes
  whatever had its name and whatever had its number.
-/

namespace RowStore

/-- An open heap file as the catalog knows it. -/
structure FileRef where
  handle : HandleNo
  table : TableId
  deriving DecidableEq, Repr, Inhabited

/-- A registered table. -/
structure TableEntry where
  file : FileRef
  name : String
  primaryKey : String
  deriving DecidableEq, Repr, Inhabited

structure Catalog where
  tables : Std.ExtTreeMap TableId TableEntry
  names : Std.ExtTreeMap String TableId

namespace Catalog

def empty : Catalog := ⟨∅, ∅⟩

instance : Inhabited Catalog := ⟨empty⟩

/-- Removes the table that has this name. -/
def dropName (c : Catalog) (name : String) : Catalog :=
  match c.names[name]? with
  | some table => ⟨c.tables.erase table, c.names.erase name⟩
  | none => c

/-- Removes the table that has this number. -/
def dropTable (c : Catalog) (table : TableId) : Catalog :=
  match c.tables[table]? with
  | some old => ⟨c.tables.erase table, c.names.erase old.name⟩
  | none => c

/-- Registers a heap file as the table `name`. -/
def add (c : Catalog) (file : FileRef) (name primaryKey : String) : Catalog :=
  let c := (c.dropName name).dropTable file.table
  ⟨c.tables.insert file.table ⟨file, name, primaryKey⟩, c.names.insert name file.table⟩

/-- The number of the table with this name. -/
def tableNamed (c : Catalog) (name : String) : Except StoreError TableId :=
  match c.names[name]? with
  | some table => .ok table
  | none => .error (.tableNameNotFound name)

/-- The entry of a table. -/
def entry (c : Catalog) (table : TableId) : Except StoreError TableEntry :=
  match c.tables[table]? with
  | some e => .ok e
  | none => .error (.tableNotFound table)

/-- The numbers of all tables. -/
def tableIds (c : Catalog) : List TableId := c.tables.keys

end Catalog

end RowStore
