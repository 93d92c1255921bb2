import Std.Data.ExtTreeMap
import Std.Data.ExtTreeSet
import RowStore.Ident

/-!
  Relations — which transactions have used which pages, looked up from both sides.

  The two indexes are each other's inverse and neither has an empty entry; every
  operation changes both.
-/

namespace RowStore

/-- A set of members for each key, none of them empty. -/
abbrev MultiMap (κ μ : Type) [Ord κ] [Ord μ] := Std.ExtTreeMap κ (Std.ExtTreeSet μ)

namespace MultiMap

variable {κ μ : Type} [Ord κ] [Std.TransOrd κ] [Ord μ] [Std.TransOrd μ]

/-- The members of a key. -/
def members (m : MultiMap κ μ) (k : κ) : Std.ExtTreeSet μ := m.getD k ∅

def add (m : MultiMap κ μ) (k : κ) (x : μ) : MultiMap κ μ := m.insert k ((m.members k).insert x)

/-- Removes a member, and its key with the last one. -/
def remove (m : MultiMap κ μ) (k : κ) (x : μ) : MultiMap κ μ :=
  let rest := (m.members k).erase x
  if rest.isEmpty then m.erase k else m.insert k rest

end MultiMap

/-- Pairs of a transaction and a page that it has used. -/
structure Relation where
  pages : MultiMap TxnId PageId
  txns : MultiMap PageId TxnId

namespace Relation

def empty : Relation := ⟨∅, ∅⟩

instance : Inhabited Relation := ⟨empty⟩

def add (r : Relation) (txn : TxnId) (page : PageId) : Relation :=
  ⟨r.pages.add txn page, r.txns.add page txn⟩

def remove (r : Relation) (txn : TxnId) (page : PageId) : Relation :=
  ⟨r.pages.remove txn page, r.txns.remove page txn⟩

/-- Removes every pair of a page. -/
def removePage (r : Relation) (page : PageId) : Relation :=
  { pages := (r.txns.members page).toList.foldl (fun m txn => m.remove txn page) r.pages
    txns := r.txns.erase page }

/-- Removes every pair of a transaction. -/
def removeTxn (r : Relation) (txn : TxnId) : Relation :=
  { pages := r.pages.erase txn
    txns := (r.pages.members txn).toList.foldl (fun m page => m.remove page txn) r.txns }

end Relation

end RowStore
