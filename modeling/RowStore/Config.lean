/-!
  Configuration — page and pool sizes, and how long a lock request may wait.

  Each request draws its own wait from an interval, so two transactions blocked
  on each other give up at different moments. The bounds of an interval are in
  order however they were given (`LockWait.between_ordered`).
-/

namespace RowStore

/-- Bytes of a page unless a file asks for another size. -/
def defaultPageSize : Nat := 4096

/-- Pages a pool may hold unless it is told otherwise. -/
def defaultMaxPages : Nat := 50

/-- The interval, in milliseconds, from which a lock request draws its wait. -/
structure LockWait where
  min : Nat
  max : Nat
  deriving DecidableEq, Repr

namespace LockWait

/-- The interval between two bounds, whichever is given first. -/
def between (a b : Nat) : LockWait :=
  if a ≤ b then ⟨a, b⟩ else ⟨b, a⟩

/-- Every request waits equally long. -/
def fixed (wait : Nat) : LockWait := ⟨wait, wait⟩

/-- One to three seconds. -/
def standard : LockWait := between 1000 3000

theorem between_ordered (a b : Nat) : (between a b).min ≤ (between a b).max := by
  unfold between
  split <;> simp <;> omega

theorem between_comm (a b : Nat) : between a b = between b a := by
  unfold between
  split <;> split <;> simp <;> omega

end LockWait

/-- What a pool is built with. -/
structure PoolConfig where
  maxPages : Nat := defaultMaxPages
  lockWait : LockWait := LockWait.standard
  deriving DecidableEq, Repr

/-- The configuration a pool has unless it is told otherwise. -/
def PoolConfig.standard : PoolConfig := {}

end RowStore
