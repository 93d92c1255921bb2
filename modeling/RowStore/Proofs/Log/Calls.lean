import RowStore.Log

/-!
  Log calls — how a write and a force end.

  A call is counted whatever becomes of it. The device may refuse it. If it does not, a log
  that drops its records has nothing to do, and one that keeps them needs the images of both
  pages (`writes`), or marks what it has (`forces`).
-/

namespace RowStore

namespace Log

/-- The ways a write ends. -/
inductive Writes (l : Log) (txn : TxnId) (before after : Page) :
    Except StoreError Unit × Log → Prop
  | refused {e : StoreError} (hdevice : l.failingWrite (l.writeCalls + 1) = some e) :
    Writes l txn before after (.error e, { l with writeCalls := l.writeCalls + 1 })
  | dropped (hdevice : l.failingWrite (l.writeCalls + 1) = none) (hkeeps : l.keeps = false) :
    Writes l txn before after (.ok (), { l with writeCalls := l.writeCalls + 1 })
  | unwritable {e : StoreError} (hdevice : l.failingWrite (l.writeCalls + 1) = none)
    (hkeeps : l.keeps = true)
    (himages : before.image = .error e ∨ (∃ b, before.image = .ok b) ∧ after.image = .error e) :
    Writes l txn before after (.error e, { l with writeCalls := l.writeCalls + 1 })
  | recorded {b a : Block} (hdevice : l.failingWrite (l.writeCalls + 1) = none)
    (hkeeps : l.keeps = true) (hbefore : before.image = .ok b) (hafter : after.image = .ok a) :
    Writes l txn before after
      (.ok (), { l with
        writeCalls := l.writeCalls + 1
        memory := l.memory.append txn after.id b a })

/-- The ways a force ends. -/
inductive Forces (l : Log) : Except StoreError Unit × Log → Prop
  | refused {e : StoreError} (hdevice : l.failingForce (l.forceCalls + 1) = some e) :
    Forces l (.error e, { l with forceCalls := l.forceCalls + 1 })
  | dropped (hdevice : l.failingForce (l.forceCalls + 1) = none) (hkeeps : l.keeps = false) :
    Forces l (.ok (), { l with forceCalls := l.forceCalls + 1 })
  | marked (hdevice : l.failingForce (l.forceCalls + 1) = none) (hkeeps : l.keeps = true) :
    Forces l (.ok (), { l with forceCalls := l.forceCalls + 1, memory := l.memory.force })

theorem writes (l : Log) (txn : TxnId) (before after : Page) :
    l.Writes txn before after (l.write txn before after) := by
  unfold write
  simp only [Bool.not_eq_true']
  split
  · exact .refused ‹_›
  rename_i hdevice
  split
  · exact .dropped hdevice ‹_›
  rename_i hdrops
  have hkeeps := (Bool.not_eq_false l.keeps).mp hdrops
  split
  · exact .unwritable hdevice hkeeps (.inl ‹_›)
  · rename_i hbefore hafter
    exact .unwritable hdevice hkeeps (.inr ⟨⟨_, hbefore⟩, hafter⟩)
  · rename_i hbefore hafter
    exact .recorded hdevice hkeeps hbefore hafter

theorem forces (l : Log) : l.Forces l.force := by
  unfold force
  simp only [Bool.not_eq_true']
  split
  · exact .refused ‹_›
  rename_i hdevice
  split
  · exact .dropped hdevice ‹_›
  · rename_i hdrops
    exact .marked hdevice ((Bool.not_eq_false l.keeps).mp hdrops)

end Log

end RowStore
