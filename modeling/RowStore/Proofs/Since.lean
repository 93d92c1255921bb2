import Mathlib.Data.List.Induction

/-!
  Since — what holds after a history because of its last changes.

  Something begins with changes of one kind and ends with changes of another. It holds after
  a history if it began and did not end since (`Since`). What each change begins, ends or
  leaves as it was, and what did not hold at first, holds in this sense (`since_iff`).
-/

namespace RowStore

section Since
variable {α : Type} {starts ends : α → Prop}

/-- A change of the first kind happened, and none of the second kind since. -/
def Since (starts ends : α → Prop) (history : List α) : Prop :=
  ∃ past x later, history = past ++ x :: later ∧ starts x ∧ ∀ y ∈ later, ¬ ends y

theorem not_since_nil : ¬ Since starts ends [] := by
  rintro ⟨past, x, later, h, -⟩
  simp at h

theorem since_concat {history : List α} {x : α} :
    Since starts ends (history ++ [x]) ↔ starts x ∨ (Since starts ends history ∧ ¬ ends x) := by
  constructor
  · rintro ⟨past, y, later, h, hy, hlater⟩
    rcases later.eq_nil_or_concat with rfl | ⟨later, z, rfl⟩
    · obtain ⟨-, hxy⟩ := List.append_inj' h rfl
      obtain rfl := List.singleton_inj.mp hxy
      exact .inl hy
    · rw [List.concat_eq_append, ← List.cons_append, ← List.append_assoc] at h
      obtain ⟨rfl, hxz⟩ := List.append_inj' h rfl
      obtain rfl := List.singleton_inj.mp hxz
      refine .inr ⟨⟨past, y, later, rfl, hy, fun w hw => hlater w ?_⟩, hlater x ?_⟩
      · simp [hw]
      · simp
  · rintro (hx | ⟨⟨past, y, later, rfl, hy, hlater⟩, hx⟩)
    · exact ⟨history, x, [], rfl, hx, by simp⟩
    · refine ⟨past, y, later ++ [x], by simp, hy, fun z hz => ?_⟩
      rcases List.mem_append.mp hz with hz | hz
      · exact hlater z hz
      · rw [List.mem_singleton.mp hz]
        exact hx

/-- What holds after each change in this sense, holds so after all. -/
theorem since_iff {P : List α → Prop} (hnil : ¬ P [])
    (hconcat : ∀ history x, P (history ++ [x]) ↔ starts x ∨ (P history ∧ ¬ ends x))
    (history : List α) : P history ↔ Since starts ends history := by
  induction history using List.reverseRecOn with
  | nil => exact iff_of_false hnil not_since_nil
  | append_singleton history x ih => rw [hconcat, since_concat, ih]

end Since

end RowStore
