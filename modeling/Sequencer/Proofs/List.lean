import Mathlib.Data.List.Nodup

/-!
Lists that are read: each item by a reading that can fail, and entries by their keys.
-/

namespace Sequencer

theorem mapM_eq_some {α β : Type} {f : α → Option β} {g : α → β} {xs : List α}
    (h : ∀ x ∈ xs, f x = some (g x)) : xs.mapM f = some (xs.map g) := by
  induction xs with
  | nil => rfl
  | cons x xs ih =>
    rw [List.forall_mem_cons] at h
    simp [List.mapM_cons, h.1, ih h.2]

theorem find?_reverse_eq_lookup {α : Type} {entries : List (String × α)}
    (h : (entries.map (·.1)).Nodup) (key : String) :
    (entries.reverse.find? fun (k, _) => k = key).map (·.2) = entries.lookup key := by
  induction entries with
  | nil => rfl
  | cons entry rest ih =>
    obtain ⟨other, x⟩ := entry
    rw [List.map_cons, List.nodup_cons] at h
    rw [List.reverse_cons, List.find?_append, Option.map_or, ih h.2, List.lookup_cons]
    by_cases heq : key = other
    . subst heq
      have hnone : rest.lookup key = none := by
        rw [List.lookup_eq_none_iff]
        rintro ⟨other, y⟩ hmem
        simp only [bne_iff_ne]
        rintro rfl
        exact h.1 (List.mem_map.mpr ⟨_, hmem, rfl⟩)
      simp [hnone]
    . rw [beq_eq_false_iff_ne.mpr heq]
      simp [Ne.symm heq]

end Sequencer
