import Sequencer.Proofs.Instruction.Arrival

/-!
What is nested in instructions that are laid out is what the layout has, in the order of places.
-/

namespace Sequencer

open Instruction

namespace Graph

variable {σ : Type}

theorem nested_kind_places (graph start : Nat) (i : Instruction σ) :
    (i.kind (places graph start i.nested)).nested = places graph start i.nested := by
  cases i with
  | condition test alternative => cases alternative <;> rfl
  | timedCondition timer test alternative => cases alternative <;> rfl
  | _ => rfl

theorem Lowered.children_eq {g : Graph σ} {place : Nat} {i : Instruction σ}
    {next : Option InstructionId} (h : g.Lowered place i next) :
    g.children ⟨g.id, place⟩ = places g.id (place + 1) i.nested := by
  obtain ⟨kind, hkind, heq⟩ := h.exists_kind
  rw [Graph.children_eq, hkind, Option.map_some, Option.getD_some, ← NodeKind.nested_unvisited,
    heq, NodeKind.nested_unvisited, nested_kind_places]

theorem flatMap_subtree_places {g : Graph σ} {start : Nat} {owner exit : Option InstructionId}
    {is : List (Instruction σ)} (h : g.Carries start (layout g.id start owner exit is))
    (hsize : start + sizeAll is ≤ g.size) :
    (places g.id start is).flatMap g.subtree =
      (List.range' start (sizeAll is)).map fun place => ⟨g.id, place⟩ := by
  induction is using forest_induction generalizing start owner exit with
  | nil => simp [places]
  | cons i rest ihNested ihRest =>
    obtain ⟨hnode, hnested, hrest⟩ := carries_layout_cons h
    have hsizeEq := size_eq i
    rw [sizeAll_cons] at hsize ⊢
    have hsubtree : g.subtree ⟨g.id, start⟩ =
        ⟨g.id, start⟩ :: (places g.id (start + 1) i.nested).flatMap g.subtree := by
      rw [subtree, hnode.children_eq]
      congr 1
      apply List.flatMap_congr
      intro child hchild
      have := mem_places hchild
      rw [if_pos]
      dsimp only
      omega
    rw [places, List.flatMap_cons, hsubtree, ihNested hnested (by omega), ihRest hrest (by omega),
      ← List.range'_append_1, hsizeEq, List.range'_succ]
    simp

end Graph

end Sequencer
