import Sequencer.Proofs.Instruction.Forest
import Sequencer.Proofs.Instruction.Successor

/-!
The handles that the nodes of a graph keep: what is nested in a node, what follows it and what it is
nested in. In a `Sound` graph all of them are handles of the graph itself, and they lead from an
owner to what it owns in the order of places, so a walk along them comes to an end.
-/

namespace Sequencer

open Instruction

def Node.handles {σ : Type} (n : Node σ) : List InstructionId :=
  n.kind.nested ++ n.next.toList ++ n.owner.toList

namespace Instruction

variable {σ : Type}

/-- There is no link, or it goes to the exit or to a node of the graph below the bound. -/
def Within (graph bound : Nat) (exit target : Option InstructionId) : Prop :=
  target = none ∨ target = exit ∨
    ∃ id, target = some id ∧ id.graph = graph ∧ id.index < bound

theorem Within.trans {graph bound bound' : Nat} {exit exit' target : Option InstructionId}
    (h : Within graph bound exit' target) (hexit : Within graph bound' exit exit')
    (hbound : bound ≤ bound') : Within graph bound' exit target := by
  rcases h with hnone | rfl | ⟨id, hid, hgraph, hlt⟩
  . exact Or.inl hnone
  . exact hexit
  . exact Or.inr (Or.inr ⟨id, hid, hgraph, by omega⟩)

theorem within_exit (graph bound : Nat) (exit : Option InstructionId) :
    Within graph bound exit exit :=
  Or.inr (Or.inl rfl)

theorem within_entry (graph start : Nat) (exit : Option InstructionId)
    (is : List (Instruction σ)) :
    Within graph (start + sizeAll is) exit (entry graph start exit is) := by
  cases is with
  | nil => apply within_exit
  | cons i rest =>
    have := size_pos i
    refine Or.inr (Or.inr ⟨_, rfl, rfl, ?_⟩)
    rw [sizeAll_cons]
    dsimp only
    omega

theorem within_next_of_mem_layout {graph start : Nat} {owner exit : Option InstructionId}
    {is : List (Instruction σ)} {n : Node σ} (hn : n ∈ layout graph start owner exit is) :
    Within graph (start + sizeAll is) exit n.next := by
  induction is using forest_induction generalizing start owner exit with
  | nil => simp at hn
  | cons i rest ihNested ihRest =>
    have hsize := size_eq i
    have hafter : Within graph (start + sizeAll (i :: rest)) exit
        (entry graph (start + i.size) exit rest) := by
      apply (within_entry graph (start + i.size) exit rest).trans (within_exit _ _ _)
      rw [sizeAll_cons]
      omega
    rw [layout, List.mem_cons, List.mem_append] at hn
    rcases hn with rfl | hn | hn
    . dsimp only
      split
      . exact Or.inl rfl
      . exact hafter
    . apply (ihNested hn).trans
      . split
        . exact hafter
        . exact Or.inl rfl
      . rw [sizeAll_cons]
        omega
    . apply (ihRest hn).trans (within_exit _ _ _)
      rw [sizeAll_cons]
      omega

theorem owner_of_getElem?_layout {graph start k : Nat} {owner exit : Option InstructionId}
    {is : List (Instruction σ)} {n : Node σ}
    (hn : (layout graph start owner exit is)[k]? = some n) :
    n.owner = owner ∨
      ∃ id, n.owner = some id ∧ id.graph = graph ∧ id.index < start + k := by
  induction is using forest_induction generalizing start owner exit k with
  | nil => simp at hn
  | cons i rest ihNested ihRest =>
    have hsize := size_eq i
    rw [layout] at hn
    cases k with
    | zero =>
      cases hn
      exact Or.inl rfl
    | succ k =>
      rw [List.getElem?_cons_succ] at hn
      by_cases hk : k < sizeAll i.nested
      . rw [List.getElem?_append_left (by rwa [length_layout])] at hn
        rcases ihNested hn with howner | ⟨id, howner, hgraph, hlt⟩
        . refine Or.inr ⟨_, howner, rfl, ?_⟩
          dsimp only
          omega
        . exact Or.inr ⟨id, howner, hgraph, by omega⟩
      . rw [List.getElem?_append_right (by rw [length_layout]; omega), length_layout] at hn
        rcases ihRest hn with howner | ⟨id, howner, hgraph, hlt⟩
        . exact Or.inl howner
        . exact Or.inr ⟨id, howner, hgraph, by omega⟩

end Instruction

namespace Graph

variable {σ : Type}

def handles (g : Graph σ) : List InstructionId :=
  g.nodes.toList.flatMap Node.handles

theorem node?_extend_of_le {g : Graph σ} {nodes : List (Node σ)} {id : InstructionId}
    (hid : g.size ≤ id.index) : (g.extend nodes).node? id = nodes[id.index - g.size]? := by
  simp only [node?, extend]
  rw [Array.getElem?_append_right hid]
  simp [size]

structure Sound (g : Graph σ) : Prop where
  forest : g.Forest
  next : ∀ id next, g.next? id = some next → g.contains next = true
  owner : ∀ id owner, g.owner? id = some owner → g.contains owner = true ∧ owner.index < id.index

theorem sound_empty (id : Nat) : (Graph.empty id : Graph σ).Sound where
  forest := forest_empty id
  next := by simp [next?, node?, Graph.empty]
  owner := by simp [owner?, node?, Graph.empty]

theorem next?_setNext {g : Graph σ} {id other : InstructionId} {next : Option InstructionId}
    {target : InstructionId} (h : (g.setNext id next).next? other = some target) :
    g.next? other = some target ∨ next = some target := by
  have hlink {target : InstructionId} (h : (g.link id next).next? other = some target) :
      g.next? other = some target ∨ next = some target := by
    rw [next?_link] at h
    split at h
    . exact Or.inr h
    . exact Or.inl h
  unfold setNext at h
  split at h
  . exact Or.inl h
  . exact Or.inl h
  . split at h
    . exact hlink h
    . split at h
      . rcases next?_setNext h with h | h
        . exact hlink h
        . exact Or.inr h
      . exact hlink h
  . exact hlink h
termination_by g.size - id.index
decreasing_by simp only [size_link]; omega

namespace Sound

variable {g h : Graph σ}

theorem congr (hg : g.Sound) (heq : g.unvisited = h.unvisited) : h.Sound := by
  have hshape := shape_eq_of_unvisited heq
  constructor
  . exact hg.forest.congr hshape
  . intro id next hnext
    rw [← next?_congr heq] at hnext
    rw [← contains_congr hshape]
    exact hg.next id next hnext
  . intro id owner howner
    rw [← owner?_congr hshape] at howner
    rw [← contains_congr hshape]
    exact hg.owner id owner howner

theorem relinked (hg : g.Sound) (hshape : h.shape = g.shape)
    (hnext : ∀ id next, h.next? id = some next →
      g.next? id = some next ∨ g.contains next = true) : h.Sound := by
  constructor
  . exact hg.forest.congr hshape.symm
  . intro id next hlink
    rw [contains_congr hshape]
    rcases hnext id next hlink with hold | hnew
    . exact hg.next id next hold
    . exact hnew
  . intro id owner howner
    rw [owner?_congr hshape] at howner
    rw [contains_congr hshape]
    exact hg.owner id owner howner

theorem link (hg : g.Sound) (id : InstructionId) {next : InstructionId}
    (hnext : g.contains next = true) : (g.link id (some next)).Sound := by
  apply hg.relinked (shape_link g id _)
  intro other target htarget
  rw [next?_link] at htarget
  split at htarget
  . cases htarget
    exact Or.inr hnext
  . exact Or.inl htarget

theorem setNext (hg : g.Sound) (id : InstructionId) {next : InstructionId}
    (hnext : g.contains next = true) : (g.setNext id (some next)).Sound := by
  apply hg.relinked (shape_setNext g id _)
  intro other target htarget
  rcases next?_setNext htarget with hold | hnew
  . exact Or.inl hold
  . cases hnew
    exact Or.inr hnext

theorem insert (hg : g.Sound) (i : Instruction σ) : (g.insert none i).2.Sound := by
  have hforest := hg.forest.insert none i
  rw [insert_eq_layout] at hforest ⊢
  constructor
  . exact hforest
  . intro id next hnext
    by_cases hid : id.index < g.size
    . rw [next?_extend hid] at hnext
      exact contains_extend (hg.next id next hnext)
    . rw [next?, node?_extend_of_le (by omega), Option.bind_eq_some_iff] at hnext
      obtain ⟨n, hn, hnext⟩ := hnext
      have hwithin := within_next_of_mem_layout (List.mem_of_getElem? hn)
      rw [hnext] at hwithin
      rcases hwithin with h | h | ⟨_, h, hgraph, hlt⟩
      . simp at h
      . simp at h
      . cases h
        rw [contains_iff, size_extend, length_layout]
        exact ⟨hgraph, hlt⟩
  . intro id owner howner
    by_cases hid : id.index < g.size
    . rw [owner?_extend hid] at howner
      obtain ⟨hcontains, hlt⟩ := hg.owner id owner howner
      exact ⟨contains_extend hcontains, hlt⟩
    . rw [owner?, node?_extend_of_le (by omega), Option.bind_eq_some_iff] at howner
      obtain ⟨n, hn, howner⟩ := howner
      have hk := (List.getElem?_eq_some_iff.mp hn).1
      rcases owner_of_getElem?_layout hn with h | ⟨_, h, hgraph, hlt⟩
      . simp [howner] at h
      . rw [howner] at h
        cases h
        rw [contains_iff, size_extend]
        exact ⟨⟨hgraph, by omega⟩, by omega⟩

theorem contains_of_mem_handles (hg : g.Sound) {id : InstructionId} (hid : id ∈ g.handles) :
    g.contains id = true := by
  rw [handles, List.mem_flatMap] at hid
  obtain ⟨n, hn, hid⟩ := hid
  obtain ⟨place, hplace⟩ := List.getElem?_of_mem hn
  have hnode : g.node? ⟨g.id, place⟩ = some n := by
    rw [node?, ← Array.getElem?_toList, hplace]
  simp only [Node.handles, List.mem_append, Option.mem_toList] at hid
  rcases hid with (hid | hid) | hid
  . have hchild : id ∈ g.children ⟨g.id, place⟩ := by
      rw [children_eq, kind?, hnode]
      exact hid
    exact hg.forest.contains_of_mem_children hchild
  . apply hg.next ⟨g.id, place⟩
    rw [next?, hnode]
    exact hid
  . apply (hg.owner ⟨g.id, place⟩ id _).1
    rw [owner?, hnode]
    exact hid

theorem contains_of_mem_subtree (hg : g.Sound) {id node : InstructionId}
    (hid : g.contains id = true) (hnode : node ∈ g.subtree id) : g.contains node = true := by
  rw [contains_iff] at hid ⊢
  refine ⟨?_, mem_subtree_lt hid.2 hnode⟩
  exact hg.forest.graph_eq (hg.forest.mem_subtree_iff.mp hnode) hid.1

end Sound

end Graph

end Sequencer
