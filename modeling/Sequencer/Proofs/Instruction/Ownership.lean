import Sequencer.Proofs.Instruction.Handles
import Sequencer.Proofs.Instruction.Subtree

/-!
The way from a node up to what it is nested in. `Forest` says that whatever a node lists as nested
in it has that node as its owner; `Listed` is the other direction. So a node has an owner exactly
when it is nested in another node.
-/

namespace Sequencer

open Instruction

namespace Graph

variable {σ : Type}

def Listed (g : Graph σ) : Prop :=
  ∀ id owner, g.contains id = true → g.owner? id = some owner →
    owner.graph = g.id ∧ id ∈ g.children owner

theorem children_eq_of_index {g : Graph σ} {a b : InstructionId} (h : a.index = b.index) :
    g.children a = g.children b := by
  rw [children_eq, children_eq, kind?, kind?, node?, node?, h]

theorem carries_insert (g : Graph σ) (i : Instruction σ) :
    (g.extend (layout g.id g.size none none [i])).Carries g.size
      (layout g.id g.size none none [i]) := by
  have h := carries_toList (g.extend (layout g.id g.size none none [i]))
  rw [toList_extend] at h
  have hadded := (carries_append h).2
  rwa [Nat.zero_add, Array.length_toList] at hadded

theorem mem_places_or_nested {g : Graph σ} {start place : Nat} {owner exit : Option InstructionId}
    {is : List (Instruction σ)} (h : g.Carries start (layout g.id start owner exit is))
    (hlower : start ≤ place) (hupper : place < start + sizeAll is) :
    ⟨g.id, place⟩ ∈ places g.id start is ∨ ∃ parent, ⟨g.id, place⟩ ∈ g.children parent := by
  induction is using forest_induction generalizing start owner exit with
  | nil =>
    rw [sizeAll_nil] at hupper
    omega
  | cons i rest ihNested ihRest =>
    obtain ⟨hnode, hnested, hrest⟩ := carries_layout_cons h
    have hsize := size_eq i
    rw [sizeAll_cons] at hupper
    rw [places, List.mem_cons]
    rcases Nat.eq_or_lt_of_le hlower with rfl | hlower
    . exact Or.inl (Or.inl rfl)
    . by_cases hplace : place < start + i.size
      . right
        rcases ihNested hnested hlower (by omega) with htop | hparent
        . exact ⟨⟨g.id, start⟩, by rwa [hnode.children_eq]⟩
        . exact hparent
      . rcases ihRest hrest (by omega) (by omega) with htop | hparent
        . exact Or.inl (Or.inr htop)
        . exact Or.inr hparent

theorem listed_empty (id : Nat) : (Graph.empty id : Graph σ).Listed := by
  intro node owner hcontains
  simp [Graph.empty, contains, size] at hcontains

namespace Listed

variable {g h : Graph σ}

theorem congr (hg : g.Listed) (heq : g.shape = h.shape) : h.Listed := by
  have hid : g.id = h.id := congrArg (fun g => g.id) heq
  intro id owner hcontains howner
  rw [← contains_congr heq] at hcontains
  rw [← owner?_congr heq] at howner
  rw [← hid, ← children_congr heq]
  exact hg id owner hcontains howner

theorem insert (hg : g.Listed) (hforest : g.Forest) (i : Instruction σ) :
    (g.insert none i).2.Listed := by
  have hforest' := hforest.insert none i
  rw [insert_eq_layout] at hforest' ⊢
  intro id owner hcontains howner
  rw [contains_iff, size_extend, length_layout] at hcontains
  obtain ⟨hgraph, hlt⟩ := hcontains
  by_cases hid : id.index < g.size
  . rw [owner?_extend hid] at howner
    obtain ⟨hownerGraph, hchild⟩ := hg id owner (by rw [contains_iff]; exact ⟨hgraph, hid⟩) howner
    have hownerLt : owner.index < g.size := by
      have := (hforest owner).later id hchild
      omega
    refine ⟨hownerGraph, ?_⟩
    rwa [children_eq, kind?_extend hownerLt, ← children_eq]
  . obtain ⟨graph, place⟩ := id
    cases hgraph
    rcases mem_places_or_nested (carries_insert g i) (Nat.le_of_not_lt hid) hlt with
      htop | ⟨parent, hchild⟩
    . have hnone := (isOwner_extend_layout g none i).1 _ htop
      have hsame := howner.symm.trans hnone
      contradiction
    . have hparent := (hforest' parent).owner _ hchild
      have hsame := Option.some.inj (howner.symm.trans hparent)
      subst hsame
      exact ⟨rfl, by rwa [children_eq_of_index rfl]⟩

end Listed

theorem Forest.isSome_owner?_iff {g : Graph σ} (hg : g.Forest) (hlisted : g.Listed)
    {id : InstructionId} (hid : g.contains id = true) :
    (g.owner? id).isSome ↔ ∃ parent, parent ≠ id ∧ g.Encloses parent id := by
  rw [Option.isSome_iff_exists]
  constructor
  . rintro ⟨owner, howner⟩
    have hchild := (hlisted id owner hid howner).2
    have hlater := (hg owner).later id hchild
    refine ⟨owner, ?_, Encloses.refl.nested hchild⟩
    rintro rfl
    omega
  . rintro ⟨parent, hne, henclosed⟩
    cases henclosed with
    | refl => exact absurd rfl hne
    | nested _ hchild => exact ⟨_, (hg _).owner id hchild⟩

end Graph

end Sequencer
