import Mathlib.Data.List.Nodup
import Sequencer.Proofs.Instruction.Subtree

/-!
What is nested where. `Forest` says that a node is nested in no more than its owner, which comes
before it, so `subtree` lists a node and all that is nested in it, each once and depth first, and
the subtrees of two nodes without an owner have nothing in common.
-/

namespace Sequencer

open Instruction

namespace Graph

variable {σ : Type}

inductive Encloses (g : Graph σ) (id : InstructionId) : InstructionId → Prop where
  | refl : Encloses g id id
  | nested {node child : InstructionId} (h : Encloses g id node)
      (hchild : child ∈ g.children node) : Encloses g id child

theorem Encloses.trans {g : Graph σ} {a b c : InstructionId} (hab : g.Encloses a b)
    (hbc : g.Encloses b c) : g.Encloses a c := by
  induction hbc with
  | refl => exact hab
  | nested _ hchild ih => exact ih.nested hchild

inductive DepthFirst (g : Graph σ) : List InstructionId → List InstructionId → Prop where
  | nil : DepthFirst g [] []
  | cons {id : InstructionId} {ids nested rest : List InstructionId}
      (hnested : DepthFirst g (g.children id) nested) (hrest : DepthFirst g ids rest) :
      DepthFirst g (id :: ids) (id :: (nested ++ rest))

structure IsOwner (g : Graph σ) (id : InstructionId) : Prop where
  graph : ∀ child ∈ g.children id, child.graph = g.id
  owner : ∀ child ∈ g.children id, g.owner? child = some ⟨g.id, id.index⟩
  later : ∀ child ∈ g.children id, id.index < child.index ∧ child.index < g.size
  distinct : (g.children id).Nodup

/-- Each node owns what is directly nested in it. -/
def Forest (g : Graph σ) : Prop :=
  ∀ id, g.IsOwner id

theorem contains_iff (g : Graph σ) (id : InstructionId) :
    g.contains id = true ↔ id.graph = g.id ∧ id.index < g.size := by
  rw [contains, Bool.and_eq_true, decide_eq_true_eq, decide_eq_true_eq]

theorem exists_kind?_of_contains {g : Graph σ} {id : InstructionId} (h : g.contains id = true) :
    ∃ kind, g.kind? id = some kind := by
  have hlt := lt_of_contains h
  exact ⟨g.nodes[id.index].kind, by simp [kind?, node?, Array.getElem?_eq_getElem hlt]⟩

theorem owner?_congr {g h : Graph σ} (heq : g.shape = h.shape) (id : InstructionId) :
    g.owner? id = h.owner? id := by
  have howner (g : Graph σ) : g.owner? id = g.shape.owner? id := by
    simp only [owner?, node?, shape, Array.getElem?_map]
    cases g.nodes[id.index]? <;> rfl
  rw [howner g, heq, ← howner h]

theorem owner?_extend {g : Graph σ} {nodes : List (Node σ)} {id : InstructionId}
    (hid : id.index < g.size) : (g.extend nodes).owner? id = g.owner? id := by
  rw [owner?, node?_extend hid, owner?]

theorem owner?_of_toList {g : Graph σ} {before after : List (Node σ)} {n : Node σ} {start : Nat}
    (h : g.nodes.toList = before ++ n :: after) (hstart : before.length = start) (graph : Nat) :
    g.owner? ⟨graph, start⟩ = n.owner := by
  simp only [owner?, node?, ← Array.getElem?_toList, h, ← hstart]
  simp

theorem children_of_toList {g : Graph σ} {before after : List (Node σ)} {n : Node σ} {start : Nat}
    (h : g.nodes.toList = before ++ n :: after) (hstart : before.length = start) (graph : Nat) :
    g.children ⟨graph, start⟩ = n.kind.nested := by
  rw [children_eq, kind?_of_toList h hstart]
  rfl

theorem graph_of_mem_places {graph start : Nat} {is : List (Instruction σ)} {id : InstructionId}
    (h : id ∈ places graph start is) : id.graph = graph := by
  induction is generalizing start with
  | nil => simp [places] at h
  | cons i rest ih =>
    simp only [places, List.mem_cons] at h
    cases h with
    | inl h => rw [h]
    | inr h => exact ih h

theorem nodup_places (graph start : Nat) (is : List (Instruction σ)) :
    (places graph start is).Nodup := by
  induction is generalizing start with
  | nil => exact List.nodup_nil
  | cons i rest ih =>
    have := size_pos i
    rw [places, List.nodup_cons]
    refine ⟨?_, ih _⟩
    intro hmem
    have := mem_places hmem
    dsimp only at this
    omega

theorem isOwner_layout {g : Graph σ} {start : Nat} {before after : List (Node σ)}
    {owner exit : Option InstructionId} {is : List (Instruction σ)}
    (hstart : before.length = start)
    (hnodes : g.nodes.toList = before ++ (layout g.id start owner exit is ++ after)) :
    (∀ id ∈ places g.id start is, g.owner? id = owner) ∧
    ∀ id : InstructionId, start ≤ id.index → id.index < start + sizeAll is → g.IsOwner id := by
  induction is using forest_induction generalizing start before after owner exit with
  | nil =>
    refine ⟨by simp [places], ?_⟩
    intro id _ _
    rw [sizeAll_nil] at *
    omega
  | cons i rest ihNested ihRest =>
    have hsize := size_eq i
    have hlength : g.size = start + (i.size + sizeAll rest + after.length) := by
      rw [size, ← Array.length_toList, hnodes]
      simp [hstart]
    rw [layout, List.cons_append, List.append_assoc] at hnodes
    have howner := owner?_of_toList hnodes hstart g.id
    have hchildren (graph : Nat) := children_of_toList hnodes hstart graph
    simp only [nested_kind_places] at howner hchildren
    -- the nested instructions lie right behind the node, and the other trees behind these
    rw [List.append_cons] at hnodes
    obtain ⟨hnested, hnestedOwners⟩ := ihNested (by simp [hstart]) hnodes
    rw [← List.append_assoc] at hnodes
    obtain ⟨hrest, hrestOwners⟩ := ihRest (by simp [hstart]; omega) hnodes
    rw [sizeAll_cons]
    constructor
    . intro id hid
      rw [places, List.mem_cons] at hid
      rcases hid with rfl | hid
      . exact howner
      . exact hrest id hid
    . rintro ⟨graph, place⟩ hlower hupper
      dsimp only at hlower hupper
      rcases Nat.lt_trichotomy place start with hlt | rfl | hgt
      . omega
      . constructor
        . rw [hchildren]
          exact fun child hchild => graph_of_mem_places hchild
        . rw [hchildren]
          exact hnested
        . rw [hchildren]
          intro child hchild
          have := mem_places hchild
          dsimp only
          omega
        . rw [hchildren]
          apply nodup_places
      . by_cases hplace : place < start + i.size
        . exact hnestedOwners _ hgt (by dsimp only; omega)
        . exact hrestOwners _ (by dsimp only; omega) (by dsimp only; omega)

theorem IsOwner.congr {g h : Graph σ} (heq : g.shape = h.shape) {id : InstructionId}
    (howner : g.IsOwner id) : h.IsOwner id := by
  have hid : g.id = h.id := congrArg (fun g => g.id) heq
  obtain ⟨hgraph, howner, hlater, hdistinct⟩ := howner
  rw [children_congr heq] at hgraph howner hlater hdistinct
  constructor
  . rw [← hid]
    exact hgraph
  . intro child hchild
    rw [← owner?_congr heq, ← hid, howner child hchild]
  . rw [← size_congr heq]
    exact hlater
  . exact hdistinct

theorem forest_empty (id : Nat) : (Graph.empty id : Graph σ).Forest := by
  intro node
  have : (Graph.empty id : Graph σ).children node = [] := by
    simp [children_eq, kind?, node?, Graph.empty]
  constructor <;> simp [this]

theorem isOwner_extend_layout (g : Graph σ) (owner : Option InstructionId) (i : Instruction σ) :
    let h := g.extend (layout g.id g.size owner none [i])
    (∀ id ∈ places g.id g.size [i], h.owner? id = owner) ∧
    ∀ id : InstructionId, g.size ≤ id.index → id.index < g.size + sizeAll [i] → h.IsOwner id := by
  have hnodes : (g.extend (layout g.id g.size owner none [i])).nodes.toList =
      g.nodes.toList ++ (layout g.id g.size owner none [i] ++ []) := by
    rw [toList_extend, List.append_nil]
  exact isOwner_layout (by simp [size]) hnodes

theorem owner?_insert (g : Graph σ) (owner : Option InstructionId) (i : Instruction σ) :
    (g.insert owner i).2.owner? (g.insert owner i).1 = owner := by
  rw [insert_eq_layout]
  apply (isOwner_extend_layout g owner i).1
  simp [places]

namespace Forest

variable {g h : Graph σ}

theorem congr (hg : g.Forest) (heq : g.shape = h.shape) : h.Forest :=
  fun id => (hg id).congr heq

theorem extend (hg : g.Forest) {nodes : List (Node σ)}
    (hnodes : ∀ id : InstructionId, g.size ≤ id.index → id.index < g.size + nodes.length →
      (g.extend nodes).IsOwner id) : (g.extend nodes).Forest := by
  intro id
  by_cases hid : id.index < g.size
  . obtain ⟨hgraph, howner, hlater, hdistinct⟩ := hg id
    have hchildren : (g.extend nodes).children id = g.children id := by
      rw [children_eq, kind?_extend hid, ← children_eq]
    constructor <;> rw [hchildren]
    . exact hgraph
    . intro child hchild
      rw [owner?_extend (hlater child hchild).2, howner child hchild]
      rfl
    . intro child hchild
      have := hlater child hchild
      rw [size_extend]
      omega
    . exact hdistinct
  . by_cases hnew : id.index < g.size + nodes.length
    . exact hnodes id (by omega) hnew
    . have hchildren : (g.extend nodes).children id = [] := by
        rw [children_eq, kind?_extend_of_le (by omega), List.getElem?_eq_none (by omega)]
        rfl
      constructor <;> simp [hchildren]

theorem insert (hg : g.Forest) (owner : Option InstructionId) (i : Instruction σ) :
    (g.insert owner i).2.Forest := by
  rw [insert_eq_layout]
  apply hg.extend
  rw [length_layout]
  exact (isOwner_extend_layout g owner i).2

theorem contains_of_mem_children (hg : g.Forest) {id child : InstructionId}
    (hchild : child ∈ g.children id) : g.contains child = true := by
  rw [contains_iff]
  exact ⟨(hg id).graph child hchild, ((hg id).later child hchild).2⟩

theorem induction (hg : g.Forest) {motive : InstructionId → Prop}
    (step : ∀ id, (∀ child ∈ g.children id, motive child) → motive id) (id : InstructionId) :
    motive id :=
  step id fun child hchild =>
    have := (hg id).later child hchild
    hg.induction step child
termination_by g.size - id.index

theorem subtree_eq (hg : g.Forest) (id : InstructionId) :
    g.subtree id = id :: (g.children id).flatMap g.subtree := by
  rw [subtree]
  congr 1
  apply List.flatMap_congr
  intro child hchild
  rw [if_pos ((hg id).later child hchild)]

theorem depthFirst_flatMap_subtree (hg : g.Forest) (ids : List InstructionId) :
    g.DepthFirst ids (ids.flatMap g.subtree) := by
  have hlist {ids : List InstructionId}
      (h : ∀ id ∈ ids, g.DepthFirst (g.children id) ((g.children id).flatMap g.subtree)) :
      g.DepthFirst ids (ids.flatMap g.subtree) := by
    induction ids with
    | nil => exact DepthFirst.nil
    | cons id rest ih =>
      rw [List.forall_mem_cons] at h
      rw [List.flatMap_cons, hg.subtree_eq, List.cons_append]
      exact DepthFirst.cons h.1 (ih h.2)
  apply hlist
  intro id hid
  clear hid
  induction id using hg.induction with
  | step id ih => exact hlist ih

theorem mem_subtree_of_mem_children (hg : g.Forest) {id node child : InstructionId}
    (hnode : node ∈ g.subtree id) (hchild : child ∈ g.children node) : child ∈ g.subtree id := by
  induction id using hg.induction with
  | step id ih =>
    rw [hg.subtree_eq, List.mem_cons, List.mem_flatMap] at hnode ⊢
    rcases hnode with rfl | ⟨top, htop, hnode⟩
    . refine Or.inr ⟨child, hchild, ?_⟩
      rw [hg.subtree_eq]
      exact List.mem_cons_self
    . exact Or.inr ⟨top, htop, ih top htop hnode⟩

theorem mem_subtree_iff (hg : g.Forest) {id node : InstructionId} :
    node ∈ g.subtree id ↔ g.Encloses id node := by
  constructor
  . intro hnode
    induction id using hg.induction with
    | step id ih =>
      rw [hg.subtree_eq, List.mem_cons, List.mem_flatMap] at hnode
      rcases hnode with rfl | ⟨child, hchild, hnode⟩
      . exact Encloses.refl
      . exact (Encloses.refl.nested hchild).trans (ih child hchild hnode)
  . intro hnode
    induction hnode with
    | refl =>
      rw [hg.subtree_eq]
      exact List.mem_cons_self
    | nested _ hchild ih => exact hg.mem_subtree_of_mem_children ih hchild

theorem index_le (hg : g.Forest) {id node : InstructionId} (h : g.Encloses id node) :
    id.index ≤ node.index := by
  induction h with
  | refl => exact Nat.le_refl _
  | nested _ hchild ih =>
    have := (hg _).later _ hchild
    omega

theorem graph_eq (hg : g.Forest) {id node : InstructionId} (h : g.Encloses id node)
    (hid : id.graph = g.id) : node.graph = g.id := by
  cases h with
  | refl => exact hid
  | nested _ hchild => exact (hg _).graph _ hchild

theorem eq_of_mem_children (hg : g.Forest) {a b child : InstructionId} (ha : a.graph = g.id)
    (hb : b.graph = g.id) (hchildA : child ∈ g.children a) (hchildB : child ∈ g.children b) :
    a = b := by
  have howner := (hg a).owner child hchildA
  rw [(hg b).owner child hchildB, Option.some.injEq, InstructionId.mk.injEq] at howner
  cases a
  cases b
  simp_all

theorem comparable (hg : g.Forest) {a b node : InstructionId} (ha : a.graph = g.id)
    (hb : b.graph = g.id) (hnodeA : g.Encloses a node) (hnodeB : g.Encloses b node) :
    g.Encloses a b ∨ g.Encloses b a := by
  induction hnodeA with
  | refl => exact Or.inr hnodeB
  | nested hparentA hchildA ih =>
    cases hnodeB with
    | refl => exact Or.inl (hparentA.nested hchildA)
    | nested hparentB hchildB =>
      have := hg.eq_of_mem_children (hg.graph_eq hparentA ha) (hg.graph_eq hparentB hb) hchildA
        hchildB
      subst this
      exact ih hparentB

theorem eq_of_owner?_eq_none (hg : g.Forest) {id root : InstructionId} (h : g.Encloses id root)
    (hroot : g.owner? root = none) : root = id := by
  cases h with
  | refl => rfl
  | nested _ hchild => simp [(hg _).owner _ hchild] at hroot

theorem eq_of_siblings (hg : g.Forest) {id a b : InstructionId} (ha : a ∈ g.children id)
    (hb : b ∈ g.children id) (h : g.Encloses a b) : b = a := by
  cases h with
  | refl => rfl
  | nested hparent hchild =>
    have howner := (hg _).owner _ hchild
    rw [(hg id).owner b hb, Option.some.injEq, InstructionId.mk.injEq] at howner
    have := hg.index_le hparent
    have := (hg id).later a ha
    omega

theorem nodup_subtree (hg : g.Forest) (id : InstructionId) : (g.subtree id).Nodup := by
  induction id using hg.induction with
  | step id ih =>
    rw [hg.subtree_eq, List.nodup_cons, List.nodup_flatMap]
    refine ⟨?_, ih, ?_⟩
    . intro hid
      obtain ⟨child, hchild, hid⟩ := List.mem_flatMap.mp hid
      have := hg.index_le (hg.mem_subtree_iff.mp hid)
      have := (hg id).later child hchild
      omega
    . apply (hg id).distinct.imp_of_mem
      intro a b ha hb hne node hnodeA hnodeB
      rw [hg.mem_subtree_iff] at hnodeA hnodeB
      rcases hg.comparable ((hg id).graph a ha) ((hg id).graph b hb) hnodeA hnodeB with h | h
      . exact hne (hg.eq_of_siblings ha hb h).symm
      . exact hne (hg.eq_of_siblings hb ha h)

theorem disjoint_subtree (hg : g.Forest) {a b : InstructionId} (ha : a.graph = g.id)
    (hb : b.graph = g.id) (hrootA : g.owner? a = none) (hrootB : g.owner? b = none)
    (hne : a ≠ b) : (g.subtree a).Disjoint (g.subtree b) := by
  intro node hnodeA hnodeB
  rw [hg.mem_subtree_iff] at hnodeA hnodeB
  rcases hg.comparable ha hb hnodeA hnodeB with h | h
  . exact hne (hg.eq_of_owner?_eq_none h hrootB).symm
  . exact hne (hg.eq_of_owner?_eq_none h hrootA)

end Forest

end Graph

end Sequencer
