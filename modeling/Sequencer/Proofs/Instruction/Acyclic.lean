import Mathlib.Logic.Relation
import Sequencer.Proofs.Instruction.Handles

/-!
Where control can go in a graph, whatever the tests and timers say: along links, and from a node to
what is nested in it. A graph is acyclic if no way leads back. Lowering keeps it so, as the new
nodes only lead further on; a link does, unless there is a way from its target to where it starts.
-/

namespace Sequencer

open Instruction

namespace Instruction

variable {σ : Type}

inductive Jumpless : Instruction σ → Prop where
  | of {i : Instruction σ} (h : i.isJump = false) (hnested : ∀ nested ∈ i.nested, Jumpless nested) :
      Jumpless i

theorem isJump_eq_false_of_mem_layout {graph start : Nat} {owner exit : Option InstructionId}
    {is : List (Instruction σ)} (h : ∀ i ∈ is, i.Jumpless) {n : Node σ}
    (hn : n ∈ layout graph start owner exit is) (label : String) : n.kind ≠ .jump label := by
  induction is using forest_induction generalizing start owner exit with
  | nil => simp at hn
  | cons i rest ihNested ihRest =>
    obtain ⟨⟨hjump, hnested⟩, hrest⟩ := List.forall_mem_cons.mp h
    rw [layout, List.mem_cons, List.mem_append] at hn
    rcases hn with rfl | hn | hn
    . cases i <;> simp [kind, isJump] at hjump ⊢
    . exact ihNested hnested hn
    . exact ihRest hrest hn

theorem later_of_getElem?_layout {graph start k : Nat} {owner exit : Option InstructionId}
    {is : List (Instruction σ)} {n : Node σ}
    (hn : (layout graph start owner exit is)[k]? = some n) {next : InstructionId}
    (hnext : n.next = some next) : exit = some next ∨ start + k < next.index := by
  induction is using forest_induction generalizing start owner exit k with
  | nil => simp at hn
  | cons i rest ihNested ihRest =>
    have hsize := size_eq i
    have hafter {next : InstructionId} (h : entry graph (start + i.size) exit rest = some next) :
        exit = some next ∨ start + i.size ≤ next.index := by
      cases rest with
      | nil => exact Or.inl h
      | cons j rest =>
        cases h
        exact Or.inr (Nat.le_refl _)
    rw [layout] at hn
    cases k with
    | zero =>
      cases hn
      dsimp only at hnext
      split at hnext
      . simp at hnext
      . rcases hafter hnext with hexit | hle
        . exact Or.inl hexit
        . exact Or.inr (by omega)
    | succ k =>
      rw [List.getElem?_cons_succ] at hn
      by_cases hk : k < sizeAll i.nested
      . rw [List.getElem?_append_left (by rwa [length_layout])] at hn
        rcases ihNested hn with hexit | hlt
        . split at hexit
          . rcases hafter hexit with hexit | hle
            . exact Or.inl hexit
            . exact Or.inr (by omega)
          . simp at hexit
        . exact Or.inr (by omega)
      . rw [List.getElem?_append_right (by rw [length_layout]; omega), length_layout] at hn
        rcases ihRest hn with hexit | hlt
        . exact Or.inl hexit
        . exact Or.inr (by omega)

end Instruction

namespace Graph

variable {σ : Type}

def Flows (g : Graph σ) (id next : InstructionId) : Prop :=
  g.contains id = true ∧ (g.next? id = some next ∨ next ∈ g.children id)

def Leads (g : Graph σ) : InstructionId → InstructionId → Prop :=
  Relation.ReflTransGen g.Flows

def Acyclic (g : Graph σ) : Prop :=
  ∀ id, ¬Relation.TransGen g.Flows id id

def Jumpless (g : Graph σ) : Prop :=
  ∀ id, g.jumpLabel? id = none

theorem flows_congr {g h : Graph σ} (heq : g.unvisited = h.unvisited) : g.Flows = h.Flows := by
  have hshape := shape_eq_of_unvisited heq
  funext id next
  rw [Flows, Flows, contains_congr hshape, next?_congr heq, children_congr hshape]

theorem flows_of_successor? {g : Graph σ} {id next : InstructionId} (hid : g.contains id = true)
    (h : g.successor? id = some next) : g.Flows id next := by
  refine ⟨hid, ?_⟩
  rw [successor?_eq] at h
  rw [children_eq]
  split at h
  . next hkind =>
    rw [hkind]
    split at h
    . exact Or.inl h
    . exact Or.inr (by simpa [NodeKind.nested] using h)
  . next hkind =>
    rw [hkind]
    split at h
    . exact Or.inl h
    . exact Or.inr (by simpa [NodeKind.nested] using h)
  . next children hkind =>
    rw [hkind]
    rw [Option.or_eq_some_iff] at h
    rcases h with h | ⟨_, h⟩
    . exact Or.inr (List.mem_of_mem_head? h)
    . exact Or.inl h
  . exact Or.inl h

namespace Sound

variable {g : Graph σ} {id next : InstructionId}

theorem contains_of_flows (hg : g.Sound) (h : g.Flows id next) : g.contains next = true := by
  rcases h.2 with hnext | hchild
  . exact hg.next id next hnext
  . exact hg.forest.contains_of_mem_children hchild

theorem contains_of_ahead (hg : g.Sound) (h : Relation.TransGen g.Flows id next) :
    g.contains next = true := by
  cases h with
  | single hflows => exact hg.contains_of_flows hflows
  | tail _ hflows => exact hg.contains_of_flows hflows

theorem flows_insert (hg : g.Sound) (i : Instruction σ)
    (h : (g.insert none i).2.Flows id next) :
    g.Flows id next ∨ (g.size ≤ id.index ∧ id.index < next.index) := by
  have hforest := hg.forest.insert none i
  obtain ⟨hcontains, hnext⟩ := h
  by_cases hid : id.index < g.size
  . rw [insert_eq_layout] at hcontains hnext
    rw [next?_extend hid, children_eq, kind?_extend hid, ← children_eq] at hnext
    rw [contains_iff] at hcontains
    exact Or.inl ⟨(contains_iff g id).mpr ⟨hcontains.1, hid⟩, hnext⟩
  . refine Or.inr ⟨by omega, ?_⟩
    rcases hnext with hnext | hchild
    . rw [insert_eq_layout, next?, node?_extend_of_le (by omega), Option.bind_eq_some_iff] at hnext
      obtain ⟨n, hn, hnext⟩ := hnext
      rcases later_of_getElem?_layout hn hnext with hexit | hlt
      . simp at hexit
      . omega
    . exact ((hforest id).later next hchild).1

theorem ahead_insert (hg : g.Sound) (i : Instruction σ)
    (h : Relation.TransGen (g.insert none i).2.Flows id next) :
    Relation.TransGen g.Flows id next ∨ (g.size ≤ id.index ∧ id.index < next.index) := by
  induction h with
  | single h =>
    rcases hg.flows_insert i h with hold | hnew
    . exact Or.inl (.single hold)
    . exact Or.inr hnew
  | tail _ h ih =>
    rcases ih with hold | ⟨hsize, hlt⟩
    . have := lt_of_contains (hg.contains_of_ahead hold)
      rcases hg.flows_insert i h with hflows | ⟨hge, _⟩
      . exact Or.inl (hold.tail hflows)
      . omega
    . rcases hg.flows_insert i h with ⟨hcontains, _⟩ | ⟨_, hlt'⟩
      . have := lt_of_contains hcontains
        omega
      . exact Or.inr ⟨hsize, by omega⟩

theorem leads_of_insert (hg : g.Sound) (i : Instruction σ) (hid : g.contains id = true)
    (h : (g.insert none i).2.Leads id next) : g.Leads id next := by
  rcases Relation.reflTransGen_iff_eq_or_transGen.mp h with rfl | hahead
  . exact .refl
  . rcases hg.ahead_insert i hahead with hold | ⟨hge, _⟩
    . exact hold.to_reflTransGen
    . have := lt_of_contains hid
      omega

theorem le_of_leads_insert (hg : g.Sound) (i : Instruction σ)
    (h : (g.insert none i).2.Leads (g.insert none i).1 next) : g.size ≤ next.index := by
  have hindex : (g.insert none i).1.index = g.size := by rw [insert_eq_layout]
  rcases Relation.reflTransGen_iff_eq_or_transGen.mp h with rfl | hahead
  . exact Nat.le_of_eq hindex.symm
  . rcases hg.ahead_insert i hahead with hold | ⟨_, hlt⟩
    . obtain ⟨_, ⟨hcontains, _⟩, _⟩ := Relation.TransGen.head'_iff.mp hold
      have := lt_of_contains hcontains
      omega
    . omega

theorem lt_of_encloses_insert (hg : g.Sound) (i : Instruction σ) (hid : g.contains id = true)
    (h : (g.insert none i).2.Encloses id next) : next.index < g.size := by
  rw [← (hg.forest.insert none i).mem_subtree_iff, insert_eq_layout] at h
  have hclosed : g.Closed := fun id child hchild => ((hg.forest id).later child hchild).2
  rw [subtree_extend hclosed (lt_of_contains hid)] at h
  exact mem_subtree_lt (lt_of_contains hid) h

end Sound

theorem Acyclic.insert {g : Graph σ} (h : g.Acyclic) (hg : g.Sound) (i : Instruction σ) :
    (g.insert none i).2.Acyclic := by
  intro id hcycle
  rcases hg.ahead_insert i hcycle with hold | ⟨_, hlt⟩
  . exact h id hold
  . exact Nat.lt_irrefl _ hlt

theorem Jumpless.insert {g : Graph σ} (h : g.Jumpless) {i : Instruction σ} (hi : i.Jumpless) :
    (g.insert none i).2.Jumpless := by
  intro id
  rw [insert_eq_layout]
  by_cases hid : id.index < g.size
  . rw [jumpLabel?_extend hid]
    exact h id
  . rw [jumpLabel?, kind?_extend_of_le (by omega)]
    split
    . next label hkind =>
      obtain ⟨n, hn, hkind⟩ := Option.map_eq_some_iff.mp hkind
      exact absurd hkind (isJump_eq_false_of_mem_layout (List.forall_mem_singleton.mpr hi)
        (List.mem_of_getElem? hn) label)
    . rfl

theorem encloses_congr {g h : Graph σ} (heq : g.shape = h.shape) : g.Encloses = h.Encloses := by
  have hle {g h : Graph σ} (heq : g.shape = h.shape) {a b : InstructionId} (hab : g.Encloses a b) :
      h.Encloses a b := by
    induction hab with
    | refl => exact .refl
    | nested _ hchild ih =>
      rw [children_congr heq] at hchild
      exact ih.nested hchild
  funext a b
  exact propext ⟨hle heq, hle heq.symm⟩

theorem next?_setNext_cases {g : Graph σ} (hg : g.Forest) {id other : InstructionId}
    {next : Option InstructionId} {target : InstructionId} (hid : g.contains id = true)
    (hother : g.contains other = true) (h : (g.setNext id next).next? other = some target) :
    g.next? other = some target ∨ (next = some target ∧ g.Encloses id other) := by
  have hlink {target : InstructionId} (h : (g.link id next).next? other = some target) :
      g.next? other = some target ∨ (next = some target ∧ g.Encloses id other) := by
    rw [next?_link] at h
    split at h
    . next hindex =>
      rw [contains_iff] at hid hother
      have heq : id = other := by
        cases id
        cases other
        simp_all
      exact Or.inr ⟨h, heq ▸ .refl⟩
    . exact Or.inl h
  unfold setNext at h
  split at h
  . exact Or.inl h
  . exact Or.inl h
  . next children hkind =>
    split at h
    . exact hlink h
    . next last hlast =>
      split at h
      . have hchild : last ∈ g.children id := by
          rw [children_eq, hkind]
          exact List.mem_of_getLast? hlast
        have hshape := shape_link g id next
        rcases next?_setNext_cases (hg.congr hshape.symm)
          (by rw [contains_congr hshape]; exact hg.contains_of_mem_children hchild)
          (by rwa [contains_congr hshape]) h with hold | ⟨hnext, hencloses⟩
        . exact hlink hold
        . rw [encloses_congr hshape] at hencloses
          exact Or.inr ⟨hnext, (Encloses.refl.nested hchild).trans hencloses⟩
      . exact hlink h
  . exact hlink h
termination_by g.size - id.index
decreasing_by simp only [size_link]; omega

theorem Forest.ahead_setNext {g : Graph σ} (hg : g.Forest) {id next a b : InstructionId}
    (hid : g.contains id = true)
    (h : Relation.TransGen (g.setNext id (some next)).Flows a b) :
    Relation.TransGen g.Flows a b ∨
      (∃ node, g.Encloses id node ∧ g.Leads a node) ∧ g.Leads next b := by
  have hflows {a b : InstructionId} (h : (g.setNext id (some next)).Flows a b) :
      g.Flows a b ∨ (g.Encloses id a ∧ b = next) := by
    obtain ⟨hcontains, hgoes⟩ := h
    have hshape := shape_setNext g id (some next)
    rw [contains_congr hshape] at hcontains
    rw [children_congr hshape] at hgoes
    rcases hgoes with hnext | hchild
    . rcases next?_setNext_cases hg hid hcontains hnext with hold | ⟨hnew, hencloses⟩
      . exact Or.inl ⟨hcontains, Or.inl hold⟩
      . cases hnew
        exact Or.inr ⟨hencloses, rfl⟩
    . exact Or.inl ⟨hcontains, Or.inr hchild⟩
  induction h with
  | single h =>
    rcases hflows h with hold | ⟨hencloses, rfl⟩
    . exact Or.inl (.single hold)
    . exact Or.inr ⟨⟨a, hencloses, .refl⟩, .refl⟩
  | tail _ h ih =>
    rcases hflows h with hold | ⟨hencloses, rfl⟩
    . rcases ih with hbefore | ⟨hnode, hbefore⟩
      . exact Or.inl (hbefore.tail hold)
      . exact Or.inr ⟨hnode, hbefore.tail hold⟩
    . rcases ih with hbefore | ⟨hnode, _⟩
      . exact Or.inr ⟨⟨_, hencloses, hbefore.to_reflTransGen⟩, .refl⟩
      . exact Or.inr ⟨hnode, .refl⟩

theorem Acyclic.setNext {g : Graph σ} (h : g.Acyclic) (hg : g.Forest) {id next : InstructionId}
    (hid : g.contains id = true) (hback : ∀ node, g.Encloses id node → ¬g.Leads next node) :
    (g.setNext id (some next)).Acyclic := by
  intro a hcycle
  rcases hg.ahead_setNext hid hcycle with hold | ⟨⟨node, hencloses, hbefore⟩, hafter⟩
  . exact h a hold
  . exact hback node hencloses (hafter.trans hbefore)

def append (g : Graph σ) (previous : InstructionId) (i : Instruction σ) : Graph σ :=
  (g.insert none i).2.setNext previous (some (g.insert none i).1)

theorem Sound.leads_of_append {g : Graph σ} (hg : g.Sound) {previous a b : InstructionId}
    (i : Instruction σ) (hprevious : g.contains previous = true) (ha : g.contains a = true)
    (hb : g.contains b = true) (h : (g.append previous i).Leads a b) : g.Leads a b := by
  have hkept : (g.insert none i).2.contains previous = true := by
    rw [insert_eq_layout]
    exact contains_extend hprevious
  rcases Relation.reflTransGen_iff_eq_or_transGen.mp h with rfl | hahead
  . exact .refl
  . rcases (hg.forest.insert none i).ahead_setNext hkept hahead with hold | ⟨_, hnew⟩
    . exact hg.leads_of_insert i ha hold.to_reflTransGen
    . have := hg.le_of_leads_insert i hnew
      have := lt_of_contains hb
      omega

/-- Handles lead to nodes of the graph, there are no jumps, and no way leads back. -/
structure Ordered (g : Graph σ) : Prop where
  sound : g.Sound
  acyclic : g.Acyclic
  jumpless : g.Jumpless

namespace Ordered

variable {g h : Graph σ}

theorem empty (id : Nat) : (Graph.empty id : Graph σ).Ordered where
  sound := sound_empty id
  acyclic := by
    intro node hcycle
    obtain ⟨_, ⟨hcontains, _⟩, _⟩ := Relation.TransGen.head'_iff.mp hcycle
    simpa [Graph.empty, size] using lt_of_contains hcontains
  jumpless := by simp [Jumpless, jumpLabel?, kind?, node?, Graph.empty]

theorem congr (hg : g.Ordered) (heq : g.unvisited = h.unvisited) : h.Ordered where
  sound := hg.sound.congr heq
  acyclic := by
    rw [Acyclic, ← flows_congr heq]
    exact hg.acyclic
  jumpless := by
    rw [Jumpless, ← jumpLabel?_congr (shape_eq_of_unvisited heq)]
    exact hg.jumpless

theorem insert (hg : g.Ordered) {i : Instruction σ} (hi : i.Jumpless) :
    (g.insert none i).2.Ordered :=
  ⟨hg.sound.insert i, hg.acyclic.insert hg.sound i, hg.jumpless.insert hi⟩

theorem setNext (hg : g.Ordered) {id next : InstructionId} (hid : g.contains id = true)
    (hnext : g.contains next = true) (hback : ∀ node, g.Encloses id node → ¬g.Leads next node) :
    (g.setNext id (some next)).Ordered where
  sound := hg.sound.setNext id hnext
  acyclic := hg.acyclic.setNext hg.sound.forest hid hback
  jumpless := by
    rw [Jumpless, jumpLabel?_congr (shape_setNext g id (some next))]
    exact hg.jumpless

theorem append (hg : g.Ordered) {previous : InstructionId} (hprevious : g.contains previous = true)
    {i : Instruction σ} (hi : i.Jumpless) : (g.append previous i).Ordered := by
  have hkept : (g.insert none i).2.contains previous = true := by
    rw [insert_eq_layout]
    exact contains_extend hprevious
  apply (hg.insert hi).setNext hkept (contains_insert _ _ _)
  intro node hencloses hleads
  have := hg.sound.lt_of_encloses_insert i hprevious hencloses
  have := hg.sound.le_of_leads_insert i hleads
  omega

end Ordered

end Graph

end Sequencer
