import Sequencer.Proofs.Instruction.Source
import Sequencer.Proofs.Instruction.Successor

/-!
Where control arrives in a graph that has the layout of some instructions. `Carries` says that the
graph has certain nodes, whatever its nodes keep of their visits and wherever its jumps go. Then the
link of a leaf leads through blocks to the next leaf, and out of the last one to the exit.
-/

namespace Sequencer

open Instruction

namespace NodeKind

variable {σ : Type}

def isBlock : NodeKind σ → Bool
  | .block _ => true
  | _ => false

/-- The result of the last test of a node, true for a node without a test. -/
def holds : NodeKind σ → Bool
  | .condition _ _ holds => holds
  | .timedCondition _ _ _ holds => holds
  | _ => true

@[simp]
theorem isBlock_unvisited (kind : NodeKind σ) : kind.unvisited.isBlock = kind.isBlock := by
  cases kind <;> rfl

end NodeKind

namespace Graph

variable {σ : Type}

/-- Control that is sent to a place and passes through blocks arrives at a node that is no block. -/
inductive Arrives (g : Graph σ) : Option InstructionId → Option InstructionId → Prop where
  | idle : Arrives g none none
  | here {id : InstructionId} {kind : NodeKind σ} (hkind : g.kind? id = some kind)
      (hblock : kind.isBlock = false) : Arrives g (some id) (some id)
  | enter {id : InstructionId} {kind : NodeKind σ} {target : Option InstructionId}
      (hkind : g.kind? id = some kind) (hblock : kind.isBlock = true)
      (h : Arrives g (g.successor? id) target) : Arrives g (some id) target

theorem Arrives.unique {g : Graph σ} {id a b : Option InstructionId} (ha : Arrives g id a)
    (hb : Arrives g id b) : a = b := by
  induction ha with
  | idle =>
    cases hb
    rfl
  | here hkind hblock =>
    cases hb with
    | here => rfl
    | enter hkind' hblock' => simp_all
  | enter hkind hblock _ ih =>
    cases hb with
    | here hkind' hblock' => simp_all
    | enter _ _ hb => exact ih hb

structure Matches (g : Graph σ) (id : InstructionId) (n : Node σ) : Prop where
  kind : (g.kind? id).map NodeKind.unvisited = some n.kind.unvisited
  next : (∀ label, n.kind ≠ .jump label) → g.next? id = n.next

def Carries (g : Graph σ) (start : Nat) (nodes : List (Node σ)) : Prop :=
  ∀ k n, nodes[k]? = some n → g.Matches ⟨g.id, start + k⟩ n

theorem carries_toList (g : Graph σ) : g.Carries 0 g.nodes.toList := by
  intro k n hn
  rw [Array.getElem?_toList] at hn
  constructor
  . simp [kind?, node?, hn]
  . intro _
    simp [next?, node?, hn]

theorem Carries.congr {g h : Graph σ} (heq : g.unvisited = h.unvisited) {start : Nat}
    {nodes : List (Node σ)} (hcarries : g.Carries start nodes) : h.Carries start nodes := by
  have hshape := shape_eq_of_unvisited heq
  have hid : g.id = h.id := congrArg (fun g => g.id) heq
  intro k n hn
  obtain ⟨hkind, hnext⟩ := hcarries k n hn
  constructor
  . rw [← hid, ← kind?_shape, ← hshape, kind?_shape, hkind]
  . intro hjump
    rw [← hid, ← next?_congr heq, hnext hjump]

theorem carries_cons {g : Graph σ} {start : Nat} {n : Node σ} {nodes : List (Node σ)}
    (h : g.Carries start (n :: nodes)) :
    g.Matches ⟨g.id, start⟩ n ∧ g.Carries (start + 1) nodes := by
  constructor
  . exact h 0 n rfl
  . intro k m hm
    rw [Nat.add_assoc, Nat.add_comm 1]
    exact h (k + 1) m hm

theorem carries_append {g : Graph σ} {start : Nat} {before after : List (Node σ)}
    (h : g.Carries start (before ++ after)) :
    g.Carries start before ∧ g.Carries (start + before.length) after := by
  constructor
  . intro k n hn
    apply h k n
    rw [List.getElem?_append_left (List.getElem?_eq_some_iff.mp hn).1, hn]
  . intro k n hn
    rw [Nat.add_assoc]
    apply h (before.length + k) n
    rw [List.getElem?_append_right (by omega), Nat.add_sub_cancel_left, hn]

def Has (g : Graph σ) (place : Nat) (i : Instruction σ) : Prop :=
  (g.kind? ⟨g.id, place⟩).map NodeKind.unvisited =
    some (i.kind (places g.id (place + 1) i.nested)).unvisited

structure Lowered (g : Graph σ) (place : Nat) (i : Instruction σ)
    (next : Option InstructionId) : Prop where
  kind : g.Has place i
  next : i.isJump = false → g.next? ⟨g.id, place⟩ = next

theorem carries_layout_cons {g : Graph σ} {start : Nat} {owner exit : Option InstructionId}
    {i : Instruction σ} {rest : List (Instruction σ)}
    (h : g.Carries start (layout g.id start owner exit (i :: rest))) :
    g.Lowered start i (entry g.id (start + i.size) exit rest) ∧
    g.Carries (start + 1) (layout g.id (start + 1) (some ⟨g.id, start⟩)
      (if i.isBlock then entry g.id (start + i.size) exit rest else none) i.nested) ∧
    g.Carries (start + i.size) (layout g.id (start + i.size) owner exit rest) := by
  rw [layout] at h
  obtain ⟨hnode, h⟩ := carries_cons h
  obtain ⟨hnested, hrest⟩ := carries_append h
  rw [length_layout, Nat.add_assoc, Nat.add_comm 1, ← size_eq] at hrest
  refine ⟨⟨hnode.kind, ?_⟩, hnested, hrest⟩
  intro hjump
  rw [hnode.next, hjump]
  . rfl
  . cases i <;> simp_all [Instruction.kind, isJump]

namespace Lowered

variable {g : Graph σ} {place : Nat} {i : Instruction σ} {next : Option InstructionId}

theorem exists_kind (h : g.Lowered place i next) :
    ∃ kind, g.kind? ⟨g.id, place⟩ = some kind ∧
      kind.unvisited = (i.kind (places g.id (place + 1) i.nested)).unvisited := by
  obtain ⟨kind, hkind, heq⟩ := Option.map_eq_some_iff.mp h.kind
  exact ⟨kind, hkind, heq⟩

theorem successor?_of_isBlock (h : g.Lowered place i next) (hblock : i.isBlock = true) :
    ∃ kind, g.kind? ⟨g.id, place⟩ = some kind ∧ kind.isBlock = true ∧
      g.successor? ⟨g.id, place⟩ = entry g.id (place + 1) next i.nested := by
  obtain ⟨kind, hkind, heq⟩ := h.exists_kind
  cases i with
  | block children =>
    have hnext := h.next rfl
    cases kind <;> simp only [Instruction.kind, NodeKind.unvisited, reduceCtorEq] at heq
    cases heq
    refine ⟨_, hkind, rfl, ?_⟩
    rw [successor?_eq, hkind, ← head?_places, hnext]
  | _ => simp [Instruction.isBlock] at hblock

theorem isBlock_eq (h : g.Lowered place i next) {kind : NodeKind σ}
    (hkind : g.kind? ⟨g.id, place⟩ = some kind) : kind.isBlock = i.isBlock := by
  obtain ⟨kind', hkind', heq⟩ := h.exists_kind
  rw [hkind, Option.some.injEq] at hkind'
  subst hkind'
  rw [← NodeKind.isBlock_unvisited, heq, NodeKind.isBlock_unvisited]
  cases i <;> rfl

theorem successor?_of_isBranch (h : g.Lowered place i next) (hbranch : i.isBranch = true)
    {kind : NodeKind σ} (hkind : g.kind? ⟨g.id, place⟩ = some kind) :
    g.successor? ⟨g.id, place⟩ =
      if kind.holds then next else entry g.id (place + 1) none i.nested := by
  obtain ⟨kind', hkind', heq⟩ := h.exists_kind
  rw [hkind, Option.some.injEq] at hkind'
  subst hkind'
  have hentry := head?_places g.id (place + 1) none i.nested
  rw [Option.or_none] at hentry
  rw [successor?_eq, hkind]
  cases i with
  | condition test alternative =>
    have hnext := h.next rfl
    cases kind <;> simp only [Instruction.kind, NodeKind.unvisited, reduceCtorEq] at heq
    cases heq
    dsimp only [NodeKind.holds]
    rw [hnext, hentry]
    rfl
  | timedCondition timer test alternative =>
    have hnext := h.next rfl
    cases kind <;> simp only [Instruction.kind, NodeKind.unvisited, reduceCtorEq] at heq
    simp only [NodeKind.timedCondition.injEq] at heq
    dsimp only [NodeKind.holds]
    rw [hnext, heq.2.2.1, hentry]
    rfl
  | _ => simp [isBranch] at hbranch

theorem labelName?_iff (h : g.Lowered place i next) (name : String) :
    g.labelName? ⟨g.id, place⟩ = some name ↔ i = .label name := by
  have hkind := h.kind
  rw [Has] at hkind
  rw [← labelName?_shape, labelName?, kind?_shape, hkind]
  cases i <;> simp [Instruction.kind, NodeKind.unvisited]

theorem jumpLabel?_iff (h : g.Lowered place i next) (name : String) :
    g.jumpLabel? ⟨g.id, place⟩ = some name ↔ i = .jump name := by
  have hkind := h.kind
  rw [Has] at hkind
  rw [← jumpLabel?_shape, jumpLabel?, kind?_shape, hkind]
  cases i <;> simp [Instruction.kind, NodeKind.unvisited]

theorem successor?_of_not_isBranch (h : g.Lowered place i next) (hbranch : i.isBranch = false)
    (hblock : i.isBlock = false) : g.successor? ⟨g.id, place⟩ = g.next? ⟨g.id, place⟩ := by
  obtain ⟨kind, hkind, heq⟩ := h.exists_kind
  rw [successor?_eq, hkind]
  cases i <;> cases kind <;>
    simp_all [Instruction.kind, NodeKind.unvisited, isBranch, Instruction.isBlock]

end Lowered

def handle? (g : Graph σ) (place : Option Nat) : Option InstructionId :=
  place.map fun place => ⟨g.id, place⟩

theorem arrives_entry {g : Graph σ} {start : Nat} {owner exit target : Option InstructionId}
    {is : List (Instruction σ)} (h : g.Carries start (layout g.id start owner exit is))
    (hexit : g.Arrives exit target) :
    g.Arrives (entry g.id start exit is)
      ((g.handle? ((leaves start is).head?.map Prod.fst)).or target) := by
  induction is using forest_induction generalizing start owner exit target with
  | nil => simpa [entry, handle?] using hexit
  | cons i rest ihNested ihRest =>
    obtain ⟨hnode, hnested, hrest⟩ := carries_layout_cons h
    cases hblock : i.isBlock with
    | false =>
      obtain ⟨kind, hkind, _⟩ := hnode.exists_kind
      rw [leaves_cons_leaf start hblock]
      apply Arrives.here hkind
      rw [hnode.isBlock_eq hkind, hblock]
    | true =>
      rw [if_pos hblock] at hnested
      obtain ⟨kind, hkind, hkindBlock, hsuccessor⟩ := hnode.successor?_of_isBlock hblock
      apply Arrives.enter hkind hkindBlock
      rw [hsuccessor, leaves_cons_block start hblock]
      -- the children leave the block for what comes after it
      have hinner := ihNested hnested (ihRest hrest hexit)
      rw [← Option.or_assoc] at hinner
      simpa [handle?, Option.map_or] using hinner

theorem handle?_getElem?_append (g : Graph σ) (xs ys : List (Nat × Instruction σ)) {k : Nat}
    (hk : k < xs.length) (target : Option InstructionId) :
    (g.handle? (xs[k + 1]?.map Prod.fst)).or ((g.handle? (ys.head?.map Prod.fst)).or target) =
      (g.handle? ((xs ++ ys)[k + 1]?.map Prod.fst)).or target := by
  by_cases hlast : k + 1 < xs.length
  . rw [List.getElem?_append_left hlast, List.getElem?_eq_getElem hlast]
    rfl
  . rw [List.getElem?_append_right (by omega), List.getElem?_eq_none (by omega),
      show k + 1 - xs.length = 0 by omega, ← List.head?_eq_getElem?]
    rfl

theorem arrives_next {g : Graph σ} {start k place : Nat} {owner exit target : Option InstructionId}
    {is : List (Instruction σ)} {i : Instruction σ}
    (h : g.Carries start (layout g.id start owner exit is)) (hexit : g.Arrives exit target)
    (hleaf : (leaves start is)[k]? = some (place, i)) :
    ∃ next, g.Lowered place i next ∧
      g.Arrives next ((g.handle? ((leaves start is)[k + 1]?.map Prod.fst)).or target) ∧
      g.Carries (place + 1) (layout g.id (place + 1) (some ⟨g.id, place⟩) none i.nested) := by
  induction is using forest_induction generalizing start owner exit target k with
  | nil => simp at hleaf
  | cons j rest ihNested ihRest =>
    obtain ⟨hnode, hnested, hrest⟩ := carries_layout_cons h
    have hentry := arrives_entry hrest hexit
    cases hblock : j.isBlock with
    | false =>
      rw [hblock] at hnested
      rw [leaves_cons_leaf start hblock] at hleaf ⊢
      cases k with
      | zero =>
        cases hleaf
        refine ⟨_, hnode, ?_, hnested⟩
        rw [List.getElem?_cons_succ, ← List.head?_eq_getElem?]
        exact hentry
      | succ k =>
        rw [List.getElem?_cons_succ] at hleaf ⊢
        exact ihRest hrest hexit hleaf
    | true =>
      rw [if_pos hblock] at hnested
      rw [leaves_cons_block start hblock] at hleaf ⊢
      -- after the last leaf of a block comes the first one behind the block
      by_cases hk : k < (leaves (start + 1) j.nested).length
      . rw [List.getElem?_append_left hk] at hleaf
        rw [← handle?_getElem?_append g _ _ hk]
        exact ihNested hnested hentry hleaf
      . rw [List.getElem?_append_right (by omega)] at hleaf
        rw [List.getElem?_append_right (by omega),
          show k + 1 - (leaves (start + 1) j.nested).length =
            k - (leaves (start + 1) j.nested).length + 1 by omega]
        exact ihRest hrest hexit hleaf

end Graph

end Sequencer
