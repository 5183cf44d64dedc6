import Mathlib.Data.List.Basic
import Sequencer.Instruction.Invoke
import Sequencer.Proofs.Instruction.Lowering
import Sequencer.Proofs.Timer

/-!
What the operations leave of a graph. Invoking and arming change no more than what a node keeps of
its last visit, so they keep `unvisited`; setting links changes no more than links, so it keeps
`shape` too. What is nested where and which nodes are labels or jumps is read off the shape alone.
-/

namespace Sequencer

open Instruction

namespace NodeKind

variable {σ : Type}

/-- The kind of a node without what is kept of its last visit. -/
def unvisited : NodeKind σ → NodeKind σ
  | .condition test alternative _ => .condition test alternative false
  | .wait timer => .wait timer.invalidate
  | .timedCondition timer test alternative _ =>
    .timedCondition timer.invalidate test alternative false
  | kind => kind

def nested : NodeKind σ → List InstructionId
  | .condition _ alternative _ => alternative.toList
  | .timedCondition _ _ alternative _ => alternative.toList
  | .block children => children
  | _ => []

@[simp]
theorem nested_unvisited (kind : NodeKind σ) : kind.unvisited.nested = kind.nested := by
  cases kind <;> rfl

end NodeKind

namespace Graph

variable {σ : Type}

def unvisited (g : Graph σ) : Graph σ :=
  { g with nodes := g.nodes.map fun n => { n with kind := n.kind.unvisited } }

/-- The graph without visits and without links. -/
def shape (g : Graph σ) : Graph σ :=
  { g with nodes := g.nodes.map fun n => { n with kind := n.kind.unvisited, next := none } }

theorem shape_unvisited (g : Graph σ) : g.unvisited.shape = g.shape := by
  simp only [shape, unvisited, Array.map_map]
  congr 2
  funext n
  cases n with
  | mk kind next owner => cases kind <;> rfl

theorem shape_eq_of_unvisited {g h : Graph σ} (heq : g.unvisited = h.unvisited) :
    g.shape = h.shape := by
  rw [← shape_unvisited, heq, shape_unvisited]

@[simp]
theorem size_shape (g : Graph σ) : g.shape.size = g.size := by
  simp [shape, size]

@[simp]
theorem kind?_shape (g : Graph σ) (id : InstructionId) :
    g.shape.kind? id = (g.kind? id).map NodeKind.unvisited := by
  simp only [kind?, node?, shape, Array.getElem?_map, Option.map_map]
  rfl

theorem children_eq (g : Graph σ) (id : InstructionId) :
    g.children id = ((g.kind? id).map NodeKind.nested).getD [] := by
  unfold children
  cases g.kind? id with
  | none => rfl
  | some kind => cases kind <;> rfl

theorem children_shape (g : Graph σ) (id : InstructionId) :
    g.shape.children id = g.children id := by
  rw [children_eq, children_eq, kind?_shape]
  cases g.kind? id <;> simp

theorem labelName?_shape (g : Graph σ) (id : InstructionId) :
    g.shape.labelName? id = g.labelName? id := by
  unfold labelName?
  rw [kind?_shape]
  cases g.kind? id with
  | none => rfl
  | some kind => cases kind <;> rfl

theorem jumpLabel?_shape (g : Graph σ) (id : InstructionId) :
    g.shape.jumpLabel? id = g.jumpLabel? id := by
  unfold jumpLabel?
  rw [kind?_shape]
  cases g.kind? id with
  | none => rfl
  | some kind => cases kind <;> rfl

section Congruence

variable {g h : Graph σ} (heq : g.shape = h.shape)

include heq

theorem size_congr : g.size = h.size := by
  rw [← size_shape, heq, size_shape]

theorem contains_congr (id : InstructionId) : g.contains id = h.contains id := by
  have hid : g.id = h.id := congrArg (fun g => g.id) heq
  rw [contains, contains, hid, size_congr heq]

theorem children_congr (id : InstructionId) : g.children id = h.children id := by
  rw [← children_shape, heq, children_shape]

theorem labelName?_congr : g.labelName? = h.labelName? := by
  funext id
  rw [← labelName?_shape, heq, labelName?_shape]

theorem jumpLabel?_congr : g.jumpLabel? = h.jumpLabel? := by
  funext id
  rw [← jumpLabel?_shape, heq, jumpLabel?_shape]

theorem subtree_congr (id : InstructionId) : g.subtree id = h.subtree id := by
  rw [subtree, subtree, children_congr heq, size_congr heq]
  congr 1
  apply List.flatMap_congr
  intro child _
  split
  . next hchild => rw [subtree_congr child]
  . rfl
termination_by h.size - id.index

end Congruence

theorem map_modify_eq {α β : Type} (xs : Array α) (i : Nat) (f : α → α) (k : α → β)
    (h : ∀ x, xs[i]? = some x → k (f x) = k x) : (xs.modify i f).map k = xs.map k := by
  apply Array.ext_getElem?
  intro j
  rw [Array.getElem?_map, Array.getElem?_map, Array.getElem?_modify]
  split
  . next hij =>
    subst hij
    cases hx : xs[i]? with
    | none => rfl
    | some x => simp [h x hx]
  . rfl

@[simp]
theorem shape_link (g : Graph σ) (id : InstructionId) (next : Option InstructionId) :
    (g.link id next).shape = g.shape := by
  simp only [shape, link]
  congr 1
  apply map_modify_eq
  intros
  rfl

theorem unvisited_setKind {g : Graph σ} {id : InstructionId} {kind kind' : NodeKind σ}
    (hkind : g.kind? id = some kind) (h : kind'.unvisited = kind.unvisited) :
    (g.setKind id kind').unvisited = g.unvisited := by
  simp only [unvisited, setKind]
  congr 1
  apply map_modify_eq
  intro n hn
  simp only [kind?, node?, hn, Option.map_some, Option.some.injEq] at hkind
  simp [hkind, h]

@[simp]
theorem shape_setNext (g : Graph σ) (id : InstructionId) (next : Option InstructionId) :
    (g.setNext id next).shape = g.shape := by
  unfold setNext
  split
  . rfl
  . rfl
  . split
    . apply shape_link
    . split
      . rw [shape_setNext, shape_link]
      . apply shape_link
  . apply shape_link
termination_by g.size - id.index
decreasing_by simp only [size_link]; omega

@[simp]
theorem unvisited_arm (g : Graph σ) (now : Instant) (id : InstructionId) :
    (g.arm now id).unvisited = g.unvisited := by
  unfold arm
  split
  . next hkind => exact unvisited_setKind hkind rfl
  . next timer hkind =>
    apply unvisited_setKind hkind
    simp only [NodeKind.unvisited, Timer.invalidate_reset]
  . next timer test alternative holds hkind =>
    apply unvisited_setKind hkind
    simp only [NodeKind.unvisited, Timer.invalidate_reset]
  . rfl

@[simp]
theorem unvisited_perform (g : Graph σ) (now : Instant) (id : InstructionId) (env : Env σ) :
    (g.perform now id env).2.1.unvisited = g.unvisited := by
  unfold perform
  split
  . rfl
  . next hkind => exact unvisited_setKind hkind rfl
  . rfl
  . next hkind =>
    split
    . exact unvisited_setKind hkind rfl
    . split
      . exact unvisited_setKind hkind rfl
      . rfl
  all_goals rfl

def Closed (g : Graph σ) : Prop :=
  ∀ id, ∀ child ∈ g.children id, child.index < g.size

theorem closed_congr {g h : Graph σ} (heq : g.shape = h.shape) (hclosed : g.Closed) :
    h.Closed := by
  intro id child hchild
  rw [← children_congr heq] at hchild
  rw [← size_congr heq]
  exact hclosed id child hchild

theorem node?_extend {g : Graph σ} {nodes : List (Node σ)} {id : InstructionId}
    (hid : id.index < g.size) : (g.extend nodes).node? id = g.node? id := by
  simp only [node?, extend]
  exact Array.getElem?_append_left hid

theorem kind?_extend {g : Graph σ} {nodes : List (Node σ)} {id : InstructionId}
    (hid : id.index < g.size) : (g.extend nodes).kind? id = g.kind? id := by
  rw [kind?, node?_extend hid, kind?]

theorem labelName?_extend {g : Graph σ} {nodes : List (Node σ)} {id : InstructionId}
    (hid : id.index < g.size) : (g.extend nodes).labelName? id = g.labelName? id := by
  rw [labelName?, kind?_extend hid, labelName?]

theorem jumpLabel?_extend {g : Graph σ} {nodes : List (Node σ)} {id : InstructionId}
    (hid : id.index < g.size) : (g.extend nodes).jumpLabel? id = g.jumpLabel? id := by
  rw [jumpLabel?, kind?_extend hid, jumpLabel?]

theorem subtree_extend {g : Graph σ} {nodes : List (Node σ)} {id : InstructionId}
    (hclosed : g.Closed) (hid : id.index < g.size) :
    (g.extend nodes).subtree id = g.subtree id := by
  rw [subtree, subtree, children_eq, kind?_extend hid, ← children_eq]
  congr 1
  apply List.flatMap_congr
  intro child hchild
  -- the bound on places that ends the recursion grows, but no handle was beyond the old one
  have hlt := hclosed id child hchild
  simp only [size_extend]
  split
  . rw [subtree_extend hclosed hlt, if_pos (by omega)]
  . rw [if_neg (by omega)]
termination_by g.size - id.index

theorem mem_subtree_lt {g : Graph σ} {id node : InstructionId} (hid : id.index < g.size)
    (h : node ∈ g.subtree id) : node.index < g.size := by
  rw [subtree, List.mem_cons, List.mem_flatMap] at h
  rcases h with rfl | ⟨child, _, h⟩
  . exact hid
  . split at h
    . exact mem_subtree_lt (by omega) h
    . simp at h
termination_by g.size - id.index

theorem kind?_extend_of_le {g : Graph σ} {nodes : List (Node σ)} {id : InstructionId}
    (hid : g.size ≤ id.index) :
    (g.extend nodes).kind? id = nodes[id.index - g.size]?.map (·.kind) := by
  simp only [kind?, node?, extend]
  rw [Array.getElem?_append_right hid]
  simp [size]

theorem mem_of_mem_nested_kind {i : Instruction σ} {handles : List InstructionId}
    {child : InstructionId} (h : child ∈ (i.kind handles).nested) : child ∈ handles := by
  cases i with
  | condition test alternative =>
    apply List.mem_of_mem_head?
    simpa [kind, NodeKind.nested] using h
  | timedCondition timer test alternative =>
    apply List.mem_of_mem_head?
    simpa [kind, NodeKind.nested] using h
  | block children => exact h
  | _ => simp [kind, NodeKind.nested] at h

theorem index_lt_of_mem_nested {graph start : Nat} {owner exit : Option InstructionId}
    {is : List (Instruction σ)} {n : Node σ} (hn : n ∈ layout graph start owner exit is)
    {child : InstructionId} (hchild : child ∈ n.kind.nested) :
    child.index < start + sizeAll is := by
  induction is using forest_induction generalizing start owner exit with
  | nil => simp at hn
  | cons i rest ihNested ihRest =>
    rw [layout, List.mem_cons, List.mem_append] at hn
    rw [sizeAll_cons]
    have hsize := size_eq i
    rcases hn with rfl | hn | hn
    . have := mem_places (mem_of_mem_nested_kind hchild)
      omega
    . have := ihNested hn
      omega
    . have := ihRest hn
      omega

theorem lt_of_contains {g : Graph σ} {id : InstructionId} (h : g.contains id = true) :
    id.index < g.size := by
  simp only [contains, Bool.and_eq_true, decide_eq_true_eq] at h
  exact h.2

theorem contains_insert (owner : Option InstructionId) (g : Graph σ) (i : Instruction σ) :
    (g.insert owner i).2.contains (g.insert owner i).1 = true := by
  have := size_pos i
  rw [insert_eq_layout]
  simp only [contains, size_extend, length_layout, sizeAll_cons, sizeAll_nil, Bool.and_eq_true,
    decide_eq_true_eq]
  exact ⟨rfl, by omega⟩

theorem contains_extend {g : Graph σ} {nodes : List (Node σ)} {id : InstructionId}
    (h : g.contains id = true) : (g.extend nodes).contains id = true := by
  simp only [contains, Bool.and_eq_true, decide_eq_true_eq, size_extend] at h ⊢
  exact ⟨h.1, by omega⟩

theorem closed_insert {g : Graph σ} (hclosed : g.Closed) (owner : Option InstructionId)
    (i : Instruction σ) : (g.insert owner i).2.Closed := by
  rw [insert_eq_layout]
  intro id child hchild
  rw [children_eq] at hchild
  simp only [size_extend, length_layout]
  by_cases hid : id.index < g.size
  . rw [kind?_extend hid, ← children_eq] at hchild
    have := hclosed id child hchild
    omega
  . rw [kind?_extend_of_le (by omega)] at hchild
    cases hn : (layout g.id g.size owner none [i])[id.index - g.size]? with
    | none => simp [hn] at hchild
    | some n =>
      rw [hn] at hchild
      exact index_lt_of_mem_nested (List.mem_of_getElem? hn) hchild

end Graph

end Sequencer
