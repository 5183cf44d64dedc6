import Sequencer.Proofs.Instruction.Forest
import Sequencer.Proofs.List

/-!
The operations of a graph with every handle checked. `access` is the one way to a node here, and it
fails unless the handle is one of the graph; the walks along nested instructions fail as well when
they do not move on. On a forest, and with good handles, the operations that do not check do the
same.
-/

namespace Sequencer

open Instruction

namespace Graph

variable {σ : Type}

def access {α : Type} (g : Graph σ) (id : InstructionId) (f : InstructionId → α) : Option α :=
  if g.contains id then some (f id) else none

theorem access_eq {α : Type} {g : Graph σ} {id : InstructionId} (h : g.contains id = true)
    (f : InstructionId → α) : g.access id f = some (f id) :=
  if_pos h

namespace Checked

def setNext (g : Graph σ) (id : InstructionId) (next : Option InstructionId) :
    Option (Graph σ) := do
  match ← g.access id g.kind? with
  | none => none
  | some (.jump _) => return g
  | some (.block children) =>
    match children.getLast? with
    | none => return g.link id next
    | some last =>
      if id.index < last.index ∧ last.index < g.size then setNext (g.link id next) last next
      else none
  | some _ => return g.link id next
termination_by g.size - id.index
decreasing_by simp only [size_link]; omega

def chain (g : Graph σ) : List InstructionId → Option (Graph σ)
  | a :: b :: rest => do chain (← setNext g a (some b)) (b :: rest)
  | _ => some g

mutual

def insert (owner : Option InstructionId) (g : Graph σ) (i : Instruction σ) :
    Option (InstructionId × Graph σ) := do
  let (id, g) := g.push (i.kind []) owner
  let (ids, g) ← insertAll (some id) g i.nested
  let g ← chain g ids
  g.access id fun id => (id, g.setKind id (i.kind ids))
termination_by (i.size, 0)
decreasing_by
  rw [size_eq]
  exact .left _ _ (by omega)

def insertAll (owner : Option InstructionId) (g : Graph σ) :
    List (Instruction σ) → Option (List InstructionId × Graph σ)
  | [] => some ([], g)
  | i :: rest => do
    let (id, g) ← insert owner g i
    let (ids, g) ← insertAll owner g rest
    return (id :: ids, g)
termination_by is => (sizeAll is, 1)
decreasing_by
  . have := size_pos i
    rw [sizeAll_cons]
    by_cases h : sizeAll rest = 0
    . rw [h]
      exact .right _ (by omega)
    . exact .left _ _ (by omega)
  . have := size_pos i
    rw [sizeAll_cons]
    exact .left _ _ (by omega)

end

def subtree (g : Graph σ) (id : InstructionId) : Option (List InstructionId) := do
  let children ← g.access id g.children
  let nested ← children.mapM fun child =>
    if id.index < child.index ∧ child.index < g.size then subtree g child else none
  return id :: nested.flatten
termination_by g.size - id.index

end Checked

@[simp]
theorem shape_chain (g : Graph σ) (ids : List InstructionId) : (g.chain ids).shape = g.shape := by
  fun_induction chain g ids with
  | case1 g a b rest ih => rw [ih, shape_setNext]
  | case2 => rfl

@[simp]
theorem length_layoutEach (graph start : Nat) (owner : Option InstructionId)
    (is : List (Instruction σ)) : (layoutEach graph start owner is).length = sizeAll is := by
  induction is generalizing start with
  | nil => rfl
  | cons i rest ih => simp [layoutEach, ih]

theorem contains_insertAll {owner : Option InstructionId} {g : Graph σ}
    {is : List (Instruction σ)} {id : InstructionId} (h : id ∈ (g.insertAll owner is).1) :
    (g.insertAll owner is).2.contains id = true := by
  rw [insertAll_eq_layout] at h ⊢
  rw [contains_iff, size_extend, length_layoutEach]
  exact ⟨graph_of_mem_places h, (mem_places h).2⟩

theorem contains_insertAll_of_contains {g : Graph σ} {id : InstructionId}
    (h : g.contains id = true) (owner : Option InstructionId) (is : List (Instruction σ)) :
    (g.insertAll owner is).2.contains id = true := by
  rw [insertAll_eq_layout]
  exact contains_extend h

theorem contains_push (g : Graph σ) (kind : NodeKind σ) (owner : Option InstructionId) :
    (g.push kind owner).2.contains (g.push kind owner).1 = true := by
  rw [contains_iff]
  simp [push, size]

namespace Forest

variable {g : Graph σ}

theorem push (hg : g.Forest) {kind : NodeKind σ} (hkind : kind.nested = [])
    (owner : Option InstructionId) : (g.push kind owner).2.Forest := by
  have hextend : (g.push kind owner).2 = g.extend [{ kind, next := none, owner }] := by
    simp [Graph.push, Graph.extend]
  rw [hextend]
  apply hg.extend
  intro id hlower hupper
  have hchildren : (g.extend [{ kind, next := none, owner }]).children id = [] := by
    have hplace : id.index - g.size = 0 := by
      simp only [List.length_singleton] at hupper
      omega
    rw [children_eq, kind?_extend_of_le hlower, hplace]
    simpa using hkind
  constructor <;> simp [hchildren]

theorem insertAll (hg : g.Forest) (owner : Option InstructionId) (is : List (Instruction σ)) :
    (g.insertAll owner is).2.Forest := by
  induction is generalizing g with
  | nil => exact hg
  | cons i rest ih => exact ih (hg.insert owner i)

theorem checked_setNext {g : Graph σ} (hg : g.Forest) {id : InstructionId} (hid : g.contains id = true)
    (next : Option InstructionId) : Checked.setNext g id next = some (g.setNext id next) := by
  obtain ⟨kind, hkind⟩ := exists_kind?_of_contains hid
  rw [Checked.setNext, access_eq hid, hkind, Option.bind_eq_bind, Option.bind_some]
  cases kind with
  | jump label => rw [setNext_of_jump hkind]; rfl
  | block children =>
    rw [setNext_of_block hkind]
    dsimp only
    cases hlast : children.getLast? with
    | none => rfl
    | some last =>
      have hmem : last ∈ g.children id := by
        rw [children_eq, hkind]
        exact List.mem_of_getLast? hlast
      have hlater := (hg id).later last hmem
      have hlinked : (g.link id next).shape = g.shape := shape_link g id next
      simp only [if_pos hlater]
      apply (hg.congr hlinked.symm).checked_setNext
      rw [contains_congr hlinked]
      exact hg.contains_of_mem_children hmem
  | _ => rw [setNext_of_other hkind (by simp) (by simp)]; rfl
termination_by g.size - id.index
decreasing_by simp only [size_link]; omega

theorem checked_chain (hg : g.Forest) {ids : List InstructionId}
    (hids : ∀ id ∈ ids, g.contains id = true) :
    Checked.chain g ids = some (g.chain ids) := by
  fun_induction Graph.chain g ids with
  | case1 g a b rest ih =>
    have hshape : (g.setNext a (some b)).shape = g.shape := shape_setNext g a _
    rw [Checked.chain, hg.checked_setNext (hids a List.mem_cons_self), Option.bind_eq_bind,
      Option.bind_some]
    apply ih (hg.congr hshape.symm)
    intro id hid
    rw [contains_congr hshape]
    exact hids id (List.mem_cons_of_mem _ hid)
  | case2 g ids hother => rw [Checked.chain]; exact hother

theorem checked_insert_of_nested {i : Instruction σ}
    (h : ∀ owner (g : Graph σ), g.Forest →
      Checked.insertAll owner g i.nested = some (g.insertAll owner i.nested))
    (hg : g.Forest) (owner : Option InstructionId) :
    Checked.insert owner g i = some (g.insert owner i) := by
  have hkind : (i.kind []).nested = [] := by
    rw [List.eq_nil_iff_forall_not_mem]
    intro child hchild
    simpa using mem_of_mem_nested_kind hchild
  -- the node itself has nothing nested in it yet, so it is in nobody's way
  have hpush := hg.push hkind owner
  have hid := contains_push g (i.kind []) owner
  rw [Checked.insert, insert_eq]
  generalize g.push (i.kind []) owner = pushed at hpush hid ⊢
  obtain ⟨id, g⟩ := pushed
  have hnested := hpush.insertAll (some id) i.nested
  have hids := fun child => @contains_insertAll σ (some id) g i.nested child
  have hid := contains_insertAll_of_contains hid (some id) i.nested
  simp only [h _ g hpush, Option.bind_eq_bind, Option.bind_some]
  rw [hnested.checked_chain hids, Option.bind_some, access_eq]
  rw [contains_congr (shape_chain _ _)]
  exact hid

theorem checked_insertAll (hg : g.Forest) (owner : Option InstructionId)
    (is : List (Instruction σ)) :
    Checked.insertAll owner g is = some (g.insertAll owner is) := by
  induction is using forest_induction generalizing owner g with
  | nil => rw [Checked.insertAll]; rfl
  | cons i rest ihNested ihRest =>
    have hinsert := hg.checked_insert_of_nested (fun owner g hg => ihNested hg owner) owner
    rw [Checked.insertAll, hinsert, Option.bind_eq_bind, Option.bind_some]
    dsimp only
    rw [ihRest (hg.insert owner i)]
    rfl

theorem checked_insert (hg : g.Forest) (owner : Option InstructionId) (i : Instruction σ) :
    Checked.insert owner g i = some (g.insert owner i) :=
  hg.checked_insert_of_nested (fun owner _ hg => hg.checked_insertAll owner _) owner

theorem checked_subtree (hg : g.Forest) {id : InstructionId} (hid : g.contains id = true) :
    Checked.subtree g id = some (g.subtree id) := by
  have hnested : ∀ child ∈ g.children id,
      (if id.index < child.index ∧ child.index < g.size then Checked.subtree g child else none) =
        some (g.subtree child) := by
    intro child hchild
    have hlater := (hg id).later child hchild
    rw [if_pos hlater]
    exact hg.checked_subtree (hg.contains_of_mem_children hchild)
  rw [Checked.subtree, access_eq hid, Option.bind_eq_bind, Option.bind_some, mapM_eq_some hnested,
    hg.subtree_eq]
  rfl
termination_by g.size - id.index

end Forest

end Graph

end Sequencer
