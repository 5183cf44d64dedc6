import Sequencer.Proofs.Instruction.Layout

/-!
The operations that write the graph, in terms of layouts. `insert_eq_layout` and `setNext_layout`
say that lowering adds the layout of an instruction with the exit open, and that setting what
follows an instruction closes the exit.
-/

namespace Sequencer

open Instruction

namespace Graph

variable {σ : Type}

@[simp]
theorem id_setKind (g : Graph σ) (id : InstructionId) (kind : NodeKind σ) :
    (g.setKind id kind).id = g.id := rfl

@[simp]
theorem id_link (g : Graph σ) (id : InstructionId) (next : Option InstructionId) :
    (g.link id next).id = g.id := rfl

theorem eq_of_toList {g h : Graph σ} (hid : g.id = h.id)
    (hnodes : g.nodes.toList = h.nodes.toList) : g = h := by
  cases g
  cases h
  simp_all [Array.toList_inj]

theorem kind?_of_toList {g : Graph σ} {before after : List (Node σ)} {n : Node σ} {start : Nat}
    (h : g.nodes.toList = before ++ n :: after) (hstart : before.length = start) (graph : Nat) :
    g.kind? ⟨graph, start⟩ = some n.kind := by
  simp only [kind?, node?, ← Array.getElem?_toList, h, ← hstart]
  simp

theorem modify_at_length (before after : List (Node σ)) (n : Node σ) (f : Node σ → Node σ) :
    (before ++ n :: after).modify before.length f = before ++ f n :: after := by
  induction before with
  | nil => simp
  | cons m before ih => simp [ih]

theorem toList_link {g : Graph σ} {before after : List (Node σ)} {n : Node σ} {start : Nat}
    (h : g.nodes.toList = before ++ n :: after) (hstart : before.length = start) (graph : Nat)
    (next : Option InstructionId) :
    (g.link ⟨graph, start⟩ next).nodes.toList = before ++ { n with next } :: after := by
  rw [link, Array.toList_modify, h, ← hstart, modify_at_length]

theorem toList_setKind {g : Graph σ} {before after : List (Node σ)} {n : Node σ} {start : Nat}
    (h : g.nodes.toList = before ++ n :: after) (hstart : before.length = start) (graph : Nat)
    (kind : NodeKind σ) :
    (g.setKind ⟨graph, start⟩ kind).nodes.toList = before ++ { n with kind } :: after := by
  rw [setKind, Array.toList_modify, h, ← hstart, modify_at_length]

theorem setNext_of_jump {g : Graph σ} {id : InstructionId} {label : String}
    (h : g.kind? id = some (.jump label)) (next : Option InstructionId) :
    g.setNext id next = g := by
  rw [setNext, h]

theorem setNext_of_block {g : Graph σ} {id : InstructionId} {children : List InstructionId}
    (h : g.kind? id = some (.block children)) (next : Option InstructionId) :
    g.setNext id next =
      match children.getLast? with
      | none => g.link id next
      | some last =>
        if id.index < last.index ∧ last.index < g.size then (g.link id next).setNext last next
        else g.link id next := by
  rewrite [setNext, h]
  rfl

theorem setNext_of_other {g : Graph σ} {id : InstructionId} {kind : NodeKind σ}
    (h : g.kind? id = some kind) (jump : ∀ label, kind ≠ .jump label)
    (block : ∀ children, kind ≠ .block children) (next : Option InstructionId) :
    g.setNext id next = g.link id next := by
  rw [setNext, h]
  cases kind <;> simp_all

@[simp]
theorem id_setNext (g : Graph σ) (id : InstructionId) (next : Option InstructionId) :
    (g.setNext id next).id = g.id := by
  unfold setNext
  split
  . rfl
  . rfl
  . split
    . rfl
    . split
      . rw [id_setNext, id_link]
      . rfl
  . rfl
termination_by g.size - id.index
decreasing_by simp only [size_link]; omega

theorem setNext_layout {g : Graph σ} {graph start : Nat} {before after : List (Node σ)}
    {owner exit : Option InstructionId} {is : List (Instruction σ)} {last : InstructionId}
    (hstart : before.length = start)
    (hnodes : g.nodes.toList = before ++ (layout graph start owner exit is ++ after))
    (hlast : (places graph start is).getLast? = some last) (next : Option InstructionId) :
    (g.setNext last next).nodes.toList =
      before ++ (layout graph start owner next is ++ after) := by
  -- Only the last tree is touched. If it is a block the link goes down to its last child, so the
  -- exit is closed at every depth; a jump keeps no link.
  induction is using forest_induction generalizing g start before after owner exit last with
  | nil => simp [places] at hlast
  | cons i rest ihNested ihRest =>
    cases rest with
    | nil =>
      simp only [places, List.getLast?_singleton, Option.some.injEq] at hlast
      subst hlast
      rw [layout_single] at hnodes ⊢
      simp only [List.cons_append] at hnodes ⊢
      have hkind := kind?_of_toList hnodes hstart graph
      have hlink := toList_link hnodes hstart graph next
      cases i with
      | jump label =>
        rw [setNext_of_jump hkind, hnodes]
        simp [isJump, isBlock]
      | block children =>
        rw [setNext_of_block hkind]
        simp only [isJump, isBlock, kind, nested, Bool.false_eq_true, ↓reduceIte] at hlink ⊢
        split
        . next hnone =>
          have : children = [] := by
            cases children with
            | nil => rfl
            | cons child rest => simp [places] at hnone
          subst this
          simpa using hlink
        . next last hlast =>
          have hmem := mem_places (List.mem_of_getLast? hlast)
          have hsize : g.size = start + (1 + sizeAll children + after.length) := by
            rw [size, ← Array.length_toList, hnodes]
            simp [nested, hstart]
            omega
          rw [if_pos (by omega)]
          -- the children are laid out right behind the node that was linked just now
          rw [List.append_cons] at hlink ⊢
          apply ihNested
          . simp [hstart]
          . exact hlink
          . exact hlast
      | _ =>
        rw [setNext_of_other hkind (by simp [kind]) (by simp [kind])]
        exact hlink
    | cons j rest =>
      rw [layout_cons] at hnodes ⊢
      simp only [entry, List.append_assoc] at hnodes ⊢
      rw [← List.append_assoc] at hnodes ⊢
      apply ihRest
      . simp [hstart]
      . exact hnodes
      . simpa [places] using hlast

@[simp]
theorem id_chain (g : Graph σ) (ids : List InstructionId) : (g.chain ids).id = g.id := by
  fun_induction chain g ids with
  | case1 g a b rest ih => rw [ih, id_setNext]
  | case2 => rfl

theorem chain_layout {g : Graph σ} {graph start : Nat} {before : List (Node σ)}
    {owner : Option InstructionId} {is : List (Instruction σ)}
    (hstart : before.length = start)
    (hnodes : g.nodes.toList = before ++ layoutEach graph start owner is) :
    (g.chain (places graph start is)).nodes.toList =
      before ++ layout graph start owner none is := by
  induction is generalizing g start before with
  | nil => simpa [places, chain, layoutEach] using hnodes
  | cons i rest ih =>
    cases rest with
    | nil => simpa [places, chain, layoutEach] using hnodes
    | cons j rest =>
      rw [layout_cons]
      simp only [places, chain, entry]
      rw [← List.append_assoc]
      apply ih
      . simp [hstart]
      . rw [layoutEach] at hnodes
        rw [List.append_assoc]
        apply setNext_layout hstart hnodes
        simp [places]

theorem setKind_push (g : Graph σ) (kind kind' : NodeKind σ) (owner : Option InstructionId) :
    (g.push kind owner).2.setKind (g.push kind owner).1 kind' = (g.push kind' owner).2 := by
  simp only [push, setKind, size]
  congr 1
  apply Array.toList_inj.mp
  simp only [Array.toList_modify, Array.toList_push, ← Array.length_toList]
  rw [modify_at_length]

theorem insert_eq (owner : Option InstructionId) (g : Graph σ) (i : Instruction σ) :
    g.insert owner i =
      let (id, g) := g.push (i.kind []) owner
      let (ids, g) := g.insertAll (some id) i.nested
      (id, (g.chain ids).setKind id (i.kind ids)) := by
  cases i with
  | condition test alternative =>
    cases alternative with
    | none => simp [insert, insertAll, nested, chain, kind, setKind_push]
    | some alternative => simp [insert, insertAll, nested, chain, kind]
  | timedCondition timer test alternative =>
    cases alternative with
    | none => simp [insert, insertAll, nested, chain, kind, setKind_push]
    | some alternative => simp [insert, insertAll, nested, chain, kind]
  | block children => simp [insert, nested, kind]
  | _ => simp [insert, insertAll, nested, chain, kind, setKind_push]

def extend (g : Graph σ) (nodes : List (Node σ)) : Graph σ :=
  { g with nodes := g.nodes ++ nodes.toArray }

theorem toList_extend (g : Graph σ) (nodes : List (Node σ)) :
    (g.extend nodes).nodes.toList = g.nodes.toList ++ nodes := by
  simp [extend]

@[simp]
theorem size_extend (g : Graph σ) (nodes : List (Node σ)) :
    (g.extend nodes).size = g.size + nodes.length := by
  simp [extend, size]

theorem insert_eq_layout_of_nested {i : Instruction σ}
    (h : ∀ owner (g : Graph σ), g.insertAll owner i.nested =
      (places g.id g.size i.nested, g.extend (layoutEach g.id g.size owner i.nested)))
    (owner : Option InstructionId) (g : Graph σ) :
    g.insert owner i = (⟨g.id, g.size⟩, g.extend (layout g.id g.size owner none [i])) := by
  have hsize : g.nodes.toList.length = g.size := by
    simp [size]
  have hstart : (g.push (i.kind []) owner).2.nodes.toList.length = g.size + 1 := by
    simp [push, size]
  have hpush : ((g.push (i.kind []) owner).2.extend
      (layoutEach g.id (g.size + 1) (some ⟨g.id, g.size⟩) i.nested)).nodes.toList =
        (g.push (i.kind []) owner).2.nodes.toList ++
          layoutEach g.id (g.size + 1) (some ⟨g.id, g.size⟩) i.nested := by
    rw [toList_extend]
  have hchain := chain_layout hstart hpush
  simp only [push, Array.toList_push, List.append_assoc, List.singleton_append] at hchain
  have hkind := toList_setKind hchain hsize g.id (i.kind (places g.id (g.size + 1) i.nested))
  -- the node itself was pushed before the children and learns their handles after they are chained
  rw [insert_eq]
  simp only [h]
  apply Prod.ext
  . rfl
  . apply eq_of_toList
    . simp [extend, push]
    . rw [toList_extend, layout_single]
      simpa [push, size] using hkind

theorem insertAll_eq_layout (owner : Option InstructionId) (g : Graph σ)
    (is : List (Instruction σ)) :
    g.insertAll owner is =
      (places g.id g.size is, g.extend (layoutEach g.id g.size owner is)) := by
  induction is using forest_induction generalizing owner g with
  | nil => simp [insertAll, places, layoutEach, extend]
  | cons i rest ihNested ihRest =>
    simp only [insertAll, insert_eq_layout_of_nested ihNested, ihRest, places, layoutEach]
    simp [extend, size]

theorem insert_eq_layout (owner : Option InstructionId) (g : Graph σ) (i : Instruction σ) :
    g.insert owner i = (⟨g.id, g.size⟩, g.extend (layout g.id g.size owner none [i])) := by
  apply insert_eq_layout_of_nested
  intro owner g
  apply insertAll_eq_layout

end Graph

end Sequencer
