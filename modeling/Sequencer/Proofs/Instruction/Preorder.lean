import Mathlib.Logic.Relation
import Sequencer.Proofs.Instruction.Access
import Sequencer.Proofs.Instruction.Ownership

/-!
The places of what is nested in a node. An instruction takes its place before those nested in it,
and these are followed by nothing else until the last of them is in place, so `Contiguous` says that
a subtree is the run of places that starts at its top. `walk` lists a subtree with a stack; it ends
after one turn for each node.
-/

namespace Sequencer

open Instruction

namespace Graph

variable {σ : Type}

/--
Lists nodes with a stack, the last entry of which is next: it is listed, and what is nested in it is
put on the stack with the first one last. There is no list if the stack is not empty after so many
turns, or if an entry is no node of the graph.
-/
def walk (g : Graph σ) (turns : Nat) (stack listed : List InstructionId) :
    Option (List InstructionId) :=
  match turns with
  | 0 => if stack.isEmpty then some listed else none
  | turns + 1 =>
    match stack.getLast? with
    | none => some listed
    | some id => do
      let children ← g.access id g.children
      walk g turns (stack.dropLast ++ children.reverse) (listed ++ [id])

def Climbs (g : Graph σ) : InstructionId → InstructionId → Prop :=
  Relation.ReflTransGen fun id owner => g.owner? id = some owner

structure IsEnd (g : Graph σ) (id : InstructionId) (stop : Nat) : Prop where
  later : id.index < stop
  nested : ∀ place, id.index < place → place < stop → g.Climbs ⟨g.id, place⟩ id
  outside : ¬g.Climbs ⟨g.id, stop⟩ id

def Contiguous (g : Graph σ) : Prop :=
  ∀ place < g.size, ∃ count,
    g.subtree ⟨g.id, place⟩ = (List.range' place count).map fun place => ⟨g.id, place⟩

theorem walk_nil (g : Graph σ) (turns : Nat) (listed : List InstructionId) :
    g.walk turns [] listed = some listed := by
  cases turns <;> rfl

theorem walk_concat {g : Graph σ} {id : InstructionId} (hid : g.contains id = true) (turns : Nat)
    (stack listed : List InstructionId) :
    g.walk (turns + 1) (stack ++ [id]) listed =
      g.walk turns (stack ++ (g.children id).reverse) (listed ++ [id]) := by
  rw [walk, List.getLast?_concat]
  dsimp only
  rw [List.dropLast_concat, access_eq hid]
  rfl

theorem exists_subtree_of_carries {g : Graph σ} {start place : Nat}
    {owner exit : Option InstructionId} {is : List (Instruction σ)}
    (h : g.Carries start (layout g.id start owner exit is)) (hsize : start + sizeAll is ≤ g.size)
    (hlower : start ≤ place) (hupper : place < start + sizeAll is) :
    ∃ count, g.subtree ⟨g.id, place⟩ =
      (List.range' place count).map fun place => ⟨g.id, place⟩ := by
  induction is using forest_induction generalizing start owner exit with
  | nil =>
    rw [sizeAll_nil] at hupper
    omega
  | cons i rest ihNested ihRest =>
    obtain ⟨_, hnested, hrest⟩ := carries_layout_cons h
    rw [layout_cons] at h
    have hfirst := flatMap_subtree_places (carries_append h).1
    have hsizeEq := size_eq i
    simp only [sizeAll_cons, sizeAll_nil, places, List.flatMap_cons, List.flatMap_nil,
      List.append_nil, Nat.add_zero] at hsize hupper hfirst
    rcases Nat.eq_or_lt_of_le hlower with rfl | hlower
    . exact ⟨i.size, hfirst (by omega)⟩
    . by_cases hplace : place < start + i.size
      . exact ihNested hnested (by omega) hlower (by omega)
      . exact ihRest hrest (by omega) (by omega) (by omega)

theorem contiguous_empty (id : Nat) : (Graph.empty id : Graph σ).Contiguous := by
  intro place hplace
  simp [Graph.empty, size] at hplace

namespace Contiguous

variable {g h : Graph σ}

theorem congr (hg : g.Contiguous) (heq : g.shape = h.shape) : h.Contiguous := by
  have hid : g.id = h.id := congrArg (fun g => g.id) heq
  intro place hplace
  rw [← size_congr heq] at hplace
  rw [← subtree_congr heq, ← hid]
  exact hg place hplace

theorem insert (hg : g.Contiguous) (hforest : g.Forest) (i : Instruction σ) :
    (g.insert none i).2.Contiguous := by
  rw [insert_eq_layout]
  intro place hplace
  rw [size_extend, length_layout] at hplace
  by_cases hold : place < g.size
  . have hclosed : g.Closed := fun id child hchild => ((hforest id).later child hchild).2
    obtain ⟨count, hcount⟩ := hg place hold
    exact ⟨count, (subtree_extend hclosed hold).trans hcount⟩
  . apply exists_subtree_of_carries (carries_insert g i)
    . simp only [size_extend, length_layout, Nat.le_refl]
    . exact Nat.le_of_not_lt hold
    . exact hplace

end Contiguous

namespace Forest

variable {g : Graph σ}

theorem walk_append (hg : g.Forest) {ids : List InstructionId}
    (hids : ∀ id ∈ ids, g.contains id = true) (turns : Nat)
    (stack listed : List InstructionId) :
    g.walk (turns + (ids.flatMap g.subtree).length) (stack ++ ids.reverse) listed =
      g.walk turns stack (listed ++ ids.flatMap g.subtree) := by
  -- the entries of a list are done one after the other; each adds a list of its own to the stack
  have hlist {ids : List InstructionId}
      (h : ∀ id ∈ ids, ∀ turns stack listed,
        g.walk (turns + (g.subtree id).length) (stack ++ [id]) listed =
          g.walk turns stack (listed ++ g.subtree id)) (turns : Nat)
      (stack listed : List InstructionId) :
      g.walk (turns + (ids.flatMap g.subtree).length) (stack ++ ids.reverse) listed =
        g.walk turns stack (listed ++ ids.flatMap g.subtree) := by
    induction ids generalizing listed with
    | nil => simp
    | cons id rest ih =>
      rw [List.forall_mem_cons] at h
      rw [List.flatMap_cons, List.length_append, List.reverse_cons, ← List.append_assoc,
        Nat.add_comm (g.subtree id).length, ← Nat.add_assoc, h.1, ih h.2, List.append_assoc]
  apply hlist
  intro id hid
  replace hid := hids id hid
  induction id using hg.induction with
  | step id ih =>
    intro turns stack listed
    have hchildren := hlist fun child hchild =>
      ih child hchild (hg.contains_of_mem_children hchild)
    rw [hg.subtree_eq, List.length_cons, ← Nat.add_assoc, walk_concat hid, hchildren,
      List.append_assoc, List.singleton_append]

theorem walk_subtree (hg : g.Forest) {id : InstructionId} (hid : g.contains id = true)
    (turns : Nat) :
    g.walk (turns + (g.subtree id).length) [id] [] = some (g.subtree id) := by
  have hids : ∀ node ∈ [id], g.contains node = true := by
    simpa using hid
  have h := hg.walk_append hids turns [] []
  simpa [walk_nil] using h

theorem mem_children_iff (hg : g.Forest) (hlisted : g.Listed) {id child : InstructionId}
    (hid : g.contains id = true) :
    child ∈ g.children id ↔ g.contains child = true ∧ g.owner? child = some id := by
  constructor
  . intro hchild
    have howner := (hg id).owner child hchild
    rw [contains_iff] at hid
    rw [← hid.1] at howner
    exact ⟨hg.contains_of_mem_children hchild, howner⟩
  . rintro ⟨hcontains, howner⟩
    exact (hlisted child id hcontains howner).2

theorem owner_lt (hg : g.Forest) (hlisted : g.Listed) {id owner : InstructionId}
    (hid : g.contains id = true) (howner : g.owner? id = some owner) :
    g.contains owner = true ∧ owner.index < id.index := by
  obtain ⟨hgraph, hchild⟩ := hlisted id owner hid howner
  have hlater := (hg owner).later id hchild
  rw [contains_iff]
  exact ⟨⟨hgraph, by omega⟩, hlater.1⟩

theorem climbs_of_encloses (hg : g.Forest) {top id : InstructionId} (htop : top.graph = g.id)
    (h : g.Encloses top id) : g.Climbs id top := by
  induction h with
  | refl => exact Relation.ReflTransGen.refl
  | @nested node child hnode hchild ih =>
    have howner := (hg node).owner child hchild
    rw [← hg.graph_eq hnode htop] at howner
    exact ih.head howner

theorem encloses_of_climbs (hg : g.Forest) (hlisted : g.Listed) {top id : InstructionId}
    (hid : g.contains id = true) (h : g.Climbs id top) : g.Encloses top id := by
  induction h using Relation.ReflTransGen.head_induction_on with
  | refl => exact Encloses.refl
  | head howner _ ih =>
    have hup := (hg.owner_lt hlisted hid howner).1
    exact (ih hup).nested ((hg.mem_children_iff hlisted hup).mpr ⟨hid, howner⟩)

theorem mem_subtree_iff_climbs (hg : g.Forest) (hlisted : g.Listed) {top id : InstructionId}
    (htop : g.contains top = true) (hid : g.contains id = true) :
    id ∈ g.subtree top ↔ g.Climbs id top := by
  rw [hg.mem_subtree_iff]
  constructor
  . exact hg.climbs_of_encloses ((contains_iff g top).mp htop).1
  . exact hg.encloses_of_climbs hlisted hid

theorem not_climbs_of_size_le {top : InstructionId} {place : Nat} (htop : g.contains top = true)
    (hplace : g.size ≤ place) : ¬g.Climbs ⟨g.id, place⟩ top := by
  intro h
  rw [contains_iff] at htop
  cases h using Relation.ReflTransGen.head_induction_on with
  | refl =>
    have := htop.2
    dsimp only at this
    omega
  | head howner _ => simp [owner?, node?, Array.getElem?_eq_none hplace] at howner

theorem exists_isEnd (hg : g.Forest) (hlisted : g.Listed) (hcontiguous : g.Contiguous)
    {id : InstructionId} (hid : g.contains id = true) :
    ∃ stop, g.IsEnd id stop ∧
      g.subtree id =
        (List.range' id.index (stop - id.index)).map fun place => ⟨g.id, place⟩ := by
  obtain ⟨hgraph, hlt⟩ := (contains_iff g id).mp hid
  obtain ⟨count, hcount⟩ := hcontiguous id.index hlt
  rw [← hgraph] at hcount
  have hmem (place : Nat) :
      (⟨g.id, place⟩ : InstructionId) ∈ g.subtree id ↔
        id.index ≤ place ∧ place < id.index + count := by
    rw [hcount, ← hgraph]
    simp
  have htop := (hmem id.index).mp (by rw [← hgraph, hg.subtree_eq]; exact List.mem_cons_self)
  refine ⟨id.index + count, ⟨by omega, ?_, ?_⟩, ?_⟩
  . intro place hlower hupper
    have hnested := (hmem place).mpr ⟨by omega, hupper⟩
    exact hg.climbs_of_encloses hgraph (hg.mem_subtree_iff.mp hnested)
  . intro hclimbs
    by_cases hsize : id.index + count < g.size
    . have hstop : g.contains ⟨g.id, id.index + count⟩ = true := by
        rw [contains_iff]
        exact ⟨rfl, hsize⟩
      rw [← hg.mem_subtree_iff_climbs hlisted hid hstop, hmem] at hclimbs
      omega
    . exact not_climbs_of_size_le hid (by omega) hclimbs
  . rw [Nat.add_sub_cancel_left, ← hgraph]
    exact hcount

end Forest

end Graph

end Sequencer
