import Sequencer.Proofs.Instruction.Implements
import Sequencer.Proofs.Instruction.Subtree
import Sequencer.Proofs.Workflow.LazyLink

/-!
A workflow that a program was appended to, one instruction after the other. Its graph has the layout
of the program, all of its nodes are live, and after a link pass it implements the program.
-/

namespace Sequencer

open Instruction

namespace Workflow

variable {σ : Type}

inductive Appends : Workflow σ → List (Instruction σ) → Workflow σ → Prop where
  | nil (w : Workflow σ) : Appends w [] w
  | cons {w w' : Workflow σ} {i : Instruction σ} {rest : List (Instruction σ)}
      (number : Option Int64) (name : Option String)
      (haccepted : (w.append (.new i) number name).value.1.isOk = true)
      (hrest : Appends (w.append (.new i) number name).value.2 rest w') : Appends w (i :: rest) w'

structure Holds (w : Workflow σ) (program : List (Instruction σ)) : Prop where
  nodes : w.graph.nodes.toList = layout w.graph.id 0 none none program
  registered : w.registered.map (·.id) = places w.graph.id 0 program

theorem Appends.reachable {w w' : Workflow σ} {program : List (Instruction σ)}
    (h : Appends w program w') (hreachable : w.Reachable) : w'.Reachable := by
  induction h with
  | nil => exact hreachable
  | @cons w _ i _ number name _ _ ih => exact ih (hreachable.after (.append (.new i) number name))

theorem append_new_ok {w : Workflow σ} {i : Instruction σ} {number : Option Int64}
    {name : Option String} (h : (w.append (.new i) number name).value.1.isOk = true) :
    (w.append (.new i) number name).value.2.registered.map (·.id) =
      w.registered.map (·.id) ++ [⟨w.graph.id, w.graph.size⟩] ∧
    (w.append (.new i) number name).value.2.graph =
      match w.registered.getLast? with
      | some previous =>
        (w.create i).2.graph.setNext previous.id (some ⟨w.graph.id, w.graph.size⟩)
      | none => (w.create i).2.graph := by
  rw [value_append, value_add] at h ⊢
  have hid : (w.create i).1 = ⟨w.graph.id, w.graph.size⟩ := by
    rw [create, Graph.insert_eq_layout]
  simp only [candidate, hid] at h ⊢
  cases hclash : (w.create i).2.labelClash? ⟨w.graph.id, w.graph.size⟩ with
  | some fault =>
    rw [hclash] at h
    simp [Except.isOk, Except.toBool] at h
  | none =>
    cases w.registered.getLast? with
    | none => simp [register, create]
    | some previous => simp [register, create]

theorem Holds.append {w : Workflow σ} {program : List (Instruction σ)} (h : w.Holds program)
    {i : Instruction σ} {number : Option Int64} {name : Option String}
    (haccepted : (w.append (.new i) number name).value.1.isOk = true) :
    (w.append (.new i) number name).value.2.Holds (program ++ [i]) := by
  obtain ⟨hregistered, hgraph⟩ := append_new_ok haccepted
  generalize (w.append (.new i) number name).value.2 = w' at hregistered hgraph ⊢
  have hsize : w.graph.size = sizeAll program := by
    rw [Graph.size, ← Array.length_toList, h.nodes, length_layout]
  have hcreate : (w.create i).2.graph.nodes.toList =
      [] ++ (layout w.graph.id 0 none none program ++
        layout w.graph.id (sizeAll program) none none [i]) := by
    rw [create, Graph.insert_eq_layout, Graph.toList_extend, h.nodes, hsize, List.nil_append]
  have hcreateId : (w.create i).2.graph.id = w.graph.id := by
    rw [create, Graph.insert_eq_layout]
    rfl
  -- the exit of the last instruction is the only open one, and it is closed now
  have hlast : (places w.graph.id 0 program).getLast? = w.registered.getLast?.map (·.id) := by
    rw [← h.registered, List.getLast?_map]
  have hid : w'.graph.id = w.graph.id := by
    rw [hgraph]
    split
    . rw [Graph.id_setNext, hcreateId]
    . exact hcreateId
  constructor
  . rw [hid, layout_concat, Nat.zero_add, hgraph]
    split
    . next previous hprevious =>
      rw [hprevious] at hlast
      rw [hsize]
      exact Graph.setNext_layout List.length_nil hcreate hlast _
    . next hnone =>
      rw [hnone] at hlast
      have hnil : program = [] := by
        cases program with
        | nil => rfl
        | cons j rest => simp [places] at hlast
      rw [hcreate, hnil]
      simp
  . rw [hid, hregistered, h.registered, hsize, places_concat, Nat.zero_add]

theorem Appends.holds {w w' : Workflow σ} {program : List (Instruction σ)}
    (h : Appends w program w') {before : List (Instruction σ)} (hholds : w.Holds before) :
    w'.Holds (before ++ program) := by
  induction h generalizing before with
  | nil => simpa using hholds
  | cons _ _ haccepted _ ih =>
    have := ih (hholds.append haccepted)
    rwa [List.append_assoc] at this

theorem holds_empty (id : Nat) (config : EngineConfig) :
    (Workflow.empty id config : Workflow σ).Holds [] where
  nodes := by simp [Workflow.empty, Graph.empty]
  registered := rfl

namespace Holds

variable {w : Workflow σ} {program : List (Instruction σ)}

theorem carries (h : w.Holds program) :
    w.graph.Carries 0 (layout w.graph.id 0 none none program) := by
  rw [← h.nodes]
  apply Graph.carries_toList

theorem size (h : w.Holds program) : w.graph.size = sizeAll program := by
  rw [Graph.size, ← Array.length_toList, h.nodes, length_layout]

theorem liveNodes (h : w.Holds program) :
    w.liveNodes = (List.range' 0 (sizeAll program)).map fun place => ⟨w.graph.id, place⟩ := by
  rw [← Graph.flatMap_subtree_places h.carries (by rw [h.size]; omega), ← h.registered,
    Workflow.liveNodes, List.flatMap_map]

theorem mem_liveNodes_iff (h : w.Holds program) (id : InstructionId) :
    id ∈ w.liveNodes ↔ ∃ place, place < sizeAll program ∧ id = ⟨w.graph.id, place⟩ := by
  rw [h.liveNodes, List.mem_map]
  constructor
  . rintro ⟨place, hplace, rfl⟩
    exact ⟨place, by simpa using hplace, rfl⟩
  . rintro ⟨place, hplace, rfl⟩
    exact ⟨place, by simpa using hplace, rfl⟩

end Holds

theorem carries_resolve {g : Graph σ} {bindings : List (InstructionId × InstructionId)}
    (hjumps : ∀ jump target, (jump, target) ∈ bindings → ∃ label, g.jumpLabel? jump = some label)
    {start : Nat} {nodes : List (Node σ)} (h : g.Carries start nodes) :
    (resolve g bindings).Carries start nodes := by
  have hshape := shape_resolve g bindings
  have hid : (resolve g bindings).id = g.id := congrArg (fun g => g.id) hshape
  intro k n hn
  obtain ⟨hkind, hnext⟩ := h k n hn
  constructor
  . rw [hid, ← Graph.kind?_shape, hshape, Graph.kind?_shape, hkind]
  . intro hn
    rw [hid, next?_resolve_of_forall_ne, hnext hn]
    intro jump target hmem heq
    obtain ⟨label, hlabel⟩ := hjumps jump target hmem
    have hsame : g.jumpLabel? jump = g.jumpLabel? ⟨g.id, start + k⟩ := by
      simp only [Graph.jumpLabel?, Graph.kind?, Graph.node?, heq]
    rw [hsame, ← Graph.jumpLabel?_shape, Graph.jumpLabel?, Graph.kind?_shape, hkind] at hlabel
    cases hnkind : n.kind <;> simp_all [NodeKind.unvisited]

theorem Coherent.implements {w : Workflow σ} {program : List (Instruction σ)} (h : w.Coherent)
    (hstale : w.linksStale = false)
    (hcarries : w.graph.Carries 0 (layout w.graph.id 0 none none program))
    (hlive : ∀ id, id ∈ w.liveNodes ↔
      ∃ place, place < sizeAll program ∧ id = ⟨w.graph.id, place⟩) :
    w.graph.Implements program := by
  -- jumps are bound to live labels, and what is live is written in the program
  have hjump (place : Nat) (name : String) (hleaf : IsLeaf program place (.jump name)) :
      ∃ target, w.IsLiveLabel name target ∧ w.graph.next? ⟨w.graph.id, place⟩ = some target := by
    obtain ⟨_, hnode⟩ := Graph.lowered_of_isLeaf hcarries hleaf
    have hlabel := (hnode.jumpLabel?_iff name).mpr rfl
    have hmem := (hlive _).mpr ⟨place, hleaf.place_lt, rfl⟩
    obtain ⟨target, hfind, hnext⟩ := h.bound hstale _ hmem name hlabel
    exact ⟨target, isLiveLabel_of_findLabel? hfind, hnext⟩
  constructor
  . exact hcarries
  . intro place name hleaf
    obtain ⟨target, ⟨hmem, hlabel⟩, _⟩ := hjump place name hleaf
    obtain ⟨targetPlace, hplace, rfl⟩ := (hlive target).mp hmem
    have hkind : ∃ kind, w.graph.kind? ⟨w.graph.id, targetPlace⟩ = some kind ∧
        kind.isBlock = false := by
      unfold Graph.labelName? at hlabel
      split at hlabel
      . next hkind => exact ⟨_, hkind, rfl⟩
      . simp at hlabel
    obtain ⟨kind, hkind, hblock⟩ := hkind
    obtain ⟨i, htarget, _, hnode⟩ := Graph.isLeaf_of_kind? hcarries hplace hkind hblock
    have hi := (hnode.labelName?_iff name).mp hlabel
    subst hi
    exact ⟨targetPlace, htarget⟩
  . intro place target name hleaf htarget
    obtain ⟨bound, hbound, hnext⟩ := hjump place name hleaf
    obtain ⟨_, hnode⟩ := Graph.lowered_of_isLeaf hcarries htarget
    have hlabel : w.IsLiveLabel name ⟨w.graph.id, target⟩ :=
      ⟨(hlive _).mpr ⟨target, htarget.place_lt, rfl⟩, (hnode.labelName?_iff name).mpr rfl⟩
    rw [hnext, h.isLiveLabel_unique hbound hlabel]

theorem Holds.implements {w linked : Workflow σ} {program : List (Instruction σ)}
    (h : w.Holds program) (hcoherent : w.Coherent) (hlink : w.link.value = (.ok (), linked)) :
    linked.graph.Implements program := by
  have hlinked := hcoherent.link
  rw [hlink] at hlinked
  rw [value_link] at hlink
  cases hbindings : w.bindings with
  | error missing =>
    rw [hbindings] at hlink
    simp at hlink
  | ok bindings =>
    rw [hbindings] at hlink
    cases hlink
    have hid : (resolve w.graph bindings).id = w.graph.id :=
      congrArg (fun g => g.id) (shape_resolve w.graph bindings)
    apply hlinked.implements rfl
    . dsimp only
      rw [hid]
      apply carries_resolve _ h.carries
      intro jump target hmem
      obtain ⟨_, label, hlabel, _⟩ := (bindJumps_ok hbindings).2 jump target hmem
      exact ⟨label, hlabel⟩
    . intro id
      rw [liveNodes_resolve, h.mem_liveNodes_iff]
      dsimp only
      rw [hid]

theorem shape_link {w linked : Workflow σ} (h : w.link.value = (.ok (), linked)) :
    linked.registered = w.registered ∧ linked.graph.shape = w.graph.shape := by
  rw [value_link] at h
  split at h
  . simp at h
  . cases h
    exact ⟨rfl, shape_resolve _ _⟩

/--
Lowering keeps what a program means. Whatever the nodes keep of their visits, control that starts
the program arrives at its first leaf, and control that leaves a node arrives at the one successor
that the program has for the leaf at the place of the node.
-/
theorem Appends.follows_program {id : Nat} {config : EngineConfig} {program : List (Instruction σ)}
    {w linked : Workflow σ} (happends : Appends (.empty id config) program w)
    (hlink : w.link.value = (.ok (), linked)) {g : Graph σ}
    (hg : g.unvisited = linked.graph.unvisited) :
    g.Arrives (linked.registered.head?.map (·.id))
      (g.handle? ((leaves 0 program).head?.map Prod.fst)) ∧
    ∀ node kind, g.contains node = true → g.kind? node = some kind → kind.isBlock = false →
      ∃ i target, IsLeaf program node.index i ∧ g.Has node.index i ∧
        Follows program node.index kind.holds target ∧
        (∀ other, Follows program node.index kind.holds other → other = target) ∧
        g.Arrives (g.successor? node) (g.handle? target) := by
  have hholds := happends.holds (holds_empty id config)
  rw [List.nil_append] at hholds
  have hcoherent := (happends.reachable (.empty id config)).coherent
  have himplements := (hholds.implements hcoherent hlink).congr hg.symm
  obtain ⟨hregistered, hshape⟩ := shape_link hlink
  have hgshape : g.shape = w.graph.shape := (Graph.shape_eq_of_unvisited hg).trans hshape
  have hid : g.id = w.graph.id := congrArg (fun g => g.id) hgshape
  constructor
  . rw [hregistered, ← List.head?_map, hholds.registered, ← hid]
    exact himplements.arrives_entry
  . intro node kind hcontains hkind hblock
    have hplace : node.index < sizeAll program := by
      rw [← hholds.size, ← Graph.size_congr hgshape]
      exact Graph.lt_of_contains hcontains
    have hnode : node = ⟨g.id, node.index⟩ := by
      simp only [Graph.contains, Bool.and_eq_true, decide_eq_true_eq] at hcontains
      rw [← hcontains.1]
    rw [hnode] at hkind ⊢
    exact himplements.arrives_successor? hplace hkind hblock

def branching : List (Instruction Unit) :=
  [.block [],
    .block [.label "top",
      .condition (.const false) (some (.block [.block [], .jump "top"])),
      .block []],
    .log .info "done"]

def branchingWorkflow : Workflow Unit :=
  branching.foldl (fun w i => w.after (.append (.new i) none none)) (.empty 0 .default)

theorem Appends.follows_program_branching :
    let linked := branchingWorkflow.link.value.2
    Appends (.empty 0 .default) branching branchingWorkflow ∧
    branchingWorkflow.link.value = (.ok (), linked) ∧
    linked.graph.Arrives (linked.registered.head?.map (·.id)) (some ⟨0, 2⟩) ∧
    ∃ target, Follows branching 3 false target ∧
      linked.graph.Arrives (linked.graph.successor? ⟨0, 3⟩) (linked.graph.handle? target) := by
  have happends : Appends (.empty 0 .default) branching branchingWorkflow := by
    apply Appends.cons none none (by decide +kernel)
    apply Appends.cons none none (by decide +kernel)
    apply Appends.cons none none (by decide +kernel)
    apply Appends.nil
  have hlink : branchingWorkflow.link.value = (.ok (), branchingWorkflow.link.value.2) :=
    Prod.ext (by decide +kernel) rfl
  have hblock : (branchingWorkflow.link.value.2.graph.kind? ⟨0, 3⟩).map NodeKind.isBlock =
      some false := by
    decide +kernel
  have hfails : (branchingWorkflow.link.value.2.graph.kind? ⟨0, 3⟩).map NodeKind.holds =
      some false := by
    decide +kernel
  obtain ⟨kind, hkind, hblock⟩ := Option.map_eq_some_iff.mp hblock
  rw [hkind, Option.map_some, Option.some.injEq] at hfails
  obtain ⟨hstart, hnodes⟩ := Appends.follows_program happends hlink rfl
  obtain ⟨_, target, _, _, hfollows, _, harrives⟩ :=
    hnodes ⟨0, 3⟩ kind (by decide +kernel) hkind hblock
  rw [hfails] at hfollows
  have hfirst : branchingWorkflow.link.value.2.graph.handle?
      ((leaves 0 branching).head?.map Prod.fst) = some ⟨0, 2⟩ := by
    decide +kernel
  rw [hfirst] at hstart
  exact ⟨happends, hlink, hstart, target, hfollows, harrives⟩

end Workflow

end Sequencer
