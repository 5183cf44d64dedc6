import Mathlib.Logic.Relation
import Sequencer.Proofs.Instruction.Ownership
import Sequencer.Proofs.Workflow.LazyLink

/-!
The structure of a workflow: what is nested where in its graph, and what is registered.
`Restructures` has the changes that operations make to it. All of them keep a workflow `Rooted`:
what is registered is nested in nothing and is registered once. So the live nodes are all different.
-/

namespace Sequencer

namespace Workflow

variable {σ : Type}

inductive Restructures : Workflow σ → Workflow σ → Prop where
  | keep {w w' : Workflow σ} (hgraph : w'.graph.shape = w.graph.shape)
      (hregistered : w'.registered = w.registered) : Restructures w w'
  | create (w : Workflow σ) (instruction : Instruction σ) :
      Restructures w (w.create instruction).2
  | register {w : Workflow σ} {id : InstructionId} (hcontains : w.graph.contains id = true)
      (howner : w.graph.owner? id = none) (hfree : w.isRegistered id = false)
      (hclash : w.labelClash? id = none) (number : Option Int64) (name : Option String) :
      Restructures w (w.register id number name)
  | drop {w : Workflow σ} {registered : List Registration}
      (hsub : registered.Sublist w.registered) :
      Restructures w { w with registered, linksStale := true }

theorem SameProgram.restructures {w w' : Workflow σ} (h : SameProgram w w') : Restructures w w' :=
  .keep h.shape h.registered

theorem handleFault?_eq_none_iff {w : Workflow σ} {id : InstructionId} :
    w.handleFault? id = none ↔
      w.graph.contains id = true ∧ w.graph.owner? id = none ∧ w.isRegistered id = false := by
  unfold handleFault?
  cases w.graph.contains id with
  | false => simp
  | true => cases w.isRegistered id <;> cases w.graph.owner? id <;> simp

namespace Coherent

variable {w : Workflow σ}

theorem isRegistered_create (h : w.Coherent) (instruction : Instruction σ) :
    (w.create instruction).2.isRegistered (w.create instruction).1 = false := by
  rw [isRegistered, List.any_eq_false]
  intro entry hentry heq
  have hlt := Graph.lt_of_contains (h.contained entry hentry)
  have hid : (w.create instruction).1 = ⟨w.graph.id, w.graph.size⟩ := by
    rw [Workflow.create, Graph.insert_eq_layout]
  rw [decide_eq_true_eq, hid] at heq
  simp [heq] at hlt

theorem restructured_add (h : w.Coherent) (source : InstructionSource σ) (number : Option Int64)
    (name : Option String) :
    Relation.ReflTransGen Restructures w (w.add source number name).value.2 := by
  rw [value_add]
  cases source with
  | new instruction =>
    have hcreate := Relation.ReflTransGen.single (Restructures.create w instruction)
    simp only [candidate]
    split
    . exact hcreate
    . next hclash =>
      exact hcreate.tail (.register (Graph.contains_insert _ _ _) (Graph.owner?_insert _ _ _)
        (h.isRegistered_create instruction) hclash number name)
  | existing id =>
    simp only [candidate]
    cases hfault : w.handleFault? id with
    | some fault => exact Relation.ReflTransGen.refl
    | none =>
      obtain ⟨hcontains, howner, hfree⟩ := handleFault?_eq_none_iff.mp hfault
      dsimp only
      split
      . exact Relation.ReflTransGen.refl
      . next hclash =>
        exact Relation.ReflTransGen.single
          (.register hcontains howner hfree hclash number name)

theorem restructured_append (h : w.Coherent) (source : InstructionSource σ)
    (number : Option Int64) (name : Option String) :
    Relation.ReflTransGen Restructures w (w.append source number name).value.2 := by
  have hadd := h.restructured_add source number name
  rw [value_append]
  generalize (w.add source number name).value = added at hadd
  rcases added with ⟨_ | id, w'⟩
  . exact hadd
  . cases w.registered.getLast? with
    | none => exact hadd
    | some previous => exact hadd.tail (.keep (Graph.shape_setNext _ _ _) rfl)

end Coherent

theorem restructures_ensureLinked (w : Workflow σ) : Restructures w w.ensureLinked.value.2 := by
  unfold ensureLinked
  split
  . rw [value_link]
    split
    . exact .keep rfl rfl
    . exact .keep (shape_resolve _ _) rfl
  . exact .keep rfl rfl

theorem restructured_process (w : Workflow σ) (clock : Clock) (env : Env σ) :
    Relation.ReflTransGen Restructures w (w.process clock env).value.workflow := by
  rw [value_process]
  split
  . have hlinked := Relation.ReflTransGen.single (restructures_ensureLinked w)
    split
    . next heq => simpa [heq] using hlinked
    . next linked heq =>
      rw [heq] at hlinked
      exact hlinked.tail (sameProgram_run _ _ _ _ _ _).restructures
  . exact Relation.ReflTransGen.refl

theorem Coherent.restructured_after {w : Workflow σ} (h : w.Coherent) (op : Operation σ) :
    Relation.ReflTransGen Restructures w (w.after op) := by
  cases op with
  | create instruction => exact Relation.ReflTransGen.single (.create w instruction)
  | add source number name => exact h.restructured_add source number name
  | append source number name => exact h.restructured_append source number name
  | remove selector =>
    simp only [after, Workflow.remove]
    split
    . exact Relation.ReflTransGen.refl
    . exact Relation.ReflTransGen.single (.drop List.eraseP_sublist)
  | removeAll => exact Relation.ReflTransGen.single (.drop (List.nil_sublist _))
  | enable now => exact Relation.ReflTransGen.single (sameProgram_enable w now).restructures
  | disable => exact Relation.ReflTransGen.single (sameProgram_disable w).restructures
  | process clock env => exact restructured_process w clock env
  | releaseFailure instruction =>
    exact Relation.ReflTransGen.single (sameProgram_releaseFailure w instruction).restructures

theorem Reachable.structural {motive : Workflow σ → Prop}
    (empty : ∀ id config, motive (.empty id config))
    (restructure : ∀ w w', Restructures w w' → motive w → motive w') {w : Workflow σ}
    (h : w.Reachable) : motive w := by
  induction h with
  | empty id config => exact empty id config
  | @after w hw op ih =>
    have hsteps := hw.coherent.restructured_after op
    generalize w.after op = w' at hsteps
    induction hsteps with
    | refl => exact ih
    | tail _ hstep ih => exact restructure _ _ hstep ih

theorem Reachable.graph_structural {motive : Graph σ → Prop} (empty : ∀ id, motive (.empty id))
    (congr : ∀ g h : Graph σ, g.shape = h.shape → motive g → motive h)
    (insert : ∀ (g : Graph σ) i, g.Forest → motive g → motive (g.insert none i).2)
    {w : Workflow σ} (h : w.Reachable) : w.graph.Forest ∧ motive w.graph := by
  refine h.structural (motive := fun w => w.graph.Forest ∧ motive w.graph) ?_ ?_
  . exact fun id config => ⟨Graph.forest_empty id, empty id⟩
  . rintro w w' hstep ⟨hforest, hmotive⟩
    cases hstep with
    | keep hgraph _ => exact ⟨hforest.congr hgraph.symm, congr _ _ hgraph.symm hmotive⟩
    | create instruction =>
      exact ⟨hforest.insert none instruction, insert _ instruction hforest hmotive⟩
    | register => exact ⟨hforest, hmotive⟩
    | drop => exact ⟨hforest, hmotive⟩

structure Rooted (w : Workflow σ) : Prop where
  forest : w.graph.Forest
  contained : ∀ entry ∈ w.registered, w.graph.contains entry.id = true
  roots : ∀ entry ∈ w.registered, w.graph.owner? entry.id = none
  distinct : (w.registered.map (·.id)).Nodup

theorem Rooted.of_restructures {w w' : Workflow σ} (hstep : Restructures w w') (h : w.Rooted) :
    w'.Rooted := by
  cases hstep with
  | keep hgraph hregistered =>
    constructor
    . exact h.forest.congr hgraph.symm
    . intro entry hentry
      rw [hregistered] at hentry
      rw [Graph.contains_congr hgraph]
      exact h.contained entry hentry
    . intro entry hentry
      rw [hregistered] at hentry
      rw [Graph.owner?_congr hgraph]
      exact h.roots entry hentry
    . rw [hregistered]
      exact h.distinct
  | create instruction =>
    constructor
    . exact h.forest.insert none instruction
    . intro entry hentry
      rw [Workflow.create, Graph.insert_eq_layout]
      exact Graph.contains_extend (h.contained entry hentry)
    . intro entry hentry
      have hlt := Graph.lt_of_contains (h.contained entry hentry)
      rw [Workflow.create, Graph.insert_eq_layout]
      exact (Graph.owner?_extend hlt).trans (h.roots entry hentry)
    . exact h.distinct
  | @register id hcontains howner hfree hclash number name =>
    constructor
    . exact h.forest
    . simp only [Workflow.register, List.forall_mem_append, List.forall_mem_singleton]
      exact ⟨h.contained, hcontains⟩
    . simp only [Workflow.register, List.forall_mem_append, List.forall_mem_singleton]
      exact ⟨h.roots, howner⟩
    . rw [Workflow.register, List.map_append, List.map_singleton, ← List.concat_eq_append,
        List.nodup_concat]
      refine ⟨?_, h.distinct⟩
      intro hmem
      obtain ⟨entry, hentry, heq⟩ := List.mem_map.mp hmem
      rw [isRegistered, List.any_eq_false] at hfree
      exact hfree entry hentry (by simpa using heq)
  | drop hsub =>
    constructor
    . exact h.forest
    . exact fun entry hentry => h.contained entry (hsub.subset hentry)
    . exact fun entry hentry => h.roots entry (hsub.subset hentry)
    . exact (hsub.map _).nodup h.distinct

theorem Reachable.rooted {w : Workflow σ} (h : w.Reachable) : w.Rooted := by
  refine h.structural ?_ fun _ _ => Rooted.of_restructures
  intro id config
  constructor
  . exact Graph.forest_empty id
  . simp [Workflow.empty]
  . simp [Workflow.empty]
  . simp [Workflow.empty]

theorem Reachable.listed {w : Workflow σ} (h : w.Reachable) : w.graph.Listed :=
  (h.graph_structural Graph.listed_empty (fun _ _ heq hlisted => hlisted.congr heq)
    fun _ i hforest hlisted => hlisted.insert hforest i).2

def IsLive (w : Workflow σ) (id : InstructionId) : Prop :=
  ∃ entry ∈ w.registered, w.graph.Encloses entry.id id

namespace Rooted

variable {w : Workflow σ}

theorem mem_liveNodes_iff_isLive (h : w.Rooted) (id : InstructionId) :
    id ∈ w.liveNodes ↔ w.IsLive id := by
  simp only [liveNodes, IsLive, List.mem_flatMap, h.forest.mem_subtree_iff]

theorem graph_eq (h : w.Rooted) {entry : Registration} (hentry : entry ∈ w.registered) :
    entry.id.graph = w.graph.id := by
  have hcontains := h.contained entry hentry
  rw [Graph.contains, Bool.and_eq_true, decide_eq_true_eq] at hcontains
  exact hcontains.1

theorem nodup_liveNodes (h : w.Rooted) : w.liveNodes.Nodup := by
  rw [liveNodes, List.nodup_flatMap]
  refine ⟨fun entry _ => h.forest.nodup_subtree entry.id, ?_⟩
  apply (List.pairwise_map.mp h.distinct).imp_of_mem
  intro a b ha hb hne
  exact h.forest.disjoint_subtree (h.graph_eq ha) (h.graph_eq hb) (h.roots a ha) (h.roots b hb) hne

theorem depthFirst_liveNodes (h : w.Rooted) :
    w.graph.DepthFirst (w.registered.map (·.id)) w.liveNodes := by
  have hlive : w.liveNodes = (w.registered.map (·.id)).flatMap w.graph.subtree := by
    rw [liveNodes, List.flatMap_map]
  rw [hlive]
  exact h.forest.depthFirst_flatMap_subtree _

end Rooted

/--
The list of live nodes has all that is registered or nested in something registered, each once, and
no two live labels have the same name.
-/
theorem Reachable.liveNodes_distinct {w : Workflow σ} (h : w.Reachable) :
    (∀ id, id ∈ w.liveNodes ↔ w.IsLive id) ∧ w.liveNodes.Nodup ∧
    ∀ name a b, w.IsLive a → w.IsLive b → w.graph.labelName? a = some name →
      w.graph.labelName? b = some name → a = b := by
  have hrooted := h.rooted
  refine ⟨hrooted.mem_liveNodes_iff_isLive, hrooted.nodup_liveNodes, ?_⟩
  intro name a b ha hb hnameA hnameB
  rw [← hrooted.mem_liveNodes_iff_isLive] at ha hb
  exact h.coherent.isLiveLabel_unique ⟨ha, hnameA⟩ ⟨hb, hnameB⟩

def reregistered : Workflow Unit :=
  (Workflow.empty 0 .default)
    |>.after (.append (.new (.block [.label "a",
      .condition (.const false) (some (.block [.label "b"]))])) none none)
    |>.after (.append (.new (.label "c")) none none)
    |>.after (.remove (.id ⟨0, 0⟩))
    |>.after (.append (.new (.block [.label "b"])) none none)
    |>.after (.append (.existing ⟨0, 0⟩) none none)
    |>.after (.remove (.id ⟨0, 6⟩))
    |>.after (.append (.existing ⟨0, 0⟩) none none)

theorem Reachable.liveNodes_reregistered :
    reregistered.Reachable ∧
    reregistered.liveNodes = [⟨0, 5⟩, ⟨0, 0⟩, ⟨0, 1⟩, ⟨0, 2⟩, ⟨0, 3⟩, ⟨0, 4⟩] ∧
    reregistered.liveNodes.Nodup ∧ reregistered.IsLive ⟨0, 4⟩ := by
  have hreachable : reregistered.Reachable :=
    (((((((Reachable.empty _ _).after _).after _).after _).after _).after _).after _).after _
  obtain ⟨hlive, hnodup, _⟩ := Reachable.liveNodes_distinct hreachable
  have hnodes : reregistered.liveNodes = [⟨0, 5⟩, ⟨0, 0⟩, ⟨0, 1⟩, ⟨0, 2⟩, ⟨0, 3⟩, ⟨0, 4⟩] := by
    decide +kernel
  refine ⟨hreachable, hnodes, hnodup, ?_⟩
  rw [← hlive, hnodes]
  decide

end Workflow

end Sequencer
