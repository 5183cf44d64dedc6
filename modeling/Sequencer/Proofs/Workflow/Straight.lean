import Sequencer.Proofs.Instruction.Acyclic
import Sequencer.Proofs.Workflow.Structure

/-!
Workflows that only go forward. They are built without jumps and without linking an instruction to
one that leads back to it, so their graphs are acyclic.
-/

namespace Sequencer

namespace Workflow

variable {σ : Type}

/-- An operation brings no jump and makes no link to an instruction that leads back to the link. -/
def Forward (w : Workflow σ) : Operation σ → Prop
  | .create instruction | .add (.new instruction) _ _ | .append (.new instruction) _ _ =>
    instruction.Jumpless
  | .append (.existing id) _ _ =>
    ∀ previous ∈ w.registered.getLast?, ∀ node, w.graph.Encloses previous.id node →
      ¬w.graph.Leads id node
  | _ => True

inductive Straight : Workflow σ → Prop where
  | empty (id : Nat) (config : EngineConfig) : Straight (.empty id config)
  | after {w : Workflow σ} (h : Straight w) {op : Operation σ} (hop : w.Forward op) :
      Straight (w.after op)

theorem Straight.reachable {w : Workflow σ} (h : w.Straight) : w.Reachable := by
  induction h with
  | empty id config => exact .empty id config
  | after _ _ ih => exact ih.after _

def Operation.Reappends : Operation σ → Prop
  | .append (.existing _) _ _ => True
  | _ => False

inductive Extends (w : Workflow σ) : Graph σ → Prop where
  | keep {g : Graph σ} (h : g.unvisited = w.graph.unvisited) : Extends w g
  | insert {instruction : Instruction σ} (h : instruction.Jumpless) :
      Extends w (w.graph.insert none instruction).2
  | append {previous : InstructionId} (hprevious : w.graph.contains previous = true)
      {instruction : Instruction σ} (h : instruction.Jumpless) :
      Extends w (w.graph.append previous instruction)

namespace Extends

variable {w : Workflow σ} {g : Graph σ}

theorem ordered (h : w.Extends g) (hw : w.graph.Ordered) : g.Ordered := by
  cases h with
  | keep h => exact hw.congr h.symm
  | insert h => exact hw.insert h
  | append hprevious h => exact hw.append hprevious h

theorem contains (h : w.Extends g) {id : InstructionId} (hid : w.graph.contains id = true) :
    g.contains id = true := by
  have hinsert (instruction : Instruction σ) :
      (w.graph.insert none instruction).2.contains id = true := by
    rw [Graph.insert_eq_layout]
    exact Graph.contains_extend hid
  cases h with
  | keep h => rwa [Graph.contains_congr (Graph.shape_eq_of_unvisited h)]
  | insert h => exact hinsert _
  | append hprevious h =>
    rw [Graph.append, Graph.contains_congr (Graph.shape_setNext _ _ _)]
    exact hinsert _

theorem leads (h : w.Extends g) (hw : w.graph.Sound) {a b : InstructionId}
    (ha : w.graph.contains a = true) (hb : w.graph.contains b = true) (hleads : g.Leads a b) :
    w.graph.Leads a b := by
  cases h with
  | keep h =>
    rw [Graph.Leads, Graph.flows_congr h] at hleads
    exact hleads
  | insert h => exact hw.leads_of_insert _ ha hleads
  | append hprevious h => exact hw.leads_of_append _ hprevious ha hb hleads

end Extends

theorem bindJumps_of_jumpless {g : Graph σ} (h : g.Jumpless) (live ids : List InstructionId) :
    bindJumps g live ids = .ok [] := by
  induction ids with
  | nil => rfl
  | cons id rest ih => rw [bindJumps, h id, ih]

theorem value_ensureLinked_of_jumpless {w : Workflow σ} (h : w.graph.Jumpless) :
    w.ensureLinked.value = (.ok (), { w with linksStale := false }) := by
  unfold ensureLinked
  split
  . rw [value_link, bindings, bindJumps_of_jumpless h]
    rfl
  . next hfresh =>
    rw [Bool.not_eq_true] at hfresh
    rw [← hfresh]
    rfl

theorem value_process_of_jumpless {w : Workflow σ} (h : w.graph.Jumpless) (hon : w.on = true)
    (clock : Clock) (env : Env σ) :
    (w.process clock env).value.workflow =
      (run w.config.transitionBudget clock 0 w.config.transitionBudget { w with linksStale := false }
        env).value.1 := by
  rw [value_process, if_pos hon, value_ensureLinked_of_jumpless h]

theorem unvisited_process_of_jumpless {w : Workflow σ} (h : w.graph.Jumpless) (clock : Clock)
    (env : Env σ) : (w.process clock env).value.workflow.graph.unvisited = w.graph.unvisited := by
  cases hon : w.on with
  | true =>
    rw [value_process_of_jumpless h hon]
    exact (sameProgram_run _ clock 0 _ { w with linksStale := false } env).unvisited
  | false => rw [value_process, hon, if_neg Bool.false_ne_true]

theorem extends_add_new (w : Workflow σ) {instruction : Instruction σ} (h : instruction.Jumpless)
    (number : Option Int64) (name : Option String) :
    w.Extends (w.add (.new instruction) number name).value.2.graph := by
  rw [value_add]
  simp only [candidate]
  split <;> exact .insert h

theorem graph_add_existing (w : Workflow σ) (id : InstructionId) (number : Option Int64)
    (name : Option String) :
    (w.add (.existing id) number name).value.2.graph = w.graph := by
  rw [value_add]
  simp only [candidate]
  cases w.handleFault? id with
  | some fault => rfl
  | none =>
    dsimp only
    split <;> rfl

theorem graph_append_existing (w : Workflow σ) (id : InstructionId) (number : Option Int64)
    (name : Option String) :
    (w.append (.existing id) number name).value.2.graph = w.graph ∨
      ∃ previous, w.registered.getLast? = some previous ∧ w.handleFault? id = none ∧
        (w.append (.existing id) number name).value.2.graph =
          w.graph.setNext previous.id (some id) := by
  rw [value_append, value_add]
  simp only [candidate]
  cases hfault : w.handleFault? id with
  | some fault => exact Or.inl rfl
  | none =>
    dsimp only
    cases w.labelClash? id with
    | some fault => exact Or.inl rfl
    | none =>
      cases hlast : w.registered.getLast? with
      | none => exact Or.inl rfl
      | some previous => exact Or.inr ⟨previous, rfl, rfl, rfl⟩

namespace Rooted

variable {w : Workflow σ}

theorem contains_getLast? (hw : w.Rooted) {previous : Registration}
    (h : w.registered.getLast? = some previous) : w.graph.contains previous.id = true :=
  hw.contained previous (List.mem_of_getLast? h)

theorem extends_append_new (hw : w.Rooted) {instruction : Instruction σ}
    (h : instruction.Jumpless) (number : Option Int64) (name : Option String) :
    w.Extends (w.append (.new instruction) number name).value.2.graph := by
  rw [value_append, value_add]
  simp only [candidate]
  cases (w.create instruction).2.labelClash? (w.create instruction).1 with
  | some fault => exact .insert h
  | none =>
    cases hlast : w.registered.getLast? with
    | none => exact .insert h
    | some previous => exact .append (hw.contains_getLast? hlast) h

theorem ordered_append_existing (hw : w.Rooted) (hordered : w.graph.Ordered) {id : InstructionId}
    {number : Option Int64} {name : Option String}
    (hop : w.Forward (.append (.existing id) number name)) :
    (w.append (.existing id) number name).value.2.graph.Ordered := by
  rcases w.graph_append_existing id number name with heq | ⟨previous, hlast, hfault, heq⟩
  . rwa [heq]
  . rw [heq]
    exact hordered.setNext (hw.contains_getLast? hlast) (handleFault?_eq_none_iff.mp hfault).1
      (hop previous hlast)

theorem extends_after (hw : w.Rooted) (hjumpless : w.graph.Jumpless) {op : Operation σ}
    (hop : w.Forward op) (hnew : ¬op.Reappends) : w.Extends (w.after op).graph := by
  cases op with
  | create instruction => exact .insert hop
  | add source number name =>
    cases source with
    | new instruction => exact w.extends_add_new hop number name
    | existing id => exact .keep (congrArg _ (w.graph_add_existing id number name))
  | append source number name =>
    cases source with
    | new instruction => exact hw.extends_append_new hop number name
    | existing id => exact absurd trivial hnew
  | remove selector =>
    simp only [after, Workflow.remove]
    split <;> exact .keep rfl
  | removeAll => exact .keep rfl
  | enable now => exact .keep (sameProgram_enable w now).unvisited
  | disable => exact .keep (sameProgram_disable w).unvisited
  | process clock env => exact .keep (unvisited_process_of_jumpless hjumpless clock env)
  | releaseFailure instruction => exact .keep (sameProgram_releaseFailure w instruction).unvisited

end Rooted

theorem Straight.ordered {w : Workflow σ} (h : w.Straight) : w.graph.Ordered := by
  induction h with
  | empty id config => exact Graph.Ordered.empty id
  | @after w h op hop ih =>
    by_cases hnew : op.Reappends
    . cases op with
      | append source number name =>
        cases source with
        | new instruction => simp [Operation.Reappends] at hnew
        | existing id => exact h.reachable.rooted.ordered_append_existing ih hop
      | _ => simp [Operation.Reappends] at hnew
    . exact (h.reachable.rooted.extends_after ih.jumpless hop hnew).ordered ih

end Workflow

end Sequencer
