import Sequencer.Proofs.Instruction.Shape
import Sequencer.Workflow.Process

/-!
The operations of a workflow and the states they lead to. `SameProgram` is what holds between a
workflow before and after anything that runs instructions or moves the cursor: the instructions and
their links, and which of them are registered, stay as they are.
-/

namespace Sequencer

namespace Workflow

variable {σ : Type}

inductive Operation (σ : Type) where
  | create (instruction : Instruction σ)
  | add (source : InstructionSource σ) (number : Option Int64) (name : Option String)
  | append (source : InstructionSource σ) (number : Option Int64) (name : Option String)
  | remove (selector : InstructionSelector)
  | removeAll
  | enable (now : Instant)
  | disable
  | process (clock : Clock) (env : Env σ)
  | releaseFailure (instruction : Option InstructionId)

def after (w : Workflow σ) : Operation σ → Workflow σ
  | .create instruction => (w.create instruction).2
  | .add source number name => (w.add source number name).value.2
  | .append source number name => (w.append source number name).value.2
  | .remove selector => (w.remove selector).value.2
  | .removeAll => w.removeAll
  | .enable now => (w.enable now).value
  | .disable => w.disable.value
  | .process clock env => (w.process clock env).value.workflow
  | .releaseFailure instruction => (w.releaseFailure instruction).value

inductive Answer (σ : Type) where
  | nothing
  | created (id : InstructionId)
  | registered (result : Except WorkflowError InstructionId)
  | removed (found : Bool)
  | cycled (result : Except WorkflowError Unit) (env : Env σ)

def perform (w : Workflow σ) : Operation σ → Traced σ (Answer σ × Workflow σ)
  | .create instruction =>
    let (id, w) := w.create instruction
    pure (.created id, w)
  | .add source number name => do
    let (result, w) ← w.add source number name
    return (.registered result, w)
  | .append source number name => do
    let (result, w) ← w.append source number name
    return (.registered result, w)
  | .remove selector => do
    let (found, w) ← w.remove selector
    return (.removed found, w)
  | .removeAll => pure (.nothing, w.removeAll)
  | .enable now => do return (.nothing, ← w.enable now)
  | .disable => do return (.nothing, ← w.disable)
  | .process clock env => do
    let cycle ← w.process clock env
    return (.cycled cycle.result cycle.env, cycle.workflow)
  | .releaseFailure instruction => do return (.nothing, ← w.releaseFailure instruction)

theorem value_perform (w : Workflow σ) (op : Operation σ) :
    (w.perform op).value.2 = w.after op := by
  cases op <;> rfl

def carryOut (w : Workflow σ) (ops : List (Operation σ)) : Workflow σ :=
  ops.foldl after w

def report (w : Workflow σ) : List (Operation σ) → List (Entry σ)
  | [] => []
  | op :: ops => (w.perform op).entries ++ (w.after op).report ops

theorem carryOut_concat (w : Workflow σ) (ops : List (Operation σ)) (op : Operation σ) :
    w.carryOut (ops ++ [op]) = (w.carryOut ops).after op := by
  rw [carryOut, List.foldl_append]
  rfl

theorem report_concat (w : Workflow σ) (ops : List (Operation σ)) (op : Operation σ) :
    w.report (ops ++ [op]) = w.report ops ++ ((w.carryOut ops).perform op).entries := by
  induction ops generalizing w with
  | nil => exact List.append_nil _
  | cons first ops ih =>
    rw [List.cons_append, report, report, ih, List.append_assoc]
    rfl

inductive Reachable : Workflow σ → Prop where
  | empty (id : Nat) (config : EngineConfig) : Reachable (.empty id config)
  | after {w : Workflow σ} (h : Reachable w) (op : Operation σ) : Reachable (w.after op)

theorem Reachable.carryOut {w : Workflow σ} (h : w.Reachable) (ops : List (Operation σ)) :
    (w.carryOut ops).Reachable := by
  induction ops generalizing w with
  | nil => exact h
  | cons op ops ih => exact ih (h.after op)

structure SameProgram (w w' : Workflow σ) : Prop where
  unvisited : w'.graph.unvisited = w.graph.unvisited
  registered : w'.registered = w.registered
  linksStale : w'.linksStale = w.linksStale
  config : w'.config = w.config

namespace SameProgram

theorem refl (w : Workflow σ) : SameProgram w w :=
  ⟨rfl, rfl, rfl, rfl⟩

theorem trans {u v w : Workflow σ} (huv : SameProgram u v) (hvw : SameProgram v w) :
    SameProgram u w where
  unvisited := hvw.unvisited.trans huv.unvisited
  registered := hvw.registered.trans huv.registered
  linksStale := hvw.linksStale.trans huv.linksStale
  config := hvw.config.trans huv.config

theorem shape {w w' : Workflow σ} (h : SameProgram w w') : w'.graph.shape = w.graph.shape :=
  Graph.shape_eq_of_unvisited h.unvisited

end SameProgram

theorem sameProgram_makePending (w : Workflow σ) (now : Instant) (next : Option InstructionId) :
    SameProgram w (w.makePending now next).value := by
  cases next with
  | none => exact ⟨rfl, rfl, rfl, rfl⟩
  | some id => exact ⟨Graph.unvisited_arm _ _ _, rfl, rfl, rfl⟩

theorem sameProgram_enable (w : Workflow σ) (now : Instant) :
    SameProgram w (w.enable now).value := by
  unfold enable
  split
  . apply SameProgram.refl
  . apply SameProgram.trans (v := { w with on := true })
    . exact ⟨rfl, rfl, rfl, rfl⟩
    . apply sameProgram_makePending

theorem sameProgram_disable (w : Workflow σ) : SameProgram w w.disable.value := by
  unfold disable
  split
  . apply SameProgram.refl
  . exact ⟨rfl, rfl, rfl, rfl⟩

theorem sameProgram_releaseFailure (w : Workflow σ) (instruction : Option InstructionId) :
    SameProgram w (w.releaseFailure instruction).value := by
  unfold releaseFailure
  split
  . apply SameProgram.refl
  . cases w.failed <;> exact ⟨rfl, rfl, rfl, rfl⟩

theorem value_advanceFrom (w : Workflow σ) (now : Instant) (id : InstructionId) :
    (w.advanceFrom now id).value = (w.makePending now (w.graph.successor? id)).value := by
  unfold advanceFrom
  dsimp only
  split <;> rfl

theorem sameProgram_recordFailure (w : Workflow σ) (id : InstructionId) :
    SameProgram w (w.recordFailure id).value :=
  ⟨rfl, rfl, rfl, rfl⟩

theorem sameProgram_advanceFrom (w : Workflow σ) (now : Instant) (id : InstructionId) :
    SameProgram w (w.advanceFrom now id).value := by
  rw [value_advanceFrom]
  apply sameProgram_makePending

theorem value_turn (w : Workflow σ) (reading : Reading) (id : InstructionId) (env : Env σ) :
    (w.turn reading id env).value =
      let (progress, graph, env) := w.graph.perform reading.invoked id env
      let w := { w with graph }
      match progress with
      | .success => ⟨(w.advanceFrom reading.armed id).value, env, false⟩
      | .continueNow => ⟨(w.advanceFrom reading.armed id).value, env, true⟩
      | .retry => ⟨w, env, false⟩
      | .failContinue =>
        ⟨((w.recordFailure id).value.advanceFrom reading.armed id).value, env, false⟩
      | .failRetry => ⟨(w.recordFailure id).value, env, false⟩ := by
  unfold turn Graph.invoke
  simp only [Traced.value_bind, Traced.value_pure]
  cases (w.graph.perform reading.invoked id env).1 <;> rfl

theorem sameProgram_turn (w : Workflow σ) (reading : Reading) (id : InstructionId) (env : Env σ) :
    SameProgram w (w.turn reading id env).value.workflow := by
  have hperform : SameProgram w { w with graph := (w.graph.perform reading.invoked id env).2.1 } :=
    ⟨Graph.unvisited_perform _ _ _ _, rfl, rfl, rfl⟩
  rw [value_turn]
  apply hperform.trans
  dsimp
  cases (w.graph.perform reading.invoked id env).1 with
  | success => apply sameProgram_advanceFrom
  | continueNow => apply sameProgram_advanceFrom
  | retry => apply SameProgram.refl
  | failContinue =>
    apply (sameProgram_recordFailure _ id).trans
    apply sameProgram_advanceFrom
  | failRetry => apply sameProgram_recordFailure

theorem sameProgram_run (limit : Nat) (clock : Clock) (made left : Nat) (w : Workflow σ)
    (env : Env σ) : SameProgram w (run limit clock made left w env).value.1 := by
  induction left generalizing made w env with
  | zero => apply SameProgram.refl
  | succ left ih =>
    rw [run]
    split
    . apply SameProgram.refl
    . next id _ =>
      simp only [Traced.value_bind]
      apply (sameProgram_turn w (clock made) id env).trans
      split
      . apply ih
      . apply SameProgram.refl

end Workflow

end Sequencer
