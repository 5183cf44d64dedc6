import Sequencer.Component
import Sequencer.Design.Basic
import Sequencer.Manager.Process

/-!
Assembly: building the step manager that a design describes.
-/

namespace Sequencer

namespace WorkflowDesign

variable {σ : Type}

structure Draft (σ : Type) where
  manager : Manager σ
  kickStart : Bool
  circular : Bool

def buildStep (component : Component σ) (step : StepDesign) (world : σ) :
    Except WorkflowError (StepSource σ) × σ :=
  match component.makeStep step.data step.stepName step.key world with
  | (.error causes, world) => (.error (.compilation step.component (.failed causes)), world)
  | (.ok source, world) =>
    match step.key with
    | none => (.ok source, world)
    | some key =>
      if source.key = some key then (.ok source, world)
      else (.error (.compilation step.component (.wrongKey source.key key)), world)

def addStep (design : WorkflowDesign) (provider : Provider σ) (draft : Draft σ)
    (step : StepDesign) (world : σ) : Traced σ (Except WorkflowError (Draft σ) × σ) :=
  match provider.component? step.component with
  | none => pure (.error (.componentNotFound step.component), world)
  | some component =>
    match buildStep component step world with
    | (.error fault, world) => pure (.error fault, world)
    | (.ok source, world) => do
      let (key, manager) ← draft.manager.insert source step.data
      .log (.stepAssembled design.name step.component key)
      return (.ok
        { manager
          kickStart := draft.kickStart && component.options.kickStart
          circular := draft.circular || component.options.circular },
        world)

def addSteps (design : WorkflowDesign) (provider : Provider σ) (draft : Draft σ) (world : σ) :
    List StepDesign → Traced σ (Except WorkflowError (Draft σ) × σ)
  | [] => pure (.ok draft, world)
  | step :: rest => do
    let (result, world) ← addStep design provider draft step world
    match result with
    | .error fault => return (.error fault, world)
    | .ok draft => addSteps design provider draft world rest

def finish (design : WorkflowDesign) (draft : Draft σ) (world : σ) :
    Traced σ (Manager σ × σ) := do
  let kickStart := design.options.kickStart.getD draft.kickStart
  let circular := design.options.circular.getD draft.circular
  let manager := draft.manager.setLoop circular
  let (manager, world) ← if kickStart then pure (manager, world) else manager.suspend world
  .log (.workflowAssembled design.name manager.steps.size circular kickStart)
  return (manager, world)

def assemble (design : WorkflowDesign) (provider : Provider σ) (config : EngineConfig) (world : σ) :
    Traced σ (Except WorkflowError (Manager σ) × σ) :=
  match design.fault? with
  | some fault => pure (.error (.illegalDesign fault), world)
  | none => do
    let draft : Draft σ := { manager := .empty config, kickStart := true, circular := false }
    let (result, world) ← addSteps design provider draft world design.steps
    match result with
    | .error fault => return (.error fault, world)
    | .ok draft =>
      let (manager, world) ← finish design draft world
      return (.ok manager, world)

end WorkflowDesign

end Sequencer
