import Sequencer.Error
import Sequencer.Step.Context
import Sequencer.Text

/-!
Designs: workflows described by the components of their steps.
-/

namespace Sequencer

/-- What a design leaves unset is decided by the components it uses. -/
structure DesignOptions where
  /-- The assembled manager starts with its first step current, and otherwise suspended. -/
  kickStart : Option Bool
  circular : Option Bool
deriving DecidableEq

def DesignOptions.unset : DesignOptions := ⟨none, none⟩

structure StepDesign where
  component : String
  key : Option StepKey
  name : Option String
  data : Option StepData

structure WorkflowDesign where
  name : String
  options : DesignOptions
  steps : List StepDesign

namespace StepDesign

def stepName (step : StepDesign) : String :=
  step.name.getD step.component

end StepDesign

namespace WorkflowDesign

def repeatedKey? (taken : List StepKey) : List StepDesign → Option StepKey
  | [] => none
  | step :: rest =>
    match step.key with
    | none => repeatedKey? taken rest
    | some key => if key ∈ taken then some key else repeatedKey? (key :: taken) rest

def fault? (design : WorkflowDesign) : Option DesignFault :=
  if Text.allBlank design.name then some .unnamed
  else (repeatedKey? [] design.steps).map (.repeatedKey design.name)

end WorkflowDesign

end Sequencer
