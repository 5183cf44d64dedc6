import Sequencer.Instruction.Basic
import Sequencer.Step.Outcome

/-!
Structural errors: what is wrong with the way workflows, registries and designs are put together.
Instructions that fail while they run are no errors in this sense.
-/

namespace Sequencer

inductive DuplicateReason where
  | alreadyRegistered
  | label (name : String)
deriving Repr, DecidableEq

inductive DesignFault where
  | unnamed
  | repeatedKey (workflow : String) (key : StepKey)
deriving Repr, DecidableEq

inductive BuildFault where
  | failed (causes : List String)
  | wrongKey (built : Option StepKey) (required : StepKey)
deriving Repr, DecidableEq

inductive WorkflowError where
  | duplicateInstruction (instruction : InstructionId) (reason : DuplicateReason)
  | instructionReference (jump : InstructionId) (label : String)
  | unknownInstruction (instruction : InstructionId)
  | duplicateWorkflowName (name : String)
  | componentNotFound (name : String)
  | illegalDesign (fault : DesignFault)
  | compilation (component : String) (fault : BuildFault)
  | process (name : String) (cause : WorkflowError)
deriving Repr, DecidableEq

def DuplicateReason.message : DuplicateReason → String
  | .alreadyRegistered => "instruction is already registered"
  | .label name => "label '" ++ name ++ "' already exists"

def keyText (key : StepKey) : String :=
  toString key.toInt

def optionalKeyText : Option StepKey → String
  | none => "None"
  | some key => "Some(" ++ keyText key ++ ")"

def DesignFault.message : DesignFault → String
  | .unnamed => "workflow design has no name"
  | .repeatedKey workflow key =>
    "workflow '" ++ workflow ++ "' uses step key " ++ keyText key ++ " more than once"

def BuildFault.message : BuildFault → String
  | .failed causes => ": ".intercalate causes
  | .wrongKey built required =>
    "built step reports key " ++ optionalKeyText built ++ ", design requires " ++ keyText required

def WorkflowError.message : WorkflowError → String
  | .duplicateInstruction instruction reason =>
    "duplicate instruction " ++ instruction.name ++ ": " ++ reason.message
  | .instructionReference jump label =>
    "instruction " ++ jump.name ++ " references unknown label '" ++ label ++ "'"
  | .unknownInstruction instruction =>
    "instruction " ++ instruction.name ++ " does not belong to this workflow"
  | .duplicateWorkflowName name => "a workflow named '" ++ name ++ "' is already registered"
  | .componentNotFound name => "step component '" ++ name ++ "' not found"
  | .illegalDesign fault => "illegal workflow design: " ++ fault.message
  | .compilation component fault =>
    "component '" ++ component ++ "' failed to build step: " ++ fault.message
  | .process name cause => "process '" ++ name ++ "' failed: " ++ cause.message

end Sequencer
