import Sequencer.Error
import Sequencer.Text

/-!
The events an engine reports while it works: the messages of log instructions, and its own
diagnostics. `Event.level`, `Event.message` and `Event.fields` say how an event reads in a log.
-/

namespace Sequencer

inductive Event where
  | message (level : Level) (text : String) (instruction : InstructionId)
  | instructionRegistered (instruction : InstructionId) (number : Int64) (name : Option String)
  | instructionRemoved (instruction : InstructionId) (number : Int64)
  | labelMissing (jump : InstructionId) (label : String)
  | instructionsLinked (jumps : Nat)
  | workflowEnabled (instructions : Nat) (on : Bool)
  | workflowDisabled
  | endReached (instruction : InstructionId)
  | instructionFailed (instruction : InstructionId) (number : Int64)
  | failureReleased (instruction : InstructionId)
  | transitionLimitReached (limit : Nat)
  | workflowRegistered (name : String)
  | stepAdded (key : StepKey) (name : Option String)
  | stepRemoved (key : StepKey)
  | treeRebuilt (steps : Nat) (ring : Bool)
  | jumped (start : StepKey) (target : StepRef)
  | targetMissing (start : StepKey) (target : StepRef)
  | wholeRepeated (key : StepKey) (continueInCycle : Bool)
  | terminated (key : StepKey)
  | reentryLimitReached (limit : Nat) (current : Option StepKey)
  | stepAssembled (workflow component : String) (key : StepKey)
  | workflowAssembled (workflow : String) (steps : Nat) (circular kickStart : Bool)
  | processSkipped (name : String)
  | processFailed (name : String) (error : WorkflowError)
deriving Repr, DecidableEq

def StepRef.text : StepRef → String
  | .key k => "Key(" ++ keyText k ++ ")"
  | .name n => "Name(" ++ Text.quoted n ++ ")"

namespace Event

def isMessage : Event → Bool
  | .message _ _ _ => true
  | _ => false

def level : Event → Level
  | .message level _ _ => level
  | .instructionRegistered _ _ _ | .instructionRemoved _ _ => .debug
  | .labelMissing _ _ => .warn
  | .instructionsLinked _ => .debug
  | .workflowEnabled _ _ | .workflowDisabled => .info
  | .endReached _ => .debug
  | .instructionFailed _ _ => .warn
  | .failureReleased _ => .debug
  | .transitionLimitReached _ => .warn
  | .workflowRegistered _ => .debug
  | .stepAdded _ _ | .stepRemoved _ | .treeRebuilt _ _ | .jumped _ _ => .debug
  | .targetMissing _ _ => .warn
  | .wholeRepeated _ _ | .terminated _ => .info
  | .reentryLimitReached _ _ => .warn
  | .stepAssembled _ _ _ => .debug
  | .workflowAssembled _ _ _ _ => .info
  | .processSkipped _ => .trace
  | .processFailed _ _ => .warn

def limitMessage : String :=
  "immediate transition limit reached, resuming next cycle"

def text : Event → String
  | .message _ text _ => text
  | .instructionRegistered _ _ _ => "registered instruction"
  | .instructionRemoved _ _ => "removed instruction"
  | .labelMissing _ _ => "jump target not found"
  | .instructionsLinked _ => "linked workflow instructions"
  | .workflowEnabled _ _ => "workflow enabled"
  | .workflowDisabled => "workflow disabled"
  | .endReached _ => "workflow reached the end of its instructions"
  | .instructionFailed _ _ => "instruction failed"
  | .failureReleased _ => "failure released"
  | .transitionLimitReached _ => limitMessage
  | .workflowRegistered _ => "registered workflow"
  | .stepAdded _ _ => "added step"
  | .stepRemoved _ => "removed step"
  | .treeRebuilt _ _ => "rebuilt step tree"
  | .jumped _ _ => "jumping to step"
  | .targetMissing _ _ => "jump target not found, advancing"
  | .wholeRepeated _ _ => "repeating whole workflow"
  | .terminated _ => "workflow terminated"
  | .reentryLimitReached _ _ => limitMessage
  | .stepAssembled _ _ _ => "assembled step"
  | .workflowAssembled _ _ _ _ => "assembled workflow"
  | .processSkipped _ => "skipping inactive process"
  | .processFailed _ _ => "process failed"

def flagText (flag : Bool) : String :=
  if flag then "true" else "false"

def fields : Event → List (String × String)
  | .message _ _ i => [("instruction", i.name)]
  | .instructionRegistered i number name =>
    [("instruction", i.name), ("number", keyText number), ("name", name.getD "")]
  | .instructionRemoved i number => [("instruction", i.name), ("number", keyText number)]
  | .labelMissing jump label => [("jump", jump.name), ("label", label)]
  | .instructionsLinked jumps => [("jumps", toString jumps)]
  | .workflowEnabled count on => [("instructions", toString count), ("on", flagText on)]
  | .workflowDisabled => []
  | .endReached i => [("instruction", i.name)]
  | .instructionFailed i number => [("instruction", i.name), ("number", keyText number)]
  | .failureReleased i => [("instruction", i.name)]
  | .transitionLimitReached limit => [("limit", toString limit)]
  | .workflowRegistered name => [("workflow", name)]
  | .stepAdded key name => [("step", keyText key), ("name", name.getD "")]
  | .stepRemoved key => [("step", keyText key)]
  | .treeRebuilt steps ring => [("steps", toString steps), ("ring", flagText ring)]
  | .jumped start target => [("from", keyText start), ("to", target.text)]
  | .targetMissing start target => [("from", keyText start), ("to", target.text)]
  | .wholeRepeated key continueInCycle =>
    [("step", keyText key), ("continue_in_cycle", flagText continueInCycle)]
  | .terminated key => [("step", keyText key)]
  | .reentryLimitReached limit current =>
    [("limit", toString limit), ("current", optionalKeyText current)]
  | .stepAssembled workflow component key =>
    [("workflow", workflow), ("component", component), ("step", keyText key)]
  | .workflowAssembled workflow steps circular kickStart =>
    [("workflow", workflow), ("steps", toString steps), ("circular", flagText circular),
      ("kick_start", flagText kickStart)]
  | .processSkipped name => [("process", name)]
  | .processFailed name error => [("process", name), ("error", error.message)]

end Event

end Sequencer
