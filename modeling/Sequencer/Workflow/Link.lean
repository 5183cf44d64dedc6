import Sequencer.Workflow.Basic

/-!
Binding jumps to their labels. All jumps and labels that are registered or nested in something
registered take part. Either every such jump is bound or, when one has no label, none is touched.
-/

namespace Sequencer

namespace Workflow

variable {σ : Type}

def findLabel? (g : Graph σ) (live : List InstructionId) (name : String) : Option InstructionId :=
  live.find? fun id => g.labelName? id = some name

def bindJumps (g : Graph σ) (live : List InstructionId) :
    List InstructionId → Except (InstructionId × String) (List (InstructionId × InstructionId))
  | [] => .ok []
  | id :: rest =>
    match g.jumpLabel? id with
    | none => bindJumps g live rest
    | some label =>
      match findLabel? g live label with
      | none => .error (id, label)
      | some target =>
        match bindJumps g live rest with
        | .error missing => .error missing
        | .ok bindings => .ok ((id, target) :: bindings)

def bindings (w : Workflow σ) :
    Except (InstructionId × String) (List (InstructionId × InstructionId)) :=
  bindJumps w.graph w.liveNodes w.liveNodes

def resolve (g : Graph σ) : List (InstructionId × InstructionId) → Graph σ
  | [] => g
  | (jump, target) :: rest => resolve (g.link jump (some target)) rest

/-- The link pass. The workflow comes back unchanged with an error. -/
def link (w : Workflow σ) : Traced σ (Except WorkflowError Unit × Workflow σ) :=
  match w.bindings with
  | .error (jump, label) => do
    .log (.labelMissing jump label)
    return (.error (.instructionReference jump label), w)
  | .ok bindings => do
    .log (.instructionsLinked bindings.length)
    return (.ok (), { w with graph := resolve w.graph bindings, linksStale := false })

def ensureLinked (w : Workflow σ) : Traced σ (Except WorkflowError Unit × Workflow σ) :=
  if w.linksStale then w.link else pure (.ok (), w)

end Workflow

end Sequencer
