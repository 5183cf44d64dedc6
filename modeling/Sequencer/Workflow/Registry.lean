import Sequencer.Workflow.Process

/-!
Workflows under names. A name is given once; the workflow under it is never replaced.
-/

namespace Sequencer

structure WorkflowRegistry (σ : Type) where
  workflows : Dictionary (Workflow σ)

namespace WorkflowRegistry

variable {σ : Type}

def empty : WorkflowRegistry σ := ⟨.empty⟩

instance : Inhabited (WorkflowRegistry σ) := ⟨empty⟩

def register (r : WorkflowRegistry σ) (name : String) (w : Workflow σ) :
    Traced σ (Except WorkflowError Unit × WorkflowRegistry σ) :=
  if r.workflows.contains name then pure (.error (.duplicateWorkflowName name), r)
  else do
    .log (.workflowRegistered name)
    return (.ok (), ⟨r.workflows.insert name w⟩)

def get? (r : WorkflowRegistry σ) (name : String) : Option (Workflow σ) :=
  r.workflows.get? name

def update (r : WorkflowRegistry σ) (name : String) (w : Workflow σ) : WorkflowRegistry σ :=
  if r.workflows.contains name then ⟨r.workflows.insert name w⟩ else r

def names (r : WorkflowRegistry σ) : List String :=
  r.workflows.keys

def size (r : WorkflowRegistry σ) : Nat :=
  r.workflows.size

end WorkflowRegistry

end Sequencer
