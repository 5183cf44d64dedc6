import Sequencer.Design.Basic
import Sequencer.Load

/-!
Designs as documents, with the data of their steps. What a design leaves unset is left out.
-/

namespace Sequencer

open Json (Document)

namespace StepData

def toDocument (data : StepData) : Document :=
  .record (data.entries.map fun (k, x) => (k, .ofJson x))

/-- Data keeps the written order; of two entries of one key the later value counts. -/
def read {m : Type → Type} [Monad m] {δ : Type} (r : Reader m δ) (part : δ) : m StepData := do
  return Dictionary.ofList (← r.values part)

def ofText? (text : String) : Option StepData :=
  Json.readText? (read Json.reader) text

end StepData

def setField (name : String) (value : Option Document) : List (String × Document) :=
  (value.map (name, ·)).toList

def DesignOptions.toDocument (options : DesignOptions) : Document :=
  .record (setField "kick_start" (options.kickStart.map .bool) ++
    setField "circular" (options.circular.map .bool))

def StepDesign.toDocument (step : StepDesign) : Document :=
  .record (("component", .text step.component) ::
    (setField "step" (step.key.map fun key => .integer key.toInt) ++
      setField "name" (step.name.map .text) ++
      setField "data" (step.data.map StepData.toDocument)))

def WorkflowDesign.toDocument (design : WorkflowDesign) : Document :=
  .record [("name", .text design.name), ("options", design.options.toDocument),
    ("steps", .array (design.steps.map StepDesign.toDocument))]

variable {m : Type → Type} [Monad m] {δ : Type}

def DesignOptions.read (r : Reader m δ) (part : δ) : m DesignOptions := do
  let field ← r.fields ["kick_start", "circular"] part
  let kickStart ← r.optional (field "kick_start") r.bool
  let circular ← r.optional (field "circular") r.bool
  return { kickStart, circular }

def StepDesign.read (r : Reader m δ) (part : δ) : m StepDesign := do
  let field ← r.fields ["component", "step", "name", "data"] part
  let component ← r.required (field "component") r.text
  let key ← r.optional (field "step") r.integer
  let name ← r.optional (field "name") r.text
  let data ← r.optional (field "data") (StepData.read r)
  return { component, key, name, data }

def WorkflowDesign.read (r : Reader m δ) (part : δ) : m WorkflowDesign := do
  let field ← r.fields ["name", "options", "steps"] part
  let name ← r.required (field "name") r.text
  let options ← Reader.orElse (field "options") (DesignOptions.read r) .unset
  let steps ← Reader.orElse (field "steps")
    (fun part => do (← r.items part).mapM (StepDesign.read r)) []
  return { name, options, steps }

instance : Loadable WorkflowDesign := ⟨.workflowDesign, WorkflowDesign.read⟩

def WorkflowDesign.ofJson? (value : Json) : Option WorkflowDesign :=
  Json.readValue? (WorkflowDesign.read Json.reader) value

end Sequencer
