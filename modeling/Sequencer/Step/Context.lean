import Sequencer.Dictionary
import Sequencer.Json.Basic
import Sequencer.Step.Outcome

/-!
The context that every call of a step is given: values shared between the steps of one manager, the
data attached to the step that is running, and the key of the step that is called.
-/

namespace Sequencer

abbrev StepData := Dictionary Json

def StepData.ofMembers (members : List (String × Json)) : StepData :=
  Dictionary.ofList members

def StepData.same (a b : StepData) : Bool :=
  a.size == b.size && a.entries.all fun (key, value) => b.get? key == some value

structure Context where
  values : Dictionary Json
  /-- The data of the running step; nothing while no step runs. -/
  data : Option StepData
  focus : Option StepKey

namespace Context

def empty : Context := ⟨.empty, none, none⟩

instance : Inhabited Context := ⟨empty⟩

def value? (c : Context) (name : String) : Option Json :=
  c.values.get? name

def setValue (c : Context) (name : String) (value : Json) : Context :=
  { c with values := c.values.insert name value }

def removeValue (c : Context) (name : String) : Option Json × Context :=
  (c.values.get? name, { c with values := c.values.erase name })

def enter (c : Context) (key : StepKey) (data : Option StepData) : Context :=
  { c with focus := some key, data }

def leave (c : Context) : Option StepData × Context :=
  (c.data, { c with data := none })

def focusOn (c : Context) (key : StepKey) : Context :=
  { c with focus := some key }

end Context

end Sequencer
