import Sequencer.Error
import Sequencer.Step.Basic

/-!
Components: named factories of steps, and the providers that find them by name.
-/

namespace Sequencer

structure ComponentOptions where
  /-- Workflows built from the component start active. -/
  kickStart : Bool
  circular : Bool
deriving Repr, DecidableEq

def ComponentOptions.default : ComponentOptions := ⟨true, false⟩

instance : Inhabited ComponentOptions := ⟨.default⟩

structure Component (σ : Type) where
  name : String
  label : Option String
  description : Option String
  options : ComponentOptions
  /--
  Builds the step for one entry of a design, from its data, its name and the key it has to have. A
  component that gives up lists the causes, the outermost first.
  -/
  makeStep : Option StepData → String → Option StepKey → σ →
    Except (List String) (StepSource σ) × σ

structure ComponentTable (σ : Type) where
  components : Dictionary (Component σ)

structure Provider (σ : Type) where
  component? : String → Option (Component σ)

variable {σ : Type}

namespace ComponentTable

def empty : ComponentTable σ := ⟨.empty⟩

def add (table : ComponentTable σ) (component : Component σ) : ComponentTable σ :=
  ⟨table.components.insert component.name component⟩

def ofList (components : List (Component σ)) : ComponentTable σ :=
  components.foldl add empty

def names (table : ComponentTable σ) : List String :=
  table.components.keys

def provider (table : ComponentTable σ) : Provider σ :=
  ⟨table.components.get?⟩

end ComponentTable

def Provider.chain (providers : List (Provider σ)) : Provider σ :=
  ⟨fun name => providers.findSome? fun provider => provider.component? name⟩

end Sequencer
