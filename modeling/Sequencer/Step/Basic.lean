import Sequencer.Register
import Sequencer.Step.Context

/-!
Steps, and generators that make a fresh step whenever the tree of steps is rebuilt. A step keeps
whatever it remembers between its calls in the world `σ`.
-/

namespace Sequencer

/--
A step keeps its name for good, as it does its key: the name is part of what the step is, and
references go by it.
-/
structure Step (σ : Type) where
  /-- Nothing for a step that takes the next free key. -/
  key : Option StepKey
  name : Option String
  process : Context → Env σ → Outcome × Context × Env σ
  didBegin : Context → Env σ → Context × Env σ
  willEnd : Context → Env σ → Context × Env σ
  reset : Context → σ → Context × σ

/-- Like a step a generator keeps its name. The steps that it makes come with names of their own. -/
structure Generator (σ : Type) where
  key : Option StepKey
  name : Option String
  generate : σ → Step σ × σ

inductive StepSource (σ : Type) where
  | step (step : Step σ)
  | generator (generator : Generator σ)

variable {σ : Type}

def StepSource.key : StepSource σ → Option StepKey
  | .step s => s.key
  | .generator g => g.key

def StepSource.name : StepSource σ → Option String
  | .step s => s.name
  | .generator g => g.name

/-- The reference to a step: its key, or its name if it has no key of its own. -/
def StepRef.of? (step : Step σ) : Option StepRef :=
  match step.key with
  | some k => some (.key k)
  | none => step.name.map .name

end Sequencer
