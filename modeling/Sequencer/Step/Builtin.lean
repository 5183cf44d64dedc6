import Sequencer.Step.Basic

/-!
Ready-made steps.
-/

namespace Sequencer

namespace Step

variable {σ : Type}

def ofProcess (name : String) (key : Option StepKey)
    (process : Context → Env σ → Outcome × Context × Env σ) : Step σ where
  key
  name := some name
  process
  didBegin context env := (context, env)
  willEnd context env := (context, env)
  reset context world := (context, world)

def callback (name : String) (key : Option StepKey)
    (run : Context → Env σ → Context × Env σ) : Step σ :=
  ofProcess name key fun context env => (.advance, run context env)

def callbackReset (name : String) (key : Option StepKey)
    (run : Context → Env σ → Context × Env σ) (onReset : Context → σ → Context × σ) : Step σ :=
  { callback name key run with reset := onReset }

def marker (name : String) (key : Option StepKey) : Step σ :=
  ofProcess name key fun context env => (Outcome.advance.inCurrentCycle, context, env)

def repeatWhole (name : String) (key : StepKey) : Step σ :=
  ofProcess name (some key) fun context env => (Outcome.repeatWhole.inCurrentCycle, context, env)

end Step

end Sequencer
