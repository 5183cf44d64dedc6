import Sequencer.Condition
import Sequencer.Register
import Sequencer.Timer

/-!
Instructions as they are written down, before a workflow takes them over, and what one invocation
of an instruction may report.
-/

namespace Sequencer

inductive Level where
  | error
  | warn
  | info
  | debug
  | trace
deriving Repr, DecidableEq

def Level.name : Level → String
  | .error => "ERROR"
  | .warn => "WARN"
  | .info => "INFO"
  | .debug => "DEBUG"
  | .trace => "TRACE"

inductive Progress where
  /-- Done; go on with the next instruction in the next cycle. -/
  | success
  /-- Done; go on with the next instruction in this cycle. -/
  | continueNow
  /-- Not done; invoke the same instruction in the next cycle. -/
  | retry
  /-- Failed; go on with the next instruction in the next cycle. -/
  | failContinue
  /-- Failed; invoke the same instruction in the next cycle. -/
  | failRetry
deriving Repr, DecidableEq

def Progress.isFailure : Progress → Bool
  | .failContinue | .failRetry => true
  | .success | .continueNow | .retry => false

structure InstructionId where
  graph : Nat
  index : Nat
deriving Repr, DecidableEq

def InstructionId.name (id : InstructionId) : String :=
  "#" ++ toString id.index

inductive Instruction (σ : Type) where
  | callback (run : Env σ → Progress × Env σ)
  | log (level : Level) (message : String)
  | label (name : String)
  | jump (label : String)
  /-- Goes on with the next instruction when the test holds, with the alternative when not. -/
  | condition (test : Condition) (alternative : Option (Instruction σ))
  | wait (timer : Timer)
  /--
  Goes on with the next instruction once the test holds, with the alternative if the timer is up
  first.
  -/
  | timedCondition (timer : Timer) (test : Condition) (alternative : Option (Instruction σ))
  | block (children : List (Instruction σ))
  | setStatus (name : String) (level : Int64) (on : Bool)
  | putValue (name space : String) (value : Json) (persist : Bool)

namespace Instruction

variable {σ : Type}

instance : Inhabited (Instruction σ) := ⟨.label ""⟩

def effect (run : Env σ → Env σ) : Instruction σ :=
  .callback fun env => (.continueNow, run env)

def kindName : Instruction σ → String
  | .callback _ => "callback"
  | .log _ _ => "log"
  | .label _ => "label"
  | .jump _ => "jump"
  | .condition _ _ => "condition"
  | .wait _ => "wait-for-timer"
  | .timedCondition _ _ _ => "timed-condition"
  | .block _ => "block"
  | .setStatus _ _ _ => "set-status"
  | .putValue _ _ _ _ => "put-value"

end Instruction

end Sequencer
