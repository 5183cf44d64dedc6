import Sequencer.Load

/-!
The settings of an engine, and what they are as documents. Fields that are left out have their
default.
-/

namespace Sequencer

structure EngineConfig where
  /-- How often one cycle may go on at once before the rest is left to the next cycle. -/
  immediateTransitionLimit : Nat
  loopWorkflows : Bool
deriving Repr, DecidableEq

namespace EngineConfig

def default : EngineConfig := ⟨10000, false⟩

instance : Inhabited EngineConfig := ⟨default⟩

/-- The limit as it is applied: even a limit of zero lets one pass happen. -/
def transitionBudget (config : EngineConfig) : Nat :=
  max config.immediateTransitionLimit 1

theorem transitionBudget_pos (config : EngineConfig) : 0 < config.transitionBudget := by
  simp only [transitionBudget]
  omega

def toDocument (config : EngineConfig) : Json.Document :=
  .record [("immediate_transition_limit", .integer config.immediateTransitionLimit),
    ("loop_workflows", .bool config.loopWorkflows)]

def read {m : Type → Type} [Monad m] {δ : Type} (r : Reader m δ) (part : δ) : m EngineConfig := do
  let field ← r.fields ["immediate_transition_limit", "loop_workflows"] part
  let immediateTransitionLimit ←
    Reader.orElse (field "immediate_transition_limit") r.natural default.immediateTransitionLimit
  let loopWorkflows ← Reader.orElse (field "loop_workflows") r.bool default.loopWorkflows
  return { immediateTransitionLimit, loopWorkflows }

instance : Loadable EngineConfig := ⟨.engineConfig, read⟩

end EngineConfig

end Sequencer
