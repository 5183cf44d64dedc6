import Sequencer.Instruction.Graph
import Sequencer.Trace

/-!
One invocation of an instruction. It may change the register, the world and what the instruction
itself keeps of this visit; the links are left alone.
-/

namespace Sequencer

namespace Graph

variable {σ : Type}

/--
What an invocation does. A timed condition looks at its timer first, so a timer that is up wins
over a test that holds.
-/
def perform (g : Graph σ) (now : Instant) (id : InstructionId) (env : Env σ) :
    Progress × Graph σ × Env σ :=
  match g.kind? id with
  | some (.callback run) =>
    let (progress, env) := run env
    (progress, g, env)
  | some (.condition test alternative _) =>
    let holds := test.evaluate env.register
    (.continueNow, g.setKind id (.condition test alternative holds), env)
  | some (.wait timer) => (if timer.isUp now then .success else .retry, g, env)
  | some (.timedCondition timer test alternative _) =>
    if timer.isUp now then
      (.continueNow, g.setKind id (.timedCondition timer test alternative false), env)
    else if test.evaluate env.register then
      (.continueNow, g.setKind id (.timedCondition timer test alternative true), env)
    else (.retry, g, env)
  | some (.setStatus name level on) =>
    (.continueNow, g, { env with register := env.register.setStatus level name on })
  | some (.putValue name space value persist) =>
    (.continueNow, g, { env with register := env.register.putValue value name space persist })
  | some (.log _ _) | some (.label _) | some (.jump _) | some (.block _) => (.continueNow, g, env)
  | none => (.retry, g, env)

def announce (g : Graph σ) (id : InstructionId) : Traced σ Unit :=
  match g.kind? id with
  | some (.log level message) => .log (.message level message id)
  | _ => pure ()

def invoke (g : Graph σ) (now : Instant) (id : InstructionId) (env : Env σ) :
    Traced σ (Progress × Graph σ × Env σ) := do
  g.announce id
  let (progress, g, env) := g.perform now id env
  .emit (.invoked id now progress)
  return (progress, g, env)

end Graph

end Sequencer
