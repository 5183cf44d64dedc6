import Sequencer.Workflow.Link

/-!
One cycle of a workflow. The pending instruction is invoked and the cursor moves by what it reports;
instructions that take no time follow each other in the same cycle, up to the transition limit.
-/

namespace Sequencer

namespace Workflow

variable {σ : Type}

def advanceFrom (w : Workflow σ) (now : Instant) (id : InstructionId) :
    Traced σ (Workflow σ) := do
  let next := w.graph.successor? id
  if next.isNone then .log (.endReached id)
  w.makePending now next

def recordFailure (w : Workflow σ) (id : InstructionId) : Traced σ (Workflow σ) := do
  .log (.instructionFailed id (w.numberOf id))
  return { w with error := true, failed := some id }

structure Turn (σ : Type) where
  workflow : Workflow σ
  env : Env σ
  goesOn : Bool

def turn (w : Workflow σ) (reading : Reading) (id : InstructionId) (env : Env σ) :
    Traced σ (Turn σ) := do
  let (progress, graph, env) ← w.graph.invoke reading.invoked id env
  let w := { w with graph }
  match progress with
  | .success => return ⟨← w.advanceFrom reading.armed id, env, false⟩
  | .continueNow => return ⟨← w.advanceFrom reading.armed id, env, true⟩
  | .retry => return ⟨w, env, false⟩
  | .failContinue =>
    let w ← w.recordFailure id
    return ⟨← w.advanceFrom reading.armed id, env, false⟩
  | .failRetry => return ⟨← w.recordFailure id, env, false⟩

/--
Goes on for at most `left` transitions when `made` of the `limit` have been made. When they are used
up the cursor stays where it is, so the next cycle takes up the work there.
-/
def run (limit : Nat) (clock : Clock) (made left : Nat) (w : Workflow σ) (env : Env σ) :
    Traced σ (Workflow σ × Env σ) :=
  match left with
  | 0 => do
    .log (.transitionLimitReached limit)
    return (w, env)
  | left + 1 =>
    match w.pending with
    | none => pure (w, env)
    | some id => do
      let turn ← w.turn (clock made) id env
      if turn.goesOn then run limit clock (made + 1) left turn.workflow turn.env
      else return (turn.workflow, turn.env)

structure Cycle (σ : Type) where
  result : Except WorkflowError Unit
  workflow : Workflow σ
  env : Env σ

/--
Runs one cycle. A workflow with an unbound jump refuses to run, and tries again the next time.
-/
def process (w : Workflow σ) (clock : Clock) (env : Env σ) : Traced σ (Cycle σ) := do
  if !w.on then return ⟨.ok (), w, env⟩
  let (linked, w) ← w.ensureLinked
  match linked with
  | .error fault => return ⟨.error fault, w, env⟩
  | .ok () =>
    let limit := w.config.transitionBudget
    let (w, env) ← run limit clock 0 limit w env
    return ⟨.ok (), w, env⟩

end Workflow

end Sequencer
