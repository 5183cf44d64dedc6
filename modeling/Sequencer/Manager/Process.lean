import Sequencer.Manager.Basic

/-!
One cycle of a step manager: the current step runs, its transition moves the cursor and its flow
decides whether another step runs in the same cycle.
-/

namespace Sequencer

namespace Manager

variable {σ : Type}

def endCurrent (m : Manager σ) (env : Env σ) : Traced σ (Manager σ × Env σ) :=
  match m.currentKey?.bind fun key => (m.stepAt? key).map (key, ·) with
  | none => pure (m, env)
  | some (key, step) => do
    let context := m.context.focusOn key
    .emit (.called { hook := .willEnd, key, step, context })
    let (context, env) := step.willEnd context env
    return ({ m with context }, env)

def beginCurrent (m : Manager σ) (env : Env σ) : Traced σ (Manager σ × Env σ) :=
  match m.currentKey?.bind fun key => (m.stepAt? key).map (key, ·) with
  | none => pure (m, env)
  | some (key, step) => do
    let context := m.context.focusOn key
    .emit (.called { hook := .didBegin, key, step, context })
    let (context, env) := step.didBegin context env
    return ({ m with context }, env)

def makeCurrent (m : Manager σ) (position : Option Nat) (env : Env σ) :
    Traced σ (Manager σ × Env σ) := do
  let (m, env) ← m.endCurrent env
  beginCurrent { m with current := position } env

def following? (m : Manager σ) : Option Nat := do
  let tree ← m.tree
  let position ← m.current
  tree.successor? position

def advance (m : Manager σ) (env : Env σ) : Traced σ (Manager σ × Env σ) :=
  m.makeCurrent m.following? env

def resetAll (context : Context) (world : σ) :
    List (StepKey × StepEntry σ) → Traced σ (Context × σ)
  | [] => pure (context, world)
  | (key, entry) :: rest =>
    match entry.step? with
    | none => resetAll context world rest
    | some step => do
      let context := context.focusOn key
      .emit (.called { hook := .reset, key, step, context })
      let (context, world) := step.reset context world
      resetAll context world rest

def reset (m : Manager σ) (world : σ) : Traced σ (Manager σ × σ) := do
  let (context, world) ← resetAll m.context world m.steps.entries
  rebuild { m with context } world

def suspend (m : Manager σ) (world : σ) : Traced σ (Manager σ × σ) := do
  let (m, world) ← m.reset world
  return ({ m with current := none }, world)

def restart (m : Manager σ) (target : StepRef) (env : Env σ) :
    Traced σ (Bool × Manager σ × Env σ) := do
  let (m, world) ← m.ensureTree env.world
  let env := { env with world }
  match (m.keyOf? target).bind m.positionOf? with
  | none => return (false, m, env)
  | some position =>
    let (m, env) ← m.makeCurrent (some position) env
    return (true, m, env)

def runStep (m : Manager σ) (key : StepKey) (env : Env σ) :
    Traced σ (Outcome × Manager σ × Env σ) :=
  match m.steps.get? key with
  | none => pure (.advance, m, env)
  | some entry => do
    let context := m.context.enter key entry.data
    let (outcome, context, env) ←
      match entry.step? with
      | none => pure (.advance, context, env)
      | some step => do
        .emit (.called { hook := .process, key, step, context })
        pure (step.process context env)
    let (data, context) := context.leave
    let steps := m.steps.modify key fun entry => { entry with data }
    return (outcome, { m with steps, context }, env)

def follow (m : Manager σ) (key : StepKey) (transition : Transition) (env : Env σ) :
    Traced σ (Manager σ × Env σ) :=
  match transition with
  | .advance => m.advance env
  | .stay => pure (m, env)
  | .jumpTo target =>
    match (m.keyOf? target).bind m.positionOf? with
    | some position => do
      .log (.jumped key target)
      m.makeCurrent (some position) env
    | none => do
      .log (.targetMissing key target)
      m.advance env

structure Turn (σ : Type) where
  manager : Manager σ
  env : Env σ
  goesOn : Bool

def settle (m : Manager σ) (key : StepKey) (flow : Flow) (env : Env σ) : Traced σ (Turn σ) :=
  match flow with
  | .nextCycle => pure ⟨m, env, false⟩
  | .continueInCycle => pure ⟨m, env, true⟩
  | .repeatWhole continueInCycle => do
    .log (.wholeRepeated key continueInCycle)
    let (m, world) ← m.reset env.world
    return ⟨m, { env with world }, continueInCycle⟩
  | .terminate => do
    .log (.terminated key)
    let (m, env) ← m.makeCurrent none env
    let (m, world) ← m.suspend env.world
    return ⟨m, { env with world }, false⟩

def turn (m : Manager σ) (key : StepKey) (env : Env σ) : Traced σ (Turn σ) := do
  let (outcome, m, env) ← m.runStep key env
  let (m, env) ← m.follow key outcome.transition env
  m.settle key outcome.flow env

/--
Runs at most `left` steps out of `limit`. When they are used up the cursor stays where it is, so the
next cycle takes up the work there.
-/
def run (limit : Nat) (left : Nat) (m : Manager σ) (env : Env σ) :
    Traced σ (Manager σ × Env σ) :=
  match left with
  | 0 => do
    .log (.reentryLimitReached limit m.currentKey?)
    return (m, env)
  | left + 1 =>
    match m.currentKey? with
    | none => pure (m, env)
    | some key => do
      let turn ← m.turn key env
      if turn.goesOn then run limit left turn.manager turn.env
      else return (turn.manager, turn.env)

def process (m : Manager σ) (env : Env σ) : Traced σ (Manager σ × Env σ) := do
  let (m, world) ← m.ensureTree env.world
  let limit := m.config.transitionBudget
  run limit limit m { env with world }

end Manager

end Sequencer
