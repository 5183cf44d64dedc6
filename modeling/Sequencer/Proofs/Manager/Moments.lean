import Sequencer.Proofs.Manager.Limit

/-!
What happens in the course of a run of a manager, moment by moment. Besides the calls of steps,
which an operation reports, the moments have what it does not report: what was stored and removed,
when a suspension cleared the cursor, and what every call found and left behind.
-/

namespace Sequencer

def Entry.besidesEvents? {σ : Type} : Entry σ → Option (Entry σ)
  | .event _ => none
  | entry => some entry

/-- The context and the world after a call. A reset hook is not given the register. -/
def StepCall.leaves {σ : Type} (call : StepCall σ) (env : Env σ) : Context × σ :=
  match call.hook with
  | .process =>
    let (_, context, env) := call.step.process call.context env
    (context, env.world)
  | .didBegin =>
    let (context, env) := call.step.didBegin call.context env
    (context, env.world)
  | .willEnd =>
    let (context, env) := call.step.willEnd call.context env
    (context, env.world)
  | .reset => call.step.reset call.context env.world

namespace Manager

variable {σ : Type}

inductive Moment (σ : Type) where
  /-- An operation began, with the world as others had left it. -/
  | entered (world : σ)
  | inserted (key : StepKey) (source : StepSource σ) (data : Option StepData)
  | removed (key : StepKey)
  | edited (edit : Context → Context)
  | generated (key : StepKey) (generator : Generator σ) (found : σ)
  | rebuilt (keys : List StepKey)
  | called (call : StepCall σ) (found : σ) (left : Context × σ)
  /-- The cursor was cleared, once the steps had been laid out. -/
  | suspended

def Moment.entry? : Moment σ → Option (Entry σ)
  | .generated key generator found => some (.generated key (generator.generate found).1)
  | .rebuilt keys => some (.rebuilt keys)
  | .called call _ _ => some (.called call)
  | _ => none

section Moments

variable (m : Manager σ)

def callOf (hook : Hook) (key : StepKey) (step : Step σ) : StepCall σ where
  hook
  key
  step
  context :=
    if hook = .process then m.context.enter key (m.stepData? key) else m.context.focusOn key

def callMoments (hook : Hook) (key : Option StepKey) (env : Env σ) : List (Moment σ) :=
  (key.bind fun key => (m.stepAt? key).map fun step =>
    let call := m.callOf hook key step
    .called call env.world (call.leaves env)).toList

def moveMoments (position : Option Nat) (env : Env σ) : List (Moment σ) :=
  let (ended, env') := (m.endCurrent env).value
  let moved := { ended with current := position }
  m.callMoments .willEnd m.currentKey? env ++ moved.callMoments .didBegin moved.currentKey? env'

def generations (world : σ) : List (StepKey × StepEntry σ) → List (Moment σ)
  | [] => []
  | (key, entry) :: rest =>
    match entry.source with
    | .step _ => generations world rest
    | .generator generator =>
      .generated key generator world :: generations (generator.generate world).2 rest

def rebuildMoments (world : σ) : List (Moment σ) :=
  generations world m.steps.entries ++ [.rebuilt m.steps.keys]

def layOutMoments (world : σ) : List (Moment σ) :=
  if m.tree.isNone then m.rebuildMoments world else []

def resetCalls (context : Context) (world : σ) :
    List (StepKey × StepEntry σ) → List (Moment σ)
  | [] => []
  | (key, entry) :: rest =>
    match entry.step? with
    | none => resetCalls context world rest
    | some step =>
      let call := { hook := .reset, key, step, context := context.focusOn key }
      let left := step.reset call.context world
      .called call world left :: resetCalls left.1 left.2 rest

def resetMoments (world : σ) : List (Moment σ) :=
  let (context, world') := (resetAll m.context world m.steps.entries).value
  resetCalls m.context world m.steps.entries ++ rebuildMoments { m with context } world'

def followMoments (transition : Transition) (env : Env σ) : List (Moment σ) :=
  match transition with
  | .stay => []
  | .advance | .jumpTo _ => m.moveMoments (m.landing? transition) env

def settleMoments (flow : Flow) (env : Env σ) : List (Moment σ) :=
  match flow with
  | .nextCycle | .continueInCycle => []
  | .repeatWhole _ => m.resetMoments env.world
  | .terminate =>
    let (ended, env') := (m.makeCurrent none env).value
    m.moveMoments none env ++ (ended.resetMoments env'.world ++ [.suspended])

def turnMoments (key : StepKey) (env : Env σ) : List (Moment σ) :=
  let (outcome, ran, env₁) := (m.runStep key env).value
  let (moved, env₂) := (ran.follow key outcome.transition env₁).value
  m.callMoments .process (some key) env ++
    (ran.followMoments outcome.transition env₁ ++ moved.settleMoments outcome.flow env₂)

def restartMoments (target : StepRef) (env : Env σ) : List (Moment σ) :=
  match (m.keyOf? target).bind m.positionOf? with
  | none => []
  | some position => m.moveMoments (some position) env

end Moments

def StepRun.moments (r : StepRun σ) : List (Moment σ) :=
  r.manager.turnMoments r.key r.env

def moments (m : Manager σ) : Operation σ → List (Moment σ)
  | .insert source data => [.inserted (source.key.getD m.nextKey) source data]
  | .remove target => ((m.keyOf? target).map .removed).toList
  | .setLoop _ => []
  | .editContext edit => [.edited edit]
  | .needsProcess world | .getStep _ world | .initialStep world =>
    .entered world :: m.layOutMoments world
  | .reset world => .entered world :: m.resetMoments world
  | .suspend world => .entered world :: (m.resetMoments world ++ [.suspended])
  | .restart target env =>
    let (laidOut, env') := m.laidOut env
    .entered env.world :: (m.layOutMoments env.world ++ laidOut.restartMoments target env')
  | .process env =>
    .entered env.world :: (m.layOutMoments env.world ++ (m.stepRuns env).flatMap StepRun.moments)

def perform (m : Manager σ) : Operation σ → Traced σ (Manager σ)
  | .insert source data => (·.2) <$> m.insert source data
  | .remove target => (·.2) <$> m.remove target
  | .setLoop loop => pure (m.setLoop loop)
  | .editContext edit => pure { m with context := edit m.context }
  | .needsProcess world => (·.2.1) <$> m.needsProcess world
  | .getStep target world => (·.2.1) <$> m.getStep target world
  | .initialStep world => (·.2.1) <$> m.initialStep world
  | .reset world => (·.1) <$> m.reset world
  | .suspend world => (·.1) <$> m.suspend world
  | .restart target env => (·.2.1) <$> m.restart target env
  | .process env => (·.1) <$> m.process env

theorem value_perform (m : Manager σ) (op : Operation σ) : (m.perform op).value = m.after op := by
  cases op <;> rfl

def carryOut (m : Manager σ) : List (Operation σ) → Traced σ (Manager σ)
  | [] => pure m
  | op :: ops => do
    let m ← m.perform op
    carryOut m ops

def history (m : Manager σ) : List (Operation σ) → List (Moment σ)
  | [] => []
  | op :: ops => m.moments op ++ (m.after op).history ops

end Manager

end Sequencer
