import Sequencer.Config
import Sequencer.KeyMap
import Sequencer.Trace

/-!
Managers of keyed steps. The steps are laid out as a chain or a ring when they are first needed
after a change; generators make their steps then, and the cursor goes to the first step. Laying out
calls no step. This module has the operations that run no step.
-/

namespace Sequencer

structure StepEntry (σ : Type) where
  source : StepSource σ
  generated : Option (Step σ)
  data : Option StepData

namespace StepEntry

variable {σ : Type}

def step? (entry : StepEntry σ) : Option (Step σ) :=
  match entry.source with
  | .step s => some s
  | .generator _ => entry.generated

def name? (entry : StepEntry σ) : Option String :=
  (entry.step?.bind (·.name)).or entry.source.name

end StepEntry

structure StepTree where
  keys : List StepKey
  ring : Bool
deriving Repr, DecidableEq

def StepTree.successor? (tree : StepTree) (position : Nat) : Option Nat :=
  if position + 1 < tree.keys.length then some (position + 1)
  else if tree.ring ∧ tree.keys ≠ [] then some 0
  else none

structure Manager (σ : Type) where
  steps : KeyMap (StepEntry σ)
  nextKey : StepKey
  /-- Nothing after a change, until the steps are needed. -/
  tree : Option StepTree
  current : Option Nat
  context : Context
  loop : Bool
  config : EngineConfig

namespace Manager

variable {σ : Type}

def empty (config : EngineConfig) : Manager σ where
  steps := .empty
  nextKey := 1
  tree := none
  current := none
  context := .empty
  loop := config.loopWorkflows
  config

/-- The key after `key`; the greatest key is its own successor. -/
def keyAfter (key : StepKey) : StepKey :=
  if key = Int64.maxValue then key else key + 1

def insert (m : Manager σ) (source : StepSource σ) (data : Option StepData) :
    Traced σ (StepKey × Manager σ) := do
  let key := source.key.getD m.nextKey
  .log (.stepAdded key source.name)
  return (key,
    { m with
      nextKey := keyAfter (if m.nextKey < key then key else m.nextKey)
      steps := m.steps.insert key { source, generated := none, data }
      tree := none })

/-- The key a reference stands for. Of several steps of one name the first counts. -/
def keyOf? (m : Manager σ) : StepRef → Option StepKey
  | .key key => if m.steps.contains key then some key else none
  | .name name => (m.steps.entries.find? fun (_, entry) => entry.name? = some name).map (·.1)

def remove (m : Manager σ) (target : StepRef) : Traced σ (Option (StepSource σ) × Manager σ) :=
  match (m.keyOf? target).bind fun key => (m.steps.get? key).map (key, ·) with
  | none => pure (none, m)
  | some (key, entry) => do
    .log (.stepRemoved key)
    return (some entry.source,
      { m with steps := m.steps.erase key, tree := none, current := none })

/-- Whether the steps form a ring counts from the next time they are laid out. -/
def setLoop (m : Manager σ) (loop : Bool) : Manager σ :=
  { m with loop }

def stepData? (m : Manager σ) (key : StepKey) : Option StepData :=
  (m.steps.get? key).bind (·.data)

def generateAll (world : σ) :
    List (StepKey × StepEntry σ) → Traced σ (List (StepKey × StepEntry σ) × σ)
  | [] => pure ([], world)
  | (key, entry) :: rest =>
    match entry.source with
    | .step _ => do
      let (rest, world) ← generateAll world rest
      return ((key, entry) :: rest, world)
    | .generator generator => do
      let (step, world) := generator.generate world
      .emit (.generated key step)
      let (rest, world) ← generateAll world rest
      return ((key, { entry with generated := some step }) :: rest, world)

def rebuild (m : Manager σ) (world : σ) : Traced σ (Manager σ × σ) := do
  let (entries, world) ← generateAll world m.steps.entries
  let keys := m.steps.keys
  .emit (.rebuilt keys)
  .log (.treeRebuilt keys.length m.loop)
  return (
    { m with
      steps := ⟨entries⟩
      tree := some { keys, ring := m.loop }
      current := if keys.isEmpty then none else some 0 },
    world)

def ensureTree (m : Manager σ) (world : σ) : Traced σ (Manager σ × σ) :=
  match m.tree with
  | some _ => pure (m, world)
  | none => m.rebuild world

def currentKey? (m : Manager σ) : Option StepKey := do
  let tree ← m.tree
  let position ← m.current
  tree.keys[position]?

def positionOf? (m : Manager σ) (key : StepKey) : Option Nat :=
  m.tree.bind fun tree => tree.keys.findIdx? (· = key)

def needsProcess (m : Manager σ) (world : σ) : Traced σ (Bool × Manager σ × σ) := do
  let (m, world) ← m.ensureTree world
  return (m.current.isSome, m, world)

def stepAt? (m : Manager σ) (key : StepKey) : Option (Step σ) :=
  (m.steps.get? key).bind (·.step?)

def currentStep? (m : Manager σ) : Option (Step σ) :=
  m.currentKey?.bind m.stepAt?

def getStep (m : Manager σ) (target : StepRef) (world : σ) :
    Traced σ (Option (Step σ) × Manager σ × σ) := do
  let (m, world) ← m.ensureTree world
  return ((m.keyOf? target).bind m.stepAt?, m, world)

def initialStep (m : Manager σ) (world : σ) : Traced σ (Option (Step σ) × Manager σ × σ) := do
  let (m, world) ← m.ensureTree world
  return (m.steps.entries.head?.bind (·.2.step?), m, world)

end Manager

end Sequencer
