import Sequencer.Config
import Sequencer.Instruction.Invoke

/-!
Workflows: a graph of instructions, the list of those that are registered, and one cursor. This
module has the structural operations, which never run an instruction.
-/

namespace Sequencer

structure Registration where
  id : InstructionId
  number : Int64
  name : Option String
deriving Repr, DecidableEq

structure Workflow (σ : Type) where
  graph : Graph σ
  registered : List Registration
  pending : Option InstructionId
  /-- The instruction that failed last, until it is released. -/
  failed : Option InstructionId
  on : Bool
  error : Bool
  /-- Jumps have to be bound to their labels again before the next cycle. -/
  linksStale : Bool
  config : EngineConfig

inductive InstructionSource (σ : Type) where
  | new (instruction : Instruction σ)
  | existing (id : InstructionId)

inductive InstructionSelector where
  | id (id : InstructionId)
  | number (number : Int64)
  | name (name : String)
deriving Repr, DecidableEq

namespace Workflow

variable {σ : Type}

def idleNumber : Int64 := -1

def idleName : String := "Waiting"

def empty (id : Nat) (config : EngineConfig) : Workflow σ where
  graph := .empty id
  registered := []
  pending := none
  failed := none
  on := false
  error := false
  linksStale := true
  config

def onBit : Nat := 1

def errorBit : Nat := 2

def statusBits (w : Workflow σ) : Nat :=
  (if w.on then onBit else 0) + (if w.error then errorBit else 0)

def liveNodes (w : Workflow σ) : List InstructionId :=
  w.registered.flatMap fun entry => w.graph.subtree entry.id

def isRegistered (w : Workflow σ) (id : InstructionId) : Bool :=
  w.registered.any fun entry => entry.id = id

def findLabelClash? (g : Graph σ) (taken : List String) :
    List InstructionId → Option (InstructionId × String)
  | [] => none
  | id :: rest =>
    match g.labelName? id with
    | none => findLabelClash? g taken rest
    | some name =>
      if name ∈ taken then some (id, name) else findLabelClash? g (name :: taken) rest

def labelClash? (w : Workflow σ) (id : InstructionId) : Option WorkflowError :=
  let taken := w.liveNodes.filterMap w.graph.labelName?
  (findLabelClash? w.graph taken (w.graph.subtree id)).map fun (node, name) =>
    .duplicateInstruction node (.label name)

def handleFault? (w : Workflow σ) (id : InstructionId) : Option WorkflowError :=
  if !w.graph.contains id then some (.unknownInstruction id)
  else if w.isRegistered id || (w.graph.owner? id).isSome then
    some (.duplicateInstruction id .alreadyRegistered)
  else none

def create (w : Workflow σ) (instruction : Instruction σ) : InstructionId × Workflow σ :=
  let (id, graph) := w.graph.insert none instruction
  (id, { w with graph })

/--
Registers an instruction without a link to it. Without a number it is given its position. A new
instruction that is rejected stays in the graph, where nothing leads to it.
-/
def add (w : Workflow σ) (source : InstructionSource σ) (number : Option Int64)
    (name : Option String) : Traced σ (Except WorkflowError InstructionId × Workflow σ) :=
  let taken : Except WorkflowError InstructionId × Workflow σ :=
    match source with
    | .new instruction =>
      let (id, w) := w.create instruction
      (.ok id, w)
    | .existing id =>
      match w.handleFault? id with
      | some fault => (.error fault, w)
      | none => (.ok id, w)
  match taken with
  | (.error fault, w) => pure (.error fault, w)
  | (.ok id, w) =>
    match w.labelClash? id with
    | some fault => pure (.error fault, w)
    | none => do
      let number := number.getD (Int64.ofNat w.registered.length)
      .log (.instructionRegistered id number name)
      return (.ok id,
        { w with registered := w.registered ++ [{ id, number, name }], linksStale := true })

def append (w : Workflow σ) (source : InstructionSource σ) (number : Option Int64)
    (name : Option String) : Traced σ (Except WorkflowError InstructionId × Workflow σ) := do
  let previous := w.registered.getLast?
  let (result, w) ← w.add source number name
  match result, previous with
  | .ok id, some previous =>
    return (.ok id, { w with graph := w.graph.setNext previous.id (some id) })
  | result, _ => return (result, w)

def findName? (w : Workflow σ) (name : String) : Option InstructionId :=
  (w.registered.find? fun entry => entry.name = some name).map (·.id)

def findNumber? (w : Workflow σ) (number : Int64) : Option InstructionId :=
  (w.registered.find? fun entry => entry.number = number).map (·.id)

def select? (w : Workflow σ) : InstructionSelector → Option InstructionId
  | .id id => some id
  | .number number => w.findNumber? number
  | .name name => w.findName? name

/--
Takes an instruction off the list and tells whether there was one. It stays in the graph, so links
to it go on working, but its labels no longer count.
-/
def remove (w : Workflow σ) (selector : InstructionSelector) : Traced σ (Bool × Workflow σ) :=
  match (w.select? selector).bind fun id => w.registered.find? fun entry => entry.id = id with
  | none => pure (false, w)
  | some entry => do
    .log (.instructionRemoved entry.id entry.number)
    return (true,
      { w with
        registered := w.registered.eraseP fun other => other.id = entry.id
        linksStale := true })

def removeAll (w : Workflow σ) : Workflow σ :=
  { w with registered := [], linksStale := true }

def registrationOf? (w : Workflow σ) (id : InstructionId) : Option Registration :=
  match w.registered.find? fun entry => entry.id = id with
  | some entry => some entry
  | none =>
    match w.graph.owner? id with
    | none => none
    | some owner => if owner.index < id.index then w.registrationOf? owner else none
termination_by id.index

def numberOf (w : Workflow σ) (id : InstructionId) : Int64 :=
  ((w.registrationOf? id).map (·.number)).getD idleNumber

def currentNumber (w : Workflow σ) : Int64 :=
  (w.pending.map w.numberOf).getD idleNumber

def currentName (w : Workflow σ) : String :=
  ((w.pending.bind w.registrationOf?).bind (·.name)).getD idleName

/-- Makes an instruction the pending one. Without one the workflow is idle and off. -/
def makePending (w : Workflow σ) (now : Instant) (next : Option InstructionId) :
    Traced σ (Workflow σ) :=
  match next with
  | some id => do
    .emit (.armed id now)
    return { w with graph := w.graph.arm now id, pending := some id }
  | none => return { w with pending := none, on := false }

def enable (w : Workflow σ) (now : Instant) : Traced σ (Workflow σ) := do
  if w.on then return w
  let first := w.registered.head?.map Registration.id
  let w ← makePending { w with on := true } now first
  .log (.workflowEnabled w.registered.length w.on)
  return w

def disable (w : Workflow σ) : Traced σ (Workflow σ) := do
  if !w.on then return w
  .log .workflowDisabled
  return { w with pending := none, on := false }

/-- Clears the error state, provided the given instruction, if any, is the one that failed. -/
def releaseFailure (w : Workflow σ) (instruction : Option InstructionId) :
    Traced σ (Workflow σ) := do
  if instruction.isSome ∧ instruction ≠ w.failed then return w
  match w.failed with
  | some failed => .log (.failureReleased failed)
  | none => pure ()
  return { w with failed := none, error := false }

end Workflow

/--
The numbers that tell the graphs of workflows apart. They are handed out one after the other, from
one on, and start over from zero when all that a word can hold have been handed out.
-/
structure GraphIds where
  next : UInt64
deriving Repr, DecidableEq

namespace GraphIds

def initial : GraphIds := ⟨1⟩

instance : Inhabited GraphIds := ⟨initial⟩

def newWorkflow {σ : Type} (ids : GraphIds) (config : EngineConfig) : Workflow σ × GraphIds :=
  (.empty ids.next.toNat config, ⟨ids.next + 1⟩)

end GraphIds

end Sequencer
