import Sequencer.Instruction.Basic

/-!
The graph that instructions are lowered into. A node is never removed and never moves, so a handle
stays good for as long as the graph lives. An instruction takes its place before the ones nested in
it, and these follow in their order; links go by handles, so jumps may make cycles.
-/

namespace Sequencer

inductive NodeKind (σ : Type) where
  | callback (run : Env σ → Progress × Env σ)
  | log (level : Level) (message : String)
  | label (name : String)
  | jump (label : String)
  | condition (test : Condition) (alternative : Option InstructionId) (holds : Bool)
  | wait (timer : Timer)
  | timedCondition (timer : Timer) (test : Condition) (alternative : Option InstructionId)
    (holds : Bool)
  | block (children : List InstructionId)
  | setStatus (name : String) (level : Int64) (on : Bool)
  | putValue (name space : String) (value : Json) (persist : Bool)

structure Node (σ : Type) where
  kind : NodeKind σ
  next : Option InstructionId
  /-- The block or the branching instruction that this one is nested in. -/
  owner : Option InstructionId

structure Graph (σ : Type) where
  id : Nat
  nodes : Array (Node σ)

namespace Graph

variable {σ : Type}

def empty (id : Nat) : Graph σ := ⟨id, #[]⟩

def size (g : Graph σ) : Nat :=
  g.nodes.size

def contains (g : Graph σ) (id : InstructionId) : Bool :=
  id.graph = g.id && id.index < g.size

def node? (g : Graph σ) (id : InstructionId) : Option (Node σ) :=
  g.nodes[id.index]?

def kind? (g : Graph σ) (id : InstructionId) : Option (NodeKind σ) :=
  (g.node? id).map (·.kind)

def owner? (g : Graph σ) (id : InstructionId) : Option InstructionId :=
  (g.node? id).bind (·.owner)

def setKind (g : Graph σ) (id : InstructionId) (kind : NodeKind σ) : Graph σ :=
  { g with nodes := g.nodes.modify id.index fun n => { n with kind } }

def link (g : Graph σ) (id : InstructionId) (next : Option InstructionId) : Graph σ :=
  { g with nodes := g.nodes.modify id.index fun n => { n with next } }

@[simp]
theorem size_setKind (g : Graph σ) (id : InstructionId) (kind : NodeKind σ) :
    (g.setKind id kind).size = g.size := by
  simp [setKind, size]

@[simp]
theorem size_link (g : Graph σ) (id : InstructionId) (next : Option InstructionId) :
    (g.link id next).size = g.size := by
  simp [link, size]

def push (g : Graph σ) (kind : NodeKind σ) (owner : Option InstructionId) :
    InstructionId × Graph σ :=
  (⟨g.id, g.size⟩, { g with nodes := g.nodes.push { kind, next := none, owner } })

/--
Sets what follows an instruction. A jump only ever goes on at its label, so it refuses. A block
hands the link down to its last child, which is how the block yields to what follows it.
-/
def setNext (g : Graph σ) (id : InstructionId) (next : Option InstructionId) : Graph σ :=
  match g.kind? id with
  | none => g
  | some (.jump _) => g
  | some (.block children) =>
    match children.getLast? with
    | none => g.link id next
    | some last =>
      if id.index < last.index ∧ last.index < g.size then (g.link id next).setNext last next
      else g.link id next
  | some _ => g.link id next
termination_by g.size - id.index
decreasing_by simp only [size_link]; omega

def chain (g : Graph σ) : List InstructionId → Graph σ
  | a :: b :: rest => (g.setNext a (some b)).chain (b :: rest)
  | _ => g

mutual

def insert (owner : Option InstructionId) (g : Graph σ) :
    Instruction σ → InstructionId × Graph σ
  | .callback run => g.push (.callback run) owner
  | .log level message => g.push (.log level message) owner
  | .label name => g.push (.label name) owner
  | .jump label => g.push (.jump label) owner
  | .condition test none => g.push (.condition test none false) owner
  | .condition test (some alternative) =>
    let (id, g) := g.push (.condition test none false) owner
    let (alternative, g) := insert (some id) g alternative
    (id, g.setKind id (.condition test (some alternative) false))
  | .wait timer => g.push (.wait timer) owner
  | .timedCondition timer test none => g.push (.timedCondition timer test none false) owner
  | .timedCondition timer test (some alternative) =>
    let (id, g) := g.push (.timedCondition timer test none false) owner
    let (alternative, g) := insert (some id) g alternative
    (id, g.setKind id (.timedCondition timer test (some alternative) false))
  | .block children =>
    let (id, g) := g.push (.block []) owner
    let (children, g) := insertAll (some id) g children
    (id, (g.chain children).setKind id (.block children))
  | .setStatus name level on => g.push (.setStatus name level on) owner
  | .putValue name space value persist => g.push (.putValue name space value persist) owner

def insertAll (owner : Option InstructionId) (g : Graph σ) :
    List (Instruction σ) → List InstructionId × Graph σ
  | [] => ([], g)
  | child :: rest =>
    let (id, g) := insert owner g child
    let (ids, g) := insertAll owner g rest
    (id :: ids, g)

end

def children (g : Graph σ) (id : InstructionId) : List InstructionId :=
  match g.kind? id with
  | some (.condition _ alternative _) => alternative.toList
  | some (.timedCondition _ _ alternative _) => alternative.toList
  | some (.block children) => children
  | _ => []

def subtree (g : Graph σ) (id : InstructionId) : List InstructionId :=
  id :: (g.children id).flatMap fun child =>
    if id.index < child.index ∧ child.index < g.size then g.subtree child else []
termination_by g.size - id.index

def labelName? (g : Graph σ) (id : InstructionId) : Option String :=
  match g.kind? id with
  | some (.label name) => some name
  | _ => none

def jumpLabel? (g : Graph σ) (id : InstructionId) : Option String :=
  match g.kind? id with
  | some (.jump label) => some label
  | _ => none

/-- Forgets the last visit of an instruction: its timer starts anew and its test does not hold. -/
def arm (g : Graph σ) (now : Instant) (id : InstructionId) : Graph σ :=
  match g.kind? id with
  | some (.condition test alternative _) => g.setKind id (.condition test alternative false)
  | some (.wait timer) => g.setKind id (.wait (timer.reset now))
  | some (.timedCondition timer test alternative _) =>
    g.setKind id (.timedCondition (timer.reset now) test alternative false)
  | _ => g

def successor? (g : Graph σ) (id : InstructionId) : Option InstructionId := do
  let node ← g.node? id
  match node.kind with
  | .condition _ alternative holds => if holds then node.next else alternative
  | .timedCondition _ _ alternative holds => if holds then node.next else alternative
  | .block children => children.head?.or node.next
  | _ => node.next

end Graph

end Sequencer
