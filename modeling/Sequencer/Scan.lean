import Sequencer.Manager.Process
import Sequencer.Workflow.Process

/-!
One scan over named workflows and managers. Every process that is active at its turn runs one cycle,
in the order in which the names were added, up to the first structural error.
-/

namespace Sequencer

inductive CyclicProcess (σ : Type) where
  | workflow (workflow : Workflow σ)
  | manager (manager : Manager σ)

variable {σ : Type}

namespace CyclicProcess

/-- Whether there is something to do. Asking a manager may lay out its steps. -/
def isActive (p : CyclicProcess σ) (world : σ) : Traced σ (Bool × CyclicProcess σ × σ) :=
  match p with
  | .workflow w => pure (w.on, .workflow w, world)
  | .manager m => do
    let (active, m, world) ← m.needsProcess world
    return (active, .manager m, world)

def runCycle (p : CyclicProcess σ) (clock : Clock) (env : Env σ) :
    Traced σ (Except WorkflowError Unit × CyclicProcess σ × Env σ) :=
  match p with
  | .workflow w => do
    let cycle ← w.process clock env
    return (cycle.result, .workflow cycle.workflow, cycle.env)
  | .manager m => do
    let (m, env) ← m.process env
    return (.ok (), .manager m, env)

end CyclicProcess

structure ScanCycle (σ : Type) where
  processes : Dictionary (CyclicProcess σ)

namespace ScanCycle

def empty : ScanCycle σ := ⟨.empty⟩

instance : Inhabited (ScanCycle σ) := ⟨empty⟩

def add (scan : ScanCycle σ) (name : String) (p : CyclicProcess σ) : ScanCycle σ :=
  ⟨scan.processes.insert name p⟩

def remove (scan : ScanCycle σ) (name : String) : Option (CyclicProcess σ) × ScanCycle σ :=
  (scan.processes.get? name, ⟨scan.processes.erase name⟩)

def get? (scan : ScanCycle σ) (name : String) : Option (CyclicProcess σ) :=
  scan.processes.get? name

def size (scan : ScanCycle σ) : Nat :=
  scan.processes.size

structure Scanned (σ : Type) where
  result : Except WorkflowError Nat
  processes : List (String × CyclicProcess σ)
  env : Env σ

/-- Each process has its own part of the scan, with what the clock shows then. -/
def runAll (clocks : String → Clock) (ran : Nat) (env : Env σ) :
    List (String × CyclicProcess σ) → Traced σ (Scanned σ)
  | [] => pure ⟨.ok ran, [], env⟩
  | (name, p) :: rest => do
    let (active, p, world) ← p.isActive env.world
    let env := { env with world }
    if !active then
      .log (.processSkipped name)
      let scanned ← runAll clocks ran env rest
      return { scanned with processes := (name, p) :: scanned.processes }
    else
      let (result, p, env) ← p.runCycle (clocks name) env
      match result with
      | .error fault =>
        .log (.processFailed name fault)
        return ⟨.error (.process name fault), (name, p) :: rest, env⟩
      | .ok () =>
        let scanned ← runAll clocks (ran + 1) env rest
        return { scanned with processes := (name, p) :: scanned.processes }

def run (scan : ScanCycle σ) (clocks : String → Clock) (env : Env σ) :
    Traced σ (Except WorkflowError Nat × ScanCycle σ × Env σ) := do
  let scanned ← runAll clocks 0 env scan.processes.entries
  return (scanned.result, ⟨⟨scanned.processes⟩⟩, scanned.env)

end ScanCycle

end Sequencer
