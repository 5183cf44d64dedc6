/-!
What a step answers when it has run: where the cursor moves, and what happens with the rest of the
cycle.
-/

namespace Sequencer

abbrev StepKey := Int64

inductive StepRef where
  | key (key : StepKey)
  | name (name : String)
deriving Repr, DecidableEq

inductive Transition where
  | advance
  | stay
  /-- To the named step, or to the following one if there is no such step. -/
  | jumpTo (target : StepRef)
deriving Repr, DecidableEq

inductive Flow where
  | nextCycle
  | continueInCycle
  /-- Reset all steps and start over, in this cycle or in the next one. -/
  | repeatWhole (continueInCycle : Bool)
  /-- Reset all steps and suspend the manager. -/
  | terminate
deriving Repr, DecidableEq

structure Outcome where
  transition : Transition
  flow : Flow
deriving Repr, DecidableEq

namespace Outcome

def advance : Outcome := ⟨.advance, .nextCycle⟩

def stay : Outcome := ⟨.stay, .nextCycle⟩

def jumpTo (target : StepRef) : Outcome := ⟨.jumpTo target, .nextCycle⟩

def repeatWhole : Outcome := ⟨.advance, .repeatWhole false⟩

def terminate : Outcome := ⟨.stay, .terminate⟩

instance : Inhabited Outcome := ⟨advance⟩

/-- The same outcome, but going on in this cycle. A termination stays one. -/
def inCurrentCycle (outcome : Outcome) : Outcome :=
  let flow :=
    match outcome.flow with
    | .nextCycle | .continueInCycle => .continueInCycle
    | .repeatWhole _ => .repeatWhole true
    | .terminate => .terminate
  { outcome with flow }

end Outcome

end Sequencer
