import Sequencer.Register

/-!
Boolean conditions on the levels of statuses.
-/

namespace Sequencer

inductive Condition where
  | const (value : Bool)
  | not (inner : Condition)
  /-- True when one of the children is, false when there are none. -/
  | anyOf (children : List Condition)
  /-- True when all of the children are, also when there are none. -/
  | allOf (children : List Condition)
  | hasLevel (name : String) (level : Int64)

namespace Condition

instance : Inhabited Condition := ⟨.const true⟩

mutual

def evaluate (r : Register) : Condition → Bool
  | .const value => value
  | .not inner => !evaluate r inner
  | .anyOf children => evaluateAny r children
  | .allOf children => evaluateAll r children
  | .hasLevel name level => (r.status name).level = level

def evaluateAny (r : Register) : List Condition → Bool
  | [] => false
  | c :: cs => evaluate r c || evaluateAny r cs

def evaluateAll (r : Register) : List Condition → Bool
  | [] => true
  | c :: cs => evaluate r c && evaluateAll r cs

end

end Condition

end Sequencer
