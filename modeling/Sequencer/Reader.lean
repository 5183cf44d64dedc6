import Sequencer.Json.Basic

/-!
How typed values are read from the parts `δ` of a document, whatever its format is. A reading works
in a monad `m` that can fail.
-/

namespace Sequencer

structure Reader (m : Type → Type) (δ : Type) where
  fail : {α : Type} → m α
  /--
  The fields of a record by their names. Fields without one of these names are passed over; a field
  that is given twice is a failure.
  -/
  fields : List String → δ → m (String → Option δ)
  items : δ → m (List δ)
  entries : δ → m (List (String × δ))
  present? : δ → m (Option δ)
  bool : δ → m Bool
  /-- A whole number below `2 ^ 64`. -/
  natural : δ → m Nat
  integer : δ → m Int64
  text : δ → m String
  value : δ → m Json

namespace Reader

variable {m : Type → Type} [Monad m] {δ α : Type}

def required (r : Reader m δ) (field : Option δ) (read : δ → m α) : m α :=
  match field with
  | some part => read part
  | none => r.fail

def orElse (field : Option δ) (read : δ → m α) (default : α) : m α :=
  match field with
  | some part => read part
  | none => pure default

def optional (r : Reader m δ) (field : Option δ) (read : δ → m α) : m (Option α) :=
  match field with
  | none => pure none
  | some part => do
    match ← r.present? part with
    | none => return none
    | some part => return some (← read part)

def values (r : Reader m δ) (part : δ) : m (List (String × Json)) := do
  (← r.entries part).mapM fun (key, part) => do return (key, ← r.value part)

end Reader

end Sequencer
