import Sequencer.Dictionary
import Sequencer.Json.Basic

/-!
The process image that every workflow reads and writes. It holds two independent tables: named
statuses, each a level and an on bit, and JSON values under a name in a namespace. Both are listed
in the order of first write.
-/

namespace Sequencer

structure Status where
  level : Int64
  on : Bool
deriving Repr, DecidableEq

def Status.zero : Status := ⟨0, false⟩

instance : Inhabited Status := ⟨.zero⟩

structure StoredValue where
  value : Json
  /-- The embedder is to keep the value over a restart. -/
  persist : Bool

structure Register where
  statuses : Dictionary Status
  values : Dictionary (Dictionary StoredValue)

namespace Register

def defaultNamespace : String := "global"

def empty : Register := ⟨.empty, .empty⟩

instance : Inhabited Register := ⟨empty⟩

def status (r : Register) (name : String) : Status :=
  (r.statuses.get? name).getD .zero

def setStatus (r : Register) (level : Int64) (name : String) (on : Bool) : Register :=
  { r with statuses := r.statuses.insert name ⟨level, on⟩ }

def setStatusOn (r : Register) (level : Int64) (name : String) : Register :=
  r.setStatus level name true

def value? (r : Register) (name space : String) : Option Json :=
  ((r.values.get? space).bind (·.get? name)).map (·.value)

def putValue (r : Register) (value : Json) (name space : String) (persist : Bool) : Register :=
  let entries := (r.values.get? space).getD .empty
  { r with values := r.values.insert space (entries.insert name ⟨value, persist⟩) }

def persistentValues (r : Register) : List (String × String × Json) :=
  r.values.entries.flatMap fun (space, entries) =>
    entries.entries.filterMap fun (name, stored) =>
      if stored.persist then some (space, name, stored.value) else none

def clearNamespace (r : Register) (space : String) : Nat × Register :=
  (((r.values.get? space).map (·.size)).getD 0, { r with values := r.values.erase space })

end Register

/--
What a callback may read and write: the register, and a world `σ` of whatever else callbacks keep
between their calls. The engine passes the world on and never looks into it.
-/
structure Env (σ : Type) where
  register : Register
  world : σ

end Sequencer
