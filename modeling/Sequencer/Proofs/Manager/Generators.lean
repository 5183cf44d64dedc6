import Sequencer.Proofs.Manager.Record
import Sequencer.Proofs.Manager.Signals

/-!
When generators make their steps, and which of these steps is called. What a step remembers is part
of the world, so a step is found as it was left when the world is handed on from each moment to the
next.
-/

namespace Sequencer

namespace Manager

variable {σ : Type}

def Moment.outdates (stale : Bool) : Moment σ → Bool
  | .inserted _ _ _ | .removed _ => true
  | .rebuilt _ => false
  | _ => stale

def stale (moments : List (Moment σ)) : Bool :=
  moments.foldl Moment.outdates true

namespace Faithful

variable {m : Manager σ}

end Faithful

section Run

variable {config : EngineConfig} {start : σ} {s : Manager σ × σ}
  {before after : List (Moment σ)}

end Run

end Manager

end Sequencer
