import Sequencer.Instruction.Graph

/-!
Instructions as trees. Whatever its kind, an instruction has a list of instructions nested in it:
the alternative of a branching one, or the children of a block. A list of instructions is a forest
then, and `forest_induction` goes over the nested instructions of the first tree and the other
trees.
-/

namespace Sequencer

namespace Instruction

variable {σ : Type}

def nested : Instruction σ → List (Instruction σ)
  | .condition _ alternative => alternative.toList
  | .timedCondition _ _ alternative => alternative.toList
  | .block children => children
  | _ => []

mutual

def size : Instruction σ → Nat
  | .condition _ (some alternative) => alternative.size + 1
  | .timedCondition _ _ (some alternative) => alternative.size + 1
  | .block children => sizeAll children + 1
  | _ => 1

def sizeAll : List (Instruction σ) → Nat
  | [] => 0
  | i :: rest => i.size + sizeAll rest

end

def isJump : Instruction σ → Bool
  | .jump _ => true
  | _ => false

def isBlock : Instruction σ → Bool
  | .block _ => true
  | _ => false

def kind (handles : List InstructionId) : Instruction σ → NodeKind σ
  | .callback run => .callback run
  | .log level message => .log level message
  | .label name => .label name
  | .jump target => .jump target
  | .condition test _ => .condition test handles.head? false
  | .wait timer => .wait timer
  | .timedCondition timer test _ => .timedCondition timer test handles.head? false
  | .block _ => .block handles
  | .setStatus name level on => .setStatus name level on
  | .putValue name space value persist => .putValue name space value persist

@[simp]
theorem sizeAll_nil : sizeAll ([] : List (Instruction σ)) = 0 := by
  simp [sizeAll]

@[simp]
theorem sizeAll_cons (i : Instruction σ) (rest : List (Instruction σ)) :
    sizeAll (i :: rest) = i.size + sizeAll rest := by
  simp [sizeAll]

theorem size_eq (i : Instruction σ) : i.size = sizeAll i.nested + 1 := by
  cases i with
  | condition test alternative => cases alternative <;> simp [size, nested]
  | timedCondition timer test alternative => cases alternative <;> simp [size, nested]
  | _ => simp [size, nested]

theorem size_pos (i : Instruction σ) : 0 < i.size := by
  rw [size_eq]
  omega

theorem forest_induction {motive : List (Instruction σ) → Prop} (nil : motive [])
    (cons : ∀ i rest, motive i.nested → motive rest → motive (i :: rest)) :
    ∀ is, motive is
  | [] => nil
  | i :: rest =>
    cons i rest (forest_induction nil cons i.nested) (forest_induction nil cons rest)
termination_by is => sizeAll is
decreasing_by
  . rw [sizeAll_cons, size_eq]
    omega
  . have := size_pos i
    rw [sizeAll_cons]
    omega

end Instruction

end Sequencer
