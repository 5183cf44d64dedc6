import Sequencer.Proofs.Instruction.Tree

/-!
What lowering leaves in the graph, as a list of nodes computed from the source alone. Instructions
are laid out one after the other from some place on. The exit of an instruction is where control
goes on when it is done: to the next instruction, and from the last one to the exit of the list, so
an empty block passes its own exit on.

`insert_eq_layout` and `setNext_layout` say that the two operations of the graph do just that: one
adds the layout with the exit open, the other closes the exit.
-/

namespace Sequencer

namespace Instruction

variable {σ : Type}

def places (graph start : Nat) : List (Instruction σ) → List InstructionId
  | [] => []
  | i :: rest => ⟨graph, start⟩ :: places graph (start + i.size) rest

def entry (graph start : Nat) (exit : Option InstructionId) :
    List (Instruction σ) → Option InstructionId
  | [] => exit
  | _ :: _ => some ⟨graph, start⟩

def layout (graph start : Nat) (owner exit : Option InstructionId) :
    List (Instruction σ) → List (Node σ)
  | [] => []
  | i :: rest =>
    let after := entry graph (start + i.size) exit rest
    { kind := i.kind (places graph (start + 1) i.nested)
      next := if i.isJump then none else after
      owner } ::
    (layout graph (start + 1) (some ⟨graph, start⟩) (if i.isBlock then after else none) i.nested ++
      layout graph (start + i.size) owner exit rest)
termination_by is => sizeAll is
decreasing_by
  . rw [sizeAll_cons, size_eq]
    omega
  . have := size_pos i
    rw [sizeAll_cons]
    omega

def layoutEach (graph start : Nat) (owner : Option InstructionId) :
    List (Instruction σ) → List (Node σ)
  | [] => []
  | i :: rest => layout graph start owner none [i] ++ layoutEach graph (start + i.size) owner rest

@[simp]
theorem layout_nil (graph start : Nat) (owner exit : Option InstructionId) :
    layout graph start owner exit ([] : List (Instruction σ)) = [] := by
  rw [layout]

theorem layout_cons (graph start : Nat) (owner exit : Option InstructionId) (i : Instruction σ)
    (rest : List (Instruction σ)) :
    layout graph start owner exit (i :: rest) =
      layout graph start owner (entry graph (start + i.size) exit rest) [i] ++
        layout graph (start + i.size) owner exit rest := by
  rw [layout, layout]
  simp [entry]

theorem layout_single (graph start : Nat) (owner exit : Option InstructionId)
    (i : Instruction σ) :
    layout graph start owner exit [i] =
      { kind := i.kind (places graph (start + 1) i.nested)
        next := if i.isJump then none else exit
        owner } ::
      layout graph (start + 1) (some ⟨graph, start⟩) (if i.isBlock then exit else none)
        i.nested := by
  rw [layout]
  simp [entry]

@[simp]
theorem length_layout (graph start : Nat) (owner exit : Option InstructionId)
    (is : List (Instruction σ)) : (layout graph start owner exit is).length = sizeAll is := by
  induction is using forest_induction generalizing start owner exit with
  | nil => simp
  | cons i rest nested ih =>
    rw [layout]
    simp only [List.length_cons, List.length_append, nested, ih, sizeAll_cons]
    rw [size_eq]
    omega

theorem layout_concat (graph start : Nat) (owner exit : Option InstructionId)
    (is : List (Instruction σ)) (i : Instruction σ) :
    layout graph start owner exit (is ++ [i]) =
      layout graph start owner (some ⟨graph, start + sizeAll is⟩) is ++
        layout graph (start + sizeAll is) owner exit [i] := by
  induction is generalizing start with
  | nil => simp
  | cons j rest ih =>
    have : entry graph (start + j.size) exit (rest ++ [i]) =
        entry graph (start + j.size) (some ⟨graph, start + sizeAll (j :: rest)⟩) rest := by
      cases rest <;> simp [entry]
    rw [List.cons_append, layout_cons, this, ih, Nat.add_assoc, ← sizeAll_cons,
      ← List.append_assoc, ← layout_cons]

theorem places_concat (graph start : Nat) (is : List (Instruction σ)) (i : Instruction σ) :
    places graph start (is ++ [i]) = places graph start is ++ [⟨graph, start + sizeAll is⟩] := by
  induction is generalizing start with
  | nil => simp [places]
  | cons j rest ih =>
    simp only [List.cons_append, places, ih, sizeAll_cons, Nat.add_assoc]

theorem mem_places {graph start : Nat} {is : List (Instruction σ)} {id : InstructionId}
    (h : id ∈ places graph start is) : start ≤ id.index ∧ id.index < start + sizeAll is := by
  induction is generalizing start with
  | nil => simp [places] at h
  | cons i rest ih =>
    have := size_pos i
    rw [sizeAll_cons]
    simp only [places, List.mem_cons] at h
    cases h with
    | inl h =>
      subst h
      dsimp
      omega
    | inr h =>
      have := ih h
      omega

theorem head?_places (graph start : Nat) (exit : Option InstructionId)
    (is : List (Instruction σ)) :
    (places graph start is).head?.or exit = entry graph start exit is := by
  cases is <;> simp [places, entry]

end Instruction

end Sequencer
