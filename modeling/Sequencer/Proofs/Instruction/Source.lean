import Sequencer.Proofs.Instruction.Tree

/-!
What a list of instructions means, without a graph. Each instruction has a place, which is the
number of instructions that are written before it. Control passes from leaf to leaf: an instruction
that is no block, in a list or in a block of the list, but not in an alternative.
-/

namespace Sequencer

namespace Instruction

variable {σ : Type}

def isBranch : Instruction σ → Bool
  | .condition _ _ => true
  | .timedCondition _ _ _ => true
  | _ => false

def leaves (start : Nat) : List (Instruction σ) → List (Nat × Instruction σ)
  | [] => []
  | i :: rest =>
    (if i.isBlock then leaves (start + 1) i.nested else [(start, i)]) ++
      leaves (start + i.size) rest
termination_by is => sizeAll is
decreasing_by
  . rw [sizeAll_cons, size_eq]
    omega
  . have := size_pos i
    rw [sizeAll_cons]
    omega

/-- The lists whose leaves run one after the other: the program itself and each alternative. -/
inductive Sequence (program : List (Instruction σ)) : Nat → List (Instruction σ) → Prop where
  | top : Sequence program 0 program
  | alternative {start place : Nat} {is : List (Instruction σ)} {i : Instruction σ}
      (h : Sequence program start is) (hleaf : (place, i) ∈ leaves start is) :
      Sequence program (place + 1) i.nested

def IsLeaf (program : List (Instruction σ)) (place : Nat) (i : Instruction σ) : Prop :=
  ∃ start is, Sequence program start is ∧ (place, i) ∈ leaves start is

/--
Where control goes on from the leaf at a place, none if it ends there. The result of its last test
is given, which is of no account for a leaf without a test.
-/
inductive Follows (program : List (Instruction σ)) (place : Nat) (holds : Bool) :
    Option Nat → Prop where
  | jump {name : String} {target : Nat} (hjump : IsLeaf program place (.jump name))
      (hlabel : IsLeaf program target (.label name)) : Follows program place holds (some target)
  | alternative {i : Instruction σ} (hleaf : IsLeaf program place i) (hbranch : i.isBranch = true)
      (hfails : holds = false) :
      Follows program place holds ((leaves (place + 1) i.nested).head?.map Prod.fst)
  | next {start k : Nat} {is : List (Instruction σ)} {i : Instruction σ}
      (hsequence : Sequence program start is) (hleaf : (leaves start is)[k]? = some (place, i))
      (hjump : i.isJump = false) (hholds : i.isBranch = true → holds = true) :
      Follows program place holds ((leaves start is)[k + 1]?.map Prod.fst)

@[simp]
theorem leaves_nil (start : Nat) : leaves start ([] : List (Instruction σ)) = [] := by
  rw [leaves]

theorem leaves_cons_block (start : Nat) {i : Instruction σ} (h : i.isBlock = true)
    (rest : List (Instruction σ)) :
    leaves start (i :: rest) = leaves (start + 1) i.nested ++ leaves (start + i.size) rest := by
  rw [leaves, if_pos h]

theorem leaves_cons_leaf (start : Nat) {i : Instruction σ} (h : i.isBlock = false)
    (rest : List (Instruction σ)) :
    leaves start (i :: rest) = (start, i) :: leaves (start + i.size) rest := by
  rw [leaves, if_neg (by simp [h])]
  rfl

theorem isBlock_of_mem_leaves {start place : Nat} {is : List (Instruction σ)} {i : Instruction σ}
    (h : (place, i) ∈ leaves start is) : i.isBlock = false := by
  induction is using forest_induction generalizing start with
  | nil => simp at h
  | cons j rest ihNested ihRest =>
    cases hblock : j.isBlock with
    | true =>
      rw [leaves_cons_block start hblock, List.mem_append] at h
      rcases h with h | h
      . exact ihNested h
      . exact ihRest h
    | false =>
      rw [leaves_cons_leaf start hblock, List.mem_cons] at h
      rcases h with h | h
      . cases h
        exact hblock
      . exact ihRest h

theorem place_of_mem_leaves {start place : Nat} {is : List (Instruction σ)} {i : Instruction σ}
    (h : (place, i) ∈ leaves start is) : place + i.size ≤ start + sizeAll is := by
  induction is using forest_induction generalizing start with
  | nil => simp at h
  | cons j rest ihNested ihRest =>
    have hsize := size_eq j
    rw [sizeAll_cons]
    cases hblock : j.isBlock with
    | true =>
      rw [leaves_cons_block start hblock, List.mem_append] at h
      rcases h with h | h
      . have := ihNested h
        omega
      . have := ihRest h
        omega
    | false =>
      rw [leaves_cons_leaf start hblock, List.mem_cons] at h
      rcases h with h | h
      . cases h
        omega
      . have := ihRest h
        omega

theorem Sequence.place_le {program : List (Instruction σ)} {start : Nat}
    {is : List (Instruction σ)} (h : Sequence program start is) :
    start + sizeAll is ≤ sizeAll program := by
  induction h with
  | top => omega
  | @alternative _ _ _ i _ hleaf ih =>
    have hplace := place_of_mem_leaves hleaf
    have hsize := size_eq i
    omega

theorem IsLeaf.place_lt {program : List (Instruction σ)} {place : Nat} {i : Instruction σ}
    (h : IsLeaf program place i) : place < sizeAll program := by
  obtain ⟨_, _, hsequence, hleaf⟩ := h
  have hle := hsequence.place_le
  have hplace := place_of_mem_leaves hleaf
  have hpos := size_pos i
  omega

theorem IsLeaf.exists_follows {program : List (Instruction σ)} {place : Nat} {i : Instruction σ}
    (h : IsLeaf program place i)
    (hlabel : ∀ name, i = .jump name → ∃ target, IsLeaf program target (.label name))
    (holds : Bool) : ∃ target, Follows program place holds target := by
  cases hjump : i.isJump with
  | true =>
    cases i with
    | jump name =>
      obtain ⟨target, htarget⟩ := hlabel name rfl
      exact ⟨_, .jump h htarget⟩
    | _ => simp [isJump] at hjump
  | false =>
    by_cases hbranch : i.isBranch = true ∧ holds = false
    . exact ⟨_, .alternative h hbranch.1 hbranch.2⟩
    . obtain ⟨start, is, hsequence, hleaf⟩ := h
      obtain ⟨k, hk⟩ := List.mem_iff_getElem?.mp hleaf
      refine ⟨_, .next hsequence hk hjump ?_⟩
      intro htrue
      cases holds <;> simp_all

end Instruction

end Sequencer
