import Sequencer.Proofs.Instruction.Arrival

/-!
A graph implements a program when it has the layout of the program and its jumps go to their labels.
Then control goes on from every node as the program says.
-/

namespace Sequencer

open Instruction

namespace Graph

variable {σ : Type}

theorem block_or_leaf_of_forest {g : Graph σ} {program : List (Instruction σ)}
    {start place : Nat} {owner exit : Option InstructionId} {is : List (Instruction σ)}
    (hcarries : g.Carries start (layout g.id start owner exit is))
    (hleaves : ∀ leaf ∈ leaves start is, IsLeaf program leaf.1 leaf.2) (hstart : start ≤ place)
    (hplace : place < start + sizeAll is) :
    (∃ kind, g.kind? ⟨g.id, place⟩ = some kind ∧ kind.isBlock = true) ∨
      ∃ i, IsLeaf program place i := by
  induction is using forest_induction generalizing start owner exit with
  | nil =>
    rw [sizeAll_nil] at hplace
    omega
  | cons i rest ihNested ihRest =>
    obtain ⟨hnode, hnested, hrest⟩ := carries_layout_cons hcarries
    have hsize := size_eq i
    rw [sizeAll_cons] at hplace
    cases hblock : i.isBlock with
    | true =>
      rw [leaves_cons_block start hblock] at hleaves
      rcases Nat.lt_or_ge place (start + i.size) with hlt | hge
      . rcases Nat.eq_or_lt_of_le hstart with rfl | hgt
        . obtain ⟨kind, hkind, hkindBlock, _⟩ := hnode.successor?_of_isBlock hblock
          exact Or.inl ⟨kind, hkind, hkindBlock⟩
        . apply ihNested hnested
          . intro leaf hleaf
            exact hleaves leaf (List.mem_append_left _ hleaf)
          . omega
          . omega
      . apply ihRest hrest
        . intro leaf hleaf
          exact hleaves leaf (List.mem_append_right _ hleaf)
        . exact hge
        . omega
    | false =>
      rw [leaves_cons_leaf start hblock] at hleaves
      have hself : IsLeaf program start i := hleaves _ List.mem_cons_self
      rcases Nat.lt_or_ge place (start + i.size) with hlt | hge
      . rcases Nat.eq_or_lt_of_le hstart with rfl | hgt
        . exact Or.inr ⟨i, hself⟩
        . apply ihNested hnested
          -- what is nested in a leaf is a list of its own
          . obtain ⟨_, _, hsequence, hleaf⟩ := hself
            intro leaf hmem
            exact ⟨_, _, .alternative hsequence hleaf, hmem⟩
          . omega
          . omega
      . apply ihRest hrest
        . intro leaf hleaf
          exact hleaves leaf (List.mem_cons_of_mem _ hleaf)
        . exact hge
        . omega

section Carried

variable {g : Graph σ} {program : List (Instruction σ)}
  (h : g.Carries 0 (layout g.id 0 none none program))

include h

theorem carries_of_sequence {start : Nat} {is : List (Instruction σ)}
    (hsequence : Sequence program start is) :
    ∃ owner, g.Carries start (layout g.id start owner none is) := by
  induction hsequence with
  | top => exact ⟨none, h⟩
  | alternative _ hleaf ih =>
    obtain ⟨owner, hcarries⟩ := ih
    obtain ⟨k, hk⟩ := List.mem_iff_getElem?.mp hleaf
    obtain ⟨_, _, _, hnested⟩ := arrives_next hcarries .idle hk
    exact ⟨_, hnested⟩

theorem lowered_of_isLeaf {place : Nat} {i : Instruction σ} (hleaf : IsLeaf program place i) :
    ∃ next, g.Lowered place i next := by
  obtain ⟨start, is, hsequence, hleaf⟩ := hleaf
  obtain ⟨owner, hcarries⟩ := carries_of_sequence h hsequence
  obtain ⟨k, hk⟩ := List.mem_iff_getElem?.mp hleaf
  obtain ⟨next, hnode, _⟩ := arrives_next hcarries .idle hk
  exact ⟨next, hnode⟩

theorem arrives_alternative {place : Nat} {i : Instruction σ} (hleaf : IsLeaf program place i)
    (hbranch : i.isBranch = true) {kind : NodeKind σ}
    (hkind : g.kind? ⟨g.id, place⟩ = some kind) (hfails : kind.holds = false) :
    g.Arrives (g.successor? ⟨g.id, place⟩)
      (g.handle? ((leaves (place + 1) i.nested).head?.map Prod.fst)) := by
  obtain ⟨next, hnode⟩ := lowered_of_isLeaf h hleaf
  obtain ⟨start, is, hsequence, hleaf⟩ := hleaf
  obtain ⟨owner, hcarries⟩ := carries_of_sequence h (.alternative hsequence hleaf)
  have hentry := arrives_entry hcarries .idle
  rw [Option.or_none] at hentry
  rw [hnode.successor?_of_isBranch hbranch hkind, hfails]
  exact hentry

theorem arrives_following {start k place : Nat} {is : List (Instruction σ)} {i : Instruction σ}
    (hsequence : Sequence program start is) (hleaf : (leaves start is)[k]? = some (place, i))
    (hjump : i.isJump = false) {kind : NodeKind σ}
    (hkind : g.kind? ⟨g.id, place⟩ = some kind) (hholds : i.isBranch = true → kind.holds = true) :
    g.Arrives (g.successor? ⟨g.id, place⟩)
      (g.handle? ((leaves start is)[k + 1]?.map Prod.fst)) := by
  obtain ⟨owner, hcarries⟩ := carries_of_sequence h hsequence
  obtain ⟨next, hnode, hnext, _⟩ := arrives_next hcarries .idle hleaf
  rw [Option.or_none] at hnext
  cases hbranch : i.isBranch with
  | true =>
    rw [hnode.successor?_of_isBranch hbranch hkind, hholds hbranch]
    exact hnext
  | false =>
    have hblock := isBlock_of_mem_leaves (List.mem_of_getElem? hleaf)
    rw [hnode.successor?_of_not_isBranch hbranch hblock, hnode.next hjump]
    exact hnext

theorem isLeaf_of_kind? {place : Nat} (hplace : place < sizeAll program) {kind : NodeKind σ}
    (hkind : g.kind? ⟨g.id, place⟩ = some kind) (hblock : kind.isBlock = false) :
    ∃ i, IsLeaf program place i ∧ ∃ next, g.Lowered place i next := by
  rcases block_or_leaf_of_forest h (fun leaf hleaf => ⟨_, _, .top, hleaf⟩) (Nat.zero_le place)
    (by omega) with ⟨kind', hkind', hblock'⟩ | ⟨i, hleaf⟩
  . simp_all
  . exact ⟨i, hleaf, lowered_of_isLeaf h hleaf⟩

end Carried

structure Implements (g : Graph σ) (program : List (Instruction σ)) : Prop where
  carries : g.Carries 0 (layout g.id 0 none none program)
  labels : ∀ place name, IsLeaf program place (.jump name) →
    ∃ target, IsLeaf program target (.label name)
  jumps : ∀ place target name, IsLeaf program place (.jump name) →
    IsLeaf program target (.label name) → g.next? ⟨g.id, place⟩ = some ⟨g.id, target⟩

namespace Implements

variable {g : Graph σ} {program : List (Instruction σ)}

theorem congr {h : Graph σ} (heq : g.unvisited = h.unvisited) (himplements : g.Implements program) :
    h.Implements program := by
  have hid : g.id = h.id := congrArg (fun g => g.id) heq
  constructor
  . rw [← hid]
    exact himplements.carries.congr heq
  . exact himplements.labels
  . intro place target name hjump hlabel
    rw [← next?_congr heq, ← hid]
    exact himplements.jumps place target name hjump hlabel

theorem arrives_of_follows (h : g.Implements program) {place : Nat} {kind : NodeKind σ}
    (hkind : g.kind? ⟨g.id, place⟩ = some kind) {target : Option Nat}
    (hfollows : Follows program place kind.holds target) :
    g.Arrives (g.successor? ⟨g.id, place⟩) (g.handle? target) := by
  cases hfollows with
  | @jump name target hjump hlabel =>
    obtain ⟨_, hnode⟩ := lowered_of_isLeaf h.carries hjump
    obtain ⟨_, htarget⟩ := lowered_of_isLeaf h.carries hlabel
    obtain ⟨kind', hkind', _⟩ := htarget.exists_kind
    rw [hnode.successor?_of_not_isBranch rfl rfl, h.jumps place target name hjump hlabel]
    apply Arrives.here hkind'
    rw [htarget.isBlock_eq hkind']
    rfl
  | alternative hleaf hbranch hfails =>
    exact arrives_alternative h.carries hleaf hbranch hkind hfails
  | next hsequence hleaf hjump hholds =>
    exact arrives_following h.carries hsequence hleaf hjump hkind hholds

theorem handle?_injective (g : Graph σ) {a b : Option Nat} (h : g.handle? a = g.handle? b) :
    a = b := by
  cases a <;> cases b <;> simp_all [handle?]

theorem arrives_successor? (h : g.Implements program) {place : Nat} {kind : NodeKind σ}
    (hplace : place < sizeAll program) (hkind : g.kind? ⟨g.id, place⟩ = some kind)
    (hblock : kind.isBlock = false) :
    ∃ i target, IsLeaf program place i ∧ g.Has place i ∧
      Follows program place kind.holds target ∧
      (∀ other, Follows program place kind.holds other → other = target) ∧
      g.Arrives (g.successor? ⟨g.id, place⟩) (g.handle? target) := by
  -- uniqueness comes from the graph: control arrives at one place only
  obtain ⟨i, hleaf, _, hnode⟩ := isLeaf_of_kind? h.carries hplace hkind hblock
  have hlabel (name : String) (hi : i = .jump name) :
      ∃ target, IsLeaf program target (.label name) := by
    subst hi
    exact h.labels place name hleaf
  obtain ⟨target, hfollows⟩ := hleaf.exists_follows hlabel kind.holds
  have harrives := h.arrives_of_follows hkind hfollows
  refine ⟨i, target, hleaf, hnode.kind, hfollows, ?_, harrives⟩
  intro other hother
  apply handle?_injective g
  exact (h.arrives_of_follows hkind hother).unique harrives

theorem arrives_entry (h : g.Implements program) :
    g.Arrives (places g.id 0 program).head?
      (g.handle? ((leaves 0 program).head?.map Prod.fst)) := by
  have hentry := Graph.arrives_entry h.carries .idle
  rw [Option.or_none, ← head?_places, Option.or_none] at hentry
  exact hentry

end Implements

end Graph

end Sequencer
