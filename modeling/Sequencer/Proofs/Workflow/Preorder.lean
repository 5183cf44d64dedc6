import Sequencer.Proofs.Instruction.Preorder
import Sequencer.Proofs.Workflow.Structure

/-!
The graph of a workflow is a forest that is numbered in preorder, whatever was created, registered
and removed, and whether or not that was accepted. So a stack is enough to list what is nested in an
instruction, and the list is a run of places.
-/

namespace Sequencer

namespace Workflow

variable {σ : Type}

theorem Reachable.contiguous {w : Workflow σ} (h : w.Reachable) : w.graph.Contiguous :=
  (h.graph_structural Graph.contiguous_empty (fun _ _ heq hcontiguous => hcontiguous.congr heq)
    fun _ i hforest hcontiguous => hcontiguous.insert hforest i).2

/--
The walk with a stack lists the subtree of a node and ends after one turn for each node of it. These
are the nodes from the top on up to the first one that is not nested in it, in the order of their
places. What a node lists is what it owns, an owner comes before what it owns, and a node is in the
subtree of another one exactly when the way up from it, from owner to owner, comes there.
-/
theorem Reachable.forest_in_preorder {w : Workflow σ} (h : w.Reachable) {id : InstructionId}
    (hid : w.graph.contains id = true) :
    (∀ turns, w.graph.walk (turns + (w.graph.subtree id).length) [id] [] =
      some (w.graph.subtree id)) ∧
    (∃ stop, w.graph.IsEnd id stop ∧
      w.graph.subtree id =
        (List.range' id.index (stop - id.index)).map fun place => ⟨w.graph.id, place⟩) ∧
    (w.graph.subtree id).Pairwise (fun a b => a.index < b.index) ∧
    (w.graph.subtree id).Nodup ∧
    (∀ child, child ∈ w.graph.children id ↔
      w.graph.contains child = true ∧ w.graph.owner? child = some id) ∧
    (∀ owner, w.graph.owner? id = some owner →
      w.graph.contains owner = true ∧ owner.index < id.index) ∧
    ∀ top, w.graph.contains top = true →
      (id ∈ w.graph.subtree top ↔ w.graph.Climbs id top) := by
  have hforest := h.rooted.forest
  have hlisted := h.listed
  obtain ⟨stop, hstop, hrun⟩ := hforest.exists_isEnd hlisted h.contiguous hid
  refine ⟨hforest.walk_subtree hid, ⟨stop, hstop, hrun⟩, ?_, hforest.nodup_subtree id,
    fun _ => hforest.mem_children_iff hlisted hid, fun _ => hforest.owner_lt hlisted hid,
    fun _ htop => hforest.mem_subtree_iff_climbs hlisted htop hid⟩
  rw [hrun, List.pairwise_map]
  exact List.pairwise_lt_range'

def deeplyNested : Workflow Unit :=
  (Workflow.empty 0 .default)
    |>.after (.append (.new (.label "a")) none none)
    |>.after (.append (.new (.block [.label "b", .label "a"])) none none)
    |>.after (.append (.new (.block [
      .condition (.const false) (some (.block [.jump "a", .block [], .label "c"])),
      .timedCondition default (.const true) (some (.jump "c")),
      .label "d"])) none none)
    |>.after (.append (.new (.jump "d")) none none)
    |>.after (.remove (.id ⟨0, 4⟩))
    |>.after (.append (.existing ⟨0, 4⟩) none none)

theorem Reachable.forest_in_preorder_deeplyNested :
    deeplyNested.Reachable ∧ deeplyNested.graph.contains ⟨0, 5⟩ = true ∧
    deeplyNested.graph.walk 5 [⟨0, 5⟩] [] =
      some [⟨0, 5⟩, ⟨0, 6⟩, ⟨0, 7⟩, ⟨0, 8⟩, ⟨0, 9⟩] ∧
    deeplyNested.graph.IsEnd ⟨0, 5⟩ 10 ∧ deeplyNested.graph.owner? ⟨0, 6⟩ = some ⟨0, 5⟩ ∧
    deeplyNested.graph.Climbs ⟨0, 9⟩ ⟨0, 4⟩ ∧ ¬deeplyNested.graph.Climbs ⟨0, 9⟩ ⟨0, 10⟩ := by
  have hreachable : deeplyNested.Reachable :=
    ((((((Reachable.empty _ _).after _).after _).after _).after _).after _).after _
  have hcontains : deeplyNested.graph.contains ⟨0, 5⟩ = true := by
    decide +kernel
  have hinner : deeplyNested.graph.contains ⟨0, 9⟩ = true := by
    decide +kernel
  have hsubtree : deeplyNested.graph.subtree ⟨0, 5⟩ =
      [⟨0, 5⟩, ⟨0, 6⟩, ⟨0, 7⟩, ⟨0, 8⟩, ⟨0, 9⟩] := by
    decide +kernel
  obtain ⟨hwalk, ⟨stop, hstop, hrun⟩, _, _, hchildren, _⟩ :=
    Reachable.forest_in_preorder hreachable hcontains
  obtain ⟨_, _, _, _, _, _, hclimbs⟩ := Reachable.forest_in_preorder hreachable hinner
  have hlisted := hwalk 0
  rw [hsubtree] at hlisted hrun
  refine ⟨hreachable, hcontains, hlisted, ?_, ?_, ?_, ?_⟩
  . have hlength := congrArg List.length hrun
    have hlater := hstop.later
    simp only [List.length_cons, List.length_nil, List.length_map, List.length_range'] at hlength
    dsimp only at hlater
    obtain rfl : stop = 10 := by omega
    exact hstop
  . exact ((hchildren ⟨0, 6⟩).mp (by decide +kernel)).2
  . rw [← hclimbs _ (by decide +kernel)]
    decide +kernel
  . rw [← hclimbs _ (by decide +kernel)]
    decide +kernel

end Workflow

end Sequencer
