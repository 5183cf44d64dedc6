import Sequencer.Proofs.Instruction.Arming
import Sequencer.Proofs.Instruction.Handles
import Sequencer.Proofs.Workflow.LazyLink
import Sequencer.Proofs.Workflow.Status

/-!
The handles that a workflow keeps, besides those in its graph: the registered instructions, the
cursor and the failure record. Handles come in from callers and are checked there; whatever else is
stored was made by the graph or was stored before. So in every workflow that operations lead to all
of them are good.
-/

namespace Sequencer

namespace Graph.Sound

variable {σ : Type} {g : Graph σ}

theorem contains_successor? (hg : g.Sound) {id next : InstructionId}
    (h : g.successor? id = some next) : g.contains next = true := by
  have hnested {kind : NodeKind σ} (hkind : g.kind? id = some kind) (hmem : next ∈ kind.nested) :
      g.contains next = true := by
    apply @Forest.contains_of_mem_children σ g hg.forest id
    rw [children_eq, hkind]
    exact hmem
  rw [successor?_eq] at h
  split at h
  . next hkind =>
    split at h
    . exact hg.next id next h
    . exact hnested hkind (Option.mem_toList.mpr h)
  . next hkind =>
    split at h
    . exact hg.next id next h
    . exact hnested hkind (Option.mem_toList.mpr h)
  . next hkind =>
    rw [Option.or_eq_some_iff] at h
    rcases h with h | ⟨_, h⟩
    . exact hnested hkind (List.mem_of_mem_head? h)
    . exact hg.next id next h
  . exact hg.next id next h

theorem resolve (hg : g.Sound) {bindings : List (InstructionId × InstructionId)}
    (htargets : ∀ jump target, (jump, target) ∈ bindings → g.contains target = true) :
    (Workflow.resolve g bindings).Sound := by
  induction bindings generalizing g with
  | nil => exact hg
  | cons binding rest ih =>
    obtain ⟨jump, target⟩ := binding
    apply ih (hg.link jump (htargets jump target List.mem_cons_self))
    intro other target' hmem
    rw [contains_congr (shape_link g jump _)]
    exact htargets other target' (List.mem_cons_of_mem _ hmem)

end Graph.Sound

namespace Workflow

variable {σ : Type}

def handles (w : Workflow σ) : List InstructionId :=
  w.registered.map (·.id) ++ w.pending.toList ++ w.failed.toList ++ w.graph.handles

structure Sound (w : Workflow σ) : Prop where
  graph : w.graph.Sound
  registered : ∀ entry ∈ w.registered, w.graph.contains entry.id = true
  pending : ∀ id, w.pending = some id → w.graph.contains id = true
  failed : ∀ id, w.failed = some id → w.graph.contains id = true

namespace Sound

variable {w w' : Workflow σ}

theorem contains_of_mem_handles (h : w.Sound) {id : InstructionId} (hid : id ∈ w.handles) :
    w.graph.contains id = true := by
  simp only [handles, List.mem_append, List.mem_map, Option.mem_toList] at hid
  rcases hid with ((⟨entry, hentry, rfl⟩ | hpending) | hfailed) | hgraph
  . exact h.registered entry hentry
  . exact h.pending id hpending
  . exact h.failed id hfailed
  . exact h.graph.contains_of_mem_handles hgraph

theorem contains_of_mem_liveNodes (h : w.Sound) {id : InstructionId} (hid : id ∈ w.liveNodes) :
    w.graph.contains id = true := by
  rw [liveNodes, List.mem_flatMap] at hid
  obtain ⟨entry, hentry, hid⟩ := hid
  exact h.graph.contains_of_mem_subtree (h.registered entry hentry) hid

theorem of_graph (h : w.Sound) {g : Graph σ} (hgraph : g.Sound)
    (hcontains : ∀ id, w.graph.contains id = true → g.contains id = true)
    (linksStale : Bool) : Sound { w with graph := g, linksStale } where
  graph := hgraph
  registered := fun entry hentry => hcontains _ (h.registered entry hentry)
  pending := fun id hid => hcontains _ (h.pending id hid)
  failed := fun id hid => hcontains _ (h.failed id hid)

theorem create (h : w.Sound) (instruction : Instruction σ) : (w.create instruction).2.Sound := by
  apply h.of_graph (h.graph.insert instruction)
  intro id hid
  rw [Graph.insert_eq_layout]
  exact Graph.contains_extend hid

theorem register (h : w.Sound) {id : InstructionId} (hid : w.graph.contains id = true)
    (number : Option Int64) (name : Option String) : (w.register id number name).Sound where
  graph := h.graph
  registered := by
    simp only [Workflow.register, List.forall_mem_append, List.forall_mem_singleton]
    exact ⟨h.registered, hid⟩
  pending := h.pending
  failed := h.failed

theorem of_sublist (h : w.Sound) {registered : List Registration}
    (hsub : registered.Sublist w.registered) : Sound { w with registered, linksStale := true } where
  graph := h.graph
  registered := fun entry hentry => h.registered entry (hsub.subset hentry)
  pending := h.pending
  failed := h.failed

theorem setNext (h : w.Sound) (id : InstructionId) {next : InstructionId}
    (hnext : w.graph.contains next = true) :
    Sound { w with graph := w.graph.setNext id (some next) } := by
  apply h.of_graph (h.graph.setNext id hnext)
  intro other hother
  rw [Graph.contains_congr (Graph.shape_setNext _ _ _)]
  exact hother

theorem link (h : w.Sound) {targets : List (InstructionId × InstructionId)}
    (htargets : w.bindings = .ok targets) :
    Sound { w with graph := resolve w.graph targets, linksStale := false } := by
  -- a jump is bound to a live node, and these are all in the graph
  have hlive : ∀ jump target, (jump, target) ∈ targets → w.graph.contains target = true := by
    intro jump target hmem
    obtain ⟨_, label, _, hfind⟩ := (bindJumps_ok htargets).2 jump target hmem
    exact h.contains_of_mem_liveNodes (isLiveLabel_of_findLabel? hfind).1
  apply h.of_graph (h.graph.resolve hlive)
  intro id hid
  rw [Graph.contains_congr (shape_resolve _ _)]
  exact hid

theorem edit (h : w.Sound) (hedit : Edit w w') : w'.Sound := by
  refine hedit.induction h ?_ ?_ ?_ ?_ ?_
  . exact fun v instruction hv => hv.create instruction
  . exact fun v id number name hid hv => hv.register hid number name
  . exact fun v id next hnext hv => hv.setNext id hnext
  . exact fun v registered hsub hv => hv.of_sublist hsub
  . exact fun v targets htargets hv => hv.link htargets

theorem of_sameProgram (h : w.Sound) (hsame : SameProgram w w')
    (hpending : ∀ id, w'.pending = some id → w.graph.contains id = true)
    (hfailed : ∀ id, w'.failed = some id → w.graph.contains id = true) : w'.Sound where
  graph := h.graph.congr hsame.unvisited.symm
  registered := by
    intro entry hentry
    rw [hsame.registered] at hentry
    rw [Graph.contains_congr hsame.shape]
    exact h.registered entry hentry
  pending := by
    intro id hid
    rw [Graph.contains_congr hsame.shape]
    exact hpending id hid
  failed := by
    intro id hid
    rw [Graph.contains_congr hsame.shape]
    exact hfailed id hid

theorem makePending (h : w.Sound) (now : Instant) {next : Option InstructionId}
    (hnext : ∀ id, next = some id → w.graph.contains id = true) :
    (w.makePending now next).value.Sound := by
  apply h.of_sameProgram (sameProgram_makePending w now next)
  . rw [pending_makePending]
    exact hnext
  . rw [failed_makePending]
    exact h.failed

theorem enable (h : w.Sound) (now : Instant) : (w.enable now).value.Sound := by
  unfold Workflow.enable
  split
  . exact h
  . have hon : Sound { w with on := true } := ⟨h.graph, h.registered, h.pending, h.failed⟩
    apply hon.makePending now
    intro id hid
    obtain ⟨entry, hentry, rfl⟩ := Option.map_eq_some_iff.mp hid
    exact h.registered entry (List.mem_of_mem_head? hentry)

theorem disable (h : w.Sound) : w.disable.value.Sound := by
  unfold Workflow.disable
  split
  . exact h
  . exact ⟨h.graph, h.registered, by simp, h.failed⟩

theorem releaseFailure (h : w.Sound) (instruction : Option InstructionId) :
    (w.releaseFailure instruction).value.Sound := by
  unfold Workflow.releaseFailure
  split
  . exact h
  . cases w.failed <;> exact ⟨h.graph, h.registered, h.pending, by simp⟩

theorem invoked (h : w.Sound) (now : Instant) {id : InstructionId}
    (hid : w.graph.contains id = true) (env : Env σ) : (w.invoked now id env).Sound := by
  apply h.of_sameProgram
  . exact ⟨Graph.unvisited_perform _ _ _ _, rfl, rfl, rfl⟩
  . exact h.pending
  . intro other hfailed
    simp only [Workflow.invoked] at hfailed
    split at hfailed
    . cases hfailed
      exact hid
    . exact h.failed other hfailed

theorem turn (h : w.Sound) (reading : Reading) {id : InstructionId}
    (hid : w.graph.contains id = true) (env : Env σ) :
    (w.turn reading id env).value.workflow.Sound := by
  have hinvoked := h.invoked reading.invoked hid env
  rw [workflow_turn]
  split
  . exact hinvoked.makePending reading.armed fun next hnext => hinvoked.graph.contains_successor? hnext
  . exact hinvoked

theorem transition (h : w.Sound) {moments : List (Moment σ)} (hstep : Transition w moments w') :
    w'.Sound := by
  cases hstep with
  | edit hedit => exact h.edit hedit
  | enable now => exact h.enable now
  | disable => exact h.disable
  | turn reading hpending env => exact h.turn reading (h.pending _ hpending) env
  | release instruction => exact h.releaseFailure instruction

end Sound

theorem kind?_resolve (g : Graph σ) (bindings : List (InstructionId × InstructionId))
    (id : InstructionId) : (resolve g bindings).kind? id = g.kind? id := by
  induction bindings generalizing g with
  | nil => rfl
  | cons binding rest ih => rw [resolve, ih, Graph.kind?_link]

theorem Edit.contains {w w' : Workflow σ} (h : Edit w w') {id : InstructionId}
    (hid : w.graph.contains id = true) : w'.graph.contains id = true := by
  refine @Edit.induction σ w w' h (fun v => v.graph.contains id = true) hid ?_ ?_ ?_ ?_ ?_
  . intro v instruction hv
    rw [Workflow.create, Graph.insert_eq_layout]
    exact Graph.contains_extend hv
  . exact fun v _ number name _ hv => hv
  . exact fun v _ next _ hv => (Graph.contains_congr (Graph.shape_setNext _ _ _) id).trans hv
  . exact fun v registered _ hv => hv
  . exact fun v targets _ hv => (Graph.contains_congr (shape_resolve _ _) id).trans hv

theorem Edit.kind?_eq {w w' : Workflow σ} (h : Edit w w') {id : InstructionId}
    {kind : NodeKind σ} (hkind : w.graph.kind? id = some kind) :
    w'.graph.kind? id = some kind := by
  refine @Edit.induction σ w w' h (fun v => v.graph.kind? id = some kind) hkind ?_ ?_ ?_ ?_ ?_
  . intro v instruction hv
    rw [Workflow.create, Graph.insert_eq_layout]
    exact (Graph.kind?_extend (Graph.lt_of_kind? hv)).trans hv
  . exact fun v _ number name _ hv => hv
  . exact fun v _ next _ hv => (Graph.kind?_setNext _ _ _ _).trans hv
  . exact fun v registered _ hv => hv
  . exact fun v targets _ hv => (kind?_resolve _ _ _).trans hv

theorem Reachable.sound {w : Workflow σ} (h : w.Reachable) : w.Sound := by
  refine h.invariant ?_ fun w moments w' hstep hw => hw.transition hstep
  intro id config
  exact ⟨Graph.sound_empty id, by simp [Workflow.empty], by simp [Workflow.empty],
    by simp [Workflow.empty]⟩

end Workflow

end Sequencer
