import Sequencer.Proofs.Workflow.Access
import Sequencer.Proofs.Workflow.Refusal

/-!
All the workflows of a program. Their graphs have different numbers, as long as there are fewer of
them than numbers. So a handle that one of them has issued names no node of another, and there it is
unknown to every operation that is given it.
-/

namespace Sequencer

def WorkflowError.issued? : WorkflowError → Option InstructionId
  | .duplicateInstruction id _ | .instructionReference id _ => some id
  | _ => none

namespace Workflow

variable {σ : Type}

def Answer.issued? : Answer σ → Option InstructionId
  | .created id | .registered (.ok id) => some id
  | .registered (.error fault) | .cycled (.error fault) _ => fault.issued?
  | .nothing | .removed _ | .cycled (.ok ()) _ => none

section Keeps

structure KeepsNodes (w w' : Workflow σ) : Prop where
  id : w'.graph.id = w.graph.id
  contains : ∀ id, w.graph.contains id = true → w'.graph.contains id = true

theorem KeepsNodes.trans {u v w : Workflow σ} (huv : KeepsNodes u v) (hvw : KeepsNodes v w) :
    KeepsNodes u w where
  id := hvw.id.trans huv.id
  contains := fun id hid => hvw.contains id (huv.contains id hid)

theorem Restructures.keepsNodes {w w' : Workflow σ} (h : Restructures w w') : KeepsNodes w w' := by
  cases h with
  | keep hgraph hregistered =>
    refine ⟨congrArg (fun g => g.id) hgraph, ?_⟩
    intro id hid
    rwa [Graph.contains_congr hgraph]
  | create instruction =>
    rw [Workflow.create, Graph.insert_eq_layout]
    exact ⟨rfl, fun _ => Graph.contains_extend⟩
  | register | drop => exact ⟨rfl, fun _ hid => hid⟩

theorem Reachable.keepsNodes_after {w : Workflow σ} (h : w.Reachable) (op : Operation σ) :
    KeepsNodes w (w.after op) := by
  have hsteps := h.coherent.restructured_after op
  generalize w.after op = w' at hsteps
  induction hsteps with
  | refl => exact ⟨rfl, fun _ hid => hid⟩
  | tail _ hstep ih => exact ih.trans hstep.keepsNodes

end Keeps

section Issued

theorem mem_of_findLabelClash? {g : Graph σ} {taken : List String} {ids : List InstructionId}
    {id : InstructionId} {name : String} (h : findLabelClash? g taken ids = some (id, name)) :
    id ∈ ids := by
  induction ids generalizing taken with
  | nil => simp [findLabelClash?] at h
  | cons first rest ih =>
    rw [findLabelClash?] at h
    split at h
    . exact List.mem_cons_of_mem _ (ih h)
    . split at h
      . cases h
        exact List.mem_cons_self
      . exact List.mem_cons_of_mem _ (ih h)

theorem Sound.contains_of_labelClash? {w : Workflow σ} (h : w.Sound) {id node : InstructionId}
    (hid : w.graph.contains id = true) {fault : WorkflowError}
    (hfault : w.labelClash? id = some fault) (hnode : fault.issued? = some node) :
    w.graph.contains node = true := by
  obtain ⟨⟨clash, name⟩, hclash, rfl⟩ := Option.map_eq_some_iff.mp hfault
  cases hnode
  exact h.graph.contains_of_mem_subtree hid (mem_of_findLabelClash? hclash)

theorem contains_of_handleFault? {w : Workflow σ} {id node : InstructionId} {fault : WorkflowError}
    (hfault : w.handleFault? id = some fault) (hnode : fault.issued? = some node) :
    w.graph.contains node = true := by
  unfold handleFault? at hfault
  split at hfault
  . cases hfault
    simp [WorkflowError.issued?] at hnode
  . next hcontains =>
    split at hfault
    . cases hfault
      cases hnode
      simpa using hcontains
    . simp at hfault

theorem contains_of_candidate {w w' : Workflow σ} {source : InstructionSource σ}
    {fault : WorkflowError} (h : w.candidate source = (.error fault, w')) {node : InstructionId}
    (hnode : fault.issued? = some node) : w'.graph.contains node = true := by
  cases source with
  | new instruction => simp [Workflow.candidate] at h
  | existing id =>
    simp only [Workflow.candidate] at h
    split at h
    . next hfault =>
      cases h
      exact contains_of_handleFault? hfault hnode
    . simp at h

theorem Sound.contains_of_add {w : Workflow σ} (h : w.Sound) (source : InstructionSource σ)
    (number : Option Int64) (name : Option String) {id : InstructionId}
    (hid : (Answer.registered (σ := σ) (w.add source number name).value.1).issued? = some id) :
    (w.add source number name).value.2.graph.contains id = true := by
  rw [value_add] at hid ⊢
  rcases hcandidate : w.candidate source with ⟨fault | candidate, w'⟩
  . rw [hcandidate] at hid
    exact contains_of_candidate hcandidate hid
  . obtain ⟨hsound, hcontains⟩ := h.candidate hcandidate
    rw [hcandidate] at hid
    dsimp only at hid ⊢
    cases hclash : w'.labelClash? candidate with
    | some fault =>
      rw [hclash] at hid
      exact hsound.contains_of_labelClash? hcontains hclash hid
    | none =>
      rw [hclash] at hid
      cases hid
      exact hcontains

theorem Sound.contains_of_append {w : Workflow σ} (h : w.Sound) (source : InstructionSource σ)
    (number : Option Int64) (name : Option String) {id : InstructionId}
    (hid : (Answer.registered (σ := σ) (w.append source number name).value.1).issued? = some id) :
    (w.append source number name).value.2.graph.contains id = true := by
  have hadd := @Sound.contains_of_add σ w h source number name id
  rw [value_append] at hid ⊢
  generalize (w.add source number name).value = added at hadd hid ⊢
  rcases added with ⟨_ | _, added⟩
  . exact hadd hid
  . cases hprevious : w.registered.getLast? with
    | none =>
      rw [hprevious] at hid
      exact hadd hid
    | some previous =>
      rw [hprevious] at hid
      rw [Graph.contains_congr (Graph.shape_setNext _ _ _)]
      exact hadd hid

theorem Reachable.contains_of_issued {w : Workflow σ} (h : w.Reachable) (op : Operation σ)
    {id : InstructionId} (hid : (w.perform op).value.1.issued? = some id) :
    (w.after op).graph.contains id = true := by
  cases op with
  | create instruction =>
    cases hid
    exact Graph.contains_insert _ _ _
  | add source number name => exact h.sound.contains_of_add source number name hid
  | append source number name => exact h.sound.contains_of_append source number name hid
  | process clock env =>
    simp only [perform, Traced.value_bind, Traced.value_pure] at hid
    rw [Workflow.after]
    rcases h.process_cases clock env with ⟨hok, _⟩ | ⟨jump, label, _, hfirst, hprocess⟩
    . rw [hok] at hid
      simp [Answer.issued?] at hid
    . obtain ⟨before, later, hnodes, _⟩ := hfirst
      rw [hprocess] at hid ⊢
      cases hid
      apply h.sound.contains_of_mem_liveNodes
      simp [hnodes]
  | remove | removeAll | enable | disable | releaseFailure => simp [perform, Answer.issued?] at hid

end Issued

/-- A handle that names no node of the graph is refused or ignored, and nothing else happens. -/
structure Inert (w : Workflow σ) (id : InstructionId) : Prop where
  add : ∀ number name, w.add (.existing id) number name = pure (.error (.unknownInstruction id), w)
  append : ∀ number name,
    w.append (.existing id) number name = pure (.error (.unknownInstruction id), w)
  remove : w.remove (.id id) = pure (false, w)
  releaseFailure : w.releaseFailure (some id) = pure w

theorem Sound.inert_of_not_contains {w : Workflow σ} (h : w.Sound) {id : InstructionId}
    (hid : w.graph.contains id = false) : w.Inert id := by
  have hadd (number : Option Int64) (name : Option String) :
      w.add (.existing id) number name = pure (.error (.unknownInstruction id), w) := by
    simp [Workflow.add, handleFault?, hid]
  constructor
  . exact hadd
  . intro number name
    rw [Workflow.append, hadd]
    rfl
  . have hfind : w.registered.find? (fun entry => entry.id = id) = none := by
      rw [List.find?_eq_none]
      intro entry hentry heq
      have hcontains := h.registered entry hentry
      rw [decide_eq_true_eq.mp heq, hid] at hcontains
      contradiction
    simp [Workflow.remove, select?, hfind]
  . have hfailed : some id ≠ w.failed := by
      intro heq
      have hcontains := h.failed id heq.symm
      rw [hid] at hcontains
      contradiction
    simp [Workflow.releaseFailure, hfailed]

end Workflow

structure Fleet (σ : Type) where
  ids : GraphIds
  workflows : List (Workflow σ)

namespace Fleet

variable {σ : Type}

def empty : Fleet σ := ⟨.initial, []⟩

inductive Operation (σ : Type) where
  | make (config : EngineConfig)
  | perform (place : Nat) (op : Workflow.Operation σ)

def after (fleet : Fleet σ) : Operation σ → Fleet σ
  | .make config =>
    let (w, ids) := fleet.ids.newWorkflow config
    ⟨ids, fleet.workflows ++ [w]⟩
  | .perform place op => { fleet with workflows := fleet.workflows.modify place (·.after op) }

inductive Reachable : Fleet σ → Prop where
  | empty : Reachable empty
  | after {fleet : Fleet σ} (h : Reachable fleet) (op : Operation σ) : Reachable (fleet.after op)

/-- At some point on the way to this fleet a workflow of it had the handle, or answered it. -/
inductive Issued (place : Nat) (id : InstructionId) : Fleet σ → Prop where
  | node {fleet : Fleet σ} {w : Workflow σ} (h : fleet.Reachable)
      (hw : fleet.workflows[place]? = some w) (hid : w.graph.contains id = true) :
      Issued place id fleet
  | held {fleet : Fleet σ} {w : Workflow σ} (h : fleet.Reachable)
      (hw : fleet.workflows[place]? = some w) (hid : id ∈ w.handles) : Issued place id fleet
  | answered {fleet : Fleet σ} {w : Workflow σ} (h : fleet.Reachable)
      (hw : fleet.workflows[place]? = some w) {op : Workflow.Operation σ}
      (hid : (w.perform op).value.1.issued? = some id) :
      Issued place id (fleet.after (.perform place op))
  | later {fleet : Fleet σ} (h : Issued place id fleet) (op : Operation σ) :
      Issued place id (fleet.after op)

structure Numbered (fleet : Fleet σ) : Prop where
  next : fleet.ids.next.toNat = (fleet.workflows.length + 1) % UInt64.size
  workflow : ∀ place w, fleet.workflows[place]? = some w →
    w.Reachable ∧ w.graph.id = (place + 1) % UInt64.size

theorem getElem?_after_perform (fleet : Fleet σ) (place other : Nat) (op : Workflow.Operation σ) :
    (fleet.after (.perform place op)).workflows[other]? =
      (fleet.workflows[other]?).map fun w => if place = other then w.after op else w := by
  rw [after, List.getElem?_modify]
  rfl

theorem Numbered.after {fleet : Fleet σ} (h : fleet.Numbered) (op : Operation σ) :
    (fleet.after op).Numbered := by
  cases op with
  | make config =>
    constructor
    . simp only [Fleet.after, GraphIds.newWorkflow, UInt64.toNat_add, h.next, List.length_append]
      simp
    . intro place w hw
      simp only [Fleet.after, GraphIds.newWorkflow, List.getElem?_append] at hw
      split at hw
      . exact h.workflow place w hw
      . next hplace =>
        rw [List.getElem?_singleton, Option.ite_none_right_eq_some, Option.some.injEq] at hw
        obtain ⟨hlast, rfl⟩ := hw
        have hlength : place = fleet.workflows.length := by omega
        exact ⟨.empty _ _, by rw [hlength, ← h.next]; rfl⟩
  | perform place op =>
    constructor
    . simp only [Fleet.after, List.length_modify]
      exact h.next
    . intro other w hw
      rw [getElem?_after_perform, Option.map_eq_some_iff] at hw
      obtain ⟨found, hfound, rfl⟩ := hw
      obtain ⟨hreachable, hid⟩ := h.workflow other found hfound
      split
      . exact ⟨hreachable.after op, (hreachable.keepsNodes_after op).id.trans hid⟩
      . exact ⟨hreachable, hid⟩

theorem Numbered.graph_id_ne {fleet : Fleet σ} (h : fleet.Numbered)
    (hcount : fleet.workflows.length < UInt64.size) {place other : Nat} (hne : other ≠ place)
    {v w : Workflow σ} (hv : fleet.workflows[place]? = some v)
    (hw : fleet.workflows[other]? = some w) : w.graph.id ≠ v.graph.id := by
  have hplace := (List.getElem?_eq_some_iff.mp hv).1
  have hother := (List.getElem?_eq_some_iff.mp hw).1
  rw [(h.workflow place v hv).2, (h.workflow other w hw).2]
  unfold UInt64.size at hcount ⊢
  omega

theorem Reachable.numbered {fleet : Fleet σ} (h : fleet.Reachable) : fleet.Numbered := by
  induction h with
  | empty => exact ⟨rfl, by simp [Fleet.empty]⟩
  | after _ op ih => exact ih.after op

theorem contains_after {fleet : Fleet σ} (h : fleet.Reachable) {place : Nat} {w : Workflow σ}
    (hw : fleet.workflows[place]? = some w) {id : InstructionId}
    (hid : w.graph.contains id = true) (op : Operation σ) :
    ∃ w', (fleet.after op).workflows[place]? = some w' ∧ w'.graph.contains id = true := by
  cases op with
  | make config =>
    refine ⟨w, ?_, hid⟩
    rw [after, List.getElem?_append_left (List.getElem?_eq_some_iff.mp hw).1, hw]
  | perform other op =>
    rw [getElem?_after_perform, hw, Option.map_some]
    refine ⟨_, rfl, ?_⟩
    split
    . exact ((h.numbered.workflow place w hw).1.keepsNodes_after op).contains id hid
    . exact hid

theorem Issued.contains {fleet : Fleet σ} {place : Nat} {id : InstructionId}
    (h : fleet.Issued place id) :
    fleet.Reachable ∧
      ∃ w, fleet.workflows[place]? = some w ∧ w.graph.contains id = true := by
  induction h with
  | node hfleet hw hid => exact ⟨hfleet, _, hw, hid⟩
  | held hfleet hw hid =>
    have hsound := (hfleet.numbered.workflow _ _ hw).1.sound
    exact ⟨hfleet, _, hw, hsound.contains_of_mem_handles hid⟩
  | @answered fleet w hfleet hw op hid =>
    refine ⟨hfleet.after _, w.after op, ?_, ?_⟩
    . rw [getElem?_after_perform, hw, Option.map_some, if_pos rfl]
    . exact (hfleet.numbered.workflow _ _ hw).1.contains_of_issued op hid
  | later _ op ih =>
    obtain ⟨hfleet, w, hw, hid⟩ := ih
    exact ⟨hfleet.after op, contains_after hfleet hw hid op⟩

/--
A handle that a workflow has issued names a node of it, and is foreign to every other workflow: it
names no node there, and no operation that is given it does anything but say so.
-/
theorem Issued.inert {fleet : Fleet σ} {place other : Nat} {id : InstructionId}
    (h : fleet.Issued place id) (hcount : fleet.workflows.length < UInt64.size) (hne : other ≠ place)
    {w : Workflow σ} (hw : fleet.workflows[other]? = some w) :
    (∃ owner, fleet.workflows[place]? = some owner ∧ owner.graph.contains id = true) ∧
      w.graph.contains id = false ∧ w.Inert id := by
  obtain ⟨hfleet, owner, howner, hid⟩ := h.contains
  have hgraph := hfleet.numbered.graph_id_ne hcount hne howner hw
  have hforeign : w.graph.contains id = false := by
    have hown := (Graph.contains_iff _ _).mp hid
    rw [← Bool.not_eq_true, Graph.contains_iff]
    exact fun hcontains => hgraph (hcontains.1.symm.trans hown.1)
  refine ⟨⟨owner, howner, hid⟩, hforeign, ?_⟩
  exact (hfleet.numbered.workflow other w hw).1.sound.inert_of_not_contains hforeign

def twins : Fleet Unit :=
  empty
    |>.after (.make .default)
    |>.after (.make .default)
    |>.after (.perform 1 (.append (.new (.block [.label "b", .label "a", .label "c"])) none none))
    |>.after (.perform 0 (.append (.new (.label "a")) none none))

def rejected : Workflow.Operation Unit :=
  .append (.new (.block [.label "b", .label "a"])) none none

theorem Issued.inert_rejected :
    let fleet := twins.after (.perform 0 rejected)
    fleet.Issued 0 ⟨1, 3⟩ ∧ fleet.workflows.length < UInt64.size ∧ (1 : Nat) ≠ 0 ∧
    ∃ w, fleet.workflows[1]? = some w ∧ w.graph.contains ⟨2, 3⟩ = true ∧
      w.graph.contains ⟨1, 3⟩ = false ∧ w.Inert ⟨1, 3⟩ := by
  intro fleet
  have hreachable : twins.Reachable := (((Reachable.empty.after _).after _).after _).after _
  have hissued : fleet.Issued 0 ⟨1, 3⟩ :=
    Issued.answered (w := twins.workflows[0]) hreachable rfl (by decide +kernel)
  have hcount : fleet.workflows.length < UInt64.size := by decide +kernel
  refine ⟨hissued, hcount, by decide, fleet.workflows[1], rfl, by decide +kernel, ?_⟩
  exact (Issued.inert hissued hcount Nat.one_ne_zero rfl).2

end Fleet

end Sequencer
