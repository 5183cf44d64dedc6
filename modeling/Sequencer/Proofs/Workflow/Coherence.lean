import Mathlib.Data.List.Find
import Mathlib.Data.List.Flatten
import Sequencer.Proofs.Workflow.Link

/-!
What holds of every workflow that operations lead to: `Coherent`. No two live labels have the same
name, and unless the links are stale every live jump is bound to the live label of its name.
-/

namespace Sequencer

namespace Workflow

variable {σ : Type}

def candidate (w : Workflow σ) :
    InstructionSource σ → Except WorkflowError InstructionId × Workflow σ
  | .new instruction => (.ok (w.create instruction).1, (w.create instruction).2)
  | .existing id =>
    match w.handleFault? id with
    | some fault => (.error fault, w)
    | none => (.ok id, w)

def register (w : Workflow σ) (id : InstructionId) (number : Option Int64)
    (name : Option String) : Workflow σ :=
  { w with
    registered := w.registered ++
      [{ id, number := number.getD (Int64.ofNat w.registered.length), name }]
    linksStale := true }

theorem value_add (w : Workflow σ) (source : InstructionSource σ) (number : Option Int64)
    (name : Option String) :
    (w.add source number name).value =
      match w.candidate source with
      | (.error fault, w) => (.error fault, w)
      | (.ok id, w) =>
        match w.labelClash? id with
        | some fault => (.error fault, w)
        | none => (.ok id, w.register id number name) := by
  cases source with
  | new instruction =>
    simp only [add, candidate]
    cases (w.create instruction).2.labelClash? (w.create instruction).1 <;> rfl
  | existing id =>
    simp only [add, candidate]
    cases w.handleFault? id with
    | some fault => rfl
    | none =>
      dsimp only
      cases w.labelClash? id <;> rfl

theorem value_append (w : Workflow σ) (source : InstructionSource σ) (number : Option Int64)
    (name : Option String) :
    (w.append source number name).value =
      match (w.add source number name).value, w.registered.getLast? with
      | (.ok id, w), some previous =>
        (.ok id, { w with graph := w.graph.setNext previous.id (some id) })
      | result, _ => result := by
  simp only [append, Traced.value_bind]
  rcases (w.add source number name).value with ⟨_ | id, w'⟩
  . rfl
  . cases w.registered.getLast? <;> rfl

theorem append_eq_add (w : Workflow σ) (source : InstructionSource σ) (number : Option Int64)
    (name : Option String) :
    (w.append source number name).value.1 = (w.add source number name).value.1 ∧
      (w.append source number name).value.2.registered =
        (w.add source number name).value.2.registered := by
  rw [value_append]
  rcases (w.add source number name).value with ⟨_ | id, w'⟩
  . exact ⟨rfl, rfl⟩
  . cases w.registered.getLast? <;> exact ⟨rfl, rfl⟩

theorem add_cases (w : Workflow σ) (source : InstructionSource σ) (number : Option Int64)
    (name : Option String) :
    ∃ w', (w' = w ∨ ∃ instruction, w' = (w.create instruction).2) ∧
      ((∃ fault, (w.add source number name).value = (.error fault, w')) ∨
        ∃ id, w'.graph.contains id = true ∧ w'.labelClash? id = none ∧
          (w.add source number name).value = (.ok id, w'.register id number name)) := by
  rw [value_add]
  cases source with
  | new instruction =>
    refine ⟨(w.create instruction).2, Or.inr ⟨instruction, rfl⟩, ?_⟩
    simp only [candidate]
    split
    . next fault _ => exact Or.inl ⟨fault, rfl⟩
    . next hclash =>
      exact Or.inr ⟨(w.create instruction).1, Graph.contains_insert _ _ _, hclash, rfl⟩
  | existing id =>
    refine ⟨w, Or.inl rfl, ?_⟩
    simp only [candidate]
    cases hfault : w.handleFault? id with
    | some fault => exact Or.inl ⟨fault, rfl⟩
    | none =>
      dsimp only
      split
      . next fault _ => exact Or.inl ⟨fault, rfl⟩
      . next hclash =>
        refine Or.inr ⟨id, ?_, hclash, rfl⟩
        unfold handleFault? at hfault
        split at hfault
        . simp at hfault
        . next hcontains => simpa using hcontains

theorem findLabelClash?_eq_none_iff {g : Graph σ} {taken : List String}
    {ids : List InstructionId} :
    findLabelClash? g taken ids = none ↔
      (ids.filterMap g.labelName?).Nodup ∧ ∀ name ∈ ids.filterMap g.labelName?, name ∉ taken := by
  induction ids generalizing taken with
  | nil => simp [findLabelClash?]
  | cons id rest ih =>
    rw [findLabelClash?]
    cases hname : g.labelName? id with
    | none =>
      rw [List.filterMap_cons_none hname]
      exact ih
    | some name =>
      rw [List.filterMap_cons_some hname, List.nodup_cons, List.forall_mem_cons]
      dsimp only
      split
      . next htaken => simp [htaken]
      . next hfree =>
        simp only [ih, List.mem_cons, not_or]
        constructor
        . rintro ⟨hnodup, hrest⟩
          exact ⟨⟨fun hmem => (hrest name hmem).1 rfl, hnodup⟩, hfree,
            fun other hother => (hrest other hother).2⟩
        . rintro ⟨⟨hmem, hnodup⟩, _, hrest⟩
          refine ⟨hnodup, fun other hother => ⟨?_, hrest other hother⟩⟩
          rintro rfl
          exact hmem hother

structure Coherent (w : Workflow σ) : Prop where
  closed : w.graph.Closed
  contained : ∀ entry ∈ w.registered, w.graph.contains entry.id = true
  labels : (w.liveNodes.filterMap w.graph.labelName?).Nodup
  bound : w.linksStale = false → Bound w.graph w.liveNodes

theorem liveNodes_congr {w w' : Workflow σ} (hregistered : w'.registered = w.registered)
    (hshape : w'.graph.shape = w.graph.shape) : w'.liveNodes = w.liveNodes := by
  rw [liveNodes, liveNodes, hregistered]
  apply List.flatMap_congr
  intro entry _
  exact Graph.subtree_congr hshape entry.id

theorem liveNodes_resolve (w : Workflow σ) (bindings : List (InstructionId × InstructionId)) :
    liveNodes { w with graph := resolve w.graph bindings, linksStale := false } = w.liveNodes := by
  apply liveNodes_congr
  . rfl
  . apply shape_resolve

theorem liveNodes_create {w : Workflow σ} (h : w.Coherent) (instruction : Instruction σ) :
    (w.create instruction).2.liveNodes = w.liveNodes := by
  simp only [liveNodes, create, Graph.insert_eq_layout]
  apply List.flatMap_congr
  intro entry hentry
  apply Graph.subtree_extend h.closed
  exact Graph.lt_of_contains (h.contained entry hentry)

namespace Coherent

variable {w w' : Workflow σ}

theorem lt_of_mem_liveNodes (h : w.Coherent) {id : InstructionId} (hid : id ∈ w.liveNodes) :
    id.index < w.graph.size := by
  rw [liveNodes, List.mem_flatMap] at hid
  obtain ⟨entry, hentry, hid⟩ := hid
  exact Graph.mem_subtree_lt (Graph.lt_of_contains (h.contained entry hentry)) hid

theorem empty (id : Nat) (config : EngineConfig) : Coherent (.empty id config : Workflow σ) where
  closed := by
    intro node child hchild
    rw [Graph.children_eq] at hchild
    simp [Workflow.empty, Graph.empty, Graph.kind?, Graph.node?] at hchild
  contained := by simp [Workflow.empty]
  labels := by simp [Workflow.empty, liveNodes]
  bound := by simp [Workflow.empty]

theorem of_shape (h : w.Coherent) (hregistered : w'.registered = w.registered)
    (hshape : w'.graph.shape = w.graph.shape)
    (hbound : w'.linksStale = false → Bound w'.graph w'.liveNodes) : w'.Coherent where
  closed := Graph.closed_congr hshape.symm h.closed
  contained := by
    intro entry hentry
    rw [hregistered] at hentry
    rw [Graph.contains_congr hshape]
    exact h.contained entry hentry
  labels := by
    rw [liveNodes_congr hregistered hshape, Graph.labelName?_congr hshape]
    exact h.labels
  bound := hbound

theorem of_sameProgram (h : w.Coherent) (hsame : SameProgram w w') : w'.Coherent := by
  apply h.of_shape hsame.registered hsame.shape
  intro hstale
  rw [liveNodes_congr hsame.registered hsame.shape]
  rw [hsame.linksStale] at hstale
  exact bound_congr hsame.unvisited.symm (h.bound hstale)

theorem create (h : w.Coherent) (instruction : Instruction σ) :
    (w.create instruction).2.Coherent where
  closed := Graph.closed_insert h.closed none instruction
  contained := by
    intro entry hentry
    simp only [Workflow.create, Graph.insert_eq_layout]
    exact Graph.contains_extend (h.contained entry hentry)
  labels := by
    rw [liveNodes_create h]
    simp only [Workflow.create, Graph.insert_eq_layout]
    rw [List.filterMap_congr fun id hid => Graph.labelName?_extend (h.lt_of_mem_liveNodes hid)]
    exact h.labels
  bound := by
    intro hstale
    rw [liveNodes_create h]
    simp only [Workflow.create, Graph.insert_eq_layout]
    exact bound_extend (fun id hid => h.lt_of_mem_liveNodes hid) (h.bound hstale)

theorem register (h : w.Coherent) {id : InstructionId} (hcontains : w.graph.contains id = true)
    (hclash : w.labelClash? id = none) (number : Option Int64) (name : Option String) :
    (w.register id number name).Coherent where
  closed := h.closed
  contained := by
    intro entry hentry
    simp only [Workflow.register, List.mem_append, List.mem_singleton] at hentry
    rcases hentry with hentry | rfl
    . exact h.contained entry hentry
    . exact hcontains
  labels := by
    have hlive : (w.register id number name).liveNodes = w.liveNodes ++ w.graph.subtree id := by
      simp [liveNodes, Workflow.register]
    rw [labelClash?, Option.map_eq_none_iff] at hclash
    obtain ⟨hnodup, hfree⟩ := findLabelClash?_eq_none_iff.mp hclash
    rw [hlive, List.filterMap_append, List.nodup_append]
    refine ⟨h.labels, hnodup, ?_⟩
    rintro a ha _ hb rfl
    exact hfree a hb ha
  bound := by simp [Workflow.register]

theorem of_sublist (h : w.Coherent) {registered : List Registration}
    (hsub : registered.Sublist w.registered) :
    Coherent { w with registered, linksStale := true } where
  closed := h.closed
  contained := fun entry hentry => h.contained entry (hsub.subset hentry)
  labels := ((hsub.flatMap _).filterMap _).nodup h.labels
  bound := by simp

theorem add (h : w.Coherent) (source : InstructionSource σ) (number : Option Int64)
    (name : Option String) : (w.add source number name).value.2.Coherent := by
  obtain ⟨w', hw', hcases⟩ := add_cases w source number name
  have hcoherent : w'.Coherent := by
    rcases hw' with rfl | ⟨instruction, rfl⟩
    . exact h
    . exact h.create instruction
  rcases hcases with ⟨fault, hvalue⟩ | ⟨id, hcontains, hclash, hvalue⟩
  . rw [hvalue]
    exact hcoherent
  . rw [hvalue]
    exact hcoherent.register hcontains hclash number name

theorem setNext (h : w.Coherent) (hstale : w.linksStale = true) (id : InstructionId)
    (next : Option InstructionId) : Coherent { w with graph := w.graph.setNext id next } := by
  apply h.of_shape
  . rfl
  . apply Graph.shape_setNext
  . simp [hstale]

theorem append (h : w.Coherent) (source : InstructionSource σ) (number : Option Int64)
    (name : Option String) : (w.append source number name).value.2.Coherent := by
  have hadd := h.add source number name
  rw [value_append]
  obtain ⟨w', _, ⟨fault, hvalue⟩ | ⟨id, _, _, hvalue⟩⟩ := add_cases w source number name
  . rw [hvalue] at hadd ⊢
    exact hadd
  . rw [hvalue] at hadd ⊢
    cases w.registered.getLast? with
    | none => exact hadd
    | some previous => exact hadd.setNext rfl previous.id (some id)

theorem remove (h : w.Coherent) (selector : InstructionSelector) :
    (w.remove selector).value.2.Coherent := by
  unfold Workflow.remove
  split
  . exact h
  . next entry _ =>
    exact h.of_sublist List.eraseP_sublist

theorem link (h : w.Coherent) : w.link.value.2.Coherent := by
  rw [value_link]
  split
  . exact h
  . next bindings hbindings =>
    apply h.of_shape
    . rfl
    . apply shape_resolve
    . intro _
      rw [liveNodes_resolve]
      exact bound_resolve hbindings

theorem ensureLinked (h : w.Coherent) : w.ensureLinked.value.2.Coherent := by
  unfold Workflow.ensureLinked
  split
  . exact h.link
  . exact h

end Coherent

theorem value_process (w : Workflow σ) (clock : Clock) (env : Env σ) :
    (w.process clock env).value =
      if w.on then
        match w.ensureLinked.value with
        | (.error fault, w) => ⟨.error fault, w, env⟩
        | (.ok (), w) =>
          let limit := w.config.transitionBudget
          let (w, env) := (run limit clock 0 limit w env).value
          ⟨.ok (), w, env⟩
      else ⟨.ok (), w, env⟩ := by
  unfold process
  cases w.on with
  | false => rfl
  | true =>
    simp only [Bool.not_true, Bool.false_eq_true, ↓reduceIte, Traced.value_bind]
    rcases w.ensureLinked.value with ⟨_ | _, w'⟩ <;> rfl

theorem Coherent.process {w : Workflow σ} (h : w.Coherent) (clock : Clock) (env : Env σ) :
    (w.process clock env).value.workflow.Coherent := by
  rw [value_process]
  split
  . have hlinked := h.ensureLinked
    split
    . next heq => simpa [heq] using hlinked
    . next w' heq =>
      rw [heq] at hlinked
      exact hlinked.of_sameProgram (sameProgram_run _ _ _ _ _ _)
  . exact h

theorem Reachable.coherent {w : Workflow σ} (h : w.Reachable) : w.Coherent := by
  induction h with
  | empty id config => exact Coherent.empty id config
  | after _ op ih =>
    cases op with
    | create instruction => exact ih.create instruction
    | add source number name => exact ih.add source number name
    | append source number name => exact ih.append source number name
    | remove selector => exact ih.remove selector
    | removeAll => exact ih.of_sublist (List.nil_sublist _)
    | enable now => exact ih.of_sameProgram (sameProgram_enable _ now)
    | disable => exact ih.of_sameProgram (sameProgram_disable _)
    | process clock env => exact ih.process clock env
    | releaseFailure instruction => exact ih.of_sameProgram (sameProgram_releaseFailure _ instruction)

end Workflow

end Sequencer
