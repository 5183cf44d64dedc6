import Sequencer.Proofs.Workflow.Observation
import Sequencer.Proofs.Workflow.Structure

/-!
Registrations that fail. `Unfit` has the reasons for which an instruction cannot be registered, in
terms of what is nested where and of the names of labels. A new instruction is lowered before its
labels are looked at, so a failed call may leave nodes behind; nothing leads to them.
-/

namespace Sequencer

open Instruction

theorem nodup_filterMap_iff {α β : Type} {f : α → Option β} {xs : List α} (hxs : xs.Nodup) :
    (xs.filterMap f).Nodup ↔
      ∀ y, ∀ a ∈ xs, ∀ b ∈ xs, f a = some y → f b = some y → a = b := by
  rw [List.Nodup, List.pairwise_filterMap]
  constructor
  . intro h y a ha b hb hya hyb
    by_contra hne
    have : Std.Symm fun a b : α => ∀ x, f a = some x → ∀ y, f b = some y → x ≠ y :=
      ⟨fun _ _ h x hx y hy => (h y hy x hx).symm⟩
    exact h.forall ha hb hne y hya y hyb rfl
  . intro h
    apply hxs.imp_of_mem
    intro a b ha hb hne y hya z hzb heq
    subst heq
    exact hne (h y a ha b hb hya hzb)

namespace Instruction

variable {σ : Type}

def labelName? : Instruction σ → Option String
  | .label name => some name
  | _ => none

def labels : List (Instruction σ) → List String
  | [] => []
  | i :: rest => i.labelName?.toList ++ labels i.nested ++ labels rest
termination_by is => sizeAll is
decreasing_by
  . rw [sizeAll_cons, size_eq]
    omega
  . have := size_pos i
    rw [sizeAll_cons]
    omega

end Instruction

namespace Graph

variable {σ : Type}

@[simp]
theorem id_extend (g : Graph σ) (nodes : List (Node σ)) : (g.extend nodes).id = g.id := rfl

theorem Lowered.labelName?_eq {g : Graph σ} {place : Nat} {i : Instruction σ}
    {next : Option InstructionId} (h : g.Lowered place i next) :
    g.labelName? ⟨g.id, place⟩ = i.labelName? := by
  apply Option.ext
  intro name
  rw [h.labelName?_iff]
  cases i <;> simp [Instruction.labelName?]

theorem labels_of_carries {g : Graph σ} {start : Nat} {owner exit : Option InstructionId}
    {is : List (Instruction σ)} (h : g.Carries start (layout g.id start owner exit is)) :
    (List.range' start (sizeAll is)).filterMap (fun place => g.labelName? ⟨g.id, place⟩) =
      labels is := by
  induction is using forest_induction generalizing start owner exit with
  | nil => simp [labels]
  | cons i rest ihNested ihRest =>
    obtain ⟨hnode, hnested, hrest⟩ := carries_layout_cons h
    have hfirst : (List.range' start i.size).filterMap (fun place => g.labelName? ⟨g.id, place⟩) =
        i.labelName?.toList ++ labels i.nested := by
      rw [size_eq, List.range'_succ, List.filterMap_cons, ihNested hnested, hnode.labelName?_eq]
      cases i.labelName? <;> rfl
    rw [sizeAll_cons, ← List.range'_append_1, List.filterMap_append, hfirst, ihRest hrest, labels]

theorem labels_insert (g : Graph σ) (i : Instruction σ) :
    ((g.insert none i).2.subtree (g.insert none i).1).filterMap (g.insert none i).2.labelName? =
      labels [i] := by
  have hcarries := carries_insert g i
  have hsubtree := flatMap_subtree_places hcarries (by simp)
  have hlabels := labels_of_carries hcarries
  simp only [id_extend, places, List.flatMap_singleton] at hsubtree hlabels
  simp only [insert_eq_layout, hsubtree, List.filterMap_map, ← hlabels]
  rfl

theorem Forest.nodup_labels_iff {g : Graph σ} (hg : g.Forest) (id : InstructionId) :
    ((g.subtree id).filterMap g.labelName?).Nodup ↔
      ∀ name a b, g.Encloses id a → g.Encloses id b → g.labelName? a = some name →
        g.labelName? b = some name → a = b := by
  rw [nodup_filterMap_iff (hg.nodup_subtree id)]
  simp only [hg.mem_subtree_iff]
  exact ⟨fun h name a b ha hb => h name a ha b hb, fun h name a ha b hb => h name a b ha hb⟩

end Graph

namespace Workflow

variable {σ : Type}

def Takes (w : Workflow σ) (name : String) : Prop :=
  ∃ live, w.IsLive live ∧ w.graph.labelName? live = some name

inductive Unfit (w : Workflow σ) : InstructionSource σ → Prop where
  | foreign {id : InstructionId} (hid : w.graph.contains id = false) : Unfit w (.existing id)
  | registered {entry : Registration} (hentry : entry ∈ w.registered) :
      Unfit w (.existing entry.id)
  | nested {id parent : InstructionId} (hne : parent ≠ id)
      (henclosed : w.graph.Encloses parent id) : Unfit w (.existing id)
  | taken {id node : InstructionId} {name : String} (hnode : w.graph.Encloses id node)
      (hname : w.graph.labelName? node = some name) (htaken : w.Takes name) :
      Unfit w (.existing id)
  | repeated {id a b : InstructionId} {name : String} (ha : w.graph.Encloses id a)
      (hb : w.graph.Encloses id b) (hne : a ≠ b) (hnameA : w.graph.labelName? a = some name)
      (hnameB : w.graph.labelName? b = some name) : Unfit w (.existing id)
  | newTaken {instruction : Instruction σ} {name : String} (hname : name ∈ labels [instruction])
      (htaken : w.Takes name) : Unfit w (.new instruction)
  | newRepeated {instruction : Instruction σ} (hrepeated : ¬(labels [instruction]).Nodup) :
      Unfit w (.new instruction)

theorem Rooted.mem_labels_iff {w : Workflow σ} (h : w.Rooted) (name : String) :
    name ∈ w.liveNodes.filterMap w.graph.labelName? ↔ w.Takes name := by
  simp only [List.mem_filterMap, h.mem_liveNodes_iff_isLive, Takes]

theorem Rooted.labelClash?_eq_none_iff {w : Workflow σ} (h : w.Rooted) (id : InstructionId) :
    w.labelClash? id = none ↔ ((w.graph.subtree id).filterMap w.graph.labelName?).Nodup ∧
      ∀ name ∈ (w.graph.subtree id).filterMap w.graph.labelName?, ¬w.Takes name := by
  simp only [labelClash?, Option.map_eq_none_iff, findLabelClash?_eq_none_iff, h.mem_labels_iff]

theorem Reachable.takes_create {w : Workflow σ} (h : w.Reachable) (instruction : Instruction σ)
    (name : String) : (w.create instruction).2.Takes name ↔ w.Takes name := by
  have hcreated : (w.create instruction).2.Reachable := h.after (.create instruction)
  rw [← hcreated.rooted.mem_labels_iff, ← h.rooted.mem_labels_iff, liveNodes_create h.coherent]
  simp only [create, Graph.insert_eq_layout]
  rw [List.filterMap_congr fun id hid =>
    Graph.labelName?_extend (h.coherent.lt_of_mem_liveNodes hid)]

theorem Reachable.labelClash?_create_eq_none_iff {w : Workflow σ} (h : w.Reachable)
    (instruction : Instruction σ) :
    (w.create instruction).2.labelClash? (w.create instruction).1 = none ↔
      ¬w.Unfit (.new instruction) := by
  have hcreated : (w.create instruction).2.Reachable := h.after (.create instruction)
  have hlabels : ((w.create instruction).2.graph.subtree (w.create instruction).1).filterMap
      (w.create instruction).2.graph.labelName? = labels [instruction] :=
    Graph.labels_insert w.graph instruction
  rw [hcreated.rooted.labelClash?_eq_none_iff, hlabels]
  simp only [h.takes_create]
  constructor
  . rintro ⟨hnodup, hfree⟩ hunfit
    cases hunfit with
    | newTaken hname htaken => exact hfree _ hname htaken
    | newRepeated hrepeated => exact hrepeated hnodup
  . intro hfit
    exact ⟨not_not.mp fun hrepeated => hfit (.newRepeated hrepeated),
      fun name hname htaken => hfit (.newTaken hname htaken)⟩

theorem Reachable.faultless_iff {w : Workflow σ} (h : w.Reachable) (id : InstructionId) :
    (w.handleFault? id = none ∧ w.labelClash? id = none) ↔ ¬w.Unfit (.existing id) := by
  have hforest := h.rooted.forest
  rw [handleFault?_eq_none_iff, h.rooted.labelClash?_eq_none_iff, hforest.nodup_labels_iff]
  constructor
  . rintro ⟨⟨hcontains, howner, hfree⟩, hdistinct, hlabels⟩ hunfit
    cases hunfit with
    | foreign hid => simp [hcontains] at hid
    | registered hentry =>
      rw [isRegistered, List.any_eq_false] at hfree
      exact hfree _ hentry (by simp)
    | nested hne henclosed =>
      have hnested := (hforest.isSome_owner?_iff h.listed hcontains).mpr ⟨_, hne, henclosed⟩
      simp [howner] at hnested
    | @taken _ node name hnode hname htaken =>
      refine hlabels name (List.mem_filterMap.mpr ⟨node, ?_, hname⟩) htaken
      rwa [hforest.mem_subtree_iff]
    | repeated ha hb hne hnameA hnameB => exact hne (hdistinct _ _ _ ha hb hnameA hnameB)
  . intro hfit
    have hcontains : w.graph.contains id = true := by
      by_contra hid
      exact hfit (.foreign (by simpa using hid))
    refine ⟨⟨hcontains, ?_, ?_⟩, ?_, ?_⟩
    . rw [← Option.not_isSome_iff_eq_none, hforest.isSome_owner?_iff h.listed hcontains]
      rintro ⟨parent, hne, henclosed⟩
      exact hfit (.nested hne henclosed)
    . rw [isRegistered, List.any_eq_false]
      intro entry hentry heq
      rw [decide_eq_true_eq] at heq
      subst heq
      exact hfit (.registered hentry)
    . intro name a b ha hb hnameA hnameB
      by_contra hne
      exact hfit (.repeated ha hb hne hnameA hnameB)
    . intro name hmem htaken
      obtain ⟨node, hnode, hname⟩ := List.mem_filterMap.mp hmem
      rw [hforest.mem_subtree_iff] at hnode
      exact hfit (.taken hnode hname htaken)

theorem Reachable.add_fails_iff {w : Workflow σ} (h : w.Reachable) (source : InstructionSource σ)
    (number : Option Int64) (name : Option String) :
    (∃ fault, (w.add source number name).value.1 = .error fault) ↔ w.Unfit source := by
  rw [value_add]
  cases source with
  | new instruction =>
    rw [← not_iff_not, ← h.labelClash?_create_eq_none_iff instruction]
    simp only [candidate]
    cases (w.create instruction).2.labelClash? (w.create instruction).1 <;> simp
  | existing id =>
    rw [← not_iff_not, ← h.faultless_iff id]
    simp only [candidate]
    cases w.handleFault? id with
    | some fault => simp
    | none =>
      dsimp only
      cases w.labelClash? id <;> simp

theorem exists_extend_candidate (w : Workflow σ) (source : InstructionSource σ) :
    ∃ nodes, (w.candidate source).2 = { w with graph := w.graph.extend nodes } := by
  cases source with
  | new instruction =>
    refine ⟨layout w.graph.id w.graph.size none none [instruction], ?_⟩
    rw [candidate, create, Graph.insert_eq_layout]
  | existing id =>
    refine ⟨[], ?_⟩
    rw [candidate]
    split <;> simp [Graph.extend]

theorem add_eq_of_error {w : Workflow σ} {source : InstructionSource σ} {number : Option Int64}
    {name : Option String} {fault : WorkflowError}
    (hfault : (w.add source number name).value.1 = .error fault) :
    ∃ nodes, w.add source number name =
      pure (.error fault, { w with graph := w.graph.extend nodes }) := by
  obtain ⟨nodes, hnodes⟩ := w.exists_extend_candidate source
  refine ⟨nodes, ?_⟩
  rw [add_eq] at hfault ⊢
  rw [← hnodes]
  generalize w.candidate source = candidate at hfault
  rcases candidate with ⟨_ | id, w'⟩
  . cases hfault
    rfl
  . dsimp only at hfault ⊢
    cases hclash : w'.labelClash? id with
    | none => simp [hclash] at hfault
    | some clash =>
      rw [hclash] at hfault
      cases hfault
      rfl

/--
Registering, with or without a link from the instruction before, fails exactly for what is unfit. It
then leaves the workflow as it was, apart from new nodes at the end of the graph, and nothing leads
to these: the handles that nodes and the workflow keep are all of nodes that were there before.
-/
theorem Reachable.rejected_iff {w : Workflow σ} (h : w.Reachable) (source : InstructionSource σ)
    (number : Option Int64) (name : Option String) :
    ∀ call ∈ [w.add source number name, w.append source number name],
      ((∃ fault, call.value.1 = .error fault) ↔ w.Unfit source) ∧
      ∀ fault, call.value.1 = .error fault →
        ∃ nodes, call = pure (.error fault, { w with graph := w.graph.extend nodes }) ∧
          ∀ id ∈ w.handles, w.graph.contains id = true := by
  have hold : ∀ id ∈ w.handles, w.graph.contains id = true :=
    fun id hid => h.sound.contains_of_mem_handles hid
  have hfails := h.add_fails_iff source number name
  simp only [List.forall_mem_cons, List.not_mem_nil, false_imp_iff, implies_true, and_true]
  refine ⟨⟨hfails, ?_⟩, ?_, ?_⟩
  . intro fault hfault
    obtain ⟨nodes, hadd⟩ := add_eq_of_error hfault
    exact ⟨nodes, hadd, hold⟩
  . rw [(w.append_eq_add source number name).1]
    exact hfails
  . intro fault hfault
    rw [(w.append_eq_add source number name).1] at hfault
    obtain ⟨nodes, hadd⟩ := add_eq_of_error hfault
    refine ⟨nodes, ?_, hold⟩
    rw [append, hadd]
    rfl

def labelled : Workflow Unit :=
  (Workflow.empty 0 .default)
    |>.after (.append (.new (.block [.label "a",
      .condition (.const false) (some (.block [.label "b"]))])) none none)
    |>.after (.create (.block [.label "c"]))

theorem Reachable.rejected_iff_labelled :
    let again : Instruction Unit := .block [.jump "a", .block [.label "b"]]
    labelled.Reachable ∧ labelled.Unfit (.new again) ∧
    (∃ fault nodes, labelled.append (.new again) none none =
      pure (.error fault, { labelled with graph := labelled.graph.extend nodes })) ∧
    labelled.Unfit (.existing ⟨0, 6⟩) ∧
    (∃ fault, (labelled.append (.existing ⟨0, 6⟩) none none).value.1 = .error fault) ∧
    ¬labelled.Unfit (.existing ⟨0, 5⟩) := by
  intro again
  have hreachable : labelled.Reachable := ((Reachable.empty _ _).after _).after _
  have htaken : labelled.Takes "b" := by
    rw [← hreachable.rooted.mem_labels_iff]
    decide +kernel
  have hunfit : labelled.Unfit (.new again) := .newTaken (by decide +kernel) htaken
  have henclosed : labelled.graph.Encloses ⟨0, 5⟩ ⟨0, 6⟩ :=
    Graph.Encloses.refl.nested (by decide +kernel)
  have hnested : labelled.Unfit (.existing ⟨0, 6⟩) := .nested (by decide) henclosed
  have hmem {source : InstructionSource Unit} : labelled.append source none none ∈
      [labelled.add source none none, labelled.append source none none] := by
    simp
  obtain ⟨hfails, hkept⟩ := Reachable.rejected_iff hreachable (.new again) none none _ hmem
  obtain ⟨fault, hfault⟩ := hfails.mpr hunfit
  obtain ⟨nodes, hcall, _⟩ := hkept fault hfault
  refine ⟨hreachable, hunfit, ⟨fault, nodes, hcall⟩, hnested, ?_, ?_⟩
  . exact (Reachable.rejected_iff hreachable (.existing ⟨0, 6⟩) none none _ hmem).1.mpr hnested
  . have hok : (labelled.append (.existing ⟨0, 5⟩) none none).value.1.isOk = true := by
      decide +kernel
    rw [← (Reachable.rejected_iff hreachable (.existing ⟨0, 5⟩) none none _ hmem).1]
    rintro ⟨fault, hfault⟩
    rw [hfault] at hok
    contradiction

end Workflow

end Sequencer
