import Mathlib.Data.List.Perm.Subperm
import Sequencer.Proofs.Workflow.Limit
import Sequencer.Proofs.Workflow.Straight
import Sequencer.Proofs.Workflow.Timing

/-!
What a straight workflow does from when it is switched on until it is off again. The instruction
that is pending leads to none of those that were pending before, so each becomes the pending one
once at most.
-/

namespace Sequencer

def Entry.limit? {σ : Type} : Entry σ → Option Nat
  | .event (.transitionLimitReached limit) => some limit
  | _ => none

namespace Workflow

variable {σ : Type}

/-- The pending instruction does not lead to any other one of those that were pending so far. -/
structure Onward (visited : List InstructionId) (w : Workflow σ) : Prop where
  distinct : visited.Nodup
  contained : ∀ id ∈ visited, w.graph.contains id = true
  pending : ∀ id, w.pending = some id →
    id ∈ visited ∧ ∀ other ∈ visited, w.graph.Leads id other → other = id

namespace Onward

variable {visited : List InstructionId} {w w' : Workflow σ}

theorem kept (h : Onward visited w) (hw : w.graph.Sound) (hgraph : w.Extends w'.graph)
    (hpending : ∀ id, w'.pending = some id → w.pending = some id) : Onward visited w' where
  distinct := h.distinct
  contained := fun id hid => hgraph.contains (h.contained id hid)
  pending := by
    intro id hid
    obtain ⟨hmem, hahead⟩ := h.pending id (hpending id hid)
    refine ⟨hmem, ?_⟩
    intro other hother hleads
    exact hahead other hother
      (hgraph.leads hw (h.contained id hmem) (h.contained other hother) hleads)

theorem moved (h : Onward visited w) (hw : w.graph.Ordered)
    (hgraph : w'.graph.unvisited = w.graph.unvisited) {id next : InstructionId}
    (hpending : w.pending = some id) (hflows : w.graph.Flows id next)
    (hnext : w'.pending = some next) : Onward (visited ++ [next]) w' := by
  obtain ⟨_, hahead⟩ := h.pending id hpending
  -- whatever the next one leads to, the one before it leads to as well
  have hfresh (other : InstructionId) (hother : other ∈ visited)
      (hleads : w.graph.Leads next other) : False := by
    have hcycle := Relation.TransGen.head' hflows hleads
    rw [hahead other hother hcycle.to_reflTransGen] at hcycle
    exact hw.acyclic id hcycle
  constructor
  . rw [← List.concat_eq_append, List.nodup_concat]
    exact ⟨fun hmem => hfresh next hmem .refl, h.distinct⟩
  . simp only [Graph.contains_congr (Graph.shape_eq_of_unvisited hgraph),
      List.forall_mem_append, List.forall_mem_singleton]
    exact ⟨h.contained, hw.sound.contains_of_flows hflows⟩
  . intro id' hid'
    rw [hnext] at hid'
    cases hid'
    refine ⟨by simp, ?_⟩
    intro other hother hleads
    rw [Graph.Leads, Graph.flows_congr hgraph] at hleads
    rcases List.mem_append.mp hother with hbefore | hlast
    . exact absurd hleads (hfresh other hbefore)
    . simpa using hlast

theorem turn (h : Onward visited w) (hw : w.graph.Ordered) (reading : Reading)
    {id : InstructionId} (hpending : w.pending = some id) (env : Env σ) :
    Onward (visited ++ (Visit.moments ⟨w, reading, id, env⟩).filterMap Moment.armed?)
      (w.turn reading id env).value.workflow := by
  have hsame := (sameProgram_turn w reading id env).unvisited
  have hturn := pending_turn w reading id env
  rw [Visit.moments_eq, List.filterMap_cons_none rfl, Visit.progress, Visit.performed]
  dsimp only
  split
  . next hmoves =>
    rw [if_pos hmoves] at hturn
    cases hnext : (w.graph.perform reading.invoked id env).2.1.successor? id with
    | none =>
      rw [hnext] at hturn
      rw [Option.map_none, Option.toList_none, List.filterMap_nil, List.append_nil]
      exact h.kept hw.sound (.keep hsame) (by simp [hturn])
    | some next =>
      have hperform := Graph.unvisited_perform w.graph reading.invoked id env
      have hflows : w.graph.Flows id next := by
        rw [← Graph.flows_congr hperform]
        apply Graph.flows_of_successor? _ hnext
        rw [Graph.contains_congr (Graph.shape_eq_of_unvisited hperform)]
        exact h.contained id (h.pending id hpending).1
      exact h.moved hw hsame hpending hflows (hturn.trans hnext)
  . next hstays =>
    rw [if_neg hstays] at hturn
    rw [List.filterMap_nil, List.append_nil]
    exact h.kept hw.sound (.keep hsame) (by simp [hturn])

theorem run (h : Onward visited w) (hw : w.graph.Ordered) (limit : Nat) (clock : Clock)
    (made left : Nat) (env : Env σ) :
    Onward (visited ++ ((runVisits clock made left w env).flatMap Visit.moments).filterMap
      Moment.armed?) (Workflow.run limit clock made left w env).value.1 := by
  induction left generalizing made visited w env with
  | zero => simpa [runVisits, Workflow.run] using h
  | succ left ih =>
    rw [Workflow.run, runVisits]
    cases hpending : w.pending with
    | none => simpa using h
    | some id =>
      have hturn := h.turn hw (clock made) hpending env
      have hordered := hw.congr (sameProgram_turn w (clock made) id env).unvisited.symm
      simp only [Traced.value_bind, List.flatMap_cons, List.filterMap_append]
      rw [← List.append_assoc]
      split
      . exact ih hturn hordered _ _
      . simpa using hturn

theorem process (h : Onward visited w) (hw : w.graph.Ordered) (clock : Clock) (env : Env σ) :
    Onward (visited ++ (w.moments (.process clock env)).filterMap Moment.armed?)
      (w.after (.process clock env)) := by
  rw [moments, visits, after, value_process, value_ensureLinked_of_jumpless hw.jumpless]
  split
  . have hlinked : Onward visited { w with linksStale := false } :=
      h.kept hw.sound (.keep rfl) fun _ hid => hid
    exact hlinked.run hw _ clock 0 _ env
  . simpa using h

theorem after (h : Onward visited w) (hw : w.graph.Ordered) (hrooted : w.Rooted)
    (hon : w.on = true) {op : Operation σ} (hop : w.Forward op) (hnew : ¬op.Reappends) :
    Onward (visited ++ (w.moments op).filterMap Moment.armed?) (w.after op) := by
  have hextends := hrooted.extends_after hw.jumpless hop hnew
  have hedit (hedit : Edit w (w.after op)) : Onward visited (w.after op) :=
    h.kept hw.sound hextends fun id hid => by rwa [hedit.sameStatus.pending] at hid
  cases op with
  | create instruction => simpa [moments] using hedit (.create instruction)
  | add source number name => simpa [moments] using hedit (.add source number name)
  | append source number name => simpa [moments] using hedit (.append source number name)
  | remove selector => simpa [moments] using hedit (.remove selector)
  | removeAll => simpa [moments] using hedit .removeAll
  | enable now =>
    rw [moments, armings_enable, if_pos hon]
    have hvalue : w.after (.enable now) = w := by simp [Workflow.after, enable, hon]
    simpa [hvalue] using h
  | disable =>
    have hpending : (w.after .disable).pending = none := by simp [Workflow.after, disable, hon]
    simpa [moments] using h.kept hw.sound hextends (by simp [hpending])
  | process clock env => exact h.process hw clock env
  | releaseFailure instruction =>
    have hpending : (w.after (.releaseFailure instruction)).pending = w.pending := by
      simp only [Workflow.after, releaseFailure]
      split
      . rfl
      . cases w.failed <;> rfl
    rw [moments, List.filterMap_cons_none rfl, List.filterMap_nil, List.append_nil]
    exact h.kept hw.sound hextends (by simp [hpending])

theorem length_le (h : Onward visited w) : visited.length ≤ w.graph.size := by
  have hinjective : (visited.map (·.index)).Nodup := by
    apply h.distinct.map_on
    intro a ha b hb heq
    have ha' := (Graph.contains_iff _ a).mp (h.contained a ha)
    have hb' := (Graph.contains_iff _ b).mp (h.contained b hb)
    cases a
    cases b
    simp_all
  have hsubset : visited.map (·.index) ⊆ List.range w.graph.size := by
    intro index hindex
    obtain ⟨id, hid, rfl⟩ := List.mem_map.mp hindex
    exact List.mem_range.mpr (Graph.lt_of_contains (h.contained id hid))
  simpa using (hinjective.subperm hsubset).length_le

end Onward

section Limit

/-! A run that does not use up what is left of the limit is ended by the instructions. -/

theorem length_runVisits_le (clock : Clock) (made left : Nat) (w : Workflow σ) (env : Env σ) :
    (runVisits clock made left w env).length ≤
      (((runVisits clock made left w env).flatMap Visit.moments).filterMap
        Moment.armed?).length + 1 := by
  induction left generalizing made w env with
  | zero => simp [runVisits]
  | succ left ih =>
    rw [runVisits]
    cases hpending : w.pending with
    | none => simp
    | some id =>
      simp only [List.length_cons, List.flatMap_cons, List.filterMap_append, List.length_append]
      split
      . next hgoes =>
        have hmoves : (w.graph.perform (clock made).invoked id env).1.movesOn = true := by
          rw [(goesOn_turn w (clock made) id env).mp hgoes]
          rfl
        have hturn := pending_turn w (clock made) id env
        rw [if_pos hmoves] at hturn
        rw [Visit.moments_eq, Visit.progress, Visit.performed, if_pos hmoves,
          List.filterMap_cons_none rfl]
        dsimp only
        cases hnext : (w.graph.perform (clock made).invoked id env).2.1.successor? id with
        | none =>
          rw [hnext] at hturn
          have hrest : runVisits clock (made + 1) left (w.turn (clock made) id env).value.workflow
              (w.turn (clock made) id env).value.env = [] := by
            cases left <;> simp [runVisits, hturn]
          simp [hrest]
        | some next =>
          have := ih (made + 1) (w.turn (clock made) id env).value.workflow
            (w.turn (clock made) id env).value.env
          simp only [Option.map_some, Option.toList_some, List.filterMap_cons, Moment.armed?,
            List.filterMap_nil, List.length_singleton]
          omega
      . simp

theorem seen_limit?_makePending (w : Workflow σ) (now : Instant) (next : Option InstructionId) :
    (w.makePending now next).seen Entry.limit? = [] := by
  cases next <;> rfl

theorem seen_limit?_advanceFrom (w : Workflow σ) (now : Instant) (id : InstructionId) :
    (w.advanceFrom now id).seen Entry.limit? = [] := by
  unfold advanceFrom
  dsimp only
  split <;> simp [seen_limit?_makePending, Entry.limit?]

theorem seen_limit?_turn (w : Workflow σ) (reading : Reading) (id : InstructionId) (env : Env σ) :
    (w.turn reading id env).seen Entry.limit? = [] := by
  have hannounce : (w.graph.announce id).seen Entry.limit? = [] := by
    unfold Graph.announce
    split <;> simp [Entry.limit?]
  simp only [turn, Graph.invoke, Traced.seen_bind, Traced.value_bind, Traced.value_pure, hannounce,
    Traced.seen_emit]
  cases (w.graph.perform reading.invoked id env).1 <;>
    simp [seen_limit?_advanceFrom, recordFailure, Entry.limit?]

theorem seen_limit?_ensureLinked (w : Workflow σ) : w.ensureLinked.seen Entry.limit? = [] := by
  unfold ensureLinked link
  split
  . split <;> simp [Entry.limit?]
  . rfl

theorem seen_limit?_run {clock : Clock} {made left : Nat} {w : Workflow σ} {env : Env σ}
    (h : (runVisits clock made left w env).length < left) (limit : Nat) :
    (run limit clock made left w env).seen Entry.limit? = [] := by
  induction left generalizing made w env with
  | zero => simp at h
  | succ left ih =>
    rw [runVisits] at h
    rw [run]
    cases hpending : w.pending with
    | none => rfl
    | some id =>
      simp only [hpending, List.length_cons, Nat.add_lt_add_iff_right] at h
      simp only [Traced.seen_bind, seen_limit?_turn, List.nil_append]
      split
      . next hgoes =>
        rw [if_pos hgoes] at h
        exact ih h
      . rfl

theorem pending_run_of_continues {clock : Clock} {made left : Nat} {w : Workflow σ} {env : Env σ}
    (h : (runVisits clock made left w env).length < left)
    (hcontinues : ∀ visit ∈ runVisits clock made left w env, visit.progress = .continueNow)
    (limit : Nat) : (run limit clock made left w env).value.1.pending = none := by
  induction left generalizing made w env with
  | zero => simp at h
  | succ left ih =>
    rw [runVisits] at h hcontinues
    rw [run]
    cases hpending : w.pending with
    | none => exact hpending
    | some id =>
      simp only [hpending, List.length_cons, Nat.add_lt_add_iff_right, List.forall_mem_cons]
        at h hcontinues
      have hgoes := (goesOn_turn w (clock made) id env).mpr hcontinues.1
      rw [if_pos hgoes] at h hcontinues
      simp only [Traced.value_bind, hgoes, ↓reduceIte]
      exact ih h hcontinues.2

end Limit

inductive Session (w : Workflow σ) : List (Moment σ) → Workflow σ → Prop where
  | enable (now : Instant) (hoff : w.on = false) :
      Session w (w.moments (.enable now)) (w.after (.enable now))
  | after {moments : List (Moment σ)} {w' : Workflow σ} (h : Session w moments w')
      (hon : w'.on = true) {op : Operation σ} (hop : w'.Forward op) (hnew : ¬op.Reappends) :
      Session w (moments ++ w'.moments op) (w'.after op)

theorem Straight.onward_enable {w : Workflow σ} (h : w.Straight) (hoff : w.on = false)
    (now : Instant) :
    Onward ((w.moments (.enable now)).filterMap Moment.armed?) (w.after (.enable now)) := by
  have hsame := sameProgram_enable w now
  have hpending : (w.enable now).value.pending = w.registered.head?.map (·.id) := by
    unfold enable
    simp [hoff, pending_makePending]
  rw [moments, armings_enable, hoff, Workflow.after]
  cases hfirst : w.registered.head? with
  | none =>
    rw [hfirst] at hpending
    exact ⟨List.nodup_nil, by simp, by simp [hpending]⟩
  | some entry =>
    rw [hfirst] at hpending
    have hcontains := h.reachable.rooted.contained entry (List.mem_of_mem_head? hfirst)
    rw [← Graph.contains_congr hsame.shape] at hcontains
    constructor
    . exact List.nodup_singleton _
    . simpa [Moment.armed?] using hcontains
    . simp [hpending, Moment.armed?]

theorem Session.onward {w w' : Workflow σ} {moments : List (Moment σ)}
    (h : Session w moments w') (hw : w.Straight) :
    w'.Straight ∧ Onward (moments.filterMap Moment.armed?) w' := by
  induction h with
  | enable now hoff => exact ⟨hw.after trivial, hw.onward_enable hoff now⟩
  | after _ hon hop hnew ih =>
    obtain ⟨hstraight, honward⟩ := ih
    rw [List.filterMap_append]
    exact ⟨hstraight.after hop,
      honward.after hstraight.ordered hstraight.reachable.rooted hon hop hnew⟩

/--
Only jumps make loops, and instructions that are appended to what they lead to. In a workflow that
was built without either, no instruction becomes the pending one twice from when it is switched on
until it is off, whatever is created, added and removed meanwhile and whichever new instructions are
appended. A cycle with a limit above the number of nodes never reaches it, and one of immediate
instructions runs to the end.
-/
theorem Straight.armed_once {w w' : Workflow σ} (h : w.Straight) {moments : List (Moment σ)}
    (hsession : Session w moments w') :
    (moments.filterMap Moment.armed?).Nodup ∧
    (moments.filterMap Moment.armed?).length ≤ w'.graph.size ∧
    ∀ clock env, (w'.visits clock env).length ≤ w'.graph.size ∧
      (w'.graph.size < w'.config.immediateTransitionLimit →
        (w'.process clock env).seen Entry.limit? = [] ∧
        ((∀ visit ∈ w'.visits clock env, visit.progress = .continueNow) →
          (w'.process clock env).value.workflow.on = false)) := by
  obtain ⟨hstraight, honward⟩ := hsession.onward h
  have hordered := hstraight.ordered
  refine ⟨honward.distinct, honward.length_le, ?_⟩
  intro clock env
  have hvalue := value_ensureLinked_of_jumpless hordered.jumpless
  cases hon : w'.on with
  | false => simp [visits, process, hon]
  | true =>
    have hmirrored := hstraight.reachable.mirrored.on
    rw [hon, eq_comm, Option.isSome_iff_exists] at hmirrored
    obtain ⟨id, hpending⟩ := hmirrored
    have hvisits : w'.visits clock env =
        runVisits clock 0 w'.config.transitionBudget { w' with linksStale := false } env := by
      rw [visits, if_pos hon, hvalue]
    -- the pending instruction was armed before the cycle and all others that it visits in it
    have hlength : (w'.visits clock env).length ≤ w'.graph.size := by
      have hmoments := (honward.process hordered clock env).length_le
      have hsize := Graph.size_congr (Graph.shape_eq_of_unvisited
        (unvisited_process_of_jumpless hordered.jumpless clock env))
      have hmem := List.length_pos_of_mem (honward.pending id hpending).1
      have hle := length_runVisits_le clock 0 w'.config.transitionBudget
        { w' with linksStale := false } env
      rw [List.length_append, Workflow.moments, Workflow.after, hsize, hvisits] at hmoments
      rw [hvisits]
      omega
    refine ⟨hlength, ?_⟩
    intro hlimit
    have hlt : (w'.visits clock env).length < w'.config.transitionBudget := by
      have : w'.config.immediateTransitionLimit ≤ w'.config.transitionBudget :=
        Nat.le_max_left _ _
      omega
    rw [hvisits] at hlt ⊢
    constructor
    . have hseen := seen_limit?_run hlt w'.config.transitionBudget
      simpa [process, hon, seen_limit?_ensureLinked, hvalue] using hseen
    . intro hcontinues
      have hmirrored := (hstraight.reachable.after (.process clock env)).mirrored.on
      rw [Workflow.after, value_process_of_jumpless hordered.jumpless hon,
        pending_run_of_continues hlt hcontinues] at hmirrored
      rw [value_process_of_jumpless hordered.jumpless hon, hmirrored]
      rfl

theorem jumpless_label (name : String) : (Instruction.label name : Instruction σ).Jumpless :=
  .of rfl (by simp [Instruction.nested])

def lastFirst : Workflow Unit :=
  (Workflow.empty 0 ⟨3, false⟩)
    |>.after (.create (.label "last"))
    |>.after (.append (.new (.label "first")) none none)

theorem straight_lastFirst : (lastFirst.after (.append (.existing ⟨0, 0⟩) none none)).Straight := by
  have hcreated : ((Workflow.empty 0 ⟨3, false⟩).after (.create (.label "last")) :
      Workflow Unit).Straight := (Straight.empty _ _).after (jumpless_label "last")
  have hlastFirst : lastFirst.Straight := hcreated.after (jumpless_label "first")
  apply hlastFirst.after
  have hregistered : lastFirst.registered.getLast? = some ⟨⟨0, 1⟩, 0, none⟩ := by decide +kernel
  rw [Forward, hregistered]
  intro previous hprevious node hencloses hleads
  cases hprevious
  have hle := hlastFirst.ordered.sound.forest.index_le hencloses
  -- nothing follows the instruction that is appended
  rcases Relation.ReflTransGen.cases_head hleads with rfl | ⟨next, hflows, _⟩
  . simp at hle
  . have hnext : lastFirst.graph.next? ⟨0, 0⟩ = none := by decide +kernel
    have hchildren : lastFirst.graph.children ⟨0, 0⟩ = [] := by decide +kernel
    rw [Graph.Flows, hnext, hchildren] at hflows
    simp at hflows

theorem Straight.armed_once_lastFirst :
    let w := lastFirst.after (.append (.existing ⟨0, 0⟩) none none)
    let on := w.after (.enable default)
    w.Straight ∧ Session w (w.moments (.enable default)) on ∧
      (on.process default ⟨.empty, ()⟩).seen Entry.limit? = [] ∧
      (on.process default ⟨.empty, ()⟩).value.workflow.on = false := by
  intro w on
  have hsession : Session w (w.moments (.enable default)) on := .enable default (by decide +kernel)
  obtain ⟨_, _, hcycle⟩ := Straight.armed_once straight_lastFirst hsession
  obtain ⟨_, hlimit⟩ := hcycle default ⟨.empty, ()⟩
  obtain ⟨hseen, hoff⟩ := hlimit (by decide +kernel)
  have hprogress : (on.visits default ⟨.empty, ()⟩).map Visit.progress =
      [.continueNow, .continueNow] := by
    decide +kernel
  have hcontinues : ∀ progress ∈ (on.visits default ⟨.empty, ()⟩).map Visit.progress,
      progress = .continueNow := by
    simp [hprogress]
  exact ⟨straight_lastFirst, hsession, hseen, hoff (List.forall_mem_map.mp hcontinues)⟩

def firstRemoved : Workflow Unit :=
  (Workflow.empty 0 ⟨3, false⟩)
    |>.after (.append (.new (.label "first")) none none)
    |>.after (.append (.new (.label "last")) none none)
    |>.after (.remove (.id ⟨0, 0⟩))

theorem straight_firstRemoved : firstRemoved.Straight := by
  have hfirst : ((Workflow.empty 0 ⟨3, false⟩).after (.append (.new (.label "first")) none none) :
      Workflow Unit).Straight := (Straight.empty _ _).after (jumpless_label "first")
  have hlast := hfirst.after (show Forward _ (.append (.new (.label "last")) none none) from
    jumpless_label "last")
  exact hlast.after trivial

/-- The first of the two still leads to the last, so they make a loop if it is appended again. -/
theorem armed_twice_firstRemoved :
    let w := firstRemoved.after (.append (.existing ⟨0, 0⟩) none none)
    let on := w.after (.enable default)
    let cycle := on.process default ⟨.empty, ()⟩
    w.Reachable ∧ w.graph.Jumpless ∧ w.graph.size < w.config.immediateTransitionLimit ∧
      (w.moments (.enable default) ++
        on.moments (.process default ⟨.empty, ()⟩)).filterMap Moment.armed? =
          [⟨0, 1⟩, ⟨0, 0⟩, ⟨0, 1⟩, ⟨0, 0⟩] ∧
      cycle.seen Entry.limit? = [3] ∧ cycle.value.workflow.on = true := by
  intro w on cycle
  refine ⟨straight_firstRemoved.reachable.after _, ?_, by decide +kernel, by decide +kernel,
    by decide +kernel, by decide +kernel⟩
  have hjumpless := straight_firstRemoved.ordered.jumpless
  rcases firstRemoved.graph_append_existing ⟨0, 0⟩ none none with heq | ⟨previous, _, _, heq⟩
  . rwa [← heq] at hjumpless
  . rw [Graph.Jumpless, ← Graph.jumpLabel?_congr (Graph.shape_setNext _ previous.id _), ← heq]
      at hjumpless
    exact hjumpless

end Workflow

end Sequencer
