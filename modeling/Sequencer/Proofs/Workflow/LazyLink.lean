import Mathlib.Data.List.Pairwise
import Sequencer.Proofs.Workflow.Coherence
import Sequencer.Proofs.Workflow.Visit

/-!
The link pass is made only when something was registered or removed since the last one. That is
often enough: a cycle that makes the pass every time does the same.
-/

namespace Sequencer

namespace Graph

variable {σ : Type}

theorem perform_of_jumpLabel? {g : Graph σ} {id : InstructionId} {label : String}
    (h : g.jumpLabel? id = some label) (now : Instant) (env : Env σ) :
    g.perform now id env = (.continueNow, g, env) := by
  unfold jumpLabel? at h
  unfold perform
  split at h
  . next hkind => rw [hkind]
  . simp at h

end Graph

namespace Workflow

variable {σ : Type}

def processRelinking (w : Workflow σ) (clock : Clock) (env : Env σ) : Traced σ (Cycle σ) := do
  if !w.on then return ⟨.ok (), w, env⟩
  let (linked, w) ← w.link
  match linked with
  | .error fault => return ⟨.error fault, w, env⟩
  | .ok () =>
    let limit := w.config.transitionBudget
    let (w, env) ← run limit clock 0 limit w env
    return ⟨.ok (), w, env⟩

def IsLiveLabel (w : Workflow σ) (name : String) (id : InstructionId) : Prop :=
  id ∈ w.liveNodes ∧ w.graph.labelName? id = some name

theorem Coherent.isLiveLabel_unique {w : Workflow σ} (h : w.Coherent) {name : String}
    {a b : InstructionId} (ha : w.IsLiveLabel name a) (hb : w.IsLiveLabel name b) : a = b := by
  have hlabels := h.labels
  rw [List.Nodup, List.pairwise_filterMap] at hlabels
  by_contra hne
  have : Std.Symm fun a b : InstructionId => ∀ x, w.graph.labelName? a = some x →
      ∀ y, w.graph.labelName? b = some y → x ≠ y :=
    ⟨fun _ _ h x hx y hy => (h y hy x hx).symm⟩
  exact hlabels.forall ha.1 hb.1 hne name ha.2 name hb.2 rfl

theorem isLiveLabel_of_findLabel? {w : Workflow σ} {name : String} {target : InstructionId}
    (h : findLabel? w.graph w.liveNodes name = some target) : w.IsLiveLabel name target := by
  rw [findLabel?, List.find?_eq_some_iff_append] at h
  obtain ⟨hname, before, after, hlive, _⟩ := h
  refine ⟨?_, by simpa using hname⟩
  rw [hlive]
  simp

theorem Coherent.value_link {w : Workflow σ} (h : w.Coherent) (hstale : w.linksStale = false) :
    w.link.value = (.ok (), w) := by
  obtain ⟨bindings, hbindings, hresolve⟩ := resolve_of_bound (h.bound hstale)
  rw [Workflow.value_link, Workflow.bindings, hbindings]
  simp only [hresolve, ← hstale]

theorem Coherent.value_ensureLinked {w : Workflow σ} (h : w.Coherent) :
    w.ensureLinked.value = w.link.value := by
  unfold Workflow.ensureLinked
  cases hstale : w.linksStale with
  | true => rfl
  | false =>
    rw [h.value_link hstale]
    rfl

theorem Coherent.ensureLinked_of_bindings {w : Workflow σ} (h : w.Coherent)
    {bindings : List (InstructionId × InstructionId)} (hbindings : w.bindings = .ok bindings) :
    w.ensureLinked.value =
      (.ok (), { w with graph := resolve w.graph bindings, linksStale := false }) := by
  rw [h.value_ensureLinked, Workflow.value_link, hbindings]

theorem linksStale_ensureLinked {w linked : Workflow σ}
    (h : w.ensureLinked.value = (.ok (), linked)) : linked.linksStale = false := by
  unfold ensureLinked at h
  split at h
  . rw [value_link] at h
    split at h
    . simp at h
    . cases h
      rfl
  . next hstale =>
    cases h
    simpa using hstale

theorem Coherent.value_processRelinking {w : Workflow σ} (h : w.Coherent) (clock : Clock)
    (env : Env σ) : (w.processRelinking clock env).value = (w.process clock env).value := by
  unfold processRelinking Workflow.process
  cases w.on with
  | false => rfl
  | true =>
    simp only [Bool.not_true, Bool.false_eq_true, ↓reduceIte, Traced.value_bind]
    rewrite [h.value_ensureLinked]
    rfl

theorem Coherent.of_mem_visits {w : Workflow σ} (h : w.Coherent) {clock : Clock} {env : Env σ}
    {visit : Visit σ} (hvisit : visit ∈ w.visits clock env) :
    visit.workflow.Coherent ∧ visit.workflow.linksStale = false := by
  have hlinked := h.ensureLinked
  unfold visits at hvisit
  split at hvisit
  . split at hvisit
    . next linked heq =>
      rw [heq] at hlinked
      -- invocations keep the program, so each visit finds what the link pass left
      have hsame := sameProgram_of_mem_runVisits hvisit
      refine ⟨hlinked.of_sameProgram hsame, ?_⟩
      rw [hsame.linksStale]
      exact linksStale_ensureLinked heq
    . simp at hvisit
  . simp at hvisit

theorem pending_makePending (w : Workflow σ) (now : Instant) (next : Option InstructionId) :
    (w.makePending now next).value.pending = next := by
  cases next <;> rfl

theorem Coherent.pending_turn_of_jumpLabel? {w : Workflow σ} (h : w.Coherent)
    (hstale : w.linksStale = false) {id : InstructionId} (hlive : id ∈ w.liveNodes)
    {label : String} (hlabel : w.graph.jumpLabel? id = some label) (reading : Reading)
    (env : Env σ) :
    ∃ target, w.IsLiveLabel label target ∧
      (w.turn reading id env).value.workflow.pending = some target := by
  obtain ⟨target, hfind, hnext⟩ := h.bound hstale id hlive label hlabel
  refine ⟨target, isLiveLabel_of_findLabel? hfind, ?_⟩
  rw [value_turn, Graph.perform_of_jumpLabel? hlabel]
  dsimp only
  rw [value_advanceFrom, pending_makePending, Graph.successor?_of_jumpLabel? hlabel, hnext]

/--
A cycle leaves behind what it would if it made the link pass each time. It is made of its visits:
each finds what the one before it has left, and the last leaves what the cycle does. Each live jump
among them moves the cursor to the one live label of its name.
-/
theorem Reachable.process_eq_processRelinking {w : Workflow σ} (h : w.Reachable) (clock : Clock)
    (env : Env σ) :
    let cycle := w.process clock env
    cycle.value = (w.processRelinking clock env).value ∧
    (cycle.seen Entry.invoked? = (w.visits clock env).map (·.id) ∧
      (∀ before visit after, w.visits clock env = before ++ visit :: after →
        visit.found = leftBy (w.linked, env) before ∧
          visit.workflow.pending = some visit.id) ∧
      (cycle.value.workflow, cycle.value.env) = leftBy (w.linked, env) (w.visits clock env)) ∧
    ∀ visit ∈ w.visits clock env, visit.id ∈ visit.workflow.liveNodes →
      ∀ label, visit.workflow.graph.jumpLabel? visit.id = some label →
        ∃ target, visit.workflow.IsLiveLabel label target ∧
          (∀ other, visit.workflow.IsLiveLabel label other → other = target) ∧
          visit.left.1.pending = some target := by
  have hcoherent := h.coherent
  refine ⟨(hcoherent.value_processRelinking clock env).symm, ⟨invoked?_process w clock env, ?_,
    value_process_eq_leftBy w clock env⟩, ?_⟩
  . intro before visit after hvisits
    obtain ⟨hfound, hpending, _⟩ := found_of_visits hvisits
    exact ⟨hfound, hpending⟩
  . intro visit hvisit hlive label hlabel
    obtain ⟨hvisited, hstale⟩ := hcoherent.of_mem_visits hvisit
    obtain ⟨target, htarget, hpending⟩ :=
      hvisited.pending_turn_of_jumpLabel? hstale hlive hlabel visit.reading visit.env
    refine ⟨target, htarget, ?_, hpending⟩
    intro other hother
    exact hvisited.isLiveLabel_unique hother htarget

def looping : Workflow Unit :=
  (Workflow.empty 0 ⟨3, false⟩)
    |>.after (.append (.new (.label "again")) none none)
    |>.after (.append (.new (.jump "again")) none none)
    |>.after (.enable default)

theorem Reachable.process_looping :
    looping.Reachable ∧
    (looping.process default ⟨.empty, ()⟩).value =
      (looping.processRelinking default ⟨.empty, ()⟩).value ∧
    (looping.process default ⟨.empty, ()⟩).seen Entry.invoked? =
      [⟨0, 0⟩, ⟨0, 1⟩, ⟨0, 0⟩] ∧
    (looping.process default ⟨.empty, ()⟩).value.workflow.pending = some ⟨0, 1⟩ := by
  have hreachable : looping.Reachable := (((Reachable.empty _ _).after _).after _).after _
  obtain ⟨hvalue, ⟨hinvoked, _, hleft⟩, _⟩ :=
    Reachable.process_eq_processRelinking hreachable default ⟨.empty, ()⟩
  refine ⟨hreachable, hvalue, ?_, ?_⟩
  . rw [hinvoked]
    decide +kernel
  . have hworkflow := congrArg (·.1.pending) hleft
    dsimp only at hworkflow
    rw [hworkflow]
    decide +kernel

end Workflow

end Sequencer
