import Sequencer.Proofs.Workflow.Coherence
import Sequencer.Proofs.Workflow.Visit

/-!
What happens in the course of a run, moment by moment. A run is made of operations. `Run.path` takes
the cycles among them apart, so that what holds of every transition holds of a run, and of each
invocation in the middle of it.
-/

namespace Sequencer

def Entry.movement? {σ : Type} : Entry σ → Option (InstructionId × Instant × Option Progress)
  | .armed id now => some (id, now, none)
  | .invoked id now progress => some (id, now, some progress)
  | _ => none

namespace Workflow

variable {σ : Type}

inductive Moment (σ : Type) where
  | armed (now : Instant) (id : InstructionId)
  | invoked (visit : Visit σ)
  /-- A failure was to be released, whichever it is or that of an instruction. -/
  | released (instruction : Option InstructionId)

namespace Moment

def armed? : Moment σ → Option InstructionId
  | .armed _ id => some id
  | _ => none

def movement? : Moment σ → Option (InstructionId × Instant × Option Progress)
  | .armed now id => some (id, now, none)
  | .invoked visit => some (visit.id, visit.reading.invoked, some visit.progress)
  | .released _ => none

end Moment

def arming? : Entry σ → Option (Moment σ)
  | .armed id now => some (.armed now id)
  | _ => none

def armings {α : Type} (x : Traced σ α) : List (Moment σ) :=
  x.seen arming?

def Visit.moments (visit : Visit σ) : List (Moment σ) :=
  .invoked visit :: armings visit.turn

def moments (w : Workflow σ) : Operation σ → List (Moment σ)
  | .enable now => armings (w.enable now)
  | .process clock env => (w.visits clock env).flatMap Visit.moments
  | .releaseFailure instruction => [.released instruction]
  | _ => []

/-- What an invocation leaves behind before the cursor moves. -/
def invoked (w : Workflow σ) (now : Instant) (id : InstructionId) (env : Env σ) : Workflow σ :=
  let (progress, graph, _) := w.graph.perform now id env
  { w with
    graph
    failed := if progress.isFailure then some id else w.failed
    error := w.error || progress.isFailure }

theorem workflow_turn (w : Workflow σ) (reading : Reading) (id : InstructionId) (env : Env σ) :
    (w.turn reading id env).value.workflow =
      if (w.graph.perform reading.invoked id env).1.movesOn then
        ((w.invoked reading.invoked id env).makePending reading.armed
          ((w.graph.perform reading.invoked id env).2.1.successor? id)).value
      else w.invoked reading.invoked id env := by
  rw [value_turn, invoked]
  dsimp only
  cases (w.graph.perform reading.invoked id env).1 <;>
    simp [value_advanceFrom, recordFailure, Progress.movesOn, Progress.isFailure]

theorem env_turn (w : Workflow σ) (reading : Reading) (id : InstructionId) (env : Env σ) :
    (w.turn reading id env).value.env = (w.graph.perform reading.invoked id env).2.2 := by
  rw [value_turn]
  dsimp only
  cases (w.graph.perform reading.invoked id env).1 <;> rfl

section Report

/-! The moments of an operation are what it reports of the pending instruction. -/

variable {γ : Type} {observe : Entry σ → Option γ}

variable (hevent : ∀ event, observe (.event event) = none)

include hevent

theorem seen_enable (w : Workflow σ) (now : Instant) :
    (w.enable now).seen observe =
      if w.on then []
      else ((w.registered.head?.map (·.id)).bind fun id => observe (.armed id now)).toList := by
  unfold enable
  cases w.on with
  | true => rfl
  | false => simp [seen_makePending, hevent]

theorem seen_add (w : Workflow σ) (source : InstructionSource σ) (number : Option Int64)
    (name : Option String) : (w.add source number name).seen observe = [] := by
  cases source with
  | new instruction =>
    simp only [add]
    split <;> simp [hevent]
  | existing id =>
    simp only [add]
    cases w.handleFault? id with
    | some fault => rfl
    | none =>
      dsimp only
      split <;> simp [hevent]

theorem seen_append (w : Workflow σ) (source : InstructionSource σ) (number : Option Int64)
    (name : Option String) : (w.append source number name).seen observe = [] := by
  unfold append
  rw [Traced.seen_bind, seen_add hevent]
  rcases (w.add source number name).value with ⟨_ | id, w'⟩
  . rfl
  . cases w.registered.getLast? <;> rfl

end Report

theorem arming?_event (event : Event) : arming? (.event event : Entry σ) = none := rfl

theorem Entry.movement?_event (event : Event) :
    (Entry.event event : Entry σ).movement? = none := rfl

theorem armings_enable (w : Workflow σ) (now : Instant) :
    armings (w.enable now) =
      if w.on then [] else (w.registered.head?.map fun entry => .armed now entry.id).toList := by
  rw [armings, seen_enable arming?_event]
  split
  . rfl
  . cases w.registered.head? <;> rfl

theorem Visit.moments_eq (visit : Visit σ) :
    visit.moments =
      .invoked visit ::
        if visit.progress.movesOn then
          ((visit.performed.2.1.successor? visit.id).map (.armed visit.reading.armed)).toList
        else [] := by
  rw [Visit.moments, armings, Visit.seen_turn arming?_event]
  congr 1
  dsimp only [arming?, Option.toList_none, List.nil_append]
  split
  . cases visit.performed.2.1.successor? visit.id <;> rfl
  . rfl

theorem movement?_visit (visit : Visit σ) :
    visit.turn.seen Entry.movement? = visit.moments.filterMap Moment.movement? := by
  rw [Visit.moments_eq, Visit.seen_turn Entry.movement?_event]
  split
  . cases visit.performed.2.1.successor? visit.id <;> rfl
  . rfl

theorem movement?_perform (w : Workflow σ) (op : Operation σ) :
    (w.perform op).seen Entry.movement? = (w.moments op).filterMap Moment.movement? := by
  cases op with
  | create instruction => rfl
  | add source number name => simp [perform, moments, seen_add Entry.movement?_event]
  | append source number name => simp [perform, moments, seen_append Entry.movement?_event]
  | remove selector =>
    simp only [perform, moments, Workflow.remove]
    split <;> simp [Entry.movement?_event]
  | removeAll => rfl
  | enable now =>
    simp only [perform, moments, armings_enable, Traced.seen_bind,
      seen_enable Entry.movement?_event]
    cases w.on with
    | true => rfl
    | false => cases w.registered.head? <;> rfl
  | disable =>
    simp only [perform, moments, disable]
    cases w.on <;> rfl
  | process clock env =>
    simp only [perform, moments, Traced.seen_bind, seen_process Entry.movement?_event,
      List.filterMap_flatMap, movement?_visit]
    simp
  | releaseFailure instruction =>
    simp only [perform, moments, releaseFailure, Traced.seen_bind]
    split
    . rfl
    . cases w.failed <;> rfl

inductive Run (w : Workflow σ) : List (Moment σ) → Workflow σ → Prop where
  | refl : Run w [] w
  | after {moments : List (Moment σ)} {w' : Workflow σ} (h : Run w moments w')
      (op : Operation σ) : Run w (moments ++ w'.moments op) (w'.after op)

theorem Run.exists_carryOut {w w' : Workflow σ} {moments : List (Moment σ)} (h : Run w moments w') :
    ∃ ops, w.carryOut ops = w' ∧
      (w.report ops).filterMap Entry.movement? = moments.filterMap Moment.movement? := by
  induction h with
  | refl => exact ⟨[], rfl, rfl⟩
  | after h op ih =>
    obtain ⟨ops, rfl, hreport⟩ := ih
    refine ⟨ops ++ [op], carryOut_concat _ _ _, ?_⟩
    rw [report_concat, List.filterMap_append, List.filterMap_append, hreport, ← movement?_perform]
    rfl

inductive Edit (w : Workflow σ) : Workflow σ → Prop where
  | create (instruction : Instruction σ) : Edit w (w.create instruction).2
  | add (source : InstructionSource σ) (number : Option Int64) (name : Option String) :
      Edit w (w.add source number name).value.2
  | append (source : InstructionSource σ) (number : Option Int64) (name : Option String) :
      Edit w (w.append source number name).value.2
  | remove (selector : InstructionSelector) : Edit w (w.remove selector).value.2
  | removeAll : Edit w w.removeAll
  | link : Edit w w.ensureLinked.value.2

theorem Edit.induction {w w' : Workflow σ} (h : Edit w w') {motive : Workflow σ → Prop}
    (start : motive w)
    (create : ∀ (w : Workflow σ) instruction, motive w → motive (w.create instruction).2)
    (register : ∀ (w : Workflow σ) id number name, w.graph.contains id = true → motive w →
      motive (w.register id number name))
    (setNext : ∀ (w : Workflow σ) id next, w.graph.contains next = true → motive w →
      motive { w with graph := w.graph.setNext id (some next) })
    (drop : ∀ (w : Workflow σ) registered, registered.Sublist w.registered → motive w →
      motive { w with registered, linksStale := true })
    (link : ∀ (w : Workflow σ) targets, w.bindings = .ok targets → motive w →
      motive { w with graph := resolve w.graph targets, linksStale := false }) : motive w' := by
  have hadd (source : InstructionSource σ) (number : Option Int64) (name : Option String) :
      motive (w.add source number name).value.2 ∧
        ∀ id v, (w.add source number name).value = (.ok id, v) → v.graph.contains id = true := by
    obtain ⟨v, hv, hcases⟩ := add_cases w source number name
    have hmotive : motive v := by
      rcases hv with rfl | ⟨instruction, rfl⟩
      . exact start
      . exact create w instruction start
    rcases hcases with ⟨fault, hvalue⟩ | ⟨id, hid, _, hvalue⟩
    . rw [hvalue]
      exact ⟨hmotive, by simp⟩
    . rw [hvalue]
      refine ⟨register v id number name hid hmotive, ?_⟩
      intro id' v' heq
      cases heq
      exact hid
  cases h with
  | create instruction => exact create w instruction start
  | add source number name => exact (hadd source number name).1
  | append source number name =>
    obtain ⟨hmotive, hid⟩ := hadd source number name
    rw [value_append]
    generalize (w.add source number name).value = added at hmotive hid
    rcases added with ⟨_ | id, v⟩
    . exact hmotive
    . cases w.registered.getLast? with
      | none => exact hmotive
      | some previous => exact setNext v previous.id id (hid id v rfl) hmotive
  | remove selector =>
    unfold Workflow.remove
    split
    . exact start
    . exact drop w _ List.eraseP_sublist start
  | removeAll => exact drop w [] (List.nil_sublist _) start
  | link =>
    unfold ensureLinked
    split
    . rw [value_link]
      split
      . exact start
      . next targets htargets => exact link w targets htargets start
    . exact start

/-- What operations are made of: a cycle is a link pass and a number of turns. -/
inductive Transition (w : Workflow σ) : List (Moment σ) → Workflow σ → Prop where
  | edit {w' : Workflow σ} (h : Edit w w') : Transition w [] w'
  | enable (now : Instant) : Transition w (armings (w.enable now)) (w.enable now).value
  | disable : Transition w [] w.disable.value
  | turn (reading : Reading) {id : InstructionId} (hpending : w.pending = some id) (env : Env σ) :
      Transition w (Visit.moments ⟨w, reading, id, env⟩) (w.turn reading id env).value.workflow
  | release (instruction : Option InstructionId) :
      Transition w [.released instruction] (w.releaseFailure instruction).value

inductive Path (w : Workflow σ) : List (Moment σ) → Workflow σ → Prop where
  | refl : Path w [] w
  | tail {moments moments' : List (Moment σ)} {w' w'' : Workflow σ} (h : Path w moments w')
      (hstep : Transition w' moments' w'') : Path w (moments ++ moments') w''

namespace Path

theorem single {w w' : Workflow σ} {moments : List (Moment σ)} (h : Transition w moments w') :
    Path w moments w' := by
  simpa using Path.refl.tail h

theorem trans {u v w : Workflow σ} {moments moments' : List (Moment σ)} (huv : Path u moments v)
    (hvw : Path v moments' w) : Path u (moments ++ moments') w := by
  induction hvw with
  | refl => simpa using huv
  | tail _ hstep ih =>
    rw [← List.append_assoc]
    exact ih.tail hstep

end Path

theorem path_run (limit : Nat) (clock : Clock) (made left : Nat) (w : Workflow σ) (env : Env σ) :
    Path w ((runVisits clock made left w env).flatMap Visit.moments)
      (run limit clock made left w env).value.1 := by
  induction left generalizing made w env with
  | zero => exact .refl
  | succ left ih =>
    rw [run, runVisits]
    cases hpending : w.pending with
    | none => exact .refl
    | some id =>
      have hturn := Path.single (.turn (clock made) hpending env)
      simp only [Traced.value_bind, List.flatMap_cons]
      split
      . exact hturn.trans (ih _ _ _)
      . simpa using hturn

theorem path_process (w : Workflow σ) (clock : Clock) (env : Env σ) :
    Path w (w.moments (.process clock env)) (w.process clock env).value.workflow := by
  rw [moments, visits, value_process]
  split
  . have hlink : Path w [] w.ensureLinked.value.2 := .single (.edit .link)
    split
    . next linked heq =>
      rw [heq] at hlink
      simpa [heq] using hlink.trans (path_run _ clock 0 _ linked env)
    . next heq => simpa [heq] using hlink
  . exact .refl

theorem path_after (w : Workflow σ) (op : Operation σ) : Path w (w.moments op) (w.after op) := by
  cases op with
  | create instruction => exact .single (.edit (.create instruction))
  | add source number name => exact .single (.edit (.add source number name))
  | append source number name => exact .single (.edit (.append source number name))
  | remove selector => exact .single (.edit (.remove selector))
  | removeAll => exact .single (.edit .removeAll)
  | enable now => exact .single (.enable now)
  | disable => exact .single .disable
  | process clock env => exact path_process w clock env
  | releaseFailure instruction => exact .single (.release instruction)

theorem Run.path {w w' : Workflow σ} {moments : List (Moment σ)} (h : Run w moments w') :
    Path w moments w' := by
  induction h with
  | refl => exact .refl
  | after _ op ih => exact ih.trans (path_after _ op)

theorem Reachable.exists_path {w : Workflow σ} (h : w.Reachable) :
    ∃ id config moments, Path (.empty id config) moments w := by
  induction h with
  | empty id config => exact ⟨id, config, [], .refl⟩
  | after _ op ih =>
    obtain ⟨id, config, moments, hpath⟩ := ih
    exact ⟨id, config, _, hpath.trans (path_after _ op)⟩

/-- What holds of an empty workflow and is kept by every transition always holds. -/
theorem Reachable.invariant {motive : Workflow σ → Prop}
    (empty : ∀ id config, motive (.empty id config))
    (transition : ∀ w moments w', Transition w moments w' → motive w → motive w')
    {w : Workflow σ} (h : w.Reachable) : motive w := by
  obtain ⟨id, config, moments, hpath⟩ := h.exists_path
  clear h
  induction hpath with
  | refl => exact empty id config
  | tail _ hstep ih => exact transition _ _ _ hstep ih

theorem eq_armed_of_mem_armings {α : Type} {x : Traced σ α} {moment : Moment σ}
    (h : moment ∈ armings x) : ∃ now id, moment = .armed now id := by
  obtain ⟨entry, _, harming⟩ := List.mem_filterMap.mp h
  cases entry with
  | armed id now =>
    cases harming
    exact ⟨now, id, rfl⟩
  | _ => simp [arming?] at harming

theorem invoked_not_mem_armings {α : Type} (x : Traced σ α) (visit : Visit σ) :
    .invoked visit ∉ armings x := by
  intro h
  obtain ⟨now, id, heq⟩ := eq_armed_of_mem_armings h
  simp at heq

theorem Transition.of_invoked {w w' : Workflow σ} {before after : List (Moment σ)}
    {visit : Visit σ} (h : Transition w (before ++ .invoked visit :: after) w') :
    before = [] ∧ visit.workflow = w ∧ w.pending = some visit.id := by
  generalize hmoments : before ++ .invoked visit :: after = moments at h
  have hmem : .invoked visit ∈ moments := by
    rw [← hmoments]
    simp
  cases h with
  | edit => simp at hmem
  | enable now => exact absurd hmem (invoked_not_mem_armings _ visit)
  | disable => simp at hmem
  | release instruction => simp at hmem
  | @turn reading id hpending env =>
    rw [Visit.moments] at hmoments
    cases before with
    | nil =>
      rw [List.nil_append, List.cons.injEq] at hmoments
      cases hmoments.1
      exact ⟨rfl, rfl, hpending⟩
    | cons first before =>
      -- a turn makes one invocation, and what follows it is an arming
      rw [List.cons_append, List.cons.injEq] at hmoments
      have := invoked_not_mem_armings (Visit.turn ⟨w, reading, id, env⟩) visit
      rw [← hmoments.2] at this
      simp at this

/-- The workflow that an invocation finds is where the moments before it lead to. -/
theorem Path.of_invoked {w w' : Workflow σ} {before after : List (Moment σ)}
    {visit : Visit σ} (h : Path w (before ++ .invoked visit :: after) w') :
    Path w before visit.workflow ∧ visit.workflow.pending = some visit.id := by
  generalize hmoments : before ++ .invoked visit :: after = moments at h
  induction h generalizing after with
  | refl => simp at hmoments
  | @tail moments moments' w' w'' hpath hstep ih =>
    rcases append_eq_append_cons hmoments.symm with ⟨rest, rfl, hrest⟩ | ⟨rest, hfirst, _⟩
    . subst hrest
      obtain ⟨rfl, hworkflow, hpending⟩ := hstep.of_invoked
      rw [List.append_nil, hworkflow]
      exact ⟨hpath, hpending⟩
    . exact ih hfirst.symm

end Workflow

end Sequencer
