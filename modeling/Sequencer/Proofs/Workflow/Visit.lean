import Sequencer.Proofs.Trace
import Sequencer.Proofs.Workflow.Operation

/-!
The invocations of one cycle, each with the workflow and the surroundings it finds. They follow each
other: every visit finds what the one before it has left, and the cycle leaves what the last of them
has.
-/

namespace Sequencer

def Entry.invoked? {σ : Type} : Entry σ → Option InstructionId
  | .invoked id _ _ => some id
  | _ => none

theorem Entry.invoked?_event {σ : Type} (event : Event) :
    (Entry.event event : Entry σ).invoked? = none := rfl

theorem Entry.invoked?_armed {σ : Type} (id : InstructionId) (now : Instant) :
    (Entry.armed id now : Entry σ).invoked? = none := rfl

def Progress.movesOn : Progress → Bool
  | .success | .continueNow | .failContinue => true
  | .retry | .failRetry => false

namespace Workflow

variable {σ : Type}

structure Visit (σ : Type) where
  workflow : Workflow σ
  reading : Reading
  id : InstructionId
  env : Env σ

namespace Visit

def turn (visit : Visit σ) : Traced σ (Turn σ) :=
  visit.workflow.turn visit.reading visit.id visit.env

def found (visit : Visit σ) : Workflow σ × Env σ :=
  (visit.workflow, visit.env)

def left (visit : Visit σ) : Workflow σ × Env σ :=
  (visit.turn.value.workflow, visit.turn.value.env)

def performed (visit : Visit σ) : Progress × Graph σ × Env σ :=
  visit.workflow.graph.perform visit.reading.invoked visit.id visit.env

def progress (visit : Visit σ) : Progress :=
  visit.performed.1

end Visit

def runVisits (clock : Clock) (made left : Nat) (w : Workflow σ) (env : Env σ) :
    List (Visit σ) :=
  match left with
  | 0 => []
  | left + 1 =>
    match w.pending with
    | none => []
    | some id =>
      let turn := (w.turn (clock made) id env).value
      ⟨w, clock made, id, env⟩ ::
        if turn.goesOn then runVisits clock (made + 1) left turn.workflow turn.env else []

def visits (w : Workflow σ) (clock : Clock) (env : Env σ) : List (Visit σ) :=
  if w.on then
    match w.ensureLinked.value with
    | (.ok (), w) => runVisits clock 0 w.config.transitionBudget w env
    | (.error _, _) => []
  else []

/-- What there is after a number of visits: what the last of them left, if there was one. -/
def leftBy (start : Workflow σ × Env σ) (visits : List (Visit σ)) : Workflow σ × Env σ :=
  (visits.getLast?.map Visit.left).getD start

/-- The workflow a cycle runs: the links are seen to first. -/
def linked (w : Workflow σ) : Workflow σ :=
  if w.on then w.ensureLinked.value.2 else w

section Observer

variable {γ : Type} {observe : Entry σ → Option γ}

theorem seen_makePending (w : Workflow σ) (now : Instant) (next : Option InstructionId) :
    (w.makePending now next).seen observe =
      (next.bind fun id => observe (.armed id now)).toList := by
  cases next with
  | none => rfl
  | some id => simp [makePending]

variable (hevent : ∀ event, observe (.event event) = none)

include hevent

theorem seen_announce (g : Graph σ) (id : InstructionId) : (g.announce id).seen observe = [] := by
  unfold Graph.announce
  split <;> simp [hevent]

theorem seen_recordFailure (w : Workflow σ) (id : InstructionId) :
    (w.recordFailure id).seen observe = [] := by
  simp [recordFailure, hevent]

theorem seen_ensureLinked (w : Workflow σ) : w.ensureLinked.seen observe = [] := by
  unfold ensureLinked link
  split
  . split <;> simp [hevent]
  . rfl

theorem seen_advanceFrom (w : Workflow σ) (now : Instant) (id : InstructionId) :
    (w.advanceFrom now id).seen observe =
      ((w.graph.successor? id).bind fun next => observe (.armed next now)).toList := by
  unfold advanceFrom
  dsimp only
  split <;> simp [seen_makePending, hevent]

theorem Visit.seen_turn (visit : Visit σ) :
    visit.turn.seen observe =
      (observe (.invoked visit.id visit.reading.invoked visit.progress)).toList ++
        if visit.progress.movesOn then
          ((visit.performed.2.1.successor? visit.id).bind fun next =>
            observe (.armed next visit.reading.armed)).toList
        else [] := by
  rw [Visit.turn, Visit.progress, Visit.performed]
  simp only [Workflow.turn, Graph.invoke, Traced.seen_bind, Traced.value_bind, Traced.value_pure,
    seen_announce hevent, Traced.seen_emit]
  cases (visit.workflow.graph.perform visit.reading.invoked visit.id visit.env).1 <;>
    simp [seen_advanceFrom hevent, recordFailure, hevent, Progress.movesOn]

theorem seen_run (limit : Nat) (clock : Clock) (made left : Nat) (w : Workflow σ) (env : Env σ) :
    (run limit clock made left w env).seen observe =
      (runVisits clock made left w env).flatMap fun visit => visit.turn.seen observe := by
  induction left generalizing made w env with
  | zero => simp [run, runVisits, hevent]
  | succ left ih =>
    rw [run, runVisits]
    cases w.pending with
    | none => rfl
    | some id =>
      dsimp only
      rw [Traced.seen_bind, List.flatMap_cons]
      split
      . rw [ih]
        rfl
      . rfl

theorem seen_process (w : Workflow σ) (clock : Clock) (env : Env σ) :
    (w.process clock env).seen observe =
      (w.visits clock env).flatMap fun visit => visit.turn.seen observe := by
  unfold process visits
  cases w.on with
  | false => rfl
  | true =>
    simp only [Bool.not_true, Bool.false_eq_true, ↓reduceIte, Traced.seen_bind,
      seen_ensureLinked hevent, List.nil_append]
    rcases w.ensureLinked.value with ⟨_ | _, w'⟩
    . rfl
    . simp [seen_run hevent]

variable (harmed : ∀ id now, observe (.armed id now) = none)

include harmed

theorem seen_turn (w : Workflow σ) (reading : Reading) (id : InstructionId) (env : Env σ) :
    (w.turn reading id env).seen observe =
      (observe (.invoked id reading.invoked
        (w.graph.perform reading.invoked id env).1)).toList := by
  have hturn := Visit.seen_turn hevent ⟨w, reading, id, env⟩
  simp only [harmed, Option.bind_fun_none, Option.toList_none, ite_self, List.append_nil] at hturn
  exact hturn

end Observer

theorem invoked?_process (w : Workflow σ) (clock : Clock) (env : Env σ) :
    (w.process clock env).seen Entry.invoked? = (w.visits clock env).map (·.id) := by
  have hturn (visit : Visit σ) : visit.turn.seen Entry.invoked? = [visit.id] :=
    seen_turn Entry.invoked?_event Entry.invoked?_armed _ _ _ _
  rw [seen_process Entry.invoked?_event, List.map_eq_flatMap]
  simp only [hturn]

theorem sameProgram_of_mem_runVisits {clock : Clock} {made left : Nat} {w : Workflow σ}
    {env : Env σ} {visit : Visit σ} (h : visit ∈ runVisits clock made left w env) :
    SameProgram w visit.workflow := by
  induction left generalizing made w env with
  | zero => simp [runVisits] at h
  | succ left ih =>
    rw [runVisits] at h
    split at h
    . simp at h
    . next id _ =>
      simp only [List.mem_cons] at h
      rcases h with rfl | h
      . apply SameProgram.refl
      . split at h
        . exact (sameProgram_turn w (clock made) id env).trans (ih h)
        . simp at h

theorem leftBy_cons (start : Workflow σ × Env σ) (visit : Visit σ) (visits : List (Visit σ)) :
    leftBy start (visit :: visits) = leftBy visit.left visits := by
  cases visits with
  | nil => rfl
  | cons next rest => simp [leftBy, List.getLast?_cons]

theorem value_run (limit : Nat) (clock : Clock) (made left : Nat) (w : Workflow σ) (env : Env σ) :
    (run limit clock made left w env).value =
      leftBy (w, env) (runVisits clock made left w env) := by
  induction left generalizing made w env with
  | zero => rfl
  | succ left ih =>
    rw [run, runVisits]
    cases w.pending with
    | none => rfl
    | some id =>
      simp only [Traced.value_bind, leftBy_cons]
      split
      . apply ih
      . rfl

theorem value_process_eq_leftBy (w : Workflow σ) (clock : Clock) (env : Env σ) :
    ((w.process clock env).value.workflow, (w.process clock env).value.env) =
      leftBy (w.linked, env) (w.visits clock env) := by
  unfold process visits linked
  cases w.on with
  | false => rfl
  | true =>
    simp only [Bool.not_true, Bool.false_eq_true, ↓reduceIte, Traced.value_bind]
    rcases w.ensureLinked.value with ⟨_ | _, w'⟩
    . rfl
    . simp [value_run]

theorem found_of_runVisits {clock : Clock} {made left : Nat} {w : Workflow σ} {env : Env σ}
    {before after : List (Visit σ)} {visit : Visit σ}
    (h : runVisits clock made left w env = before ++ visit :: after) :
    visit.found = leftBy (w, env) before ∧ visit.workflow.pending = some visit.id ∧
      visit.reading = clock (made + before.length) := by
  induction left generalizing made w env before with
  | zero => simp [runVisits] at h
  | succ left ih =>
    rw [runVisits] at h
    cases hpending : w.pending with
    | none => simp [hpending] at h
    | some id =>
      rw [hpending] at h
      cases before with
      | nil =>
        rw [List.nil_append, List.cons.injEq] at h
        obtain ⟨rfl, _⟩ := h
        exact ⟨rfl, hpending, rfl⟩
      | cons first before =>
        rw [List.cons_append, List.cons.injEq] at h
        obtain ⟨rfl, h⟩ := h
        split at h
        . obtain ⟨hfound, hpending, hreading⟩ := ih h
          refine ⟨?_, hpending, ?_⟩
          . rw [hfound, leftBy_cons]
            rfl
          . rw [hreading, List.length_cons, Nat.add_right_comm, Nat.add_assoc]
        . simp at h

theorem found_of_visits {w : Workflow σ} {clock : Clock} {env : Env σ}
    {before after : List (Visit σ)} {visit : Visit σ}
    (h : w.visits clock env = before ++ visit :: after) :
    visit.found = leftBy (w.linked, env) before ∧ visit.workflow.pending = some visit.id ∧
      visit.reading = clock before.length := by
  unfold visits at h
  unfold linked
  cases hon : w.on with
  | false => simp [hon] at h
  | true =>
    rw [hon, if_pos rfl] at h
    rw [if_pos rfl]
    generalize w.ensureLinked.value = linked at h ⊢
    obtain ⟨_ | _, w'⟩ := linked
    . simp at h
    . have hvisit := found_of_runVisits h
      rwa [Nat.zero_add] at hvisit

end Workflow

end Sequencer
