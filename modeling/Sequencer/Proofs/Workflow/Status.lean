import Sequencer.Proofs.Workflow.Moments

/-!
The status of a workflow and its failure record. A workflow is on while an instruction is pending,
and in error while a failure is recorded. `LastFailure` says which one that is: the last that
happened, unless it was released since.
-/

namespace Sequencer

namespace Workflow

variable {σ : Type}

structure SameStatus (w w' : Workflow σ) : Prop where
  pending : w'.pending = w.pending
  failed : w'.failed = w.failed
  on : w'.on = w.on
  error : w'.error = w.error

theorem Edit.sameStatus {w w' : Workflow σ} (h : Edit w w') : SameStatus w w' := by
  have hsame : SameStatus w w := ⟨rfl, rfl, rfl, rfl⟩
  refine h.induction hsame ?_ ?_ ?_ ?_ ?_
  . exact fun v instruction hv => ⟨hv.pending, hv.failed, hv.on, hv.error⟩
  . exact fun v id number name _ hv => ⟨hv.pending, hv.failed, hv.on, hv.error⟩
  . exact fun v id next _ hv => ⟨hv.pending, hv.failed, hv.on, hv.error⟩
  . exact fun v registered _ hv => ⟨hv.pending, hv.failed, hv.on, hv.error⟩
  . exact fun v targets _ hv => ⟨hv.pending, hv.failed, hv.on, hv.error⟩

def Moment.failure? : Moment σ → Option InstructionId
  | .invoked visit => if visit.progress.isFailure then some visit.id else none
  | _ => none

structure Moment.Keeps (id : InstructionId) (moment : Moment σ) : Prop where
  failure : moment.failure? = none
  release : moment ≠ .released none ∧ moment ≠ .released (some id)

/-- The last invocation that failed was of the instruction, and it was not released since. -/
def LastFailure (moments : List (Moment σ)) (id : InstructionId) : Prop :=
  ∃ before failure after, moments = before ++ failure :: after ∧ failure.failure? = some id ∧
    ∀ later ∈ after, later.Keeps id

theorem not_lastFailure_of_forall {moments : List (Moment σ)} (id : InstructionId)
    (h : ∀ moment ∈ moments, moment.failure? = none) : ¬LastFailure moments id := by
  rintro ⟨before, failure, after, rfl, hfailure, _⟩
  simp [h failure (by simp)] at hfailure

theorem lastFailure_append (moments moments' : List (Moment σ)) (id : InstructionId) :
    LastFailure (moments ++ moments') id ↔
      LastFailure moments' id ∨
        LastFailure moments id ∧ ∀ moment ∈ moments', moment.Keeps id := by
  constructor
  . rintro ⟨before, failure, after, hmoments, hfailure, hafter⟩
    rcases append_eq_append_cons hmoments with ⟨rest, _, hrest⟩ | ⟨rest, hfirst, rfl⟩
    . exact Or.inl ⟨rest, failure, after, hrest, hfailure, hafter⟩
    . rw [List.forall_mem_append] at hafter
      exact Or.inr ⟨⟨before, failure, rest, hfirst, hfailure, hafter.1⟩, hafter.2⟩
  . rintro (⟨before, failure, after, rfl, hfailure, hafter⟩ |
      ⟨⟨before, failure, after, rfl, hfailure, hafter⟩, hkeeps⟩)
    . exact ⟨moments ++ before, failure, after, by simp, hfailure, hafter⟩
    . refine ⟨before, failure, after ++ moments', by simp, hfailure, ?_⟩
      exact List.forall_mem_append.mpr ⟨hafter, hkeeps⟩

theorem lastFailure_singleton (moment : Moment σ) (id : InstructionId) :
    LastFailure [moment] id ↔ moment.failure? = some id := by
  constructor
  . rintro ⟨before, failure, after, hmoment, hfailure, _⟩
    cases before with
    | nil =>
      cases hmoment
      exact hfailure
    | cons first before => simp at hmoment
  . intro hfailure
    exact ⟨[], moment, [], rfl, hfailure, by simp⟩

theorem keeps_of_mem_armings {α : Type} {x : Traced σ α} {moment : Moment σ}
    (h : moment ∈ armings x) (id : InstructionId) : moment.Keeps id := by
  obtain ⟨now, armed, rfl⟩ := eq_armed_of_mem_armings h
  exact ⟨rfl, by simp⟩

theorem lastFailure_visit (visit : Visit σ) (id : InstructionId) :
    LastFailure visit.moments id ↔ visit.progress.isFailure = true ∧ visit.id = id := by
  have hkeeps : ∀ moment ∈ armings visit.turn, moment.Keeps id :=
    fun _ h => keeps_of_mem_armings h id
  have hnone := not_lastFailure_of_forall id fun moment h => (hkeeps moment h).failure
  rw [Visit.moments, ← List.singleton_append, lastFailure_append, lastFailure_singleton,
    or_iff_right hnone, and_iff_left hkeeps]
  simp [Moment.failure?]

theorem keeps_visit_iff (visit : Visit σ) (id : InstructionId) :
    (∀ moment ∈ visit.moments, moment.Keeps id) ↔ visit.progress.isFailure = false := by
  rw [Visit.moments, List.forall_mem_cons]
  constructor
  . rintro ⟨⟨hfailure, _⟩, _⟩
    simpa [Moment.failure?] using hfailure
  . intro hsuccess
    refine ⟨⟨?_, by simp⟩, fun _ h => keeps_of_mem_armings h id⟩
    simp [Moment.failure?, hsuccess]

theorem keeps_released_iff (instruction : Option InstructionId) (id : InstructionId) :
    (Moment.released instruction : Moment σ).Keeps id ↔
      instruction ≠ none ∧ instruction ≠ some id := by
  constructor
  . rintro ⟨_, hrelease⟩
    simpa using hrelease
  . intro hrelease
    exact ⟨rfl, by simpa using hrelease⟩

structure Mirrored (w : Workflow σ) : Prop where
  on : w.on = w.pending.isSome
  error : w.error = w.failed.isSome

theorem mirrored_makePending {w : Workflow σ} (hon : w.on = true)
    (herror : w.error = w.failed.isSome) (now : Instant) (next : Option InstructionId) :
    (w.makePending now next).value.Mirrored := by
  cases next with
  | none => exact ⟨rfl, herror⟩
  | some id => exact ⟨hon, herror⟩

theorem Mirrored.invoked {w : Workflow σ} (h : w.Mirrored) (now : Instant) (id : InstructionId)
    (env : Env σ) : (w.invoked now id env).Mirrored := by
  constructor
  . exact h.on
  . simp only [Workflow.invoked, h.error]
    cases (w.graph.perform now id env).1.isFailure <;> simp

theorem Mirrored.turn {w : Workflow σ} (h : w.Mirrored) (reading : Reading) {id : InstructionId}
    (hpending : w.pending = some id) (env : Env σ) :
    (w.turn reading id env).value.workflow.Mirrored := by
  have hinvoked := h.invoked reading.invoked id env
  rw [workflow_turn]
  split
  . apply mirrored_makePending _ hinvoked.error
    rw [hinvoked.on]
    simp [Workflow.invoked, hpending]
  . exact hinvoked

theorem Mirrored.of_transition {w w' : Workflow σ} {moments : List (Moment σ)} (h : w.Mirrored)
    (hstep : Transition w moments w') : w'.Mirrored := by
  cases hstep with
  | edit hedit =>
    obtain ⟨hpending, hfailed, hon, herror⟩ := hedit.sameStatus
    constructor
    . rw [hon, hpending, h.on]
    . rw [herror, hfailed, h.error]
  | enable now =>
    unfold Workflow.enable
    split
    . exact h
    . apply mirrored_makePending
      . rfl
      . exact h.error
  | disable =>
    unfold Workflow.disable
    split
    . exact h
    . exact ⟨rfl, h.error⟩
  | turn reading hpending env => exact h.turn reading hpending env
  | release instruction =>
    unfold Workflow.releaseFailure
    split
    . exact h
    . cases w.failed <;> exact ⟨h.on, rfl⟩

theorem Reachable.mirrored {w : Workflow σ} (h : w.Reachable) : w.Mirrored := by
  refine h.invariant ?_ fun w moments w' hstep hw => hw.of_transition hstep
  intro id config
  exact ⟨rfl, rfl⟩

theorem failed_makePending (w : Workflow σ) (now : Instant) (next : Option InstructionId) :
    (w.makePending now next).value.failed = w.failed := by
  cases next <;> rfl

theorem failed_enable (w : Workflow σ) (now : Instant) : (w.enable now).value.failed = w.failed := by
  unfold enable
  split
  . rfl
  . exact failed_makePending _ now _

theorem failed_disable (w : Workflow σ) : w.disable.value.failed = w.failed := by
  unfold disable
  split <;> rfl

theorem failed_turn (w : Workflow σ) (reading : Reading) (id : InstructionId) (env : Env σ) :
    (w.turn reading id env).value.workflow.failed =
      if (w.graph.perform reading.invoked id env).1.isFailure then some id else w.failed := by
  rw [workflow_turn]
  split
  . rw [failed_makePending, invoked]
  . rfl

theorem failed_releaseFailure (w : Workflow σ) (instruction : Option InstructionId) :
    (w.releaseFailure instruction).value.failed =
      if instruction = none ∨ instruction = w.failed then none else w.failed := by
  unfold releaseFailure
  cases instruction with
  | none => cases w.failed <;> simp
  | some id =>
    by_cases heq : some id = w.failed
    . cases hfailed : w.failed <;> simp_all
    . simp [heq]

theorem Transition.failed_iff {w w' : Workflow σ} {moments : List (Moment σ)}
    (h : Transition w moments w') (id : InstructionId) :
    w'.failed = some id ↔
      LastFailure moments id ∨ w.failed = some id ∧ ∀ moment ∈ moments, moment.Keeps id := by
  have hquiet {moments : List (Moment σ)} {w' : Workflow σ}
      (hkeeps : ∀ moment ∈ moments, moment.Keeps id) (hfailed : w'.failed = w.failed) :
      w'.failed = some id ↔
        LastFailure moments id ∨ w.failed = some id ∧ ∀ moment ∈ moments, moment.Keeps id := by
    have hnone := not_lastFailure_of_forall id fun moment h => (hkeeps moment h).failure
    rw [or_iff_right hnone, and_iff_left hkeeps, hfailed]
  cases h with
  | edit hedit => exact hquiet (by simp) hedit.sameStatus.failed
  | enable now => exact hquiet (fun _ h => keeps_of_mem_armings h id) (failed_enable w now)
  | disable => exact hquiet (by simp) (failed_disable w)
  | @turn reading pending hpending env =>
    rw [failed_turn, lastFailure_visit, keeps_visit_iff, Visit.progress, Visit.performed]
    cases (w.graph.perform reading.invoked pending env).1.isFailure <;> simp
  | release instruction =>
    have hnone : ¬LastFailure [Moment.released instruction] id :=
      not_lastFailure_of_forall (σ := σ) id (by simp [Moment.failure?])
    rw [failed_releaseFailure, or_iff_right hnone, List.forall_mem_singleton, keeps_released_iff]
    split
    . next hreleased =>
      constructor
      . simp
      . rintro ⟨hfailed, hother, hsame⟩
        rw [← hfailed] at hsame
        exact absurd hreleased (not_or.mpr ⟨hother, hsame⟩)
    . next hreleased =>
      rw [not_or] at hreleased
      constructor
      . intro hfailed
        exact ⟨hfailed, hreleased.1, hfailed ▸ hreleased.2⟩
      . exact fun h => h.1

theorem Path.failed_iff {w w' : Workflow σ} {moments : List (Moment σ)} (h : Path w moments w')
    (id : InstructionId) :
    w'.failed = some id ↔
      LastFailure moments id ∨ w.failed = some id ∧ ∀ moment ∈ moments, moment.Keeps id := by
  induction h with
  | refl =>
    have hnone : ¬LastFailure [] id := not_lastFailure_of_forall (σ := σ) id (by simp)
    simp [hnone]
  | tail _ hstep ih =>
    rw [hstep.failed_iff, ih, lastFailure_append, List.forall_mem_append, or_and_right, or_assoc,
      and_assoc]

theorem not_mem_moments_released {w : Workflow σ} {op : Operation σ}
    (hop : ∀ instruction, op ≠ .releaseFailure instruction) (instruction : Option InstructionId) :
    .released instruction ∉ w.moments op := by
  have hquiet {α : Type} (x : Traced σ α) : .released instruction ∉ armings x := by
    intro h
    obtain ⟨_, _, heq⟩ := eq_armed_of_mem_armings h
    simp at heq
  cases op with
  | releaseFailure other => exact absurd rfl (hop other)
  | enable now => exact hquiet _
  | process clock env =>
    simp only [moments, List.mem_flatMap, Visit.moments, List.mem_cons, reduceCtorEq, false_or,
      not_exists, not_and]
    exact fun visit _ => hquiet visit.turn
  | _ => simp [moments]

theorem failed_after {w : Workflow σ} {op : Operation σ}
    (hop : ∀ instruction, op ≠ .releaseFailure instruction)
    (hmoments : ∀ moment ∈ w.moments op, moment.failure? = none) :
    (w.after op).failed = w.failed := by
  ext id
  have hnone := not_lastFailure_of_forall id hmoments
  have hkeeps : ∀ moment ∈ w.moments op, moment.Keeps id := by
    intro moment hmoment
    refine ⟨hmoments moment hmoment, ?_, ?_⟩
    . exact fun heq => not_mem_moments_released hop _ (heq ▸ hmoment)
    . exact fun heq => not_mem_moments_released hop _ (heq ▸ hmoment)
  rw [(path_after w op).failed_iff, or_iff_right hnone, and_iff_left hkeeps]

theorem Run.reachable {w w' : Workflow σ} {moments : List (Moment σ)} (h : Run w moments w')
    (hw : w.Reachable) : w'.Reachable := by
  induction h with
  | refl => exact hw
  | after _ op ih => exact ih.after op

/--
A workflow is on exactly when an instruction is pending and in error exactly when a failure is
recorded. The record has the instruction whose invocation was the last to fail, unless that was
released since. Nothing but a release and another failure changes it.
-/
theorem Run.status_mirrors {id : Nat} {config : EngineConfig} {moments : List (Moment σ)}
    {w : Workflow σ} (h : Run (.empty id config) moments w) :
    (w.on = true ↔ ∃ pending, w.pending = some pending) ∧
    (w.error = true ↔ ∃ failed, w.failed = some failed) ∧
    (∀ failed, w.failed = some failed ↔ LastFailure moments failed) ∧
    ∀ op, (w.perform op).seen Entry.movement? = (w.moments op).filterMap Moment.movement? ∧
      ((∀ instruction, op ≠ .releaseFailure instruction) →
        (∀ moment ∈ w.moments op, moment.failure? = none) →
          (w.after op).failed = w.failed ∧ (w.after op).error = w.error) := by
  have hreachable := h.reachable (.empty id config)
  have hmirrored := hreachable.mirrored
  refine ⟨?_, ?_, ?_, ?_⟩
  . rw [hmirrored.on, Option.isSome_iff_exists]
  . rw [hmirrored.error, Option.isSome_iff_exists]
  . intro failed
    rw [h.path.failed_iff]
    simp [Workflow.empty]
  . intro op
    refine ⟨movement?_perform w op, ?_⟩
    intro hop hmoments
    have hfailed := failed_after hop hmoments
    refine ⟨hfailed, ?_⟩
    rw [(hreachable.after op).mirrored.error, hmirrored.error, hfailed]

def failing : Workflow Unit :=
  (Workflow.empty 0 .default)
    |>.after (.append (.new (.callback fun env => (.failContinue, env))) none none)
    |>.after (.append (.new (.callback fun env => (.failContinue, env))) none none)
    |>.after (.enable default)
    |>.after (.process default ⟨.empty, ()⟩)
    |>.after (.process default ⟨.empty, ()⟩)
    |>.after (.releaseFailure (some ⟨0, 0⟩))

theorem Run.status_mirrors_failing :
    ∃ moments, Run (.empty 0 .default) moments failing ∧ failing.on = false ∧
      failing.pending = none ∧ failing.error = true ∧ failing.failed = some ⟨0, 1⟩ ∧
      LastFailure moments ⟨0, 1⟩ := by
  obtain ⟨moments, hrun⟩ : ∃ moments, Run (.empty 0 .default) moments failing :=
    ⟨_, (((((Run.refl.after _).after _).after _).after _).after _).after _⟩
  obtain ⟨_, herror, hfailed, _⟩ := Run.status_mirrors hrun
  have hrecord : failing.failed = some ⟨0, 1⟩ := by
    decide +kernel
  have hoff : failing.on = false ∧ failing.pending = none := by
    decide +kernel
  exact ⟨moments, hrun, hoff.1, hoff.2, herror.mpr ⟨_, hrecord⟩, hrecord, (hfailed _).mp hrecord⟩

end Workflow

end Sequencer
