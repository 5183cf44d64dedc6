import Sequencer.Proofs.Timer
import Sequencer.Proofs.Workflow.Handles

/-!
What the timers of timed instructions measure. A visit starts when the instruction becomes the
pending one, and `Timed` says that the timer of the pending instruction has run since then, whatever
happened to the workflow in between. So an invocation is late exactly when more than the timeout has
gone by since the visit started, be it between two cycles or in the middle of one.
-/

namespace Sequencer

namespace NodeKind

variable {σ : Type}

/-- If the instruction is a timed one, its timer was last reset then. -/
def RunsSince (since : Instant) : NodeKind σ → Prop
  | .wait timer | .timedCondition timer _ _ _ => timer = timer.reset since
  | _ => True

theorem runsSince_arm (now : Instant) (kind : NodeKind σ) : (kind.arm now).RunsSince now := by
  cases kind <;> simp [arm, RunsSince]

theorem RunsSince.perform {since : Instant} {kind : NodeKind σ} (h : kind.RunsSince since)
    (now : Instant) (env : Env σ) : (kind.perform now env).2.1.RunsSince since := by
  cases kind with
  | timedCondition timer test alternative holds =>
    simp only [NodeKind.perform]
    split
    . exact h
    . split <;> exact h
  | wait timer => exact h
  | _ => trivial

end NodeKind

namespace Workflow

variable {σ : Type}

theorem Path.sound {w w' : Workflow σ} {moments : List (Moment σ)} (h : Path w moments w')
    (hw : w.Sound) : w'.Sound := by
  induction h with
  | refl => exact hw
  | tail _ hstep ih => exact ih.transition hstep

theorem Transition.edit_or_sameProgram {w w' : Workflow σ} {moments : List (Moment σ)}
    (h : Transition w moments w') : Edit w w' ∨ SameProgram w w' := by
  cases h with
  | edit hedit => exact Or.inl hedit
  | enable now => exact Or.inr (sameProgram_enable w now)
  | disable => exact Or.inr (sameProgram_disable w)
  | turn reading hpending env => exact Or.inr (sameProgram_turn w reading _ env)
  | release instruction => exact Or.inr (sameProgram_releaseFailure w instruction)

theorem Path.unvisited_kind {w w' : Workflow σ} {moments : List (Moment σ)} (h : Path w moments w')
    {id : InstructionId} {kind : NodeKind σ} (hkind : w.graph.kind? id = some kind) :
    (w'.graph.kind? id).map NodeKind.unvisited = some kind.unvisited := by
  induction h with
  | refl => simp [hkind]
  | @tail _ _ w' w'' _ hstep ih =>
    rcases hstep.edit_or_sameProgram with hedit | hsame
    . obtain ⟨kind', hkind', heq⟩ := Option.map_eq_some_iff.mp ih
      rw [hedit.kind?_eq hkind', Option.map_some, heq]
    . rw [← ih, ← Graph.kind?_unvisited, hsame.unvisited, Graph.kind?_unvisited]

def LastArming (moments : List (Moment σ)) (since : Instant) (id : InstructionId) : Prop :=
  ∃ earlier between, moments = earlier ++ .armed since id :: between ∧
    ∀ moment ∈ between, moment.armed? = none

theorem LastArming.append {moments moments' : List (Moment σ)} {since : Instant}
    {id : InstructionId} (h : LastArming moments since id)
    (hquiet : ∀ moment ∈ moments', moment.armed? = none) :
    LastArming (moments ++ moments') since id := by
  obtain ⟨earlier, between, rfl, hbetween⟩ := h
  exact ⟨earlier, between ++ moments', by simp, List.forall_mem_append.mpr ⟨hbetween, hquiet⟩⟩

def Moment.arming? : Moment σ → Option (Instant × InstructionId)
  | .armed now id => some (now, id)
  | _ => none

theorem LastArming.getLast?_eq {moments : List (Moment σ)} {since : Instant} {id : InstructionId}
    (h : LastArming moments since id) :
    (moments.filterMap Moment.arming?).getLast? = some (since, id) := by
  obtain ⟨earlier, between, rfl, hbetween⟩ := h
  have hnone : between.filterMap Moment.arming? = [] := by
    rw [List.filterMap_eq_nil_iff]
    intro moment hmoment
    have hquiet := hbetween moment hmoment
    cases moment <;> simp_all [Moment.armed?, Moment.arming?]
  simp [List.filterMap_append, Moment.arming?, hnone]

theorem moments_process_eq_cons {w : Workflow σ} (hon : w.on = true) (hstale : w.linksStale = false)
    {id : InstructionId} (hpending : w.pending = some id) (clock : Clock) (env : Env σ) :
    ∃ after, w.moments (.process clock env) = .invoked ⟨w, clock 0, id, env⟩ :: after := by
  obtain ⟨left, hleft⟩ := Nat.exists_eq_add_one.mpr w.config.transitionBudget_pos
  have hlinked : w.ensureLinked.value = (.ok (), w) := by
    simp [ensureLinked, hstale]
  rw [moments, visits, if_pos hon, hlinked]
  dsimp only
  rw [hleft, runVisits, hpending]
  exact ⟨_, rfl⟩

/--
Unless it has been pending from the start, the pending instruction was the last to be armed, and its
timer has run since then.
-/
def Timed (start : Workflow σ) (moments : List (Moment σ)) (w : Workflow σ) : Prop :=
  ∀ id, w.pending = some id →
    (start.pending = some id ∧ ∀ moment ∈ moments, moment.armed? = none) ∨
    ∃ since, LastArming moments since id ∧
      ∀ kind, w.graph.kind? id = some kind → kind.RunsSince since

theorem timed_makePending (start : Workflow σ) (moments : List (Moment σ)) (w : Workflow σ)
    (now : Instant) (next : Option InstructionId) :
    Timed start (moments ++ (next.map (.armed now)).toList) (w.makePending now next).value := by
  intro id hid
  rw [pending_makePending] at hid
  subst hid
  refine Or.inr ⟨now, ⟨moments, [], rfl, by simp⟩, ?_⟩
  intro kind hkind
  obtain ⟨kind', _, rfl⟩ := Option.map_eq_some_iff.mp ((Graph.kind?_arm _ now id).symm.trans hkind)
  exact NodeKind.runsSince_arm now kind'

namespace Timed

variable {start w w' : Workflow σ} {moments moments' : List (Moment σ)}

theorem keep (h : Timed start moments w) (hpending : w'.pending = w.pending)
    (hkind : ∀ id since, w.pending = some id →
      (∀ kind, w.graph.kind? id = some kind → kind.RunsSince since) →
        ∀ kind, w'.graph.kind? id = some kind → kind.RunsSince since)
    (hquiet : ∀ moment ∈ moments', moment.armed? = none) :
    Timed start (moments ++ moments') w' := by
  intro id hid
  rw [hpending] at hid
  rcases h id hid with ⟨hstart, hnone⟩ | ⟨since, hlast, hruns⟩
  . exact Or.inl ⟨hstart, List.forall_mem_append.mpr ⟨hnone, hquiet⟩⟩
  . exact Or.inr ⟨since, hlast.append hquiet, hkind id since hid hruns⟩

theorem of_idle (hidle : w.pending = none) : Timed start moments w := by
  intro id hid
  simp [hidle] at hid

theorem enable (h : Timed start moments w) (now : Instant) :
    Timed start (moments ++ armings (w.enable now)) (w.enable now).value := by
  rw [armings_enable]
  unfold Workflow.enable
  cases w.on with
  | true => exact h.keep rfl (fun _ _ _ hruns => hruns) (by simp)
  | false =>
    have hfirst := timed_makePending start moments { w with on := true } now
      (w.registered.head?.map Registration.id)
    rw [Option.map_map] at hfirst
    exact hfirst

theorem disable (h : Timed start moments w) : Timed start (moments ++ []) w.disable.value := by
  unfold Workflow.disable
  cases w.on with
  | true => exact of_idle rfl
  | false => exact h.keep rfl (fun _ _ _ hruns => hruns) (by simp)

theorem turn (h : Timed start moments w) (reading : Reading) {id : InstructionId}
    (hpending : w.pending = some id) (env : Env σ) :
    Timed start (moments ++ Visit.moments ⟨w, reading, id, env⟩)
      (w.turn reading id env).value.workflow := by
  rw [Visit.moments_eq, workflow_turn, Visit.progress, Visit.performed]
  dsimp only
  split
  . rw [List.append_cons]
    apply timed_makePending
  . have hstays : (w.invoked reading.invoked id env).pending = w.pending := rfl
    apply h.keep hstays
    . -- an instruction that stays pending is the one that was invoked, and that leaves its timer alone
      intro other since hother hruns kind' hkind'
      rw [hpending, Option.some.injEq] at hother
      subst hother
      simp only [Workflow.invoked] at hkind'
      cases hkind : w.graph.kind? id with
      | none =>
        unfold Graph.perform at hkind'
        simp [hkind] at hkind'
      | some kind =>
        rw [Graph.perform_eq hkind, Graph.kind?_setKind_self hkind] at hkind'
        cases hkind'
        exact (hruns kind hkind).perform reading.invoked env
    . simp [Moment.armed?]

theorem transition (h : Timed start moments w) (hw : w.Sound) (hstep : Transition w moments' w') :
    Timed start (moments ++ moments') w' := by
  cases hstep with
  | edit hedit =>
    apply h.keep hedit.sameStatus.pending
    . intro id since hid hruns kind hkind
      obtain ⟨kind', hkind'⟩ := Graph.exists_kind?_of_contains (hw.pending id hid)
      rw [hedit.kind?_eq hkind', Option.some.injEq] at hkind
      exact hruns kind (hkind ▸ hkind')
    . simp
  | enable now => exact h.enable now
  | disable => exact h.disable
  | turn reading hpending env => exact h.turn reading hpending env
  | release instruction =>
    have hsame : (w.releaseFailure instruction).value.pending = w.pending ∧
        (w.releaseFailure instruction).value.graph = w.graph := by
      unfold Workflow.releaseFailure
      split
      . exact ⟨rfl, rfl⟩
      . cases w.failed <;> exact ⟨rfl, rfl⟩
    apply h.keep hsame.1
    . rw [hsame.2]
      exact fun _ _ _ hruns => hruns
    . simp [Moment.armed?]

end Timed

theorem Path.timed {w w' : Workflow σ} {moments : List (Moment σ)} (h : Path w moments w')
    (hw : w.Sound) : Timed w moments w' := by
  induction h with
  | refl => exact fun id hid => Or.inl ⟨hid, by simp⟩
  | tail hpath hstep ih => exact ih.transition (hpath.sound hw) hstep

theorem pending_turn (w : Workflow σ) (reading : Reading) (id : InstructionId) (env : Env σ) :
    (w.turn reading id env).value.workflow.pending =
      if (w.graph.perform reading.invoked id env).1.movesOn then
        (w.graph.perform reading.invoked id env).2.1.successor? id
      else w.pending := by
  rw [workflow_turn]
  split
  . rw [pending_makePending]
  . rfl

/-- How an invocation ends, and which instruction is pending then. -/
def Visit.outcome (visit : Visit σ) : Progress × Option InstructionId :=
  (visit.progress, visit.left.1.pending)

theorem Visit.outcome_eq {visit : Visit σ} {kind : NodeKind σ}
    (hkind : visit.workflow.graph.kind? visit.id = some kind)
    (hpending : visit.workflow.pending = some visit.id) :
    visit.outcome =
      ((kind.perform visit.reading.invoked visit.env).1,
        if (kind.perform visit.reading.invoked visit.env).1.movesOn then
          (visit.workflow.graph.setKind visit.id
            (kind.perform visit.reading.invoked visit.env).2.1).successor? visit.id
        else some visit.id) := by
  rw [outcome, progress, performed, left, turn, pending_turn, Graph.perform_eq hkind, hpending]

theorem Visit.outcome_wait {visit : Visit σ} {timer : Timer}
    (hkind : visit.workflow.graph.kind? visit.id = some (.wait timer))
    (hpending : visit.workflow.pending = some visit.id) :
    visit.outcome =
      if timer.isUp visit.reading.invoked then (.success, visit.workflow.graph.next? visit.id)
      else (.retry, some visit.id) := by
  have hnext : visit.workflow.graph.successor? visit.id = visit.workflow.graph.next? visit.id := by
    rw [Graph.successor?_eq, hkind]
  rw [outcome_eq hkind hpending, NodeKind.perform]
  dsimp only
  rw [Graph.setKind_kind? hkind, hnext]
  cases timer.isUp visit.reading.invoked <;> rfl

theorem Visit.outcome_timedCondition {visit : Visit σ} {timer : Timer} {test : Condition}
    {alternative : Option InstructionId} {holds : Bool}
    (hkind : visit.workflow.graph.kind? visit.id =
      some (.timedCondition timer test alternative holds))
    (hpending : visit.workflow.pending = some visit.id) :
    visit.outcome =
      if timer.isUp visit.reading.invoked then (.continueNow, alternative)
      else if test.evaluate visit.env.register then
        (.continueNow, visit.workflow.graph.next? visit.id)
      else (.retry, some visit.id) := by
  have hsuccessor (holds : Bool) :
      (visit.workflow.graph.setKind visit.id
        (.timedCondition timer test alternative holds)).successor? visit.id =
        if holds then visit.workflow.graph.next? visit.id else alternative := by
    have hunvisited : (visit.workflow.graph.setKind visit.id
        (.timedCondition timer test alternative holds)).unvisited =
        visit.workflow.graph.unvisited := Graph.unvisited_setKind hkind rfl
    rw [Graph.successor?_eq, Graph.kind?_setKind_self hkind, Graph.next?_congr hunvisited]
  rw [outcome_eq hkind hpending, NodeKind.perform]
  cases timer.isUp visit.reading.invoked with
  | true => simp [Progress.movesOn, hsuccessor]
  | false =>
    cases test.evaluate visit.env.register with
    | true => simp [Progress.movesOn, hsuccessor]
    | false => rfl

def IsLate (timeout : Int) (since now : Instant) : Prop :=
  timeout ≤ 0 ∨ timeout < now.nanoseconds - since.nanoseconds

instance (timeout : Int) (since now : Instant) : Decidable (IsLate timeout since now) :=
  inferInstanceAs (Decidable (_ ∨ _))

/--
Timed instructions measure each visit from its own start, the instant at which the instruction
became the pending one. Once it is late a wait is done and a timed condition goes to its
alternative, even if the condition holds. Until then a wait is repeated, and a timed condition goes
on if the condition holds and is repeated if not. The clock is read anew for each invocation and
each start of a visit, and those readings are the ones that the operations of the run report. `hnow`
holds of every instant that the clock can tell.
-/
theorem Reachable.timed_visit {w w' : Workflow σ} (hw : w.Reachable)
    {before after : List (Moment σ)} {visit : Visit σ}
    (hrun : Run w (before ++ .invoked visit :: after) w') (hidle : w.pending ≠ some visit.id)
    (hnow : visit.reading.invoked.seconds ≤ Instant.maxSeconds) :
    (∃ ops, w.carryOut ops = w' ∧
      (w.report ops).filterMap Entry.movement? =
        (before ++ .invoked visit :: after).filterMap Moment.movement?) ∧
    ∃ since, LastArming before since visit.id ∧
      (∀ timer timeout, visit.workflow.graph.kind? visit.id = some (.wait timer) →
        timer.HasTimeout timeout →
          visit.outcome =
            if IsLate timeout since visit.reading.invoked then
              (.success, visit.workflow.graph.next? visit.id)
            else (.retry, some visit.id)) ∧
      (∀ timer timeout test alternative holds,
        visit.workflow.graph.kind? visit.id =
          some (.timedCondition timer test alternative holds) →
        timer.HasTimeout timeout →
          visit.outcome =
            if IsLate timeout since visit.reading.invoked then (.continueNow, alternative)
            else if test.evaluate visit.env.register then
              (.continueNow, visit.workflow.graph.next? visit.id)
            else (.retry, some visit.id)) ∧
      ∀ kind, w.graph.kind? visit.id = some kind →
        (visit.workflow.graph.kind? visit.id).map NodeKind.unvisited = some kind.unvisited := by
  obtain ⟨hpath, hpending⟩ := hrun.path.of_invoked
  have htimed := hpath.timed hw.sound visit.id hpending
  rw [or_iff_right fun h => hidle h.1] at htimed
  obtain ⟨since, hlast, hruns⟩ := htimed
  refine ⟨hrun.exists_carryOut, since, hlast, ?_, ?_, fun kind => hpath.unvisited_kind⟩
  . intro timer timeout hkind htimeout
    have hreset : timer = timer.reset since := hruns _ hkind
    have hup := Timer.isUp_reset htimeout since hnow
    rw [← hreset] at hup
    rw [Visit.outcome_wait hkind hpending]
    exact if_congr hup rfl rfl
  . intro timer timeout test alternative holds hkind htimeout
    have hreset : timer = timer.reset since := hruns _ hkind
    have hup := Timer.isUp_reset htimeout since hnow
    rw [← hreset] at hup
    rw [Visit.outcome_timedCondition hkind hpending]
    exact if_congr hup rfl rfl

/-- A condition that is given five milliseconds to hold, a callback, and a wait of as much. -/
def idling : Workflow Unit :=
  (Workflow.empty 0 .default)
    |>.after (.append (.new (.timedCondition (.ofUnits default 5 .milliseconds false) (.const true)
      none)) none none)
    |>.after (.append (.new (.callback fun env => (.continueNow, env))) none none)
    |>.after (.append (.new (.wait (.ofUnits default 5 .milliseconds false))) none none)

def starting : Workflow Unit :=
  idling.after (.enable (.ofParts 0 0))

/-- The cycle begins after four milliseconds, and the callback takes another ten. -/
def delay (transition : Nat) : Reading :=
  match transition with
  | 0 => ⟨.ofParts 0 4000000, .ofParts 0 4000000⟩
  | 1 => ⟨.ofParts 0 4000000, .ofParts 0 14000000⟩
  | _ => ⟨.ofParts 0 14000000, .ofParts 0 14000000⟩

def delayed : Workflow Unit :=
  starting.after (.process delay ⟨.empty, ()⟩)

/-- The wait is measured from the end of the callback and not from the beginning of the cycle. -/
theorem Reachable.timed_visit_delayed :
    idling.Reachable ∧ idling.pending = none ∧ delayed.pending = some ⟨0, 2⟩ ∧
    Visit.outcome ⟨delayed, Clock.still (.ofParts 0 18000000) 0, ⟨0, 2⟩, ⟨.empty, ()⟩⟩ =
      (.retry, some ⟨0, 2⟩) ∧
    Visit.outcome ⟨delayed, Clock.still (.ofParts 0 19000001) 0, ⟨0, 2⟩, ⟨.empty, ()⟩⟩ =
      (.success, none) := by
  have hreachable : idling.Reachable := (((Reachable.empty _ _).after _).after _).after _
  have hidle : idling.pending = none := by
    decide +kernel
  have hdelayed : delayed.on = true ∧ delayed.linksStale = false ∧ delayed.pending = some ⟨0, 2⟩ ∧
      delayed.graph.next? ⟨0, 2⟩ = none := by
    decide +kernel
  obtain ⟨hon, hstale, hpending, hnext⟩ := hdelayed
  obtain ⟨timer, hkind, htimeout⟩ : ∃ timer, delayed.graph.kind? ⟨0, 2⟩ = some (.wait timer) ∧
      timer.HasTimeout 5000000 := by
    have htimeout : ((delayed.graph.kind? ⟨0, 2⟩).bind fun
        | .wait timer => timer.timeout
        | _ => none) = some (.ofMilliseconds 5) := by
      decide +kernel
    obtain ⟨kind, hkind, htimeout⟩ := Option.bind_eq_some_iff.mp htimeout
    cases kind with
    | wait timer =>
      dsimp only at htimeout
      refine ⟨timer, hkind, ?_⟩
      rw [Timer.HasTimeout, htimeout]
      decide
    | _ => simp at htimeout
  have hvisit (now : Instant) (hnow : now.seconds ≤ Instant.maxSeconds) :
      Visit.outcome ⟨delayed, Clock.still now 0, ⟨0, 2⟩, ⟨.empty, ()⟩⟩ =
        if IsLate 5000000 (.ofParts 0 14000000) now then (.success, none)
        else (.retry, some ⟨0, 2⟩) := by
    obtain ⟨after, hmoments⟩ :=
      moments_process_eq_cons hon hstale hpending (.still now) ⟨.empty, ()⟩
    have harrive : Run idling _ delayed :=
      (Run.refl.after (.enable (.ofParts 0 0))).after (.process delay ⟨.empty, ()⟩)
    have hrun := harrive.after (.process (.still now) ⟨.empty, ()⟩)
    rw [hmoments] at hrun
    obtain ⟨_, since, hlast, hwait, _⟩ :=
      Reachable.timed_visit hreachable hrun (by simp [hidle]) hnow
    have hsince := hlast.getLast?_eq.symm.trans
      (show _ = some (Instant.ofParts 0 14000000, ⟨0, 2⟩) by decide +kernel)
    cases hsince
    have houtcome := hwait timer 5000000 hkind htimeout
    rw [hnext] at houtcome
    exact houtcome
  refine ⟨hreachable, hidle, hpending, ?_, ?_⟩
  . rw [hvisit _ (by decide)]
    decide
  . rw [hvisit _ (by decide)]
    decide

end Workflow

end Sequencer
