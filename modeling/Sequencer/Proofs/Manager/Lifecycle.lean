import Sequencer.Proofs.Context
import Sequencer.Proofs.Manager.Record
import Sequencer.Proofs.Manager.Signals

/-!
The begin and end calls of steps. `Moment.Brackets` says which step is open after a moment, and
which has to be open for it to come about; the open step of a run is the one under the cursor.
-/

namespace Sequencer

namespace Manager

variable {σ : Type}

/-- The moment may come when `opened` is open, and then `opened'` is. -/
def Moment.Brackets (opened : Option StepKey) : Moment σ → Option StepKey → Prop
  | .rebuilt keys, opened' => IsLeast (· ∈ keys) opened'
  | .called call _ _, opened' =>
    match call.hook with
    | .process => opened = some call.key ∧ opened' = opened
    | .willEnd => opened = some call.key ∧ opened' = none
    | .didBegin => opened = none ∧ opened' = some call.key
    | .reset => opened' = opened
  | .inserted _ _ _, opened' | .removed _, opened' | .suspended, opened' => opened' = none
  | .entered _, opened' | .edited _, opened' | .generated _ _ _, opened' => opened' = opened

inductive Bracketed : Option StepKey → List (Moment σ) → Option StepKey → Prop where
  | nil {opened : Option StepKey} : Bracketed opened [] opened
  | cons {opened opened' closed : Option StepKey} {moment : Moment σ} {moments : List (Moment σ)}
      (hmoment : moment.Brackets opened opened') (h : Bracketed opened' moments closed) :
      Bracketed opened (moment :: moments) closed

namespace Bracketed

variable {opened opened' closed : Option StepKey} {moment : Moment σ}
  {moments moments' : List (Moment σ)}

theorem single (h : moment.Brackets opened closed) : Bracketed opened [moment] closed :=
  .cons h .nil

theorem append (h : Bracketed opened moments opened') (h' : Bracketed opened' moments' closed) :
    Bracketed opened (moments ++ moments') closed := by
  induction h with
  | nil => exact h'
  | cons hmoment _ ih => exact .cons hmoment (ih h')

theorem generations (world : σ) (entries : List (StepKey × StepEntry σ)) :
    Bracketed opened (Manager.generations world entries) opened := by
  induction entries generalizing world with
  | nil => exact .nil
  | cons pair rest ih =>
    obtain ⟨key, entry⟩ := pair
    unfold Manager.generations
    split
    . exact ih world
    . exact .cons rfl (ih _)

end Bracketed

theorem Move.bracketed {s s' : Manager σ × σ} {moments : List (Moment σ)} (h : Move s moments s')
    (hs : s.1.Faithful) : Bracketed s.1.currentKey? moments s'.1.currentKey? := by
  cases h with
  | enter m found world => exact .single rfl
  | insert m world source data => exact .single rfl
  | remove hkey world => exact .single rfl
  | setLoop m world loop => exact .nil
  | edit m world edit => exact .single rfl
  | rebuild m world =>
    have hleast := isLeast_head? hs.ascending
    rw [← currentKey?_rebuild m world] at hleast
    exact (Bracketed.generations world _).append (.single hleast)
  | process hkey hstep env hleft => exact .single ⟨hkey, rfl⟩
  | @willEnd m key step hkey hstep env left hleft =>
    have hclosed : currentKey? { m with context := left.1, current := none } = none := by
      simp [currentKey?]
    exact .single ⟨hkey, hclosed⟩
  | didBegin hopen hkey hstep env hleft => exact .single ⟨hopen, hkey⟩
  | reset hstep env hleft => exact .single rfl
  | shift hopen hcurrent hposition world =>
    rw [hopen, hposition]
    exact .nil
  | suspend m world =>
    have hclosed : currentKey? { m with current := none } = none := by
      simp [currentKey?]
    exact .single hclosed

theorem Path.bracketed {s s' : Manager σ × σ} {moments : List (Moment σ)} (h : Path s moments s')
    (hs : s.1.Faithful) : Bracketed s.1.currentKey? moments s'.1.currentKey? := by
  induction h with
  | refl => exact .nil
  | tail hpath hmove ih => exact ih.append (hmove.bracketed (hpath.faithful hs))

theorem Makes.focus_eq {m : Manager σ} {call : StepCall σ} {found : σ} {left : Context × σ}
    (h : m.Makes call found left) : call.context.focus = some call.key := by
  rw [← h.callOf]
  unfold Manager.callOf
  split <;> rfl

/--
The calls of steps are well bracketed in every run of a manager. What a run reports is what its
moments say, and these lead from no open step to the one under the cursor: a rebuild opens the first
step, no call is made for it, and from then on a step is called to begin, to run and to end only in
this order. A step that is called finds itself in focus, whatever it does with the context. A
suspension ends with a rebuild and closes what that opened without a call. In a cycle, each step
that runs is followed by the calls that its outcome asks for.
-/
theorem lifecycle_bracketed (config : EngineConfig) (start : σ) (ops : List (Operation σ)) :
    let run := (empty config).carryOut ops
    let m := run.value
    let moments := (empty config).history ops
    (run.seen Entry.besidesEvents? = moments.filterMap Moment.entry? ∧
      Bracketed none moments m.currentKey?) ∧
    (∀ (before after : List (Moment σ)) keys, moments = before ++ .rebuilt keys :: after →
      ∀ key, key ∈ keys ↔ (recorded key before).isSome = true) ∧
    (∀ (before after : List (Moment σ)) call found left,
      moments = before ++ .called call found left :: after →
      (recorded call.key before).bind StepEntry.step? = some call.step ∧
        ∀ context, call.context.Edits context → context.focus = some call.key) ∧
    (∀ op, (m.perform op).seen Entry.signal? = m.signals op) ∧
    (∀ world, (m.suspend world).value.1.currentKey? = none) ∧
    ∀ env, ∀ r ∈ m.stepRuns env, ∃ next,
      r.manager.Transfers r.key r.outcome.transition next ∧
        r.signals = .called .process r.key ::
          (r.outcome.transition.signals r.key next ++
            r.outcome.flow.signals next m.steps.keys) := by
  obtain ⟨hseen, left, hpath⟩ := (Faithful.empty config).path_history ops start
  have hfaithful := hpath.faithful (Faithful.empty config)
  dsimp only
  generalize (empty config).history ops = moments at hseen hpath ⊢
  refine ⟨⟨hseen, hpath.bracketed (Faithful.empty config)⟩, ?_, ?_, ?_, ?_, ?_⟩
  . rintro before after keys rfl
    exact mem_rebuilt_iff hpath
  . rintro before after call found left rfl
    obtain ⟨_, _, hmakes⟩ := hpath.of_called
    refine ⟨recorded_of_called hpath, ?_⟩
    intro context hedits
    rw [hedits.focus_eq, hmakes.focus_eq]
  . exact hfaithful.signals_perform
  . intro world
    simp [suspend, currentKey?]
  . intro env r hr
    exact hfaithful.signals_of_mem_stepRuns hr

/-- A termination after an advance ends the step that has just begun, and nothing begins again. -/
example :
    let last : Step Unit := .ofProcess "last" (some 1) fun context env =>
      (⟨.advance, .terminate⟩, context, env)
    let m := ((empty .default).after (.insert (.step last) none)).after
      (.insert (.step (.marker "next" (some 2))) none)
    (m.process ⟨.empty, ()⟩).seen Entry.signal? =
      [.rebuilt [1, 2], .called .process 1, .called .willEnd 1, .called .didBegin 2,
        .called .willEnd 2, .called .reset 1, .called .reset 2, .rebuilt [1, 2]] := by
  decide +kernel

end Manager

end Sequencer
