import Sequencer.Proofs.Manager.Record
import Sequencer.Proofs.Manager.Signals

/-!
When the reset hooks of steps are called, and what becomes of what they leave.
-/

namespace Sequencer

namespace Manager

variable {σ : Type}

theorem Faithful.ascending_present {m : Manager σ} (h : m.Faithful) :
    m.present.Pairwise (· < ·) :=
  h.ascending.filter _

theorem mem_present (m : Manager σ) (key : StepKey) :
    key ∈ m.present ↔ (m.stepAt? key).isSome = true := by
  rw [present, List.mem_filter, and_iff_right_iff_imp, stepAt?, ← KeyMap.contains_iff,
    KeyMap.contains]
  exact Option.isSome_of_isSome_bind

theorem called_reset_notMem_layOutSignals (m : Manager σ) (key : StepKey) :
    .called .reset key ∉ m.layOutSignals := by
  unfold layOutSignals
  split <;> simp

theorem called_reset_notMem_restartSignals (m : Manager σ) (target : StepRef) (key : StepKey) :
    .called .reset key ∉ m.restartSignals target := by
  unfold restartSignals
  split
  . simp
  . cases m.currentKey? <;> simp

theorem Faithful.world_reset {m : Manager σ} (h : m.Faithful) (world : σ) :
    (m.reset world).value.2 = worldAfter world (m.moments (.reset world)) :=
  (h.amounts_reset world).path.world_eq

theorem Faithful.world_suspend {m : Manager σ} (h : m.Faithful) (world : σ) :
    (m.suspend world).value.2 = worldAfter world (m.moments (.suspend world)) :=
  (h.amounts_suspend world).path.world_eq

theorem Faithful.world_process {m : Manager σ} (h : m.Faithful) (env : Env σ) :
    (m.process env).value.2.world = worldAfter env.world (m.moments (.process env)) :=
  (h.amounts_process env).path.world_eq

/--
Reset hooks are called when a step or a caller asks for it, and then once for each step there is, in
ascending order of the keys. Resetting and suspending a manager does so and lays the steps out after
it. In a cycle every step that runs is followed by what its outcome asks for: the calls of its
transition, and for a flow that resets those of the reset hooks, of all that is stored, and one
rebuild. No other operation calls a reset hook. The step that is called is the stored one, or what
the generator made last. It is given the context and the world as the calls before have left them,
and what it leaves of them is what the next one is given, or else what is left in the end.
-/
theorem resets_as_asked (config : EngineConfig) (start : σ) (ops : List (Operation σ)) :
    let run := (empty config).carryOut ops
    let m := run.value
    let moments := (empty config).history ops
    (m.present.Pairwise (· < ·) ∧
      ∀ key, key ∈ m.present ↔ ((recorded key moments).bind StepEntry.step?).isSome = true) ∧
    (∀ world, (m.reset world).seen Entry.signal? =
      m.present.map (.called .reset) ++ [.rebuilt m.steps.keys]) ∧
    (∀ world, (m.suspend world).seen Entry.signal? =
      m.present.map (.called .reset) ++ [.rebuilt m.steps.keys]) ∧
    ((m.steps.keys.Pairwise (· < ·) ∧
        ∀ key, key ∈ m.steps.keys ↔ (recorded key moments).isSome = true) ∧
      ∀ env,
        (m.process env).seen Entry.signal? =
          m.layOutSignals ++ (m.stepRuns env).flatMap StepRun.signals ∧
        ∀ r ∈ m.stepRuns env, ∃ next,
          r.manager.Transfers r.key r.outcome.transition next ∧
          r.signals = .called .process r.key ::
            (r.outcome.transition.signals r.key next ++
              r.outcome.flow.signals next m.steps.keys)) ∧
    (∀ op, (∀ world, op ≠ .reset world ∧ op ≠ .suspend world) → (∀ env, op ≠ .process env) →
      ∀ key, .called .reset key ∉ (m.perform op).seen Entry.signal?) ∧
    (run.seen Entry.besidesEvents? = moments.filterMap Moment.entry? ∧
      ∀ (before after : List (Moment σ)) call found left,
        moments = before ++ .called call found left :: after →
        (recorded call.key before).bind StepEntry.step? = some call.step ∧
        (call.context =
          if call.hook = .process then
            (contextAfter before).enter call.key (recordedData call.key before)
          else (contextAfter before).focusOn call.key) ∧
        found = worldAfter start before ∧ ∃ register, call.leaves ⟨register, found⟩ = left) ∧
    m.context = contextAfter moments ∧
    (∀ world,
      (m.reset world).value.2 = worldAfter world (m.moments (.reset world)) ∧
      (m.suspend world).value.2 = worldAfter world (m.moments (.suspend world))) ∧
    ∀ env, (m.process env).value.2.world = worldAfter env.world (m.moments (.process env)) := by
  obtain ⟨hseen, left, hpath⟩ := (Faithful.empty config).path_history ops start
  have hfaithful := hpath.faithful (Faithful.empty config)
  have hrecorded := get?_eq_recorded hpath
  have hcontext := context_eq_contextAfter hpath
  dsimp only at hrecorded hcontext ⊢
  generalize (empty config).history ops = moments at hseen hpath hrecorded hcontext ⊢
  refine ⟨⟨hfaithful.ascending_present, ?_⟩, hfaithful.signals_reset, hfaithful.signals_suspend,
    ⟨⟨hfaithful.ascending, ?_⟩, ?_⟩, ?_, ⟨hseen, ?_⟩, hcontext,
    fun world => ⟨hfaithful.world_reset world, hfaithful.world_suspend world⟩,
    hfaithful.world_process⟩
  . intro key
    rw [mem_present, stepAt?, hrecorded]
  . intro key
    rw [← hrecorded]
    exact (KeyMap.contains_iff _ key).symm
  . intro env
    exact ⟨signals_process _ env, fun r hr => hfaithful.signals_of_mem_stepRuns hr⟩
  . intro op hresets hprocess key
    rw [hfaithful.signals_perform]
    cases op with
    | reset world => exact absurd rfl (hresets world).1
    | suspend world => exact absurd rfl (hresets world).2
    | process env => exact absurd rfl (hprocess env)
    | needsProcess world | getStep target world | initialStep world =>
      exact called_reset_notMem_layOutSignals _ key
    | restart target env =>
      rw [signals, List.mem_append, not_or]
      exact ⟨called_reset_notMem_layOutSignals _ key,
        called_reset_notMem_restartSignals _ target key⟩
    | insert source data | remove target | setLoop loop | editContext edit => simp [signals]
  . rintro before after call found left rfl
    exact ⟨recorded_of_called hpath, context_of_called hpath, found_of_called hpath⟩

end Manager

end Sequencer
