import Sequencer.Proofs.Manager.Cursor
import Sequencer.Proofs.Trace
import Sequencer.Step.Builtin

/-!
The steps that run in one cycle of a manager, each with the manager and the surroundings it finds.
-/

namespace Sequencer

def Entry.ran? {σ : Type} : Entry σ → Option StepKey
  | .called call => if call.hook = .process then some call.key else none
  | _ => none

def Flow.staysInCycle : Flow → Bool
  | .continueInCycle => true
  | .repeatWhole again => again
  | .nextCycle | .terminate => false

namespace Manager

variable {σ : Type}

structure StepRun (σ : Type) where
  manager : Manager σ
  key : StepKey
  env : Env σ

def StepRun.outcome (r : StepRun σ) : Outcome :=
  (r.manager.runStep r.key r.env).value.1

def StepRun.turn (r : StepRun σ) : Turn σ :=
  (r.manager.turn r.key r.env).value

def runs (left : Nat) (m : Manager σ) (env : Env σ) : List (StepRun σ) :=
  match left with
  | 0 => []
  | left + 1 =>
    match m.currentKey? with
    | none => []
    | some key =>
      let turn := (m.turn key env).value
      ⟨m, key, env⟩ :: if turn.goesOn then runs left turn.manager turn.env else []

def stepRuns (m : Manager σ) (env : Env σ) : List (StepRun σ) :=
  let (m, world) := (m.ensureTree env.world).value
  runs m.config.transitionBudget m { env with world }

theorem goesOn_turn (m : Manager σ) (key : StepKey) (env : Env σ) :
    (m.turn key env).value.goesOn = (m.runStep key env).value.1.flow.staysInCycle := by
  simp only [turn, Traced.value_bind]
  cases (m.runStep key env).value.1.flow <;> rfl

theorem runs_ne_nil_iff (left : Nat) (m : Manager σ) (env : Env σ) :
    runs left m env ≠ [] ↔ 0 < left ∧ m.currentKey?.isSome = true := by
  cases left with
  | zero => simp [runs]
  | succ left =>
    unfold runs
    cases m.currentKey? <;> simp

theorem head?_runs {left : Nat} {m : Manager σ} {env : Env σ} {r : StepRun σ}
    (h : r ∈ (runs left m env).head?) : r.manager = m ∧ r.env = env := by
  cases left with
  | zero => simp [runs] at h
  | succ left =>
    unfold runs at h
    cases hkey : m.currentKey? with
    | none => simp [hkey] at h
    | some key =>
      simp only [hkey, List.head?_cons, Option.mem_def, Option.some.injEq] at h
      subst h
      exact ⟨rfl, rfl⟩

theorem value_run_of_runs_nil {left : Nat} {m : Manager σ} {env : Env σ}
    (h : runs left m env = []) (limit : Nat) : (run limit left m env).value = (m, env) := by
  cases left with
  | zero => rfl
  | succ left =>
    unfold runs at h
    unfold run
    cases hkey : m.currentKey? with
    | none => rfl
    | some key => simp [hkey] at h

theorem runs_succ {m : Manager σ} {key : StepKey} (hkey : m.currentKey? = some key) (left : Nat)
    (env : Env σ) :
    runs (left + 1) m env =
      ⟨m, key, env⟩ ::
        if (m.turn key env).value.goesOn then
          runs left (m.turn key env).value.manager (m.turn key env).value.env
        else [] := by
  rw [runs, hkey]

theorem value_run_succ {m : Manager σ} {key : StepKey} (hkey : m.currentKey? = some key)
    (limit left : Nat) (env : Env σ) :
    (run limit (left + 1) m env).value =
      if (m.turn key env).value.goesOn then
        (run limit left (m.turn key env).value.manager (m.turn key env).value.env).value
      else ((m.turn key env).value.manager, (m.turn key env).value.env) := by
  rw [run, hkey]
  simp only [Traced.value_bind]
  split <;> rfl

theorem Faithful.of_runs {m : Manager σ} (h : m.Faithful) {left : Nat} {env : Env σ}
    {before rest : List (StepRun σ)} {r : StepRun σ} (hruns : runs left m env = before ++ r :: rest)
    (limit : Nat) :
    (r.manager.Faithful ∧ r.manager.currentKey? = some r.key) ∧
    (rest ≠ [] ↔ r.outcome.flow.staysInCycle = true ∧
      r.turn.manager.currentKey?.isSome = true ∧ before.length + 1 < left) ∧
    (∀ next ∈ rest.head?, next.manager = r.turn.manager ∧ next.env = r.turn.env) ∧
    (rest = [] → (Manager.run limit left m env).value = (r.turn.manager, r.turn.env)) := by
  induction left generalizing m env before with
  | zero => simp [runs] at hruns
  | succ left ih =>
    cases hkey : m.currentKey? with
    | none => simp [runs, hkey] at hruns
    | some key =>
      rw [runs_succ hkey] at hruns
      rw [value_run_succ hkey]
      -- the run is the first one, or one of those that follow with one less to go
      cases before with
      | nil =>
        rw [List.nil_append, List.cons.injEq] at hruns
        obtain ⟨rfl, rfl⟩ := hruns
        simp only [StepRun.turn, StepRun.outcome, ← goesOn_turn]
        refine ⟨⟨h, hkey⟩, ?_⟩
        cases hgoes : (m.turn key env).value.goesOn with
        | false => simp
        | true =>
          simp only [↓reduceIte, true_and, runs_ne_nil_iff]
          refine ⟨?_, fun next hnext => head?_runs hnext, fun hnil => value_run_of_runs_nil hnil limit⟩
          rw [List.length_nil, and_comm, Nat.add_lt_add_iff_right]
      | cons first before =>
        rw [List.cons_append, List.cons.injEq] at hruns
        obtain ⟨_, hruns⟩ := hruns
        cases hgoes : (m.turn key env).value.goesOn with
        | false => simp [hgoes] at hruns
        | true =>
          rw [if_pos hgoes] at hruns
          simp only [↓reduceIte, List.length_cons, Nat.add_lt_add_iff_right]
          exact ih (h.turn key env) hruns

theorem Faithful.of_mem_stepRuns {m : Manager σ} (h : m.Faithful) {env : Env σ} {r : StepRun σ}
    (hr : r ∈ m.stepRuns env) : r.manager.Faithful ∧ r.manager.currentKey? = some r.key := by
  obtain ⟨before, rest, hruns⟩ := List.append_of_mem hr
  exact ((h.ensureTree env.world).of_runs hruns 0).1

theorem Faithful.stepAt?_of_mem {m : Manager σ} (h : m.Faithful)
    {pair : StepKey × StepEntry σ} (hpair : pair ∈ m.steps.entries) :
    m.stepAt? pair.1 = pair.2.step? := by
  rw [stepAt?, KeyMap.get?_of_mem h.ascending hpair]
  rfl

theorem Faithful.isSome_stepAt? {m : Manager σ} (h : m.Faithful) (htree : m.tree.isSome = true)
    {key : StepKey} (hkey : key ∈ m.steps.keys) : (m.stepAt? key).isSome = true := by
  cases hentry : m.steps.get? key with
  | none =>
    rw [KeyMap.get?_eq_none_iff] at hentry
    contradiction
  | some entry =>
    have hmade := h.made htree _ (List.mem_map_of_mem (KeyMap.mem_of_get? hentry))
    rw [stepAt?, hentry]
    obtain ⟨source, _, _⟩ := entry
    cases source <;> exact hmade

theorem Faithful.exists_stepAt? {m : Manager σ} (h : m.Faithful) {key : StepKey}
    (hkey : m.currentKey? = some key) : ∃ step, m.stepAt? key = some step := by
  obtain ⟨tree, _, htree, _, hget⟩ := exists_tree_of_currentKey? hkey
  have hmem : key ∈ m.steps.keys := by
    rw [← h.keys tree htree]
    exact List.mem_of_getElem? hget
  exact Option.isSome_iff_exists.mp (h.isSome_stepAt? (by simp [htree]) hmem)

theorem Faithful.exists_step {m : Manager σ} (h : m.Faithful) {key : StepKey}
    (hkey : m.currentKey? = some key) :
    ∃ entry step, m.steps.get? key = some entry ∧ entry.step? = some step := by
  obtain ⟨step, hstep⟩ := h.exists_stepAt? hkey
  obtain ⟨entry, hentry, hstep⟩ := Option.bind_eq_some_iff.mp hstep
  exact ⟨entry, step, hentry, hstep⟩

theorem ran?_generateAll (world : σ) (entries : List (StepKey × StepEntry σ)) :
    (generateAll world entries).seen Entry.ran? = [] := by
  induction entries generalizing world with
  | nil => rfl
  | cons pair rest ih =>
    obtain ⟨key, entry⟩ := pair
    unfold generateAll
    split <;> simp [ih, Entry.ran?]

theorem ran?_rebuild (m : Manager σ) (world : σ) : (m.rebuild world).seen Entry.ran? = [] := by
  simp [rebuild, ran?_generateAll, Entry.ran?]

theorem ran?_ensureTree (m : Manager σ) (world : σ) :
    (m.ensureTree world).seen Entry.ran? = [] := by
  unfold ensureTree
  split
  . rfl
  . apply ran?_rebuild

theorem ran?_endCurrent (m : Manager σ) (env : Env σ) :
    (m.endCurrent env).seen Entry.ran? = [] := by
  unfold endCurrent
  split <;> rfl

theorem ran?_beginCurrent (m : Manager σ) (env : Env σ) :
    (m.beginCurrent env).seen Entry.ran? = [] := by
  unfold beginCurrent
  split <;> rfl

theorem ran?_makeCurrent (m : Manager σ) (position : Option Nat) (env : Env σ) :
    (m.makeCurrent position env).seen Entry.ran? = [] := by
  simp [makeCurrent, ran?_endCurrent, ran?_beginCurrent]

theorem ran?_resetAll (context : Context) (world : σ) (entries : List (StepKey × StepEntry σ)) :
    (resetAll context world entries).seen Entry.ran? = [] := by
  induction entries generalizing context world with
  | nil => rfl
  | cons pair rest ih =>
    obtain ⟨key, entry⟩ := pair
    unfold resetAll
    split
    . apply ih
    . simp [ih, Entry.ran?]

theorem ran?_reset (m : Manager σ) (world : σ) : (m.reset world).seen Entry.ran? = [] := by
  simp [reset, ran?_resetAll, ran?_rebuild]

theorem ran?_follow (m : Manager σ) (key : StepKey) (transition : Transition) (env : Env σ) :
    (m.follow key transition env).seen Entry.ran? = [] := by
  cases transition with
  | advance => apply ran?_makeCurrent
  | stay => rfl
  | jumpTo target =>
    simp only [follow, advance]
    split <;> simp [ran?_makeCurrent, Entry.ran?]

theorem ran?_settle (m : Manager σ) (key : StepKey) (flow : Flow) (env : Env σ) :
    (m.settle key flow env).seen Entry.ran? = [] := by
  cases flow with
  | nextCycle => rfl
  | continueInCycle => rfl
  | repeatWhole again => simp [settle, ran?_reset, Entry.ran?]
  | terminate => simp [settle, suspend, ran?_makeCurrent, ran?_reset, Entry.ran?]

theorem ran?_runStep {m : Manager σ} {key : StepKey} {entry : StepEntry σ} {step : Step σ}
    (hentry : m.steps.get? key = some entry) (hstep : entry.step? = some step) (env : Env σ) :
    (m.runStep key env).seen Entry.ran? = [key] := by
  simp [runStep, hentry, hstep, Entry.ran?]

theorem Faithful.ran?_turn {m : Manager σ} (h : m.Faithful) {key : StepKey}
    (hkey : m.currentKey? = some key) (env : Env σ) :
    (m.turn key env).seen Entry.ran? = [key] := by
  obtain ⟨entry, step, hentry, hstep⟩ := h.exists_step hkey
  simp [Manager.turn, ran?_follow, ran?_settle, ran?_runStep hentry hstep]

theorem Faithful.ran?_run {m : Manager σ} (h : m.Faithful) (limit left : Nat) (env : Env σ) :
    (Manager.run limit left m env).seen Entry.ran? = (runs left m env).map (·.key) := by
  induction left generalizing m env with
  | zero => rfl
  | succ left ih =>
    rw [Manager.run]
    cases hkey : m.currentKey? with
    | none => simp [runs, hkey]
    | some key =>
      rw [runs_succ hkey]
      simp only [Traced.seen_bind, h.ran?_turn hkey, List.map_cons, List.singleton_append]
      split
      . rw [ih (h.turn key env)]
      . rfl

theorem Faithful.ran?_process {m : Manager σ} (h : m.Faithful) (env : Env σ) :
    (m.process env).seen Entry.ran? = (m.stepRuns env).map (·.key) := by
  simp only [Manager.process, stepRuns, Traced.seen_bind, ran?_ensureTree, List.nil_append]
  exact (h.ensureTree env.world).ran?_run _ _ _

theorem config_ensureTree (m : Manager σ) (world : σ) :
    (m.ensureTree world).value.1.config = m.config := by
  unfold ensureTree
  split <;> rfl

/--
The cursor law. In each cycle the runs of steps follow each other as their outcomes say: `Moves`
allows one key after a run, which is the current one then, and the flow and the limit tell whether
there is another run.
-/
theorem Reachable.process_moves {m : Manager σ} (h : m.Reachable) (env : Env σ) :
    (m.process env).seen Entry.ran? = (m.stepRuns env).map (·.key) ∧
    ∀ before r rest, m.stepRuns env = before ++ r :: rest →
      (r.manager.currentKey? = some r.key ∧
        ∃ step, r.manager.stepAt? r.key = some step ∧
          r.outcome = (step.process
            (r.manager.context.enter r.key (r.manager.stepData? r.key)) r.env).1) ∧
      (∀ next, r.manager.Moves r.key r.outcome next ↔ next = r.turn.manager.currentKey?) ∧
      (rest ≠ [] ↔ r.outcome.flow.staysInCycle = true ∧
        r.turn.manager.currentKey?.isSome = true ∧
        before.length + 1 < max 1 m.config.immediateTransitionLimit) ∧
      (∀ next ∈ rest.head?, next.manager = r.turn.manager ∧ next.env = r.turn.env) ∧
      (rest = [] → (m.process env).value = (r.turn.manager, r.turn.env)) := by
  have hfaithful := h.faithful
  refine ⟨hfaithful.ran?_process env, ?_⟩
  intro before r rest hruns
  have hlimit : (m.ensureTree env.world).value.1.config.transitionBudget =
      max 1 m.config.immediateTransitionLimit := by
    rw [config_ensureTree, EngineConfig.transitionBudget, Nat.max_comm]
  obtain ⟨⟨hrun, hkey⟩, hrest, hnext, hlast⟩ :=
    (hfaithful.ensureTree env.world).of_runs hruns
      (m.ensureTree env.world).value.1.config.transitionBudget
  obtain ⟨entry, step, hentry, hstep⟩ := hrun.exists_step hkey
  refine ⟨⟨hkey, step, ?_, ?_⟩, hrun.moves_iff hkey r.env, ?_, hnext, hlast⟩
  . rw [stepAt?, hentry]
    exact hstep
  . rw [StepRun.outcome, value_runStep, stepData?, hentry]
    simp only [hstep]
    rfl
  . rw [← hlimit]
    exact hrest

def jumping : Manager Unit :=
  (Manager.empty .default)
    |>.after (.insert (.step (.ofProcess "first" (some 10) fun context env =>
      (⟨.jumpTo (.name "last"), .continueInCycle⟩, context, env))) none)
    |>.after (.insert (.step (.marker "middle" (some 20))) none)
    |>.after (.insert (.step (.callback "last" (some 30) fun context env => (context, env))) none)

theorem Reachable.process_jumping :
    jumping.Reachable ∧
    (jumping.process ⟨.empty, ()⟩).seen Entry.ran? = [10, 30] ∧
    ∃ r rest, jumping.stepRuns ⟨.empty, ()⟩ = r :: rest ∧
      ∀ next, r.manager.Moves r.key r.outcome next ↔ next = some 30 := by
  have hreachable : jumping.Reachable := (((Reachable.empty _).after _).after _).after _
  obtain ⟨hran, hruns⟩ := Reachable.process_moves hreachable ⟨.empty, ()⟩
  have hkeys : (jumping.stepRuns ⟨.empty, ()⟩).map (·.key) = [10, 30] := by
    decide +kernel
  have hnext : (jumping.stepRuns ⟨.empty, ()⟩).map (·.turn.manager.currentKey?) =
      [some 30, none] := by
    decide +kernel
  refine ⟨hreachable, hran.trans hkeys, ?_⟩
  cases hlist : jumping.stepRuns ⟨.empty, ()⟩ with
  | nil => simp [hlist] at hkeys
  | cons r rest =>
    rw [hlist, List.map_cons, List.cons.injEq] at hnext
    obtain ⟨_, hmoves, _⟩ := hruns [] r rest hlist
    rw [hnext.1] at hmoves
    exact ⟨r, rest, rfl, hmoves⟩

end Manager

end Sequencer
