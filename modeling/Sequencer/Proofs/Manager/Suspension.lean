import Sequencer.Proofs.Design.Assembly
import Sequencer.Proofs.Manager.References
import Sequencer.Proofs.Manager.Resets
import Sequencer.Scan

/-!
How long a manager stays suspended. A suspended manager has no current step, but it forgets that
when its steps change: they are laid out anew when they are next needed, with the cursor on the
first one.
-/

namespace Sequencer

namespace WorkflowDesign

variable {σ : Type}

def kickStarts (design : WorkflowDesign) (provider : Provider σ) : Bool :=
  design.options.kickStart.getD <| design.steps.all fun step =>
    (provider.component? step.component).all (·.options.kickStart)

theorem reachable_of_addSteps {design : WorkflowDesign} {provider : Provider σ}
    {draft draft' : Draft σ} {world world' : σ} {steps : List StepDesign}
    (h : (addSteps design provider draft world steps).value = (.ok draft', world'))
    (hdraft : draft.manager.Reachable) :
    draft'.manager.Reachable ∧
      draft'.kickStart = (draft.kickStart && steps.all fun step =>
        (provider.component? step.component).all (·.options.kickStart)) := by
  induction steps generalizing draft world with
  | nil =>
    cases h
    exact ⟨hdraft, by simp⟩
  | cons step rest ih =>
    rw [addSteps, Traced.value_bind, value_addStep] at h
    cases hcomponent : provider.component? step.component with
    | none => simp [hcomponent] at h
    | some component =>
      rw [hcomponent] at h
      dsimp only at h
      rcases hbuild : buildStep component step world with ⟨fault | source, next⟩
      . simp [hbuild] at h
      . rw [hbuild] at h
        obtain ⟨hreachable, hkick⟩ := ih h (hdraft.after (.insert source step.data))
        refine ⟨hreachable, ?_⟩
        rw [hkick, List.all_cons, hcomponent, Option.all_some, Bool.and_assoc]

end WorkflowDesign

namespace Manager

variable {σ : Type}

def active (m : Manager σ) : Bool :=
  if m.tree.isSome then m.current.isSome else !m.steps.keys.isEmpty

theorem active_of_tree_none {m : Manager σ} (h : m.tree = none) :
    m.active = !m.steps.keys.isEmpty := by
  simp [active, h]

theorem active_rebuild (m : Manager σ) (world : σ) :
    (m.rebuild world).value.1.active = !m.steps.keys.isEmpty := by
  rw [value_rebuild]
  cases h : m.steps.keys.isEmpty <;> simp [active]

theorem active_ensureTree (m : Manager σ) (world : σ) :
    (m.ensureTree world).value.1.active = m.active := by
  unfold ensureTree
  split
  . rfl
  . next htree => rw [active_rebuild, active_of_tree_none htree]

theorem active_needsProcess (m : Manager σ) (world : σ) :
    (m.needsProcess world).value.1 = m.active := by
  have htree := isSome_tree_ensureTree m world
  rw [← active_ensureTree m world, active, if_pos htree]
  rfl

theorem active_suspend (m : Manager σ) (world : σ) : (m.suspend world).value.1.active = false :=
  rfl

theorem currentKey?_of_inactive {m : Manager σ} (h : m.active = false) : m.currentKey? = none := by
  unfold active at h
  unfold currentKey?
  cases htree : m.tree with
  | none => rfl
  | some tree =>
    simp only [htree, Option.isSome_some, ↓reduceIte, Option.isSome_eq_false_iff,
      Option.isNone_iff_eq_none] at h
    simp [h]

theorem stepRuns_of_inactive {m : Manager σ} (h : m.active = false) (env : Env σ) :
    m.stepRuns env = [] := by
  rw [← active_ensureTree m env.world] at h
  by_contra hruns
  rw [stepRuns, ← ne_eq, runs_ne_nil_iff, currentKey?_of_inactive h] at hruns
  simp at hruns

theorem value_process_of_inactive {m : Manager σ} (h : m.active = false) (env : Env σ) :
    (m.process env).value.1 = (m.ensureTree env.world).value.1 := by
  unfold process
  rw [Traced.value_bind]
  exact congrArg Prod.fst (value_run_of_runs_nil (stepRuns_of_inactive h env) _)

/-- Whether an operation gives a manager that has no current step one, now or when it is needed. -/
def Wakes (m : Manager σ) : Operation σ → Prop
  | .insert _ _ => True
  | .remove target => ∃ key, m.keyOf? target = some key ∧ ∃ other ∈ m.steps.keys, other ≠ key
  | .reset _ => m.steps.keys ≠ []
  | .restart target _ => (m.keyOf? target).isSome = true
  | .setLoop _ | .editContext _ | .needsProcess _ | .getStep _ _ | .initialStep _ | .suspend _
  | .process _ => False

theorem active_after_insert (m : Manager σ) (source : StepSource σ) (data : Option StepData) :
    (m.after (.insert source data)).active = true := by
  have hmem : source.key.getD m.nextKey ∈ (m.after (.insert source data)).steps.keys :=
    (KeyMap.mem_keys_insert _ _ _ _).mpr (Or.inl rfl)
  rw [active_of_tree_none rfl, Bool.not_eq_true', List.isEmpty_eq_false_iff]
  exact List.ne_nil_of_mem hmem

theorem active_after_remove {m : Manager σ} (h : m.active = false) (target : StepRef) :
    (m.after (.remove target)).active = true ↔ m.Wakes (.remove target) := by
  simp only [after, Manager.remove, Wakes]
  cases htarget : m.keyOf? target with
  | none => simp [h]
  | some key =>
    have hkey := mem_keys_of_keyOf? htarget
    cases hentry : m.steps.get? key with
    | none =>
      rw [KeyMap.get?_eq_none_iff] at hentry
      contradiction
    | some entry =>
      simp only [Option.bind_some, hentry, Option.map_some, Traced.value_bind, Traced.value_pure,
        Option.some.injEq, exists_eq_left']
      rw [active_of_tree_none rfl, Bool.not_eq_true', List.isEmpty_eq_false_iff, ne_eq,
        List.eq_nil_iff_forall_not_mem]
      simp only [KeyMap.mem_keys_erase, not_forall, not_not]

theorem keyOf?_ensureTree_of_inactive {m : Manager σ} (h : m.active = false) (world : σ)
    (target : StepRef) : (m.ensureTree world).value.1.keyOf? target = m.keyOf? target := by
  apply keyOf?_ensureTree
  cases htree : m.tree with
  | some tree => exact Or.inr (Or.inl rfl)
  | none =>
    -- there are no steps, so none gets another name
    have hkeys : m.steps.keys = [] := by simpa [active_of_tree_none htree] using h
    have hentries : m.steps.entries = [] := List.map_eq_nil_iff.mp hkeys
    simp [hentries]

theorem Faithful.active_after_restart {m : Manager σ} (hm : m.Faithful) (h : m.active = false)
    (target : StepRef) (env : Env σ) :
    (m.after (.restart target env)).active = true ↔ m.Wakes (.restart target env) := by
  have hensured := hm.ensureTree env.world
  have htree := isSome_tree_ensureTree m env.world
  have hinactive := (active_ensureTree m env.world).trans h
  rw [Wakes, ← keyOf?_ensureTree_of_inactive h env.world]
  simp only [after, Manager.restart, Traced.value_bind]
  generalize (m.ensureTree env.world).value = ensured at hensured htree hinactive ⊢
  cases htarget : ensured.1.keyOf? target with
  | none => simpa using hinactive
  | some key =>
    obtain ⟨tree, htree⟩ := Option.isSome_iff_exists.mp htree
    obtain ⟨position, hposition, _⟩ :=
      hensured.exists_position_of_mem htree (mem_keys_of_keyOf? htarget)
    have hmoved := sameTree_makeCurrent ensured.1 (some position) { env with world := ensured.2 }
    simp [hposition, active, hmoved.tree, hmoved.current, htree]

theorem Faithful.active_after_iff {m : Manager σ} (hm : m.Faithful) (h : m.active = false)
    (op : Operation σ) : (m.after op).active = true ↔ m.Wakes op := by
  have hquiet (hop : (m.after op).active = m.active) (hwakes : ¬m.Wakes op) :
      (m.after op).active = true ↔ m.Wakes op := by
    simp [hop, h, hwakes]
  cases op with
  | insert source data => simp [active_after_insert, Wakes]
  | remove target => exact active_after_remove h target
  | setLoop loop => exact hquiet rfl id
  | editContext edit => exact hquiet rfl id
  | needsProcess world => exact hquiet (active_ensureTree m world) id
  | getStep target world => exact hquiet (active_ensureTree m world) id
  | initialStep world => exact hquiet (active_ensureTree m world) id
  | reset world =>
    have hactive : (m.after (.reset world)).active = !m.steps.keys.isEmpty := active_rebuild _ _
    simp [hactive, Wakes]
  | suspend world => simp [after, active_suspend, Wakes]
  | restart target env => exact hm.active_after_restart h target env
  | process env =>
    apply hquiet _ id
    rw [after, value_process_of_inactive h, active_ensureTree]

theorem Faithful.hook_eq_reset {m : Manager σ} (hm : m.Faithful) (h : m.active = false)
    {op : Operation σ} (hop : ¬m.Wakes op) {hook : Hook} {key : StepKey}
    (hsignal : .called hook key ∈ (m.perform op).seen Entry.signal?) : hook = .reset := by
  rw [hm.signals_perform] at hsignal
  have hlayOut : .called hook key ∉ m.layOutSignals := by
    unfold layOutSignals
    split <;> simp
  have hreset (hmem : .called hook key ∈ m.resetSignals) : hook = .reset := by
    simp only [resetSignals, List.mem_append, List.mem_map, List.mem_singleton, reduceCtorEq,
      or_false] at hmem
    obtain ⟨_, _, heq⟩ := hmem
    cases heq
    rfl
  cases op with
  | insert source data | remove target | setLoop loop | editContext edit => simp [signals] at hsignal
  | needsProcess world | getStep target world | initialStep world => exact absurd hsignal hlayOut
  | reset world | suspend world => exact hreset hsignal
  | restart target env =>
    rw [Wakes, Bool.not_eq_true, Option.isSome_eq_false_iff, Option.isNone_iff_eq_none,
      ← keyOf?_ensureTree_of_inactive h env.world] at hop
    simp only [signals, restartSignals, laidOut, hop, List.append_nil] at hsignal
    exact absurd hsignal hlayOut
  | process env =>
    rw [signals, stepRuns_of_inactive h, List.flatMap_nil, List.append_nil] at hsignal
    exact absurd hsignal hlayOut

def Undisturbed (m : Manager σ) : List (Operation σ) → Prop
  | [] => True
  | op :: ops => ¬m.Wakes op ∧ (m.after op).Undisturbed ops

theorem Reachable.undisturbed {m : Manager σ} (h : m.Reachable) (hinactive : m.active = false)
    {ops : List (Operation σ)} (hops : m.Undisturbed ops) :
    ((m.carryOut ops).value.Reachable ∧ (m.carryOut ops).value.active = false) ∧
    ∀ hook key, .called hook key ∈ (m.carryOut ops).seen Entry.signal? → hook = .reset := by
  induction ops generalizing m with
  | nil => exact ⟨⟨h, hinactive⟩, by simp [carryOut]⟩
  | cons op ops ih =>
    obtain ⟨hop, hops⟩ := hops
    have hafter : (m.after op).active = false := by
      rwa [← Bool.not_eq_true, h.faithful.active_after_iff hinactive]
    obtain ⟨hkept, hhooks⟩ := ih (h.after op) hafter hops
    rw [carryOut, Traced.value_bind, Traced.seen_bind, value_perform]
    refine ⟨hkept, ?_⟩
    intro hook key hsignal
    rcases List.mem_append.mp hsignal with hfirst | hrest
    . exact h.faithful.hook_eq_reset hinactive hop hfirst
    . exact hhooks hook key hrest

inductive Suspended : Manager σ → Prop where
  | suspend {m : Manager σ} (h : m.Reachable) (world : σ) : Suspended (m.suspend world).value.1
  | terminate {m : Manager σ} {env : Env σ} {r : StepRun σ} (h : m.Reachable)
    (hr : r ∈ m.stepRuns env) (hflow : r.outcome.flow = .terminate) :
    Suspended (m.process env).value.1
  | assemble {design : WorkflowDesign} {provider : Provider σ} {config : EngineConfig}
    {world world' : σ} {m : Manager σ}
    (h : (design.assemble provider config world).value = (.ok m, world'))
    (hkick : design.kickStarts provider = false) : Suspended m

theorem Faithful.active_process_of_terminate {m : Manager σ} (h : m.Faithful) {env : Env σ}
    {r : StepRun σ} (hr : r ∈ m.stepRuns env) (hflow : r.outcome.flow = .terminate) :
    (m.process env).value.1.active = false := by
  obtain ⟨before, rest, hruns⟩ := List.append_of_mem hr
  obtain ⟨_, hrest, _, hlast⟩ := (h.ensureTree env.world).of_runs hruns
    (m.ensureTree env.world).value.1.config.transitionBudget
  -- a terminating step is the last one to run
  have hnil : rest = [] := by
    by_contra hne
    simpa [hflow, Flow.staysInCycle] using (hrest.mp hne).1
  rw [Manager.process, Traced.value_bind, hlast hnil, StepRun.turn, Manager.turn, Traced.value_bind,
    Traced.value_bind, show (r.manager.runStep r.key r.env).value.1.flow = .terminate from hflow]
  apply active_suspend

theorem Suspended.reachable_inactive {m : Manager σ} (h : m.Suspended) :
    m.Reachable ∧ m.active = false := by
  cases h with
  | @suspend m hm world => exact ⟨hm.after (.suspend world), active_suspend m world⟩
  | @terminate m env _ hm hr hflow =>
    exact ⟨hm.after (.process env), hm.faithful.active_process_of_terminate hr hflow⟩
  | @assemble design provider config world world' m h hkick =>
    obtain ⟨_, draft, next, hsteps, rfl⟩ := WorkflowDesign.exists_draft_of_assemble h
    obtain ⟨hdraft, hkicks⟩ := WorkflowDesign.reachable_of_addSteps hsteps (.empty config)
    have hfalse : design.options.kickStart.getD draft.kickStart = false := by
      rw [hkicks, Bool.true_and]
      exact hkick
    have hfinish : (design.finish draft next).value.1 =
        ((draft.manager.setLoop (design.options.circular.getD draft.circular)).suspend
          next).value.1 := by
      simp [WorkflowDesign.finish, hfalse]
    rw [hfinish]
    exact ⟨(hdraft.after (.setLoop _)).after (.suspend next), active_suspend _ next⟩

theorem runAll_of_inactive {m : Manager σ} (h : m.active = false) (name : String)
    (clocks : String → Clock) (ran : Nat) (env : Env σ) (rest : List (String × CyclicProcess σ)) :
    let (_, asked, world) := (m.needsProcess env.world).value
    (ScanCycle.runAll clocks ran env ((name, .manager m) :: rest)).value =
      let scanned := (ScanCycle.runAll clocks ran { env with world } rest).value
      { scanned with processes := (name, .manager asked) :: scanned.processes } := by
  have hanswer := active_needsProcess m env.world
  rw [h] at hanswer
  simp [ScanCycle.runAll, CyclicProcess.isActive, hanswer]

/--
A suspended manager stays so until an operation wakes it: until it is restarted at a step it has, a
step is stored, one of several is removed, or it is reset with steps to lay out. Until then it needs
no processing, scans pass over it, and no step is called besides the reset hooks of further
suspensions.
-/
theorem Suspended.until_woken {m : Manager σ} (h : m.Suspended) {ops : List (Operation σ)}
    (hops : m.Undisturbed ops) :
    let run := m.carryOut ops
    (∀ hook key, .called hook key ∈ run.seen Entry.signal? → hook = .reset) ∧
    (∀ world, (run.value.needsProcess world).value.1 = false) ∧
    (∀ (name : String) clocks ran env rest,
      let (_, asked, world) := (run.value.needsProcess env.world).value
      (ScanCycle.runAll clocks ran env ((name, .manager run.value) :: rest)).value =
        let scanned := (ScanCycle.runAll clocks ran { env with world } rest).value
        { scanned with processes := (name, .manager asked) :: scanned.processes }) ∧
    ∀ op world, ((run.value.after op).needsProcess world).value.1 = true ↔ run.value.Wakes op := by
  obtain ⟨hreachable, hinactive⟩ := h.reachable_inactive
  obtain ⟨⟨hreachable', hinactive'⟩, hhooks⟩ := hreachable.undisturbed hinactive hops
  refine ⟨hhooks, ?_, runAll_of_inactive hinactive', ?_⟩
  . intro world
    rw [active_needsProcess, hinactive']
  . intro op world
    rw [active_needsProcess]
    exact hreachable'.faithful.active_after_iff hinactive' op

def unstarted : WorkflowDesign :=
  { WorkflowDesign.markerDesign [none, none] with
    options := { DesignOptions.unset with kickStart := some false } }

def waiting : Manager Unit :=
  match (unstarted.assemble WorkflowDesign.markers .default ()).value.1 with
  | .ok m => m
  | .error _ => .empty .default

theorem suspended_waiting : waiting.Suspended :=
  have hassemble : (unstarted.assemble WorkflowDesign.markers .default ()).value = (.ok waiting, ()) :=
    rfl
  .assemble hassemble rfl

theorem Suspended.until_woken_waiting :
    let ops := [.process ⟨.empty, ()⟩, .setLoop true, .remove (.name "other"), .suspend ()]
    let m := (waiting.carryOut ops).value
    waiting.Suspended ∧ waiting.Undisturbed ops ∧ (m.needsProcess ()).value.1 = false ∧
      ((m.after (.restart (.key 2) ⟨.empty, ()⟩)).needsProcess ()).value.1 = true := by
  intro ops m
  have hmissing : ((waiting.after (.process ⟨.empty, ()⟩)).after (.setLoop true)).keyOf?
      (.name "other") = none := by
    decide +kernel
  have hops : waiting.Undisturbed ops := by
    refine ⟨id, id, ?_, id, trivial⟩
    rintro ⟨key, hkey, _⟩
    rw [hmissing] at hkey
    simp at hkey
  obtain ⟨_, hneeds, _, hwakes⟩ := Suspended.until_woken suspended_waiting hops
  refine ⟨suspended_waiting, hops, hneeds (), (hwakes _ ()).mpr ?_⟩
  rw [Wakes]
  decide +kernel

/-- A manager that was not to start by itself starts when a step is stored. -/
theorem Suspended.woken_by_insert :
    let ops := [.insert (.step (.marker "added" none)) none, .process ⟨.empty, ()⟩]
    waiting.Suspended ∧ (waiting.needsProcess ()).value.1 = false ∧
      ((waiting.after (.insert (.step (.marker "added" none)) none)).needsProcess ()).value.1 =
        true ∧
      Signal.called .process 1 ∈ (waiting.carryOut ops).seen Entry.signal? ∧
      Signal.called .willEnd 1 ∈ (waiting.carryOut ops).seen Entry.signal? ∧
      Signal.called .didBegin 2 ∈ (waiting.carryOut ops).seen Entry.signal? :=
  ⟨suspended_waiting, rfl, rfl, by decide +kernel, by decide +kernel, by decide +kernel⟩

end Manager

end Sequencer
