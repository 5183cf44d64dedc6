import Sequencer.Design.Assembly
import Sequencer.Proofs.Manager.Insertion
import Sequencer.Step.Builtin

/-!
What an assembled manager has of its design. The keys that steps have of their own are compared with
each other only where the design gives them, so a step may still be stored over another one.
-/

namespace Sequencer

open Manager (assignedKeys)

namespace WorkflowDesign

variable {σ : Type}

/-- What the components of some steps build, up to the first step that cannot be built. -/
def builtSources (provider : Provider σ) : List StepDesign → σ → List (StepSource σ)
  | [], _ => []
  | step :: rest, world =>
    match provider.component? step.component with
    | none => []
    | some component =>
      match buildStep component step world with
      | (.error _, _) => []
      | (.ok source, world) => source :: builtSources provider rest world

theorem value_addStep (design : WorkflowDesign) (provider : Provider σ) (draft : Draft σ)
    (step : StepDesign) (world : σ) :
    (addStep design provider draft step world).value =
      match provider.component? step.component with
      | none => (.error (.componentNotFound step.component), world)
      | some component =>
        match buildStep component step world with
        | (.error fault, world) => (.error fault, world)
        | (.ok source, world) =>
          (.ok
            { manager := (draft.manager.insert source step.data).value.2
              kickStart := draft.kickStart && component.options.kickStart
              circular := draft.circular || component.options.circular }, world) := by
  unfold addStep
  cases provider.component? step.component with
  | none => rfl
  | some component =>
    dsimp only
    rcases buildStep component step world with ⟨_ | source, world⟩ <;> rfl

theorem key_of_buildStep {component : Component σ} {step : StepDesign} {world world' : σ}
    {source : StepSource σ} (h : buildStep component step world = (.ok source, world'))
    {key : StepKey} (hkey : step.key = some key) : source.key = some key := by
  unfold buildStep at h
  split at h
  . simp at h
  . rw [hkey] at h
    dsimp only at h
    split at h
    . next hsource =>
      cases h
      exact hsource
    . simp at h

theorem of_addSteps {design : WorkflowDesign} {provider : Provider σ} {draft draft' : Draft σ}
    {world world' : σ} {steps : List StepDesign}
    (h : (addSteps design provider draft world steps).value = (.ok draft', world')) :
    (builtSources provider steps world).length = steps.length ∧
    draft'.manager =
      draft.manager.insertAll ((builtSources provider steps world).zip (steps.map (·.data))) ∧
    ∀ (k : Nat) (step : StepDesign) (source : StepSource σ) (key : StepKey),
      steps[k]? = some step → (builtSources provider steps world)[k]? = some source →
      step.key = some key → source.key = some key := by
  induction steps generalizing draft world with
  | nil =>
    cases h
    simp [builtSources, Manager.insertAll]
  | cons step rest ih =>
    rw [addSteps, Traced.value_bind, value_addStep] at h
    rw [builtSources]
    cases hcomponent : provider.component? step.component with
    | none =>
      rw [hcomponent] at h
      simp at h
    | some component =>
      rw [hcomponent] at h
      dsimp only at h ⊢
      rcases hbuild : buildStep component step world with ⟨fault | source, next⟩
      . rw [hbuild] at h
        simp at h
      . rw [hbuild] at h
        obtain ⟨hlength, hmanager, hkeys⟩ := ih h
        refine ⟨by simp [hlength], by simpa [Manager.insertAll] using hmanager, ?_⟩
        intro k
        cases k with
        | zero =>
          rintro step' source' key hstep hsource hkey
          cases hstep
          cases hsource
          exact key_of_buildStep hbuild hkey
        | succ k => exact hkeys k

theorem stored_finish (design : WorkflowDesign) (draft : Draft σ) (world : σ) :
    (finish design draft world).value.1.stored = draft.manager.stored := by
  simp only [finish]
  split
  . rfl
  . exact Manager.stored_suspend _ _

theorem exists_draft_of_assemble {design : WorkflowDesign} {provider : Provider σ}
    {config : EngineConfig} {world world' : σ} {manager : Manager σ}
    (h : (assemble design provider config world).value = (.ok manager, world')) :
    design.fault? = none ∧ ∃ draft world'',
      (addSteps design provider ⟨.empty config, true, false⟩ world design.steps).value =
        (.ok draft, world'') ∧ manager = (finish design draft world'').value.1 := by
  unfold assemble at h
  split at h
  . simp at h
  . next hfault =>
    refine ⟨hfault, ?_⟩
    rw [Traced.value_bind] at h
    rcases hsteps : (addSteps design provider ⟨.empty config, true, false⟩ world
      design.steps).value with ⟨fault | draft, next⟩
    . rw [hsteps] at h
      simp at h
    . rw [hsteps] at h
      refine ⟨draft, next, rfl, ?_⟩
      cases h
      rfl

theorem of_assemble {design : WorkflowDesign} {provider : Provider σ} {config : EngineConfig}
    {world world' : σ} {manager : Manager σ}
    (h : (assemble design provider config world).value = (.ok manager, world')) :
    design.fault? = none ∧ ∃ draft world'',
      (addSteps design provider ⟨.empty config, true, false⟩ world design.steps).value =
        (.ok draft, world'') ∧ manager.stored = draft.manager.stored := by
  obtain ⟨hfault, draft, world'', hsteps, rfl⟩ := exists_draft_of_assemble h
  exact ⟨hfault, draft, world'', hsteps, stored_finish design draft world''⟩

theorem get?_of_stored {m m' : Manager σ} (h : m'.stored = m.stored) {key : StepKey}
    {entry : StepEntry σ} (hentry : m.steps.get? key = some entry) :
    ∃ entry', m'.steps.get? key = some entry' ∧ entry'.source = entry.source ∧
      entry'.data = entry.data := by
  have hassoc (m : Manager σ) : KeyMap.assoc? key m.stored =
      (m.steps.get? key).map fun entry => (entry.source, entry.data) :=
    KeyMap.assoc?_map (fun entry : StepEntry σ => (entry.source, entry.data)) key m.steps.entries
  have heq := hassoc m'
  rw [h, hassoc m, hentry] at heq
  obtain ⟨entry', hentry', hsame⟩ := Option.map_eq_some_iff.mp heq.symm
  rw [Prod.mk.injEq] at hsame
  exact ⟨entry', hentry', hsame⟩

/--
Assembly loses no step exactly when no key is assigned twice, and then every listed step is stored
under its key with its data. The keys that are assigned are those of the design where it gives any.
-/
theorem assemble_keeps_steps_iff {design : WorkflowDesign} {provider : Provider σ}
    {config : EngineConfig} {world world' : σ} {manager : Manager σ}
    (h : (assemble design provider config world).value = (.ok manager, world')) :
    let sources := builtSources provider design.steps world
    let keys := assignedKeys 1 sources
    sources.length = design.steps.length ∧
    (∀ (k : Nat) (step : StepDesign) (key : StepKey), design.steps[k]? = some step →
      step.key = some key → keys[k]? = some key) ∧
    (manager.steps.size = design.steps.length ↔ keys.Nodup) ∧
    (keys.Nodup → ∀ (k : Nat) (step : StepDesign) (source : StepSource σ) (key : StepKey),
      design.steps[k]? = some step → sources[k]? = some source → keys[k]? = some key →
      ∃ entry, manager.steps.get? key = some entry ∧ entry.source = source ∧
        entry.data = step.data) := by
  obtain ⟨_, draft, world'', hsteps, hstored⟩ := of_assemble h
  obtain ⟨hlength, hdraft, hkeys⟩ := of_addSteps hsteps
  dsimp only at hdraft ⊢
  generalize builtSources provider design.steps world = sources at hlength hdraft hkeys ⊢
  have hsources : (sources.zip (design.steps.map (·.data))).map (·.1) = sources := by
    apply List.map_fst_zip
    simp [hlength]
  refine ⟨hlength, ?_, ?_, ?_⟩
  . intro k step key hstep hkey
    obtain ⟨hk, _⟩ := List.getElem?_eq_some_iff.mp hstep
    have hsource : sources[k]? = some sources[k] := List.getElem?_eq_getElem (by omega)
    exact Manager.getElem?_assignedKeys 1 hsource (hkeys k step _ key hstep hsource hkey)
  . have hsize : manager.steps.size = draft.manager.steps.size := by
      have := congrArg List.length hstored
      simpa [Manager.stored, KeyMap.size] using this
    have hpairs : (sources.zip (design.steps.map (·.data))).length = design.steps.length := by
      rw [List.length_zip, List.length_map, hlength, Nat.min_self]
    rw [hsize, hdraft, ← hpairs, Manager.size_insertAll_iff, hsources]
  . intro hnodup k step source key hstep hsource hkey
    have hpair : (sources.zip (design.steps.map (·.data)))[k]? = some (source, step.data) := by
      simp [List.getElem?_zip_eq_some, hsource, hstep]
    rw [← hsources] at hnodup hkey
    have hentry := Manager.get?_insertAll (m := .empty config) hnodup hpair hkey
    rw [← hdraft] at hentry
    exact get?_of_stored hstored hentry

def markers : Provider Unit where
  component? name :=
    if name = "marker" then
      some
        { name
          label := none
          description := none
          options := .default
          makeStep := fun _ name key world => (.ok (.step (.marker name key)), world) }
    else none

def markerDesign (keys : List (Option StepKey)) : WorkflowDesign where
  name := "filling"
  options := .unset
  steps := keys.map fun key => { component := "marker", key, name := none, data := none }

theorem assemble_keeps_steps_markerDesign :
    ∃ manager, (assemble (markerDesign [some 10, none]) markers .default ()).value =
      (.ok manager, ()) ∧ manager.steps.size = 2 := by
  have hok : (assemble (markerDesign [some 10, none]) markers .default ()).value.1.isOk = true := by
    decide +kernel
  rcases hvalue : (assemble (markerDesign [some 10, none]) markers .default ()).value with
    ⟨fault | manager, _⟩
  . rw [hvalue] at hok
    simp [Except.isOk, Except.toBool] at hok
  . have hsize := (assemble_keeps_steps_iff hvalue).2.2.1
    exact ⟨manager, rfl, hsize.mpr (by decide +kernel)⟩

/-- The first step takes key 1, and the second one, which the design gives key 1, replaces it. -/
theorem assemble_drops_step_markerDesign :
    ∃ manager, (assemble (markerDesign [none, some 1]) markers .default ()).value =
      (.ok manager, ()) ∧ manager.steps.size ≠ (markerDesign [none, some 1]).steps.length := by
  have hsize : (assemble (markerDesign [none, some 1]) markers .default ()).value.1.map
      (fun manager => manager.steps.size) = .ok 1 := by
    decide +kernel
  rcases hvalue : (assemble (markerDesign [none, some 1]) markers .default ()).value with
    ⟨fault | manager, _⟩
  . rw [hvalue] at hsize
    simp [Except.map] at hsize
  . rw [hvalue] at hsize
    simp only [Except.map, Except.ok.injEq] at hsize
    refine ⟨manager, rfl, ?_⟩
    rw [hsize]
    decide

end WorkflowDesign

end Sequencer
