import Sequencer.Proofs.Manager.Suspension

/-!
What comes of a design. Assembly fails for the first thing that is wrong with it: the design itself
is looked at before any component is asked, and the steps are built one after the other. Where
nothing is wrong, the manager has the options of the design, or else those that its components ask
for.
-/

namespace Sequencer

namespace WorkflowDesign

variable {σ : Type}

def Unnamed (design : WorkflowDesign) : Prop :=
  ∀ c ∈ design.name.toList, Text.isBlank c = true

def explicitKeys (steps : List StepDesign) : List StepKey :=
  steps.filterMap (·.key)

inductive StepFault (provider : Provider σ) (step : StepDesign) (world : σ) :
    WorkflowError → Prop where
  | unknown (hcomponent : provider.component? step.component = none) :
      StepFault provider step world (.componentNotFound step.component)
  | failed {component : Component σ} {causes : List String} {next : σ}
      (hcomponent : provider.component? step.component = some component)
      (hmake : component.makeStep step.data step.stepName step.key world = (.error causes, next)) :
      StepFault provider step world (.compilation step.component (.failed causes))
  | wrongKey {component : Component σ} {source : StepSource σ} {key : StepKey} {next : σ}
      (hcomponent : provider.component? step.component = some component)
      (hmake : component.makeStep step.data step.stepName step.key world = (.ok source, next))
      (hkey : step.key = some key) (hwrong : source.key ≠ some key) :
      StepFault provider step world (.compilation step.component (.wrongKey source.key key))

inductive Builds (provider : Provider σ) : List StepDesign → σ → σ → Prop where
  | nil (world : σ) : Builds provider [] world world
  | cons {step : StepDesign} {rest : List StepDesign} {component : Component σ}
      {source : StepSource σ} {world next world' : σ}
      (hcomponent : provider.component? step.component = some component)
      (hmake : component.makeStep step.data step.stepName step.key world = (.ok source, next))
      (hkey : ∀ key, step.key = some key → source.key = some key)
      (hrest : Builds provider rest next world') : Builds provider (step :: rest) world world'

def FirstFault (provider : Provider σ) (steps : List StepDesign) (world : σ)
    (fault : WorkflowError) : Prop :=
  ∃ before step after, steps = before ++ step :: after ∧
    ∃ next, Builds provider before world next ∧ StepFault provider step next fault

inductive Illegal (design : WorkflowDesign) : DesignFault → Prop where
  | unnamed (hblank : design.Unnamed) : Illegal design .unnamed
  | repeated {before after : List StepDesign} {step : StepDesign} {key : StepKey}
      (hname : ¬design.Unnamed) (hsteps : design.steps = before ++ step :: after)
      (hkey : step.key = some key) (htaken : key ∈ explicitKeys before)
      (hfirst : (explicitKeys before).Nodup) : Illegal design (.repeatedKey design.name key)

inductive Fails (design : WorkflowDesign) (provider : Provider σ) (world : σ) :
    WorkflowError → Prop where
  | illegal {fault : DesignFault} (h : design.Illegal fault) :
      Fails design provider world (.illegalDesign fault)
  | step {fault : WorkflowError} (hname : ¬design.Unnamed)
      (hkeys : (explicitKeys design.steps).Nodup)
      (hfault : FirstFault provider design.steps world fault) : Fails design provider world fault

def circles (design : WorkflowDesign) (provider : Provider σ) : Bool :=
  design.options.circular.getD <| design.steps.any fun step =>
    (provider.component? step.component).any (·.options.circular)

theorem exists_split_cons {α : Type} {P : List α → α → Prop} {first : α} {rest : List α} :
    (∃ before x after, first :: rest = before ++ x :: after ∧ P before x) ↔
      P [] first ∨ ∃ before x after, rest = before ++ x :: after ∧ P (first :: before) x := by
  constructor
  . rintro ⟨before, x, after, hsplit, hx⟩
    rcases List.cons_eq_append_iff.mp hsplit with ⟨rfl, heq⟩ | ⟨tail, rfl, heq⟩
    . cases heq
      exact Or.inl hx
    . exact Or.inr ⟨tail, x, after, heq, hx⟩
  . rintro (hfirst | ⟨before, x, after, rfl, hx⟩)
    . exact ⟨[], first, rest, rfl, hfirst⟩
    . exact ⟨first :: before, x, after, rfl, hx⟩

theorem explicitKeys_cons_none {step : StepDesign} (h : step.key = none)
    (rest : List StepDesign) : explicitKeys (step :: rest) = explicitKeys rest :=
  List.filterMap_cons_none h

theorem explicitKeys_cons_some {step : StepDesign} {key : StepKey} (h : step.key = some key)
    (rest : List StepDesign) : explicitKeys (step :: rest) = key :: explicitKeys rest :=
  List.filterMap_cons_some h

theorem repeatedKey?_eq_some_iff {taken : List StepKey} (htaken : taken.Nodup)
    {steps : List StepDesign} {key : StepKey} :
    repeatedKey? taken steps = some key ↔
      ∃ before step after, steps = before ++ step :: after ∧ step.key = some key ∧
        key ∈ taken ++ explicitKeys before ∧ (taken ++ explicitKeys before).Nodup := by
  induction steps generalizing taken with
  | nil => simp [repeatedKey?]
  | cons first rest ih =>
    rw [exists_split_cons, repeatedKey?]
    cases hkey : first.key with
    | none => simpa [explicitKeys_cons_none hkey] using ih htaken
    | some other =>
      simp only [explicitKeys_cons_some hkey, List.nodup_middle]
      split
      . next hmem =>
        constructor
        . intro hother
          cases hother
          exact Or.inl ⟨rfl, List.mem_append_left _ hmem, by simpa [explicitKeys] using htaken⟩
        . rintro (⟨hother, _⟩ | ⟨_, _, _, _, _, _, hnodup⟩)
          . exact hother
          . simp [hmem] at hnodup
      . next hmem =>
        have hfree : ¬(some other = some key ∧ key ∈ taken ++ explicitKeys [] ∧
            (taken ++ explicitKeys []).Nodup) := by
          rintro ⟨hother, htaken, _⟩
          cases hother
          exact hmem (by simpa [explicitKeys] using htaken)
        rw [ih (List.nodup_cons.mpr ⟨hmem, htaken⟩), or_iff_right hfree]
        simp only [List.cons_append, List.mem_cons, List.mem_append, or_left_comm]

theorem repeatedKey?_eq_none_iff {taken : List StepKey} (htaken : taken.Nodup)
    {steps : List StepDesign} :
    repeatedKey? taken steps = none ↔ (taken ++ explicitKeys steps).Nodup := by
  induction steps generalizing taken with
  | nil => simpa [repeatedKey?, explicitKeys] using htaken
  | cons step rest ih =>
    rw [repeatedKey?]
    cases hkey : step.key with
    | none => simpa [explicitKeys_cons_none hkey] using ih htaken
    | some key =>
      rw [explicitKeys_cons_some hkey, List.nodup_middle]
      dsimp only
      split
      . next hmem => simp [hmem]
      . next hmem => exact ih (List.nodup_cons.mpr ⟨hmem, htaken⟩)

theorem allBlank_iff (design : WorkflowDesign) :
    Text.allBlank design.name = true ↔ design.Unnamed := by
  rw [Text.allBlank, List.all_eq_true, Unnamed]

theorem fault?_eq_none_iff (design : WorkflowDesign) :
    design.fault? = none ↔ ¬design.Unnamed ∧ (explicitKeys design.steps).Nodup := by
  rw [fault?, ← allBlank_iff]
  split
  . next hblank => simp [hblank]
  . next hname =>
    rw [Option.map_eq_none_iff, repeatedKey?_eq_none_iff List.nodup_nil, List.nil_append]
    simp [hname]

theorem buildStep_ok_iff {component : Component σ} {step : StepDesign} {world next : σ}
    {source : StepSource σ} :
    buildStep component step world = (.ok source, next) ↔
      component.makeStep step.data step.stepName step.key world = (.ok source, next) ∧
        ∀ key, step.key = some key → source.key = some key := by
  constructor
  . intro h
    refine ⟨?_, fun key hkey => key_of_buildStep h hkey⟩
    unfold buildStep at h
    split at h
    . simp at h
    . next hmake =>
      rw [hmake]
      split at h
      . cases h
        rfl
      . split at h
        . cases h
          rfl
        . simp at h
  . rintro ⟨hmake, hkeys⟩
    rw [buildStep, hmake]
    dsimp only
    split
    . rfl
    . next key hkey => rw [if_pos (hkeys key hkey)]

theorem fault?_eq_some_iff (design : WorkflowDesign) (fault : DesignFault) :
    design.fault? = some fault ↔ design.Illegal fault := by
  rw [fault?]
  split
  . next hblank =>
    rw [allBlank_iff] at hblank
    constructor
    . intro h
      cases h
      exact .unnamed hblank
    . intro h
      cases h with
      | unnamed => rfl
      | repeated hname => contradiction
  . next hname =>
    rw [allBlank_iff] at hname
    simp only [Option.map_eq_some_iff, repeatedKey?_eq_some_iff List.nodup_nil, List.nil_append]
    constructor
    . rintro ⟨key, ⟨before, step, after, hsteps, hkey, htaken, hfirst⟩, rfl⟩
      exact .repeated hname hsteps hkey htaken hfirst
    . intro h
      cases h with
      | unnamed hblank => contradiction
      | repeated _ hsteps hkey htaken hfirst =>
        exact ⟨_, ⟨_, _, _, hsteps, hkey, htaken, hfirst⟩, rfl⟩

theorem addStep_error_iff {design : WorkflowDesign} {provider : Provider σ} {draft : Draft σ}
    {step : StepDesign} {world : σ} {fault : WorkflowError} :
    (addStep design provider draft step world).value.1 = .error fault ↔
      StepFault provider step world fault := by
  rw [value_addStep]
  constructor
  . intro h
    cases hcomponent : provider.component? step.component with
    | none =>
      rw [hcomponent] at h
      cases h
      exact .unknown hcomponent
    | some component =>
      rw [hcomponent] at h
      dsimp only at h
      rcases hmake : component.makeStep step.data step.stepName step.key world with
        ⟨causes | source, next⟩
      . rw [buildStep, hmake] at h
        cases h
        exact .failed hcomponent hmake
      . rw [buildStep, hmake] at h
        dsimp only at h
        cases hkey : step.key with
        | none => simp [hkey] at h
        | some key =>
          by_cases hsource : source.key = some key
          . simp [hkey, hsource] at h
          . simp only [hkey, if_neg hsource, Except.error.injEq] at h
            subst h
            exact .wrongKey hcomponent hmake hkey hsource
  . intro h
    cases h with
    | unknown hcomponent => rw [hcomponent]
    | failed hcomponent hmake =>
      rw [hcomponent]
      dsimp only
      rw [buildStep, hmake]
    | wrongKey hcomponent hmake hkey hwrong =>
      rw [hcomponent]
      dsimp only
      rw [buildStep, hmake]
      simp only [hkey, if_neg hwrong]

theorem addStep_ok_iff {design : WorkflowDesign} {provider : Provider σ} {draft : Draft σ}
    {step : StepDesign} {world next : σ} :
    (∃ draft', (addStep design provider draft step world).value = (.ok draft', next)) ↔
      Builds provider [step] world next := by
  rw [value_addStep]
  constructor
  . rintro ⟨draft', h⟩
    split at h
    . simp at h
    . next component hcomponent =>
      split at h
      . simp at h
      . next source world' hbuild =>
        obtain ⟨hmake, hkey⟩ := buildStep_ok_iff.mp hbuild
        cases h
        exact .cons hcomponent hmake hkey (.nil _)
  . intro h
    cases h with
    | cons hcomponent hmake hkey hrest =>
      cases hrest
      rw [hcomponent]
      dsimp only
      rw [buildStep_ok_iff.mpr ⟨hmake, hkey⟩]
      exact ⟨_, rfl⟩

theorem builds_cons_iff {provider : Provider σ} {step : StepDesign} {rest : List StepDesign}
    {world world' : σ} :
    Builds provider (step :: rest) world world' ↔
      ∃ next, Builds provider [step] world next ∧ Builds provider rest next world' := by
  constructor
  . intro h
    cases h with
    | cons hcomponent hmake hkey hrest => exact ⟨_, .cons hcomponent hmake hkey (.nil _), hrest⟩
  . rintro ⟨next, hstep, hrest⟩
    cases hstep with
    | cons hcomponent hmake hkey hnil =>
      cases hnil
      exact .cons hcomponent hmake hkey hrest

theorem firstFault_cons_iff {provider : Provider σ} {step : StepDesign} {rest : List StepDesign}
    {world : σ} {fault : WorkflowError} :
    FirstFault provider (step :: rest) world fault ↔
      StepFault provider step world fault ∨
        ∃ next, Builds provider [step] world next ∧ FirstFault provider rest next fault := by
  rw [FirstFault, exists_split_cons]
  apply or_congr
  . constructor
    . rintro ⟨next, hnil, hfault⟩
      cases hnil
      exact hfault
    . exact fun hfault => ⟨world, .nil world, hfault⟩
  . constructor
    . rintro ⟨before, other, after, hsplit, world', hbuilds, hfault⟩
      obtain ⟨next, hstep, hrest⟩ := builds_cons_iff.mp hbuilds
      exact ⟨next, hstep, before, other, after, hsplit, world', hrest, hfault⟩
    . rintro ⟨next, hstep, before, other, after, hsplit, world', hrest, hfault⟩
      exact ⟨before, other, after, hsplit, world', builds_cons_iff.mpr ⟨next, hstep, hrest⟩, hfault⟩

theorem addSteps_error_iff {design : WorkflowDesign} {provider : Provider σ} {draft : Draft σ}
    {steps : List StepDesign} {world : σ} {fault : WorkflowError} :
    (addSteps design provider draft world steps).value.1 = .error fault ↔
      FirstFault provider steps world fault := by
  induction steps generalizing draft world with
  | nil => simp [addSteps, FirstFault]
  | cons step rest ih =>
    have hfault := @addStep_error_iff σ design provider draft step world
    have hbuilt := @addStep_ok_iff σ design provider draft step world
    simp only [firstFault_cons_iff, ← hfault, ← hbuilt]
    rw [addSteps, Traced.value_bind]
    rcases (addStep design provider draft step world).value with ⟨other | draft', next⟩
    . simp
    . simp [ih]

theorem assemble_error_iff {design : WorkflowDesign} {provider : Provider σ}
    {config : EngineConfig} {world : σ} {fault : WorkflowError} :
    (assemble design provider config world).value.1 = .error fault ↔
      design.Fails provider world fault := by
  unfold assemble
  cases hfault : design.fault? with
  | some illegal =>
    constructor
    . intro h
      cases h
      exact .illegal ((fault?_eq_some_iff _ _).mp hfault)
    . intro h
      cases h with
      | illegal h =>
        rw [(fault?_eq_some_iff _ _).mpr h] at hfault
        cases hfault
        rfl
      | step hname hkeys _ =>
        rw [(fault?_eq_none_iff _).mpr ⟨hname, hkeys⟩] at hfault
        contradiction
  | none =>
    obtain ⟨hname, hkeys⟩ := (fault?_eq_none_iff _).mp hfault
    have hsteps := @addSteps_error_iff σ design provider ⟨.empty config, true, false⟩ design.steps
      world fault
    have hfails : design.Fails provider world fault ↔
        FirstFault provider design.steps world fault := by
      constructor
      . intro h
        cases h with
        | illegal h =>
          rw [(fault?_eq_some_iff _ _).mpr h] at hfault
          contradiction
        | step _ _ h => exact h
      . exact fun h => .step hname hkeys h
    rw [hfails, ← hsteps, Traced.value_bind]
    rcases (addSteps design provider ⟨.empty config, true, false⟩ world design.steps).value with
      ⟨_ | draft, world'⟩ <;> simp

theorem draft_of_addSteps {design : WorkflowDesign} {provider : Provider σ}
    {draft draft' : Draft σ} {world world' : σ} {steps : List StepDesign}
    (h : (addSteps design provider draft world steps).value = (.ok draft', world'))
    (htree : draft.manager.tree = none) :
    draft'.manager.tree = none ∧
    draft'.manager.active = (draft.manager.active || !steps.isEmpty) ∧
    draft'.circular = (draft.circular || steps.any fun step =>
      (provider.component? step.component).any (·.options.circular)) := by
  induction steps generalizing draft world with
  | nil =>
    cases h
    simp [htree]
  | cons step rest ih =>
    rw [addSteps, Traced.value_bind, value_addStep] at h
    cases hcomponent : provider.component? step.component with
    | none => simp [hcomponent] at h
    | some component =>
      rw [hcomponent] at h
      dsimp only at h
      rcases hbuild : buildStep component step world with ⟨fault | source, next⟩
      . simp [hbuild] at h
      . rw [hbuild] at h
        obtain ⟨htree', hactive, hcircular⟩ := ih h rfl
        have hinserted : (draft.manager.insert source step.data).value.2.active = true :=
          Manager.active_after_insert draft.manager source step.data
        refine ⟨htree', ?_, ?_⟩
        . rw [hactive, hinserted]
          simp
        . rw [hcircular, List.any_cons, hcomponent, Option.any_some, Bool.or_assoc]

theorem loop_finish (design : WorkflowDesign) (draft : Draft σ) (world : σ) :
    (finish design draft world).value.1.loop = design.options.circular.getD draft.circular := by
  simp only [finish]
  split <;> rfl

theorem active_finish (design : WorkflowDesign) (draft : Draft σ) (world : σ) :
    (finish design draft world).value.1.active =
      (draft.manager.active && design.options.kickStart.getD draft.kickStart) := by
  simp only [finish]
  cases design.options.kickStart.getD draft.kickStart with
  | true => simp [Manager.active, Manager.setLoop]
  | false => simp [Manager.active_suspend]

theorem ring_finish (design : WorkflowDesign) {draft : Draft σ} (world : σ)
    (htree : draft.manager.tree = none) :
    ∀ tree, (finish design draft world).value.1.tree = some tree →
      tree.ring = (finish design draft world).value.1.loop := by
  intro tree
  simp only [finish]
  cases design.options.kickStart.getD draft.kickStart with
  | true => simp [Manager.setLoop, htree]
  | false =>
    intro h
    cases h
    rfl

theorem ring_needsProcess {m : Manager σ} (h : ∀ tree, m.tree = some tree → tree.ring = m.loop)
    (world : σ) : (m.needsProcess world).value.2.1.tree.map (·.ring) = some m.loop := by
  have hlaidOut : (m.ensureTree world).value.1.tree.map (·.ring) = some m.loop := by
    unfold Manager.ensureTree
    split
    . next tree htree => simp [htree, h tree htree]
    . rfl
  exact hlaidOut

/--
Assembly fails for the first fault of the design, and only then. Otherwise the options that the
design sets count, and where it sets none the manager circles if a component asks for it and starts
by itself if all of them do. What the configuration says about circling is of no account.
-/
theorem assemble_outcome (design : WorkflowDesign) (provider : Provider σ) (config : EngineConfig)
    (world : σ) :
    (∀ fault, (assemble design provider config world).value.1 = .error fault ↔
      design.Fails provider world fault) ∧
    ((∀ fault, ¬design.Fails provider world fault) →
      ∃ manager, (assemble design provider config world).value.1 = .ok manager ∧
        manager.loop = design.circles provider ∧
        ∀ world, (manager.needsProcess world).value.1 =
            (!design.steps.isEmpty && design.kickStarts provider) ∧
          (manager.needsProcess world).value.2.1.tree.map (·.ring) =
            some (design.circles provider)) := by
  refine ⟨fun fault => assemble_error_iff, ?_⟩
  intro hfits
  rcases hvalue : (assemble design provider config world).value with ⟨fault | manager, world'⟩
  . have herror := (@assemble_error_iff σ design provider config world fault).mp
    rw [hvalue] at herror
    exact absurd (herror rfl) (hfits fault)
  . obtain ⟨_, draft, world'', hsteps, rfl⟩ := exists_draft_of_assemble hvalue
    obtain ⟨_, hkick⟩ := reachable_of_addSteps hsteps (.empty config)
    obtain ⟨htree, hactive, hcircular⟩ := draft_of_addSteps hsteps rfl
    have hloop : (finish design draft world'').value.1.loop = design.circles provider := by
      rw [loop_finish, hcircular, circles, Bool.false_or]
    refine ⟨_, rfl, hloop, ?_⟩
    intro world
    constructor
    . rw [Manager.active_needsProcess, active_finish, hactive, hkick, kickStarts, Bool.true_and]
      rfl
    . rw [ring_needsProcess (ring_finish design world'' htree), hloop]

theorem assemble_outcome_markerDesign :
    let config : EngineConfig := { EngineConfig.default with loopWorkflows := true }
    (∀ fault, ¬(markerDesign [some 10, none]).Fails markers () fault) ∧
    (∃ manager, (assemble (markerDesign [some 10, none]) markers config ()).value.1 =
      .ok manager ∧ manager.loop = false ∧ (manager.needsProcess ()).value.1 = true) ∧
    (assemble (markerDesign [none, some 7, some 7]) markers config ()).value.1 =
      .error (.illegalDesign (.repeatedKey "filling" 7)) := by
  intro config
  obtain ⟨hfails, hsucceeds⟩ :=
    assemble_outcome (markerDesign [some 10, none]) markers config ()
  have hfits : ∀ fault, ¬(markerDesign [some 10, none]).Fails markers () fault := by
    intro fault hfault
    have hok : (assemble (markerDesign [some 10, none]) markers config ()).value.1.isOk = true := by
      decide +kernel
    rw [(hfails fault).mpr hfault] at hok
    contradiction
  obtain ⟨manager, hmanager, hloop, hneeds⟩ := hsucceeds hfits
  refine ⟨hfits, ⟨manager, hmanager, hloop, (hneeds ()).1⟩, ?_⟩
  have hname : ¬(markerDesign [none, some 7, some 7]).Unnamed := by
    rw [← allBlank_iff]
    decide
  have hsteps : (markerDesign [none, some 7, some 7]).steps =
      (markerDesign [none, some 7]).steps ++ [⟨"marker", some 7, none, none⟩] :=
    rfl
  apply ((assemble_outcome (markerDesign [none, some 7, some 7]) markers config ()).1 _).mpr
  apply Fails.illegal
  exact .repeated hname hsteps rfl (by decide) (by decide)

end WorkflowDesign

end Sequencer
