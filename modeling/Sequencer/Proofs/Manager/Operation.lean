import Sequencer.Manager.Process
import Sequencer.Proofs.Manager.Keys

/-!
The operations of a step manager and the states they lead to. `SameTree` is what holds between a
manager before and after a call of a step: only the context and the data of steps may change.
-/

namespace Sequencer

namespace Manager

variable {σ : Type}

inductive Operation (σ : Type) where
  | insert (source : StepSource σ) (data : Option StepData)
  | remove (target : StepRef)
  | setLoop (loop : Bool)
  | editContext (edit : Context → Context)
  | needsProcess (world : σ)
  | getStep (target : StepRef) (world : σ)
  | initialStep (world : σ)
  | reset (world : σ)
  | suspend (world : σ)
  | restart (target : StepRef) (env : Env σ)
  | process (env : Env σ)

def after (m : Manager σ) : Operation σ → Manager σ
  | .insert source data => (m.insert source data).value.2
  | .remove target => (m.remove target).value.2
  | .setLoop loop => m.setLoop loop
  | .editContext edit => { m with context := edit m.context }
  | .needsProcess world => (m.needsProcess world).value.2.1
  | .getStep target world => (m.getStep target world).value.2.1
  | .initialStep world => (m.initialStep world).value.2.1
  | .reset world => (m.reset world).value.1
  | .suspend world => (m.suspend world).value.1
  | .restart target env => (m.restart target env).value.2.1
  | .process env => (m.process env).value.1

inductive Reachable : Manager σ → Prop where
  | empty (config : EngineConfig) : Reachable (.empty config)
  | after {m : Manager σ} (h : Reachable m) (op : Operation σ) : Reachable (m.after op)

def plan (m : Manager σ) : List (StepKey × StepEntry σ) :=
  m.steps.entries.map fun pair => (pair.1, { pair.2 with data := none })

structure SameTree (m m' : Manager σ) : Prop where
  plan : m'.plan = m.plan
  tree : m'.tree = m.tree
  current : m'.current = m.current
  config : m'.config = m.config

namespace SameTree

variable {m m' m'' : Manager σ}

theorem refl (m : Manager σ) : SameTree m m :=
  ⟨rfl, rfl, rfl, rfl⟩

theorem trans (h : SameTree m m') (h' : SameTree m' m'') : SameTree m m'' where
  plan := h'.plan.trans h.plan
  tree := h'.tree.trans h.tree
  current := h'.current.trans h.current
  config := h'.config.trans h.config

theorem moved (h : SameTree m m') (position : Option Nat) :
    SameTree { m with current := position } { m' with current := position } :=
  ⟨h.plan, h.tree, rfl, h.config⟩

theorem keys (h : SameTree m m') : m'.steps.keys = m.steps.keys := by
  have hkeys (m : Manager σ) : m.steps.keys = m.plan.map (·.1) := by
    simp [KeyMap.keys, Manager.plan]
  rw [hkeys, h.plan, ← hkeys]

theorem isSome_tree (h : SameTree m m') (htree : m.tree.isSome = true) :
    m'.tree.isSome = true := by
  rw [h.tree]
  exact htree

theorem currentKey? (h : SameTree m m') : m'.currentKey? = m.currentKey? := by
  rw [Manager.currentKey?, Manager.currentKey?, h.tree, h.current]

theorem positionOf? (h : SameTree m m') : m'.positionOf? = m.positionOf? := by
  funext key
  rw [Manager.positionOf?, Manager.positionOf?, h.tree]

theorem following? (h : SameTree m m') : m'.following? = m.following? := by
  rw [Manager.following?, Manager.following?, h.tree, h.current]

end SameTree

theorem name?_withoutData (entry : StepEntry σ) :
    ({ entry with data := none } : StepEntry σ).name? = entry.name? := by
  obtain ⟨source, _, _⟩ := entry
  cases source <;> rfl

theorem keyOf?_congr {m m' : Manager σ}
    (h : m'.steps.entries.map (fun pair => (pair.1, pair.2.name?)) =
      m.steps.entries.map fun pair => (pair.1, pair.2.name?)) (target : StepRef) :
    m'.keyOf? target = m.keyOf? target := by
  cases target with
  | key key =>
    have hkeys : m'.steps.keys = m.steps.keys := by
      have := congrArg (List.map Prod.fst) h
      simpa [KeyMap.keys, Function.comp_def] using this
    have hcontains : m'.steps.contains key = m.steps.contains key := by
      rw [Bool.eq_iff_iff, KeyMap.contains_iff, KeyMap.contains_iff, hkeys]
    rw [keyOf?, keyOf?, hcontains]
  | name name =>
    have hfind (m : Manager σ) : m.keyOf? (.name name) =
        ((m.steps.entries.map fun pair => (pair.1, pair.2.name?)).find?
          fun pair => pair.2 = some name).map (·.1) := by
      simp only [keyOf?, List.find?_map, Option.map_map, Function.comp_def]
    rw [hfind, hfind, h]

theorem SameTree.keyOf? {m m' : Manager σ} (h : SameTree m m') : m'.keyOf? = m.keyOf? := by
  have hnames (m : Manager σ) : m.steps.entries.map (fun pair => (pair.1, pair.2.name?)) =
      m.plan.map fun pair => (pair.1, pair.2.name?) := by
    simp only [Manager.plan, List.map_map, Function.comp_def, name?_withoutData]
  funext target
  apply keyOf?_congr
  rw [hnames, h.plan, ← hnames]

theorem sameTree_endCurrent (m : Manager σ) (env : Env σ) :
    SameTree m (m.endCurrent env).value.1 := by
  unfold endCurrent
  split
  . apply SameTree.refl
  . exact ⟨rfl, rfl, rfl, rfl⟩

theorem sameTree_beginCurrent (m : Manager σ) (env : Env σ) :
    SameTree m (m.beginCurrent env).value.1 := by
  unfold beginCurrent
  split
  . apply SameTree.refl
  . exact ⟨rfl, rfl, rfl, rfl⟩

theorem sameTree_makeCurrent (m : Manager σ) (position : Option Nat) (env : Env σ) :
    SameTree { m with current := position } (m.makeCurrent position env).value.1 :=
  ((sameTree_endCurrent m env).moved position).trans (sameTree_beginCurrent _ _)

theorem value_runStep (m : Manager σ) (key : StepKey) (env : Env σ) :
    (m.runStep key env).value =
      match m.steps.get? key with
      | none => (.advance, m, env)
      | some entry =>
        let context := m.context.enter key entry.data
        let (outcome, context, env) :=
          match entry.step? with
          | none => (Outcome.advance, context, env)
          | some step => step.process context env
        let (data, context) := context.leave
        let steps := m.steps.modify key fun entry => { entry with data }
        (outcome, { m with steps, context }, env) := by
  unfold runStep
  cases m.steps.get? key with
  | none => rfl
  | some entry =>
    dsimp only
    cases entry.step? <;> rfl

theorem withoutData_modify (steps : KeyMap (StepEntry σ)) (key : StepKey)
    (data : Option StepData) :
    (steps.modify key fun entry => { entry with data }).entries.map
        (fun pair => (pair.1, ({ pair.2 with data := none } : StepEntry σ))) =
      steps.entries.map fun pair => (pair.1, { pair.2 with data := none }) := by
  obtain ⟨entries⟩ := steps
  simp only [KeyMap.modify]
  induction entries with
  | nil => rfl
  | cons pair rest ih =>
    obtain ⟨k, entry⟩ := pair
    unfold KeyMap.modifyEntry
    split
    . rfl
    . rw [List.map_cons, ih, List.map_cons]

theorem sameTree_runStep (m : Manager σ) (key : StepKey) (env : Env σ) :
    SameTree m (m.runStep key env).value.2.1 := by
  rw [value_runStep]
  split
  . apply SameTree.refl
  . exact ⟨withoutData_modify m.steps key _, rfl, rfl, rfl⟩

def landing? (m : Manager σ) : Transition → Option Nat
  | .advance => m.following?
  | .stay => m.current
  | .jumpTo target => ((m.keyOf? target).bind m.positionOf?).or m.following?

theorem sameTree_follow (m : Manager σ) (key : StepKey) (transition : Transition) (env : Env σ) :
    SameTree { m with current := m.landing? transition } (m.follow key transition env).value.1 := by
  cases transition with
  | advance => apply sameTree_makeCurrent
  | stay => apply SameTree.refl
  | jumpTo target =>
    simp only [follow, landing?]
    cases (m.keyOf? target).bind m.positionOf? with
    | none => apply sameTree_makeCurrent
    | some position => apply sameTree_makeCurrent

end Manager

end Sequencer
