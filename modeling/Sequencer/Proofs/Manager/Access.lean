import Sequencer.Proofs.Manager.Limit

/-!
The cycles of a manager with every look-up checked. Each definition does what its counterpart does,
and fails where that would make do with something missing: a cursor outside the tree, a stored key
that the tree does not have, a current key without an entry, an entry without a step. On a
`Faithful` manager whose steps are laid out none of them fails, so no cycle ever makes do.
-/

namespace Sequencer

structure StepTree.Shows {σ : Type} (tree : StepTree) (m : Manager σ) : Prop where
  ascending : tree.keys.Pairwise (· < ·)
  keys : tree.keys = m.steps.keys
  cursor : ∀ position, m.current = some position → position < tree.keys.length
  generated : ∀ key entry generator, m.steps.get? key = some entry →
    entry.source = .generator generator → ∃ step, entry.generated = some step

namespace Manager

variable {σ : Type}

namespace Checked

def currentKey? (m : Manager σ) : Option (Option StepKey) :=
  match m.current with
  | none => some none
  | some position => do
    let tree ← m.tree
    let key ← tree.keys[position]?
    return some key

def notify (hook : Step σ → Context → Env σ → Context × Env σ) (m : Manager σ) (env : Env σ) :
    Option (Manager σ × Env σ) := do
  match ← currentKey? m with
  | none => return (m, env)
  | some key =>
    let step ← m.stepAt? key
    let (context, env) := hook step (m.context.focusOn key) env
    return ({ m with context }, env)

def makeCurrent (m : Manager σ) (position : Option Nat) (env : Env σ) :
    Option (Manager σ × Env σ) := do
  let (m, env) ← notify Step.willEnd m env
  notify Step.didBegin { m with current := position } env

def runStep (m : Manager σ) (key : StepKey) (env : Env σ) :
    Option (Outcome × Manager σ × Env σ) := do
  let entry ← m.steps.get? key
  let step ← entry.step?
  let (outcome, context, env) := step.process (m.context.enter key entry.data) env
  let (data, context) := context.leave
  let steps := m.steps.modify key fun entry => { entry with data }
  return (outcome, { m with steps, context }, env)

def advance (m : Manager σ) (env : Env σ) : Option (Manager σ × Env σ) := do
  let tree ← m.tree
  let position ← m.current
  makeCurrent m (tree.successor? position) env

/-- There may be no step that a jump goes to, but one that is stored has a place in the tree. -/
def follow (m : Manager σ) (transition : Transition) (env : Env σ) :
    Option (Manager σ × Env σ) :=
  match transition with
  | .advance => advance m env
  | .stay => some (m, env)
  | .jumpTo target =>
    match m.keyOf? target with
    | none => advance m env
    | some key => do
      let position ← m.positionOf? key
      makeCurrent m (some position) env

def settle (m : Manager σ) (flow : Flow) (env : Env σ) : Option (Turn σ) :=
  match flow with
  | .nextCycle => some ⟨m, env, false⟩
  | .continueInCycle => some ⟨m, env, true⟩
  | .repeatWhole continueInCycle =>
    let (m, world) := (m.reset env.world).value
    some ⟨m, { env with world }, continueInCycle⟩
  | .terminate => do
    let (m, env) ← makeCurrent m none env
    let (m, world) := (m.suspend env.world).value
    return ⟨m, { env with world }, false⟩

def turn (m : Manager σ) (key : StepKey) (env : Env σ) : Option (Turn σ) := do
  let (outcome, m, env) ← runStep m key env
  let (m, env) ← follow m outcome.transition env
  settle m outcome.flow env

def run (left : Nat) (m : Manager σ) (env : Env σ) : Option (Manager σ × Env σ) :=
  match left with
  | 0 => some (m, env)
  | left + 1 => do
    match ← currentKey? m with
    | none => return (m, env)
    | some key =>
      let turn ← turn m key env
      if turn.goesOn then run left turn.manager turn.env else return (turn.manager, turn.env)

def process (m : Manager σ) (env : Env σ) : Option (Manager σ × Env σ) :=
  let (m, world) := (m.ensureTree env.world).value
  run m.config.transitionBudget m { env with world }

end Checked

theorem checked_runStep_eq_none_iff (m : Manager σ) (key : StepKey) (env : Env σ) :
    Checked.runStep m key env = none ↔ (m.runStep key env).seen Entry.ran? = [] := by
  unfold Checked.runStep
  cases hentry : m.steps.get? key with
  | none => simp [runStep, hentry]
  | some entry =>
    cases hstep : entry.step? with
    | none => simp [runStep, hentry, hstep]
    | some step => simp [ran?_runStep hentry hstep, hstep]

namespace Faithful

variable {m : Manager σ}

theorem shows (h : m.Faithful) {tree : StepTree} (htree : m.tree = some tree) : tree.Shows m where
  ascending := by
    rw [h.keys tree htree]
    exact h.ascending
  keys := h.keys tree htree
  cursor position := h.cursor tree position htree
  generated := by
    intro key entry generator hentry hsource
    have hmem := List.mem_map_of_mem (f := (·.1)) (KeyMap.mem_of_get? hentry)
    have hstep := h.isSome_stepAt? (by simp [htree]) hmem
    rw [stepAt?, hentry, Option.bind_some, StepEntry.step?, hsource] at hstep
    exact Option.isSome_iff_exists.mp hstep

theorem checked_currentKey? (h : m.Faithful) (htree : m.tree.isSome = true) :
    Checked.currentKey? m = some m.currentKey? := by
  obtain ⟨tree, htree⟩ := Option.isSome_iff_exists.mp htree
  rw [Checked.currentKey?, Manager.currentKey?, htree]
  cases hcurrent : m.current with
  | none => rfl
  | some position =>
    have hposition := h.cursor tree position htree hcurrent
    simp [List.getElem?_eq_getElem hposition]

theorem checked_notify (h : m.Faithful) (htree : m.tree.isSome = true)
    (hook : Step σ → Context → Env σ → Context × Env σ) (env : Env σ) :
    Checked.notify hook m env = some (
      match m.currentKey?.bind fun key => (m.stepAt? key).map (key, ·) with
      | none => (m, env)
      | some (key, step) =>
        let (context, env) := hook step (m.context.focusOn key) env
        ({ m with context }, env)) := by
  rw [Checked.notify, h.checked_currentKey? htree]
  cases hkey : m.currentKey? with
  | none => rfl
  | some key =>
    obtain ⟨step, hstep⟩ := h.exists_stepAt? hkey
    simp [hstep]

theorem checked_endCurrent (h : m.Faithful) (htree : m.tree.isSome = true) (env : Env σ) :
    Checked.notify Step.willEnd m env = some (m.endCurrent env).value := by
  rw [h.checked_notify htree, Manager.endCurrent]
  cases m.currentKey?.bind fun key => (m.stepAt? key).map (key, ·) <;> rfl

theorem checked_beginCurrent (h : m.Faithful) (htree : m.tree.isSome = true) (env : Env σ) :
    Checked.notify Step.didBegin m env = some (m.beginCurrent env).value := by
  rw [h.checked_notify htree, Manager.beginCurrent]
  cases m.currentKey?.bind fun key => (m.stepAt? key).map (key, ·) <;> rfl

theorem checked_makeCurrent (h : m.Faithful) (htree : m.tree.isSome = true)
    {position : Option Nat}
    (hposition : ∀ tree p, m.tree = some tree → position = some p → p < tree.keys.length)
    (env : Env σ) :
    Checked.makeCurrent m position env = some (m.makeCurrent position env).value := by
  have hended := (sameTree_endCurrent m env).moved position
  have hmoved := (h.moved hposition).of_sameTree hended
  rw [Checked.makeCurrent, h.checked_endCurrent htree]
  exact hmoved.checked_beginCurrent (hended.isSome_tree htree) _

theorem checked_runStep (h : m.Faithful) {key : StepKey} (hkey : m.currentKey? = some key)
    (env : Env σ) : Checked.runStep m key env = some (m.runStep key env).value := by
  obtain ⟨entry, step, hentry, hstep⟩ := h.exists_step hkey
  rw [Checked.runStep, value_runStep, hentry]
  simp [hstep]

theorem checked_advance (h : m.Faithful) {key : StepKey} (hkey : m.currentKey? = some key)
    (env : Env σ) : Checked.advance m env = some (m.advance env).value := by
  obtain ⟨tree, position, htree, hposition, _⟩ := exists_tree_of_currentKey? hkey
  have hfollowing : m.following? = tree.successor? position := by
    simp [following?, htree, hposition]
  rw [Checked.advance, Manager.advance, hfollowing, htree, hposition]
  apply h.checked_makeCurrent (by simp [htree])
  intro tree p htree hp
  exact following?_lt htree (hfollowing.trans hp)

theorem checked_follow (h : m.Faithful) {key : StepKey} (hkey : m.currentKey? = some key)
    (transition : Transition) (env : Env σ) :
    Checked.follow m transition env = some (m.follow key transition env).value := by
  cases transition with
  | advance => exact h.checked_advance hkey env
  | stay => rfl
  | jumpTo target =>
    obtain ⟨tree, _, htree, _, _⟩ := exists_tree_of_currentKey? hkey
    rw [Checked.follow, Manager.follow]
    cases htarget : m.keyOf? target with
    | none => exact h.checked_advance hkey env
    | some found =>
      obtain ⟨position, hposition, _⟩ :=
        h.exists_position_of_mem htree (mem_keys_of_keyOf? htarget)
      simp only [Option.bind_some, hposition]
      apply h.checked_makeCurrent (by simp [htree])
      intro tree p htree hp
      cases hp
      exact positionOf?_lt htree hposition

theorem checked_settle (h : m.Faithful) (htree : m.tree.isSome = true) (key : StepKey)
    (flow : Flow) (env : Env σ) :
    Checked.settle m flow env = some (m.settle key flow env).value := by
  cases flow with
  | nextCycle => rfl
  | continueInCycle => rfl
  | repeatWhole continueInCycle => rfl
  | terminate =>
    rw [Checked.settle, h.checked_makeCurrent htree (by simp)]
    rfl

theorem checked_turn (h : m.Faithful) {key : StepKey} (hkey : m.currentKey? = some key)
    (env : Env σ) : Checked.turn m key env = some (m.turn key env).value := by
  have hran := sameTree_runStep m key env
  have hfaithful := h.runStep key env
  rw [Checked.turn, h.checked_runStep hkey]
  simp only [Manager.turn, Traced.value_bind]
  generalize (m.runStep key env).value = ran at hran hfaithful ⊢
  obtain ⟨outcome, m', env'⟩ := ran
  dsimp only at hran hfaithful ⊢
  rw [← hran.currentKey?] at hkey
  obtain ⟨tree, _, htree, _, _⟩ := exists_tree_of_currentKey? hkey
  have hfollowed := (sameTree_follow m' key outcome.transition env').isSome_tree
    (Option.isSome_of_eq_some htree)
  rw [Option.bind_eq_bind, Option.bind_some, hfaithful.checked_follow hkey]
  exact (hfaithful.follow key outcome.transition env').checked_settle hfollowed key outcome.flow _

theorem checked_run (h : m.Faithful) (htree : m.tree.isSome = true) (limit left : Nat)
    (env : Env σ) : Checked.run left m env = some (Manager.run limit left m env).value := by
  induction left generalizing m env with
  | zero => rfl
  | succ left ih =>
    rw [Checked.run, h.checked_currentKey? htree, Option.bind_eq_bind, Option.bind_some]
    cases hkey : m.currentKey? with
    | none =>
      rw [Manager.run, hkey]
      rfl
    | some key =>
      simp only [value_run_succ hkey, h.checked_turn hkey, Option.bind_eq_bind, Option.bind_some]
      split
      . exact ih (h.turn key env) (isSome_tree_turn htree key env) _
      . rfl

theorem checked_process (h : m.Faithful) (env : Env σ) :
    Checked.process m env = some (m.process env).value :=
  (h.ensureTree env.world).checked_run (isSome_tree_ensureTree m env.world) _ _ _

end Faithful

/--
Whenever steps are laid out, the tree shows them as they are stored, the cursor is a place in it and
every generator has made its step. So each turn of a cycle runs the step under the current key, and
the cycle is the one that fails where something is missing.
-/
theorem Reachable.tree_shows_steps {m : Manager σ} (h : m.Reachable) :
    (∀ tree, m.tree = some tree → tree.Shows m) ∧
    ∀ env,
      (m.process env).seen Entry.ran? = (m.stepRuns env).map (·.key) ∧
      (∀ r ∈ m.stepRuns env, r.manager.currentKey? = some r.key ∧
        (∃ tree, r.manager.tree = some tree ∧ tree.Shows r.manager) ∧
        ∃ entry step, r.manager.steps.get? r.key = some entry ∧ entry.step? = some step) ∧
      Checked.process m env = some (m.process env).value := by
  have hfaithful := h.faithful
  refine ⟨fun tree htree => hfaithful.shows htree, fun env => ?_⟩
  refine ⟨hfaithful.ran?_process env, ?_, hfaithful.checked_process env⟩
  intro r hr
  obtain ⟨hrun, hkey⟩ := hfaithful.of_mem_stepRuns hr
  obtain ⟨tree, _, htree, _, _⟩ := exists_tree_of_currentKey? hkey
  exact ⟨hkey, ⟨tree, htree, hrun.shows htree⟩, hrun.exists_step hkey⟩

def replacing : Manager Unit :=
  (Manager.empty .default)
    |>.after (.insert (.generator ⟨some 10, none, fun world => (.marker "made" none, world)⟩) none)
    |>.after (.insert (.step (.ofProcess "old" (some 20) fun context env =>
      (.stay, context, env))) none)
    |>.after (.process ⟨.empty, ()⟩)
    |>.after (.insert (.step (.ofProcess "new" (some 20) fun context env =>
      (.jumpTo (.name "made"), context, env))) none)

theorem Reachable.tree_shows_steps_replacing :
    let laidOut := replacing.after (.needsProcess ())
    replacing.Reachable ∧ replacing.tree = none ∧ replacing.current = some 1 ∧
    laidOut.Reachable ∧ laidOut.tree = some ⟨[10, 20], false⟩ ∧
    StepTree.Shows ⟨[10, 20], false⟩ laidOut ∧
    (replacing.process ⟨.empty, ()⟩).seen Entry.ran? = [10, 20] ∧
    Checked.process replacing ⟨.empty, ()⟩ = some (replacing.process ⟨.empty, ()⟩).value := by
  intro laidOut
  have hreachable : replacing.Reachable :=
    ((((Reachable.empty _).after _).after _).after _).after _
  have hlaidOut : laidOut.Reachable := hreachable.after _
  have htree : laidOut.tree = some ⟨[10, 20], false⟩ := by
    decide +kernel
  have hkeys : (replacing.stepRuns ⟨.empty, ()⟩).map (·.key) = [10, 20] := by
    decide +kernel
  obtain ⟨hran, _, hchecked⟩ := (Reachable.tree_shows_steps hreachable).2 ⟨.empty, ()⟩
  exact ⟨hreachable, by decide +kernel, by decide +kernel, hlaidOut, htree,
    (Reachable.tree_shows_steps hlaidOut).1 _ htree, hran.trans hkeys, hchecked⟩

end Manager

end Sequencer
