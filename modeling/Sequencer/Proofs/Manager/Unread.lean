import Sequencer.Manager.Process
import Sequencer.Proofs.Trace

/-!
What the steps of a manager are run without. The configuration and the next free key may be others:
laying the steps out, moving the cursor and running steps do the same and report the same.
-/

namespace Sequencer

namespace Manager

variable {σ α : Type}

section Adjust

variable (config : EngineConfig → EngineConfig) (next : StepKey → StepKey)

def adjust (m : Manager σ) : Manager σ :=
  { m with config := config m.config, nextKey := next m.nextKey }

def adjusted (r : Manager σ × α) : Manager σ × α :=
  (r.1.adjust config next, r.2)

def Turn.adjust (t : Turn σ) : Turn σ :=
  { t with manager := t.manager.adjust config next }

variable (m : Manager σ)

@[simp]
theorem currentKey?_adjust : (m.adjust config next).currentKey? = m.currentKey? := rfl

@[simp]
theorem stepAt?_adjust : (m.adjust config next).stepAt? = m.stepAt? := rfl

@[simp]
theorem keyOf?_adjust : (m.adjust config next).keyOf? = m.keyOf? := by
  funext target
  cases target <;> rfl

@[simp]
theorem positionOf?_adjust : (m.adjust config next).positionOf? = m.positionOf? := rfl

theorem endCurrent_adjust (env : Env σ) :
    (m.adjust config next).endCurrent env = adjusted config next <$> m.endCurrent env := by
  unfold endCurrent
  simp only [currentKey?_adjust, stepAt?_adjust]
  split <;> rfl

theorem beginCurrent_adjust (env : Env σ) :
    (m.adjust config next).beginCurrent env = adjusted config next <$> m.beginCurrent env := by
  unfold beginCurrent
  simp only [currentKey?_adjust, stepAt?_adjust]
  split <;> rfl

theorem makeCurrent_adjust (position : Option Nat) (env : Env σ) :
    (m.adjust config next).makeCurrent position env =
      adjusted config next <$> m.makeCurrent position env := by
  unfold makeCurrent
  rw [endCurrent_adjust, bind_map_left, map_bind]
  apply bind_congr
  intro ended
  exact beginCurrent_adjust config next { ended.1 with current := position } ended.2

theorem advance_adjust (env : Env σ) :
    (m.adjust config next).advance env = adjusted config next <$> m.advance env :=
  makeCurrent_adjust config next m m.following? env

theorem rebuild_adjust (world : σ) :
    (m.adjust config next).rebuild world = adjusted config next <$> m.rebuild world := by
  unfold rebuild
  rw [map_bind]
  rfl

theorem ensureTree_adjust (world : σ) :
    (m.adjust config next).ensureTree world = adjusted config next <$> m.ensureTree world := by
  have htree : (m.adjust config next).tree = m.tree := rfl
  unfold ensureTree
  rw [htree]
  split
  . rfl
  . apply rebuild_adjust

theorem reset_adjust (world : σ) :
    (m.adjust config next).reset world = adjusted config next <$> m.reset world := by
  unfold reset
  rw [map_bind]
  apply bind_congr
  intro r
  exact rebuild_adjust config next { m with context := r.1 } r.2

theorem suspend_adjust (world : σ) :
    (m.adjust config next).suspend world = adjusted config next <$> m.suspend world := by
  unfold suspend
  rw [reset_adjust, bind_map_left, map_bind]
  rfl

theorem remove_adjust (target : StepRef) :
    (m.adjust config next).remove target =
      (fun r => (r.1, r.2.adjust config next)) <$> m.remove target := by
  have hsteps : (m.adjust config next).steps = m.steps := rfl
  unfold remove
  rw [keyOf?_adjust, hsteps]
  split <;> rfl

theorem needsProcess_adjust (world : σ) :
    (m.adjust config next).needsProcess world =
      (fun r => (r.1, adjusted config next r.2)) <$> m.needsProcess world := by
  unfold needsProcess
  rw [ensureTree_adjust, bind_map_left, map_bind]
  rfl

theorem getStep_adjust (target : StepRef) (world : σ) :
    (m.adjust config next).getStep target world =
      (fun r => (r.1, adjusted config next r.2)) <$> m.getStep target world := by
  unfold getStep
  rw [ensureTree_adjust, bind_map_left, map_bind]
  apply bind_congr
  rintro ⟨laid, world⟩
  simp only [adjusted, keyOf?_adjust, stepAt?_adjust]
  rfl

theorem initialStep_adjust (world : σ) :
    (m.adjust config next).initialStep world =
      (fun r => (r.1, adjusted config next r.2)) <$> m.initialStep world := by
  unfold initialStep
  rw [ensureTree_adjust, bind_map_left, map_bind]
  rfl

theorem restart_adjust (target : StepRef) (env : Env σ) :
    (m.adjust config next).restart target env =
      (fun r => (r.1, adjusted config next r.2)) <$> m.restart target env := by
  unfold restart
  rw [ensureTree_adjust, bind_map_left, map_bind]
  apply bind_congr
  rintro ⟨laid, world⟩
  simp only [adjusted, keyOf?_adjust, positionOf?_adjust]
  split
  . rfl
  . rw [makeCurrent_adjust, bind_map_left, map_bind]
    rfl

theorem runStep_adjust (key : StepKey) (env : Env σ) :
    (m.adjust config next).runStep key env =
      (fun r => (r.1, adjusted config next r.2)) <$> m.runStep key env := by
  have hsteps : (m.adjust config next).steps = m.steps := rfl
  unfold runStep
  rw [hsteps]
  split
  . rfl
  . next entry _ =>
    dsimp only
    cases entry.step? <;> rfl

theorem follow_adjust (key : StepKey) (transition : Transition) (env : Env σ) :
    (m.adjust config next).follow key transition env =
      adjusted config next <$> m.follow key transition env := by
  cases transition with
  | advance => apply advance_adjust
  | stay => rfl
  | jumpTo target =>
    simp only [follow, keyOf?_adjust, positionOf?_adjust]
    split
    . simp only [makeCurrent_adjust, map_bind]
    . simp only [advance_adjust, map_bind]

theorem settle_adjust (key : StepKey) (flow : Flow) (env : Env σ) :
    (m.adjust config next).settle key flow env =
      (·.adjust config next) <$> m.settle key flow env := by
  cases flow with
  | nextCycle => rfl
  | continueInCycle => rfl
  | repeatWhole continueInCycle =>
    simp only [settle, reset_adjust, map_bind, bind_map_left]
    rfl
  | terminate =>
    simp only [settle, makeCurrent_adjust, map_bind, bind_map_left]
    apply bind_congr
    intro _
    apply bind_congr
    intro ended
    simp only [adjusted, suspend_adjust, bind_map_left]
    rfl

theorem turn_adjust (key : StepKey) (env : Env σ) :
    (m.adjust config next).turn key env = (·.adjust config next) <$> m.turn key env := by
  simp only [turn, runStep_adjust, map_bind, bind_map_left]
  apply bind_congr
  rintro ⟨outcome, ran⟩
  simp only [adjusted, follow_adjust, bind_map_left, settle_adjust]

theorem run_adjust (limit left : Nat) (env : Env σ) :
    run limit left (m.adjust config next) env = adjusted config next <$> run limit left m env := by
  induction left generalizing m env with
  | zero => rfl
  | succ left ih =>
    rw [run, run, currentKey?_adjust]
    split
    . rfl
    . rw [turn_adjust, bind_map_left, map_bind]
      apply bind_congr
      rintro ⟨moved, env, goesOn⟩
      cases goesOn with
      | true => exact ih moved env
      | false => rfl

theorem process_adjust
    (hbudget : ∀ config', (config config').transitionBudget = config'.transitionBudget)
    (env : Env σ) :
    (m.adjust config next).process env = adjusted config next <$> m.process env := by
  unfold process
  rw [ensureTree_adjust, bind_map_left, map_bind]
  apply bind_congr
  rintro ⟨laid, world⟩
  have hlimit : (laid.adjust config next).config.transitionBudget = laid.config.transitionBudget :=
    hbudget laid.config
  simp only [adjusted, hlimit, run_adjust]

end Adjust

end Manager

end Sequencer
