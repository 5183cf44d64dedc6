import Sequencer.Step.Builtin

/-!
What a step can make of the context it is given, as long as it keeps to the methods of the context.
-/

namespace Sequencer

namespace Context

inductive Edits (c : Context) : Context → Prop where
  | refl : Edits c c
  | setValue {c' : Context} (h : Edits c c') (name : String) (value : Json) :
      Edits c (c'.setValue name value)
  | removeValue {c' : Context} (h : Edits c c') (name : String) : Edits c (c'.removeValue name).2
  | editData {c' : Context} (h : Edits c c') (edit : StepData → StepData) :
      Edits c { c' with data := c'.data.map edit }

namespace Edits

variable {c c' : Context}

theorem focus_eq (h : Edits c c') : c'.focus = c.focus := by
  induction h with
  | refl => rfl
  | setValue _ _ _ ih => exact ih
  | removeValue _ _ ih => exact ih
  | editData _ _ ih => exact ih

theorem isSome_data (h : Edits c c') : c'.data.isSome = c.data.isSome := by
  induction h with
  | refl => rfl
  | setValue _ _ _ ih => exact ih
  | removeValue _ _ ih => exact ih
  | editData _ _ ih => rw [Option.isSome_map, ih]

theorem data_eq_none (h : Edits c c') (hdata : c.data = none) : c'.data = none := by
  rw [← Option.not_isSome_iff_eq_none, h.isSome_data, hdata]
  simp

end Edits

end Context

variable {σ : Type}

structure Step.Mannerly (step : Step σ) : Prop where
  process : ∀ (context : Context) env, context.Edits (step.process context env).2.1
  didBegin : ∀ (context : Context) env, context.Edits (step.didBegin context env).1
  willEnd : ∀ (context : Context) env, context.Edits (step.willEnd context env).1
  reset : ∀ (context : Context) world, context.Edits (step.reset context world).1

theorem Step.mannerly_ofProcess {process : Context → Env σ → Outcome × Context × Env σ}
    (h : ∀ (context : Context) env, context.Edits (process context env).2.1) (name : String)
    (key : Option StepKey) : (ofProcess name key process).Mannerly where
  process := h
  didBegin _ _ := .refl
  willEnd _ _ := .refl
  reset _ _ := .refl

def StepSource.Mannerly : StepSource σ → Prop
  | .step s => s.Mannerly
  | .generator g => ∀ world, (g.generate world).1.Mannerly

end Sequencer
