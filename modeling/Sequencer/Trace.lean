import Sequencer.Event
import Sequencer.Step.Basic

/-!
What an operation reports besides its result. An entry is an event for the log, or the record of a
call that the engine made: an instruction that became pending or was invoked, a step that was
generated or called. Operations only ever add entries, so nothing can depend on them.
-/

namespace Sequencer

inductive Hook where
  | process
  | didBegin
  | willEnd
  | reset
deriving Repr, DecidableEq

structure StepCall (σ : Type) where
  hook : Hook
  key : StepKey
  step : Step σ
  context : Context

inductive Entry (σ : Type) where
  | event (event : Event)
  | armed (instruction : InstructionId) (now : Instant)
  | invoked (instruction : InstructionId) (now : Instant) (progress : Progress)
  | rebuilt (keys : List StepKey)
  | generated (key : StepKey) (step : Step σ)
  | called (call : StepCall σ)

def Entry.event? {σ : Type} : Entry σ → Option Event
  | .event e => some e
  | _ => none

structure Traced (σ α : Type) where
  value : α
  entries : List (Entry σ)

namespace Traced

variable {σ α β : Type}

instance : Monad (Traced σ) where
  pure x := ⟨x, []⟩
  bind x f := ⟨(f x.value).value, x.entries ++ (f x.value).entries⟩

@[simp]
theorem value_pure (x : α) : (pure x : Traced σ α).value = x := rfl

@[simp]
theorem entries_pure (x : α) : (pure x : Traced σ α).entries = [] := rfl

@[simp]
theorem value_bind (x : Traced σ α) (f : α → Traced σ β) : (x >>= f).value = (f x.value).value :=
  rfl

@[simp]
theorem entries_bind (x : Traced σ α) (f : α → Traced σ β) :
    (x >>= f).entries = x.entries ++ (f x.value).entries := rfl

@[ext]
theorem ext {x y : Traced σ α} (value : x.value = y.value) (entries : x.entries = y.entries) :
    x = y := by
  cases x
  cases y
  cases value
  cases entries
  rfl

instance : LawfulMonad (Traced σ) :=
  LawfulMonad.mk' _
    (fun x => by ext1 <;> simp [Functor.map])
    (fun x f => by ext1 <;> simp)
    (fun x f g => by ext1 <;> simp)

def emit (entry : Entry σ) : Traced σ Unit :=
  ⟨(), [entry]⟩

def log (event : Event) : Traced σ Unit :=
  emit (.event event)

@[simp]
theorem value_emit (entry : Entry σ) : (emit entry).value = () := rfl

@[simp]
theorem entries_emit (entry : Entry σ) : (emit entry).entries = [entry] := rfl

def events (x : Traced σ α) : List Event :=
  x.entries.filterMap Entry.event?

end Traced

end Sequencer
