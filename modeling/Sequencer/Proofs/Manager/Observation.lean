import Sequencer.Proofs.Manager.Moments
import Sequencer.Proofs.Manager.Unread

/-!
What can be seen of a step manager from outside. Two managers are `Alike` when they differ in no
more than the next free key. An operation answers and reports the same on both and leaves them
alike, unless it stores a step without a key of its own.
-/

namespace Sequencer

namespace Manager

variable {σ : Type}

inductive Answer (σ : Type) where
  | nothing
  | stored (key : StepKey)
  | removed (source : Option (StepSource σ))
  | due (current : Bool) (world : σ)
  | found (step : Option (Step σ)) (world : σ)
  | laidOut (world : σ)
  | restarted (found : Bool) (env : Env σ)
  | cycled (env : Env σ)

def respond (m : Manager σ) : Operation σ → Traced σ (Answer σ × Manager σ)
  | .insert source data => (fun r => (.stored r.1, r.2)) <$> m.insert source data
  | .remove target => (fun r => (.removed r.1, r.2)) <$> m.remove target
  | .setLoop loop => pure (.nothing, m.setLoop loop)
  | .editContext edit => pure (.nothing, { m with context := edit m.context })
  | .needsProcess world => (fun r => (.due r.1 r.2.2, r.2.1)) <$> m.needsProcess world
  | .getStep target world => (fun r => (.found r.1 r.2.2, r.2.1)) <$> m.getStep target world
  | .initialStep world => (fun r => (.found r.1 r.2.2, r.2.1)) <$> m.initialStep world
  | .reset world => (fun r => (.laidOut r.2, r.1)) <$> m.reset world
  | .suspend world => (fun r => (.laidOut r.2, r.1)) <$> m.suspend world
  | .restart target env => (fun r => (.restarted r.1 r.2.2, r.2.1)) <$> m.restart target env
  | .process env => (fun r => (.cycled r.2, r.1)) <$> m.process env

theorem snd_respond (m : Manager σ) (op : Operation σ) :
    (·.2) <$> m.respond op = m.perform op := by
  cases op <;> simp only [respond, perform, Functor.map_map, map_pure]

theorem value_respond (m : Manager σ) (op : Operation σ) :
    (m.respond op).value.2 = m.after op := by
  rw [← value_perform, ← snd_respond]
  rfl

def Operation.keyed : Operation σ → Bool
  | .insert source _ => source.key.isSome
  | _ => true

theorem respond_adjust (config : EngineConfig → EngineConfig) (next : StepKey → StepKey)
    (hbudget : ∀ config', (config config').transitionBudget = config'.transitionBudget)
    (m : Manager σ) {op : Operation σ} (hstores : ∀ source data, op ≠ .insert source data) :
    (m.adjust config next).respond op =
      (fun r => (r.1, r.2.adjust config next)) <$> m.respond op := by
  cases op with
  | insert source data => exact absurd rfl (hstores source data)
  | remove target => simp only [respond, remove_adjust, Functor.map_map]
  | setLoop loop => rfl
  | editContext edit => rfl
  | needsProcess world => simp only [respond, needsProcess_adjust, Functor.map_map, adjusted]
  | getStep target world => simp only [respond, getStep_adjust, Functor.map_map, adjusted]
  | initialStep world => simp only [respond, initialStep_adjust, Functor.map_map, adjusted]
  | reset world => simp only [respond, reset_adjust, Functor.map_map, adjusted]
  | suspend world => simp only [respond, suspend_adjust, Functor.map_map, adjusted]
  | restart target env => simp only [respond, restart_adjust, Functor.map_map, adjusted]
  | process env =>
    simp only [respond, process_adjust config next m hbudget, Functor.map_map, adjusted]

def Alike (m m' : Manager σ) : Prop :=
  ∃ next, m' = { m with nextKey := next }

structure AlikeAfter {α : Type} (a b : α × Manager σ) : Prop where
  answer : a.1 = b.1
  manager : Alike a.2 b.2

structure Observation (σ : Type) where
  answer : Answer σ
  entries : List (Entry σ)
  currentKey : Option StepKey
  currentStep : Option (Step σ)
  size : Nat
  loop : Bool
  context : Context
  stepData : StepKey → Option StepData
  config : EngineConfig

def observe (m : Manager σ) (op : Operation σ) : Observation σ :=
  let response := m.respond op
  let (answer, m) := response.value
  { answer, entries := response.entries, currentKey := m.currentKey?, currentStep := m.currentStep?
    size := m.steps.size, loop := m.loop, context := m.context, stepData := m.stepData?
    config := m.config }

/-- What a caller sees that chooses each of its operations by what it saw of those before. -/
def session (caller : List (Observation σ) → Operation σ) :
    Nat → Manager σ → List (Observation σ) × Manager σ
  | 0, m => ([], m)
  | n + 1, m =>
    let (seen, m) := session caller n m
    let op := caller seen
    (seen ++ [m.observe op], m.after op)

namespace Alike

variable {u v m m' : Manager σ}

theorem refl (m : Manager σ) : Alike m m :=
  ⟨m.nextKey, rfl⟩

theorem trans (hum : Alike u m) (hmv : Alike m v) : Alike u v := by
  obtain ⟨next, rfl⟩ := hum
  obtain ⟨next', rfl⟩ := hmv
  exact ⟨next', rfl⟩

theorem insert (h : Alike m m') {source : StepSource σ} (hkeyed : source.key.isSome = true)
    (data : Option StepData) :
    (m.insert source data).Agree AlikeAfter (m'.insert source data) := by
  obtain ⟨next, rfl⟩ := h
  obtain ⟨key, hkey⟩ := Option.isSome_iff_exists.mp hkeyed
  unfold Manager.insert
  rw [hkey]
  exact .after _ (.pure ⟨rfl, _, rfl⟩)

theorem respond (h : Alike m m') {op : Operation σ} (hkeyed : op.keyed = true) :
    (m.respond op).Agree AlikeAfter (m'.respond op) := by
  by_cases hstores : ∃ source data, op = .insert source data
  . obtain ⟨source, data, rfl⟩ := hstores
    exact (h.insert hkeyed data).bind fun _ _ hafter =>
      .pure ⟨congrArg Answer.stored hafter.answer, hafter.manager⟩
  . -- nothing else looks at the next free key
    obtain ⟨next, rfl⟩ := h
    have hother : ∀ source data, op ≠ .insert source data := by simpa using hstores
    change (m.respond op).Agree AlikeAfter ((m.adjust id fun _ => next).respond op)
    rw [respond_adjust id _ (fun _ => rfl) m hother]
    exact .map ⟨rfl, next, rfl⟩

theorem observe (h : Alike m m') {op : Operation σ} (hkeyed : op.keyed = true) :
    m.observe op = m'.observe op := by
  obtain ⟨⟨hanswer, next, hmanager⟩, hentries⟩ := h.respond hkeyed
  simp only [Manager.observe, hanswer, hentries, hmanager]
  rfl

theorem session (h : Alike m m') (caller : List (Observation σ) → Operation σ) {n : Nat}
    (hkeyed : ∀ k < n, (caller (m.session caller k).1).keyed = true) :
    AlikeAfter (m.session caller n) (m'.session caller n) := by
  induction n with
  | zero => exact ⟨rfl, h⟩
  | succ n ih =>
    obtain ⟨hseen, hmanager⟩ := ih fun k hk => hkeyed k (Nat.lt_succ_of_lt hk)
    have hop := hkeyed n (Nat.lt_succ_self n)
    have hafter := (hmanager.respond hop).value.manager
    simp only [value_respond] at hafter
    simp only [Manager.session, ← hseen]
    refine ⟨?_, hafter⟩
    rw [hmanager.observe hop]

end Alike

end Manager

end Sequencer
