import Sequencer.Proofs.Context
import Sequencer.Proofs.Manager.Record

/-!
The data attached to steps, in managers whose steps use only the methods of the context. `Tidy` says
that the context is without data; a step finds its own data there while it runs, and no step finds
that of another.
-/

namespace Sequencer

theorem StepCall.edits_leaves {σ : Type} {call : StepCall σ} (h : call.step.Mannerly)
    (env : Env σ) : call.context.Edits (call.leaves env).1 := by
  unfold leaves
  cases call.hook with
  | process => exact h.process _ _
  | didBegin => exact h.didBegin _ _
  | willEnd => exact h.willEnd _ _
  | reset => exact h.reset _ _

def StepEntry.Mannerly {σ : Type} (entry : StepEntry σ) : Prop :=
  entry.source.Mannerly ∧ ∀ step, entry.generated = some step → step.Mannerly

theorem StepEntry.Mannerly.step? {σ : Type} {entry : StepEntry σ} (h : entry.Mannerly) {step : Step σ}
    (hstep : entry.step? = some step) : step.Mannerly := by
  unfold StepEntry.step? at hstep
  split at hstep
  . next s hsource =>
    cases hstep
    have hs := h.1
    rw [hsource] at hs
    exact hs
  . exact h.2 step hstep

namespace Manager

variable {σ : Type}

/-- Steps use only the methods of the context, and edits from outside bring no step data along. -/
def Operation.Mannerly : Operation σ → Prop
  | .insert source _ => source.Mannerly
  | .editContext edit => ∀ context, context.data = none → (edit context).data = none
  | _ => True

def Moment.Mannerly : Moment σ → Prop
  | .inserted _ source _ => source.Mannerly
  | .edited edit => ∀ context, context.data = none → (edit context).data = none
  | _ => True

/-- The moments at which the data of a key may change. -/
def Moment.Handles (key : StepKey) : Moment σ → Prop
  | .inserted k _ _ | .removed k => k = key
  | .called call _ _ => call.hook = .process ∧ call.key = key
  | _ => False

section Mannerly

variable (m : Manager σ)

theorem mannerly_callMoments (hook : Hook) (key : Option StepKey) (env : Env σ) :
    ∀ moment ∈ m.callMoments hook key env, moment.Mannerly := by
  unfold callMoments
  cases key with
  | none => simp
  | some key =>
    rw [Option.bind_some]
    cases m.stepAt? key <;> simp [Moment.Mannerly]

theorem mannerly_moveMoments (position : Option Nat) (env : Env σ) :
    ∀ moment ∈ m.moveMoments position env, moment.Mannerly :=
  List.forall_mem_append.mpr ⟨mannerly_callMoments _ _ _ _, mannerly_callMoments _ _ _ _⟩

theorem mannerly_rebuildMoments (world : σ) :
    ∀ moment ∈ m.rebuildMoments world, moment.Mannerly := by
  refine List.forall_mem_append.mpr ⟨?_, by simp [Moment.Mannerly]⟩
  intro moment hmoment
  obtain ⟨_, _, _, rfl⟩ := exists_of_mem_generations hmoment
  trivial

theorem mannerly_layOutMoments (world : σ) : ∀ moment ∈ m.layOutMoments world, moment.Mannerly := by
  unfold layOutMoments
  split
  . exact mannerly_rebuildMoments m world
  . simp

theorem mannerly_resetCalls (context : Context) (world : σ)
    (entries : List (StepKey × StepEntry σ)) :
    ∀ moment ∈ resetCalls context world entries, moment.Mannerly := by
  induction entries generalizing context world with
  | nil => simp [resetCalls]
  | cons pair rest ih =>
    obtain ⟨key, entry⟩ := pair
    unfold resetCalls
    split
    . exact ih context world
    . exact List.forall_mem_cons.mpr ⟨trivial, ih _ _⟩

theorem mannerly_resetMoments (world : σ) : ∀ moment ∈ m.resetMoments world, moment.Mannerly :=
  List.forall_mem_append.mpr ⟨mannerly_resetCalls _ _ _, mannerly_rebuildMoments _ _⟩

theorem mannerly_followMoments (transition : Transition) (env : Env σ) :
    ∀ moment ∈ m.followMoments transition env, moment.Mannerly := by
  cases transition with
  | stay => simp [followMoments]
  | advance | jumpTo target => exact mannerly_moveMoments _ _ _

theorem mannerly_settleMoments (flow : Flow) (env : Env σ) :
    ∀ moment ∈ m.settleMoments flow env, moment.Mannerly := by
  cases flow with
  | nextCycle | continueInCycle => simp [settleMoments]
  | repeatWhole again => exact mannerly_resetMoments _ _
  | terminate =>
    refine List.forall_mem_append.mpr ⟨mannerly_moveMoments _ _ _, ?_⟩
    exact List.forall_mem_append.mpr ⟨mannerly_resetMoments _ _, by simp [Moment.Mannerly]⟩

theorem mannerly_turnMoments (key : StepKey) (env : Env σ) :
    ∀ moment ∈ m.turnMoments key env, moment.Mannerly := by
  refine List.forall_mem_append.mpr ⟨mannerly_callMoments _ _ _ _, ?_⟩
  exact List.forall_mem_append.mpr ⟨mannerly_followMoments _ _ _, mannerly_settleMoments _ _ _⟩

theorem mannerly_restartMoments (target : StepRef) (env : Env σ) :
    ∀ moment ∈ m.restartMoments target env, moment.Mannerly := by
  unfold restartMoments
  split
  . simp
  . exact mannerly_moveMoments _ _ _

variable {m}

theorem Operation.Mannerly.moments {op : Operation σ} (h : op.Mannerly) :
    ∀ moment ∈ m.moments op, moment.Mannerly := by
  cases op with
  | insert source data | editContext edit =>
    rintro moment hmoment
    cases List.mem_singleton.mp hmoment
    exact h
  | remove target =>
    simp only [Manager.moments]
    cases m.keyOf? target <;> simp [Moment.Mannerly]
  | setLoop loop => simp [Manager.moments]
  | needsProcess world | getStep target world | initialStep world =>
    exact List.forall_mem_cons.mpr ⟨trivial, mannerly_layOutMoments _ _⟩
  | reset world => exact List.forall_mem_cons.mpr ⟨trivial, mannerly_resetMoments _ _⟩
  | suspend world =>
    refine List.forall_mem_cons.mpr ⟨trivial, ?_⟩
    exact List.forall_mem_append.mpr ⟨mannerly_resetMoments _ _, by simp [Moment.Mannerly]⟩
  | restart target env =>
    refine List.forall_mem_cons.mpr ⟨trivial, ?_⟩
    exact List.forall_mem_append.mpr ⟨mannerly_layOutMoments _ _, mannerly_restartMoments _ _ _⟩
  | process env =>
    refine List.forall_mem_cons.mpr ⟨trivial, ?_⟩
    refine List.forall_mem_append.mpr ⟨mannerly_layOutMoments _ _, ?_⟩
    intro moment hmoment
    obtain ⟨r, _, hr⟩ := List.mem_flatMap.mp hmoment
    exact mannerly_turnMoments r.manager r.key r.env moment hr

theorem mannerly_history {ops : List (Operation σ)} (h : ∀ op ∈ ops, op.Mannerly) :
    ∀ moment ∈ m.history ops, moment.Mannerly := by
  induction ops generalizing m with
  | nil => simp [history]
  | cons op ops ih =>
    rw [List.forall_mem_cons] at h
    exact List.forall_mem_append.mpr ⟨h.1.moments, ih h.2⟩

end Mannerly

theorem mannerly_generateAll (world : σ) {entries : List (StepKey × StepEntry σ)}
    (h : ∀ pair ∈ entries, StepEntry.Mannerly pair.2) :
    ∀ pair ∈ (generateAll world entries).value.1, StepEntry.Mannerly pair.2 := by
  induction entries generalizing world with
  | nil => simp [generateAll]
  | cons pair rest ih =>
    obtain ⟨key, entry⟩ := pair
    rw [List.forall_mem_cons] at h
    unfold generateAll
    split
    . exact List.forall_mem_cons.mpr ⟨h.1, ih _ h.2⟩
    . next generator hsource =>
      refine List.forall_mem_cons.mpr ⟨⟨h.1.1, ?_⟩, ih _ h.2⟩
      rintro step ⟨⟩
      have hgenerator := h.1.1
      rw [hsource] at hgenerator
      exact hgenerator world

structure Tidy (m : Manager σ) : Prop where
  data : m.context.data = none
  stored : ∀ key entry, m.steps.get? key = some entry → StepEntry.Mannerly entry

theorem Tidy.stepAt? {m : Manager σ} (h : m.Tidy) {key : StepKey} {step : Step σ}
    (hstep : m.stepAt? key = some step) : step.Mannerly := by
  obtain ⟨entry, hentry, hstep⟩ := Option.bind_eq_some_iff.mp hstep
  exact (h.stored key entry hentry).step? hstep

theorem Tidy.data_eq_none {m : Manager σ} (h : m.Tidy) {hook : Hook} (hhook : hook ≠ .process)
    {key : StepKey} {step : Step σ} (hstep : m.stepAt? key = some step) (env : Env σ) :
    ((m.callOf hook key step).leaves env).1.data = none := by
  refine (StepCall.edits_leaves (h.stepAt? hstep) env).data_eq_none ?_
  rw [callOf, if_neg hhook]
  exact h.data

theorem Move.data_eq_none {s s' : Manager σ × σ} {moments : List (Moment σ)}
    (h : Move s moments s') (hs : s.1.Tidy) (hmoments : ∀ moment ∈ moments, moment.Mannerly) :
    s'.1.context.data = none := by
  cases h with
  | edit m world edit =>
    exact List.forall_mem_singleton.mp hmoments m.context hs.data
  | process => rfl
  | willEnd hkey hstep env hleft => exact hleft ▸ hs.data_eq_none (by simp) hstep env
  | didBegin hopen hkey hstep env hleft => exact hleft ▸ hs.data_eq_none (by simp) hstep env
  | reset hstep env hleft => exact hleft ▸ hs.data_eq_none (by simp) hstep env
  | _ => exact hs.data

theorem Move.tidy {s s' : Manager σ × σ} {moments : List (Moment σ)} (h : Move s moments s')
    (hfaithful : s.1.Faithful) (hs : s.1.Tidy) (hmoments : ∀ moment ∈ moments, moment.Mannerly) :
    s'.1.Tidy where
  data := h.data_eq_none hs hmoments
  stored := by
    intro key entry hentry
    rcases h.get?_cases hentry with ⟨_, _, hmem, rfl⟩ | ⟨-, rfl⟩ | ⟨old, hold, ⟨hsource, hmade⟩, -⟩
    . exact ⟨hmoments _ hmem, by simp⟩
    . refine mannerly_generateAll s.2 ?_ _ (KeyMap.mem_of_get? hentry)
      rintro ⟨k, stored⟩ hpair
      exact hs.stored k stored (KeyMap.get?_of_mem hfaithful.ascending hpair)
    . have hmannerly := hs.stored key old hold
      rw [StepEntry.Mannerly, hsource, hmade] at hmannerly
      exact hmannerly

theorem Path.tidy {s s' : Manager σ × σ} {moments : List (Moment σ)} (h : Path s moments s')
    (hfaithful : s.1.Faithful) (hs : s.1.Tidy) (hmoments : ∀ moment ∈ moments, moment.Mannerly) :
    s'.1.Tidy := by
  induction h with
  | refl => exact hs
  | tail hpath hmove ih =>
    rw [List.forall_mem_append] at hmoments
    exact hmove.tidy (hpath.faithful hfaithful) (ih hmoments.1) hmoments.2

theorem Tidy.empty (config : EngineConfig) : Tidy (.empty config : Manager σ) where
  data := rfl
  stored := by
    intro key entry hentry
    simp [Manager.empty, KeyMap.get?, KeyMap.empty, KeyMap.assoc?] at hentry

theorem recordedData_concat {key : StepKey} {moment : Moment σ} (h : ¬moment.Handles key)
    (moments : List (Moment σ)) :
    recordedData key (moments ++ [moment]) = recordedData key moments := by
  simp only [recordedData, recorded, List.foldl_append, List.foldl_cons, List.foldl_nil]
  cases moment with
  | inserted k source data =>
    have hne : k ≠ key := h
    rw [Moment.record, if_neg hne]
  | removed k =>
    have hne : k ≠ key := h
    rw [Moment.record, if_neg hne]
  | generated k generator found =>
    simp only [Moment.record]
    split
    . rw [Option.bind_map]
      rfl
    . rfl
  | called call found left => rw [Moment.record, if_neg (fun hcall => h hcall.symm)]
  | entered world | edited edit | rebuilt keys | suspended => rfl

theorem recordedData_append {key : StepKey} {between : List (Moment σ)}
    (h : ∀ moment ∈ between, ¬moment.Handles key) (moments : List (Moment σ)) :
    recordedData key (moments ++ between) = recordedData key moments := by
  induction between generalizing moments with
  | nil => rw [List.append_nil]
  | cons moment rest ih =>
    rw [List.forall_mem_cons] at h
    rw [List.append_cons, ih h.2, recordedData_concat h.1]

section Run

variable {config : EngineConfig} {start : σ} {s : Manager σ × σ}
  {before after : List (Moment σ)} {call : StepCall σ} {found : σ} {left : Context × σ}

theorem recordedData_called_self
    (h : Path (.empty config, start) (before ++ .called call found left :: after) s)
    (hhook : call.hook = .process) :
    recordedData call.key (before ++ [.called call found left]) = left.1.data := by
  obtain ⟨entry, hentry, -⟩ := Option.bind_eq_some_iff.mp (recorded_of_called h)
  unfold recorded at hentry
  simp [recordedData, recorded, hentry, Moment.record, hhook]

theorem data_called
    (h : Path (.empty config, start) (before ++ .called call found left :: after) s)
    (hmannerly : ∀ moment ∈ before, moment.Mannerly) :
    call.step.Mannerly ∧
      call.context.data = if call.hook = .process then recordedData call.key before else none := by
  obtain ⟨m, hpath, hmakes⟩ := h.of_called
  have htidy := hpath.tidy (Faithful.empty config) (Tidy.empty config) hmannerly
  refine ⟨htidy.stepAt? hmakes.stepAt?, ?_⟩
  rw [context_of_called h, ← context_eq_contextAfter hpath]
  split
  . rfl
  . exact htidy.data

end Run

/--
Step data belongs to its step, in every run of a manager with steps that use only the methods of the
context. What is attached to a key is what `recordedData` says, which changes only when a step is
stored or removed there and when the step there runs. A step that runs finds this data, and what it
leaves is attached next; it can neither take the data away nor bring some along. In the other hooks,
and between operations, the context has no data. So a step that runs again finds what its last run
has left, if nothing was stored or removed under its key in between.
-/
theorem data_belongs_to_step (config : EngineConfig) (start : σ) (ops : List (Operation σ))
    (hops : ∀ op ∈ ops, op.Mannerly) :
    let run := (empty config).carryOut ops
    let m := run.value
    let moments := (empty config).history ops
    (run.seen Entry.besidesEvents? = moments.filterMap Moment.entry? ∧
      m.context.data = none ∧ ∀ key, m.stepData? key = recordedData key moments) ∧
    (∀ (before after : List (Moment σ)) moment, moments = before ++ moment :: after →
      ∀ key, ¬moment.Handles key →
        recordedData key (before ++ [moment]) = recordedData key before) ∧
    (∀ (before after : List (Moment σ)) call found left,
      moments = before ++ .called call found left :: after →
      (∃ register, call.leaves ⟨register, found⟩ = left) ∧
      (call.hook = .process →
        call.context.data = recordedData call.key before ∧
        recordedData call.key (before ++ [.called call found left]) = left.1.data ∧
        left.1.data.isSome = call.context.data.isSome) ∧
      (call.hook ≠ .process → ∀ context, call.context.Edits context → context.data = none)) ∧
    ∀ (before between after : List (Moment σ)) call found left again found' left',
      moments = before ++ .called call found left ::
        (between ++ .called again found' left' :: after) →
      call.hook = .process → again.hook = .process → again.key = call.key →
      (∀ moment ∈ between, ¬moment.Handles call.key) →
        again.context.data = left.1.data := by
  obtain ⟨hseen, world, hpath⟩ := (Faithful.empty config).path_history ops start
  have hmannerly := mannerly_history (m := empty config) hops
  have htidy := hpath.tidy (Faithful.empty config) (Tidy.empty config) hmannerly
  have hrecorded := get?_eq_recorded hpath
  dsimp only at hrecorded ⊢
  generalize (empty config).history ops = moments at hseen hpath hmannerly hrecorded ⊢
  refine ⟨⟨hseen, htidy.data, ?_⟩, ?_, ?_, ?_⟩
  . intro key
    rw [stepData?, hrecorded, recordedData]
  . intro before _ moment _ key hmoment
    exact recordedData_concat hmoment before
  . rintro before after call found left rfl
    rw [List.forall_mem_append] at hmannerly
    obtain ⟨_, _, hmakes⟩ := hpath.of_called
    obtain ⟨register, hleaves⟩ := hmakes.leaves
    obtain ⟨hstep, hdata⟩ := data_called hpath hmannerly.1
    have hedits := StepCall.edits_leaves hstep ⟨register, found⟩
    rw [hleaves] at hedits
    refine ⟨⟨register, hleaves⟩, ?_, ?_⟩
    . intro hhook
      rw [if_pos hhook] at hdata
      exact ⟨hdata, recordedData_called_self hpath hhook, hedits.isSome_data⟩
    . intro hhook context hcontext
      rw [if_neg hhook] at hdata
      exact hcontext.data_eq_none hdata
  . rintro before between after call found left again found' left' rfl hhook hagain hkey hbetween
    have hleft := recordedData_called_self hpath hhook
    -- up to the second call the first one is the last that handles the key
    rw [List.append_cons, ← List.append_assoc] at hpath hmannerly
    rw [List.forall_mem_append] at hmannerly
    obtain ⟨-, hdata⟩ := data_called hpath hmannerly.1
    rw [hdata, if_pos hagain, hkey, recordedData_append hbetween, hleft]

def marking : List (Operation Unit) :=
  [.insert (.step (.callback "mark" (some 1) fun context env =>
      ({ context with data := context.data.map (·.insert "marked" .null) }, env))) (some .empty),
    .insert (.step (.marker "bare" (some 2))) none,
    .process ⟨.empty, ()⟩, .reset (), .process ⟨.empty, ()⟩]

theorem data_belongs_to_step_marking :
    let m := ((empty .default).carryOut marking).value
    (∀ op ∈ marking, op.Mannerly) ∧ m.context.data = none ∧
      m.stepData? 1 = recordedData 1 ((empty .default).history marking) ∧
      (m.stepData? 1).map (·.keys) = some ["marked"] ∧ (m.stepData? 2).isNone = true := by
  intro m
  have hmannerly : ∀ op ∈ marking, op.Mannerly := by
    have hmark : (Step.callback (σ := Unit) "mark" (some 1) fun context env =>
        ({ context with data := context.data.map (·.insert "marked" .null) }, env)).Mannerly :=
      Step.mannerly_ofProcess (fun _ _ => .editData .refl _) _ _
    have hbare : (Step.marker (σ := Unit) "bare" (some 2)).Mannerly :=
      Step.mannerly_ofProcess (fun _ _ => .refl) _ _
    intro op hop
    simp only [marking, List.mem_cons, List.not_mem_nil, or_false] at hop
    rcases hop with rfl | rfl | rfl | rfl | rfl
    . exact hmark
    . exact hbare
    all_goals trivial
  obtain ⟨⟨-, hdata, hkey⟩, -⟩ := data_belongs_to_step .default () marking hmannerly
  exact ⟨hmannerly, hdata, hkey 1, by decide +kernel, by decide +kernel⟩

end Manager

end Sequencer
