import Sequencer.Proofs.Manager.Moments

/-!
Which hooks a manager calls and when it lays the steps out, in this order. Every operation is
described by what it signals; `Faithful.signals_turn` has what the outcome of a step leads to.
-/

namespace Sequencer

inductive Signal where
  | called (hook : Hook) (key : StepKey)
  | rebuilt (keys : List StepKey)
deriving Repr, DecidableEq

def Entry.signal? {σ : Type} : Entry σ → Option Signal
  | .called call => some (.called call.hook call.key)
  | .rebuilt keys => some (.rebuilt keys)
  | _ => none

def Transition.signals (key : StepKey) (next : Option StepKey) : Transition → List Signal
  | .stay => []
  | .advance | .jumpTo _ => .called .willEnd key :: (next.map (.called .didBegin)).toList

/-- A flow, after a transition that left the step under `opened` open. -/
def Flow.signals (opened : Option StepKey) (keys : List StepKey) : Flow → List Signal
  | .nextCycle | .continueInCycle => []
  | .repeatWhole _ => keys.map (.called .reset) ++ [.rebuilt keys]
  | .terminate =>
    (opened.map (.called .willEnd)).toList ++ (keys.map (.called .reset) ++ [.rebuilt keys])

namespace Manager

variable {σ : Type}

/-- The keys with a step to call. A generator that has made none is left out. -/
def present (m : Manager σ) : List StepKey :=
  m.steps.keys.filter fun key => (m.stepAt? key).isSome

def layOutSignals (m : Manager σ) : List Signal :=
  if m.tree.isNone then [.rebuilt m.steps.keys] else []

def StepRun.signals (r : StepRun σ) : List Signal :=
  (r.manager.turn r.key r.env).seen Entry.signal?

def restartSignals (m : Manager σ) (target : StepRef) : List Signal :=
  match m.keyOf? target with
  | none => []
  | some key => (m.currentKey?.map (.called .willEnd)).toList ++ [.called .didBegin key]

def resetSignals (m : Manager σ) : List Signal :=
  m.present.map (.called .reset) ++ [.rebuilt m.steps.keys]

def signals (m : Manager σ) : Operation σ → List Signal
  | .insert _ _ | .remove _ | .setLoop _ | .editContext _ => []
  | .needsProcess _ | .getStep _ _ | .initialStep _ => m.layOutSignals
  | .reset _ | .suspend _ => m.resetSignals
  | .restart target env => m.layOutSignals ++ (m.laidOut env).1.restartSignals target
  | .process env => m.layOutSignals ++ (m.stepRuns env).flatMap StepRun.signals

theorem signals_generateAll (world : σ) (entries : List (StepKey × StepEntry σ)) :
    (generateAll world entries).seen Entry.signal? = [] := by
  induction entries generalizing world with
  | nil => rfl
  | cons pair rest ih =>
    obtain ⟨key, entry⟩ := pair
    unfold generateAll
    split <;> simp [ih, Entry.signal?]

theorem signals_rebuild (m : Manager σ) (world : σ) :
    (m.rebuild world).seen Entry.signal? = [.rebuilt m.steps.keys] := by
  simp [rebuild, signals_generateAll, Entry.signal?]

theorem signals_ensureTree (m : Manager σ) (world : σ) :
    (m.ensureTree world).seen Entry.signal? = m.layOutSignals := by
  unfold ensureTree layOutSignals
  cases m.tree with
  | none => exact signals_rebuild m world
  | some tree => rfl

theorem signals_resetAll (context : Context) (world : σ) (entries : List (StepKey × StepEntry σ)) :
    (resetAll context world entries).seen Entry.signal? =
      (entries.filter (·.2.step?.isSome)).map fun pair => .called .reset pair.1 := by
  induction entries generalizing context world with
  | nil => rfl
  | cons pair rest ih =>
    obtain ⟨key, entry⟩ := pair
    unfold resetAll
    cases hstep : entry.step? with
    | none => simp [ih, hstep]
    | some step => simp [ih, hstep, Entry.signal?]

theorem signals_run (m : Manager σ) (limit left : Nat) (env : Env σ) :
    (run limit left m env).seen Entry.signal? = (runs left m env).flatMap StepRun.signals := by
  induction left generalizing m env with
  | zero => rfl
  | succ left ih =>
    rw [run]
    cases hkey : m.currentKey? with
    | none => simp [runs, hkey]
    | some key =>
      rw [runs_succ hkey, List.flatMap_cons]
      simp only [Traced.seen_bind, StepRun.signals]
      split
      . rw [ih]
      . rfl

theorem signals_process (m : Manager σ) (env : Env σ) :
    (m.process env).seen Entry.signal? =
      m.layOutSignals ++ (m.stepRuns env).flatMap StepRun.signals := by
  simp only [process, stepRuns, Traced.seen_bind, signals_ensureTree, signals_run]

theorem keys_ensureTree (m : Manager σ) (world : σ) :
    (m.ensureTree world).value.1.steps.keys = m.steps.keys := by
  unfold ensureTree
  split
  . rfl
  . apply keys_rebuild

theorem keys_settle (m : Manager σ) (key : StepKey) (flow : Flow) (env : Env σ) :
    (m.settle key flow env).value.manager.steps.keys = m.steps.keys := by
  cases flow with
  | nextCycle => rfl
  | continueInCycle => rfl
  | repeatWhole again => exact keys_rebuild _ _
  | terminate =>
    rw [← (sameTree_makeCurrent m none env).keys]
    exact keys_rebuild _ _

theorem keys_turn (m : Manager σ) (key : StepKey) (env : Env σ) :
    (m.turn key env).value.manager.steps.keys = m.steps.keys := by
  simp only [turn, Traced.value_bind]
  rw [keys_settle, (sameTree_follow _ _ _ _).keys]
  exact (sameTree_runStep m key env).keys

theorem keys_of_mem_runs {left : Nat} {m : Manager σ} {env : Env σ} {r : StepRun σ}
    (h : r ∈ runs left m env) : r.manager.steps.keys = m.steps.keys := by
  induction left generalizing m env with
  | zero => simp [runs] at h
  | succ left ih =>
    cases hkey : m.currentKey? with
    | none => simp [runs, hkey] at h
    | some key =>
      rw [runs_succ hkey, List.mem_cons] at h
      rcases h with rfl | h
      . rfl
      . split at h
        . exact (ih h).trans (keys_turn m key env)
        . simp at h

namespace Faithful

variable {m : Manager σ} {key : StepKey}

theorem present_eq (h : m.Faithful) (htree : m.tree.isSome = true) : m.present = m.steps.keys :=
  List.filter_eq_self.mpr fun _ => h.isSome_stepAt? htree

theorem signals_endCurrent (h : m.Faithful) (env : Env σ) :
    (m.endCurrent env).seen Entry.signal? = (m.currentKey?.map (.called .willEnd)).toList := by
  unfold Manager.endCurrent
  cases hkey : m.currentKey? with
  | none => rfl
  | some key =>
    obtain ⟨step, hstep⟩ := h.exists_stepAt? hkey
    rw [Option.bind_some, hstep]
    rfl

theorem signals_beginCurrent (h : m.Faithful) (env : Env σ) :
    (m.beginCurrent env).seen Entry.signal? = (m.currentKey?.map (.called .didBegin)).toList := by
  unfold Manager.beginCurrent
  cases hkey : m.currentKey? with
  | none => rfl
  | some key =>
    obtain ⟨step, hstep⟩ := h.exists_stepAt? hkey
    rw [Option.bind_some, hstep]
    rfl

theorem signals_makeCurrent (h : m.Faithful) {position : Option Nat}
    (hposition : ∀ tree p, m.tree = some tree → position = some p → p < tree.keys.length)
    (env : Env σ) :
    (m.makeCurrent position env).seen Entry.signal? =
      (m.currentKey?.map (.called .willEnd)).toList ++
        ((currentKey? { m with current := position }).map (.called .didBegin)).toList := by
  have hsame := (sameTree_endCurrent m env).moved position
  have hmoved := (h.moved hposition).of_sameTree hsame
  simp only [Manager.makeCurrent, Traced.seen_bind, h.signals_endCurrent,
    hmoved.signals_beginCurrent, hsame.currentKey?]

theorem signals_reset (h : m.Faithful) (world : σ) :
    (m.reset world).seen Entry.signal? = m.resetSignals := by
  have hpresent : m.present = (m.steps.entries.filter (·.2.step?.isSome)).map (·.1) := by
    rw [present, KeyMap.keys, List.filter_map]
    congr 1
    apply List.filter_congr
    intro pair hpair
    rw [Function.comp_apply, h.stepAt?_of_mem hpair]
  simp only [Manager.reset, Traced.seen_bind, signals_resetAll, signals_rebuild, resetSignals,
    hpresent, List.map_map, Function.comp_def]

theorem signals_suspend (h : m.Faithful) (world : σ) :
    (m.suspend world).seen Entry.signal? = m.resetSignals := by
  simp [Manager.suspend, h.signals_reset]

theorem signals_follow (h : m.Faithful) (hkey : m.currentKey? = some key)
    (transition : Transition) (env : Env σ) :
    (m.follow key transition env).seen Entry.signal? =
      transition.signals key (currentKey? { m with current := m.landing? transition }) := by
  have hlanding tree p (htree : m.tree = some tree) (hp : m.landing? transition = some p) :=
    h.landing?_lt htree hp
  have hmove := h.signals_makeCurrent hlanding env
  rw [hkey] at hmove
  cases transition with
  | stay => rfl
  | advance => exact hmove
  | jumpTo target =>
    simp only [Manager.follow, landing?] at hmove ⊢
    cases hposition : (m.keyOf? target).bind m.positionOf? with
    | none =>
      rw [hposition] at hmove
      exact hmove
    | some position =>
      rw [hposition] at hmove
      exact hmove

theorem signals_settle (h : m.Faithful) (htree : m.tree.isSome = true) (key : StepKey)
    (flow : Flow) (env : Env σ) :
    (m.settle key flow env).seen Entry.signal? = flow.signals m.currentKey? m.steps.keys := by
  cases flow with
  | nextCycle => rfl
  | continueInCycle => rfl
  | repeatWhole again =>
    simp [Manager.settle, Flow.signals, h.signals_reset, resetSignals, h.present_eq htree,
      Entry.signal?]
  | terminate =>
    have hnone : ∀ (tree : StepTree) p, m.tree = some tree → none = some p →
        p < tree.keys.length := by
      simp
    have hclosed : currentKey? { m with current := none } = none := by
      simp [Manager.currentKey?]
    have hsame := sameTree_makeCurrent m none env
    have hended := h.makeCurrent hnone env
    have hpresent := hended.present_eq (by rw [hsame.tree]; exact htree)
    simp [Manager.settle, Flow.signals, h.signals_makeCurrent hnone, hended.signals_suspend,
      resetSignals, hpresent, hsame.keys, hclosed, Entry.signal?]

/-- A step that has run hears first of all what its transition asks for, then what its flow does. -/
theorem signals_turn (h : m.Faithful) (hkey : m.currentKey? = some key) (env : Env σ) :
    ∃ next, m.Transfers key (m.runStep key env).value.1.transition next ∧
      (m.turn key env).seen Entry.signal? =
        .called .process key ::
          ((m.runStep key env).value.1.transition.signals key next ++
            (m.runStep key env).value.1.flow.signals next m.steps.keys) := by
  obtain ⟨entry, step, hentry, hstep⟩ := h.exists_step hkey
  obtain ⟨tree, _, htree, _, _⟩ := exists_tree_of_currentKey? hkey
  have hrun : (m.runStep key env).seen Entry.signal? = [.called .process key] := by
    simp [Manager.runStep, hentry, hstep, Entry.signal?]
  -- running the step keeps keys and cursor, so the transition is taken from the tree as it was
  have hran := sameTree_runStep m key env
  have hranfaithful := h.runStep key env
  simp only [Manager.turn, Traced.seen_bind, hrun]
  generalize (m.runStep key env).value = ran at hran hranfaithful ⊢
  obtain ⟨⟨transition, flow⟩, m', env'⟩ := ran
  dsimp only at hran hranfaithful ⊢
  have hfollow := sameTree_follow m' key transition env'
  have hmoved := hran.moved (m.landing? transition)
  rw [hran.landing?] at hfollow
  have htree' : (m'.follow key transition env').value.1.tree.isSome = true := by
    rw [hfollow.tree, hmoved.tree, htree]
    rfl
  refine ⟨_, h.transfers_landing? hkey transition, ?_⟩
  rw [hranfaithful.signals_follow (hran.currentKey?.trans hkey), hran.landing?,
    (hranfaithful.follow key transition env').signals_settle htree', hfollow.currentKey?,
    hmoved.currentKey?, hfollow.keys, hmoved.keys]
  rfl

theorem signals_of_mem_stepRuns (h : m.Faithful) {env : Env σ} {r : StepRun σ}
    (hr : r ∈ m.stepRuns env) :
    ∃ next, r.manager.Transfers r.key r.outcome.transition next ∧
      r.signals = .called .process r.key ::
        (r.outcome.transition.signals r.key next ++ r.outcome.flow.signals next m.steps.keys) := by
  obtain ⟨hrun, hkey⟩ := h.of_mem_stepRuns hr
  have hkeys : r.manager.steps.keys = m.steps.keys :=
    (keys_of_mem_runs hr).trans (keys_ensureTree m env.world)
  have hturn := hrun.signals_turn hkey r.env
  rw [hkeys] at hturn
  exact hturn

theorem signals_restart (h : m.Faithful) (target : StepRef) (env : Env σ) :
    (m.restart target env).seen Entry.signal? =
      m.layOutSignals ++ (m.laidOut env).1.restartSignals target := by
  have hensured := h.ensureTree env.world
  have htree := isSome_tree_ensureTree m env.world
  simp only [Manager.restart, Traced.seen_bind, signals_ensureTree, restartSignals, laidOut]
  generalize (m.ensureTree env.world).value = ensured at hensured htree ⊢
  congr 1
  cases htarget : ensured.1.keyOf? target with
  | none => rfl
  | some key =>
    obtain ⟨tree, htree⟩ := Option.isSome_iff_exists.mp htree
    obtain ⟨position, hposition, hget⟩ :=
      hensured.exists_position_of_mem htree (mem_keys_of_keyOf? htarget)
    have hin : ∀ tree p, ensured.1.tree = some tree → some position = some p →
        p < tree.keys.length := by
      intro tree p htree hp
      cases hp
      exact positionOf?_lt htree hposition
    have hmove := hensured.signals_makeCurrent hin { env with world := ensured.2 }
    have hbegun : currentKey? { ensured.1 with current := some position } = some key := by
      rw [currentKey?_of_tree htree]
      exact hget
    rw [hbegun] at hmove
    simp [hposition, hmove]

theorem signals_perform (h : m.Faithful) (op : Operation σ) :
    (m.perform op).seen Entry.signal? = m.signals op := by
  cases op with
  | insert source data => rfl
  | remove target =>
    simp only [perform, Manager.remove, Traced.seen_map, signals]
    split <;> rfl
  | setLoop loop => rfl
  | editContext edit => rfl
  | needsProcess world | getStep target world | initialStep world =>
    simp only [perform, needsProcess, getStep, initialStep, Traced.seen_map, Traced.seen_bind,
      signals_ensureTree, Traced.seen_pure, List.append_nil, signals]
  | reset world => simp only [perform, Traced.seen_map, h.signals_reset, signals]
  | suspend world => simp only [perform, Traced.seen_map, h.signals_suspend, signals]
  | restart target env => simp only [perform, Traced.seen_map, h.signals_restart, signals]
  | process env => simp only [perform, Traced.seen_map, signals_process, signals]

end Faithful

end Manager

end Sequencer
