import Sequencer.Proofs.Manager.Moments

/-!
A run of a manager, taken apart. `Move` is what can happen between two moments, and it makes at most
one call of a step. `path_history` says that a run consists of moves that have its moments, so what
every move keeps holds all along, also in the middle of an operation.
-/

namespace Sequencer

namespace Manager

variable {σ : Type}

inductive Move : Manager σ × σ → List (Moment σ) → Manager σ × σ → Prop where
  | enter (m : Manager σ) (found world : σ) : Move (m, found) [.entered world] (m, world)
  | insert (m : Manager σ) (world : σ) (source : StepSource σ) (data : Option StepData) :
      Move (m, world) [.inserted (source.key.getD m.nextKey) source data]
        ((m.insert source data).value.2, world)
  | remove {m : Manager σ} {key : StepKey} (h : key ∈ m.steps.keys) (world : σ) :
      Move (m, world) [.removed key]
        ({ m with steps := m.steps.erase key, tree := none, current := none }, world)
  | setLoop (m : Manager σ) (world : σ) (loop : Bool) : Move (m, world) [] (m.setLoop loop, world)
  | edit (m : Manager σ) (world : σ) (edit : Context → Context) :
      Move (m, world) [.edited edit] ({ m with context := edit m.context }, world)
  | rebuild (m : Manager σ) (world : σ) :
      Move (m, world) (m.rebuildMoments world) (m.rebuild world).value
  | process {m : Manager σ} {key : StepKey} {step : Step σ} (hkey : m.currentKey? = some key)
      (hstep : m.stepAt? key = some step) (env : Env σ) {left : Context × σ}
      (hleft : (m.callOf .process key step).leaves env = left) :
      Move (m, env.world) [.called (m.callOf .process key step) env.world left]
        ({ m with
            steps := m.steps.modify key fun entry => { entry with data := left.1.data }
            context := { left.1 with data := none } }, left.2)
  | willEnd {m : Manager σ} {key : StepKey} {step : Step σ} (hkey : m.currentKey? = some key)
      (hstep : m.stepAt? key = some step) (env : Env σ) {left : Context × σ}
      (hleft : (m.callOf .willEnd key step).leaves env = left) :
      Move (m, env.world) [.called (m.callOf .willEnd key step) env.world left]
        ({ m with context := left.1, current := none }, left.2)
  | didBegin {m : Manager σ} {position : Option Nat} {key : StepKey} {step : Step σ}
      (hopen : m.currentKey? = none)
      (hkey : currentKey? { m with current := position } = some key)
      (hstep : m.stepAt? key = some step) (env : Env σ) {left : Context × σ}
      (hleft : (m.callOf .didBegin key step).leaves env = left) :
      Move (m, env.world) [.called (m.callOf .didBegin key step) env.world left]
        ({ m with context := left.1, current := position }, left.2)
  | reset {m : Manager σ} {key : StepKey} {step : Step σ} (hstep : m.stepAt? key = some step)
      (env : Env σ) {left : Context × σ} (hleft : (m.callOf .reset key step).leaves env = left) :
      Move (m, env.world) [.called (m.callOf .reset key step) env.world left]
        ({ m with context := left.1 }, left.2)
  /-- The cursor moves from one position without a step to another. -/
  | shift {m : Manager σ} {position : Option Nat} (hopen : m.currentKey? = none)
      (h : Faithful { m with current := position })
      (hposition : currentKey? { m with current := position } = none) (world : σ) :
      Move (m, world) [] ({ m with current := position }, world)
  | suspend (m : Manager σ) (world : σ) :
      Move (m, world) [.suspended] ({ m with current := none }, world)

inductive Path (s : Manager σ × σ) : List (Moment σ) → Manager σ × σ → Prop where
  | refl : Path s [] s
  | tail {moments moments' : List (Moment σ)} {s' s'' : Manager σ × σ} (h : Path s moments s')
      (hmove : Move s' moments' s'') : Path s (moments ++ moments') s''

namespace Path

theorem single {s s' : Manager σ × σ} {moments : List (Moment σ)} (h : Move s moments s') :
    Path s moments s' := by
  simpa using Path.refl.tail h

theorem trans {s s' s'' : Manager σ × σ} {moments moments' : List (Moment σ)}
    (h : Path s moments s') (h' : Path s' moments' s'') : Path s (moments ++ moments') s'' := by
  induction h' with
  | refl => simpa using h
  | tail _ hmove ih =>
    rw [← List.append_assoc]
    exact ih.tail hmove

end Path

/-- What a piece of the program reports and does is told by these moments. -/
structure Amounts {α : Type} (s : Manager σ × σ) (moments : List (Moment σ)) (x : Traced σ α)
    (scene : α → Manager σ × σ) : Prop where
  seen : x.seen Entry.besidesEvents? = moments.filterMap Moment.entry?
  path : Path s moments (scene x.value)

namespace Amounts

variable {α β : Type} {s : Manager σ × σ} {moments moments' : List (Moment σ)}
  {scene : α → Manager σ × σ}

theorem pure {a : α} (h : scene a = s) : Amounts s [] (Pure.pure a : Traced σ α) scene := by
  subst h
  exact ⟨rfl, .refl⟩

theorem bind {x : Traced σ α} {f : α → Traced σ β} {scene' : β → Manager σ × σ}
    (hx : Amounts s moments x scene) (hf : Amounts (scene x.value) moments' (f x.value) scene') :
    Amounts s (moments ++ moments') (x >>= f) scene' where
  seen := by
    rw [Traced.seen_bind, hx.seen, hf.seen, List.filterMap_append]
  path := hx.path.trans hf.path

theorem log {event : Event} {f : Unit → Traced σ α} (h : Amounts s moments (f ()) scene) :
    Amounts s moments (Traced.log event >>= f) scene where
  seen := by
    rw [Traced.seen_bind, Traced.seen_log]
    exact h.seen
  path := h.path

theorem then_move {x : Traced σ α} {f : α → β} {scene' : β → Manager σ × σ}
    (h : Amounts s moments x scene) (hmove : Move (scene x.value) moments' (scene' (f x.value)))
    (hseen : moments'.filterMap Moment.entry? = []) :
    Amounts s (moments ++ moments') (x >>= fun a => Pure.pure (f a)) scene' where
  seen := by
    rw [Traced.seen_bind, h.seen, List.filterMap_append, hseen]
    rfl
  path := h.path.tail hmove

theorem answer {x : Traced σ α} {f : α → Traced σ β} {scene' : β → Manager σ × σ}
    (hx : Amounts s moments x scene) (hf : Amounts (scene x.value) [] (f x.value) scene') :
    Amounts s moments (x >>= f) scene' := by
  rw [← List.append_nil moments]
  exact hx.bind hf

end Amounts

section Calls

variable {m : Manager σ}

theorem seen_endCurrent (m : Manager σ) (env : Env σ) :
    (m.endCurrent env).seen Entry.besidesEvents? =
      (m.callMoments .willEnd m.currentKey? env).filterMap Moment.entry? := by
  unfold endCurrent callMoments
  cases m.currentKey? with
  | none => rfl
  | some key =>
    rw [Option.bind_some, Option.bind_some]
    cases m.stepAt? key <;> rfl

theorem seen_beginCurrent (m : Manager σ) (env : Env σ) :
    (m.beginCurrent env).seen Entry.besidesEvents? =
      (m.callMoments .didBegin m.currentKey? env).filterMap Moment.entry? := by
  unfold beginCurrent callMoments
  cases m.currentKey? with
  | none => rfl
  | some key =>
    rw [Option.bind_some, Option.bind_some]
    cases m.stepAt? key <;> rfl

theorem callMoments_some {key : StepKey} {step : Step σ} (hstep : m.stepAt? key = some step)
    (hook : Hook) (env : Env σ) :
    m.callMoments hook (some key) env =
      [.called (m.callOf hook key step) env.world ((m.callOf hook key step).leaves env)] := by
  simp [callMoments, hstep]

theorem Faithful.path_end (h : m.Faithful) (env : Env σ) :
    ∃ ended : Manager σ, ended.currentKey? = none ∧
      Path (m, env.world) (m.callMoments .willEnd m.currentKey? env)
        (ended, (m.endCurrent env).value.2.world) ∧
      ∀ position, { ended with current := position } =
        { (m.endCurrent env).value.1 with current := position } := by
  cases hkey : m.currentKey? with
  | none =>
    have hend : m.endCurrent env = pure (m, env) := by
      rw [endCurrent, hkey]
      rfl
    refine ⟨m, hkey, ?_, ?_⟩
    . rw [hend]
      exact .refl
    . simp [hend]
  | some key =>
    obtain ⟨step, hstep⟩ := h.exists_stepAt? hkey
    have hmove := Move.willEnd hkey hstep env rfl
    rw [callMoments_some hstep]
    unfold endCurrent
    rw [hkey, Option.bind_some, hstep]
    refine ⟨_, ?_, .single hmove, fun _ => rfl⟩
    simp [currentKey?]

theorem path_begin {position : Option Nat} (h : Faithful { m with current := position })
    (hopen : m.currentKey? = none) (env : Env σ) :
    let moved := { m with current := position }
    let r := (moved.beginCurrent env).value
    Path (m, env.world) (moved.callMoments .didBegin moved.currentKey? env)
      (r.1, r.2.world) := by
  dsimp only
  cases hkey : currentKey? { m with current := position } with
  | none =>
    unfold beginCurrent
    rw [hkey]
    exact .single (.shift hopen h hkey env.world)
  | some key =>
    obtain ⟨step, hstep⟩ := h.exists_stepAt? hkey
    have hmove := Move.didBegin hopen hkey hstep env rfl
    rw [callMoments_some hstep]
    unfold beginCurrent
    rw [hkey, Option.bind_some, hstep]
    exact .single hmove

theorem Faithful.amounts_makeCurrent (h : m.Faithful) (position : Option Nat)
    (hposition : ∀ tree p, m.tree = some tree → position = some p → p < tree.keys.length)
    (env : Env σ) :
    Amounts (m, env.world) (m.moveMoments position env) (m.makeCurrent position env)
      fun r => (r.1, r.2.world) where
  seen := by
    simp only [Manager.makeCurrent, moveMoments, Traced.seen_bind, seen_endCurrent, seen_beginCurrent,
      List.filterMap_append]
  path := by
    obtain ⟨ended, hopen, hended, hmoved⟩ := h.path_end env
    have hfaithful : Faithful { ended with current := position } := by
      rw [hmoved]
      exact (h.moved hposition).of_sameTree ((sameTree_endCurrent m env).moved position)
    have hbegun := path_begin hfaithful hopen (m.endCurrent env).value.2
    rw [hmoved] at hbegun
    exact hended.trans hbegun

end Calls

theorem seen_generateAll (world : σ) (entries : List (StepKey × StepEntry σ)) :
    (generateAll world entries).seen Entry.besidesEvents? =
      (generations world entries).filterMap Moment.entry? := by
  induction entries generalizing world with
  | nil => rfl
  | cons pair rest ih =>
    obtain ⟨key, entry⟩ := pair
    unfold generateAll generations
    cases entry.source with
    | step step => simp [ih]
    | generator generator => simp [ih, Entry.besidesEvents?, Moment.entry?]

theorem amounts_rebuild (m : Manager σ) (world : σ) :
    Amounts (m, world) (m.rebuildMoments world) (m.rebuild world) id where
  seen := by
    simp [rebuild, rebuildMoments, seen_generateAll, Entry.besidesEvents?, Moment.entry?]
  path := .single (.rebuild m world)

theorem amounts_ensureTree (m : Manager σ) (world : σ) :
    Amounts (m, world) (m.layOutMoments world) (m.ensureTree world) id := by
  unfold layOutMoments ensureTree
  cases m.tree with
  | none => exact amounts_rebuild m world
  | some tree => exact .pure rfl

theorem amounts_resetAll (m : Manager σ) (context : Context) (world : σ)
    {entries : List (StepKey × StepEntry σ)}
    (hentries : ∀ pair ∈ entries, m.stepAt? pair.1 = pair.2.step?) :
    Amounts ({ m with context }, world) (resetCalls context world entries)
      (resetAll context world entries) fun r => ({ m with context := r.1 }, r.2) := by
  induction entries generalizing context world with
  | nil => exact .pure rfl
  | cons pair rest ih =>
    obtain ⟨key, entry⟩ := pair
    rw [List.forall_mem_cons] at hentries
    unfold resetCalls resetAll
    cases hstep : entry.step? with
    | none => exact ih context world hentries.2
    | some step =>
      let call : StepCall σ := { hook := .reset, key, step, context := context.focusOn key }
      have hmove := Move.reset (m := { m with context }) (hentries.1.trans hstep) ⟨.empty, world⟩ rfl
      have hrest := ih (step.reset call.context world).1 (step.reset call.context world).2 hentries.2
      constructor
      . rw [Traced.seen_bind, Traced.seen_emit, hrest.seen]
        rfl
      . exact (Path.single hmove).trans hrest.path

theorem Faithful.amounts_reset {m : Manager σ} (h : m.Faithful) (world : σ) :
    Amounts (m, world) (m.resetMoments world) (m.reset world) id := by
  exact (amounts_resetAll m m.context world fun _ => h.stepAt?_of_mem).bind (amounts_rebuild _ _)

theorem Faithful.amounts_suspend {m : Manager σ} (h : m.Faithful) (world : σ) :
    Amounts (m, world) (m.resetMoments world ++ [.suspended]) (m.suspend world) id :=
  (h.amounts_reset world).then_move (.suspend _ _) rfl

theorem Faithful.amounts_runStep {m : Manager σ} (h : m.Faithful) {key : StepKey}
    (hkey : m.currentKey? = some key) (env : Env σ) :
    Amounts (m, env.world) (m.callMoments .process (some key) env) (m.runStep key env)
      fun r => (r.2.1, r.2.2.world) := by
  obtain ⟨entry, step, hentry, hstep⟩ := h.exists_step hkey
  have hat : m.stepAt? key = some step := by
    rw [stepAt?, hentry]
    exact hstep
  have hdata : m.stepData? key = entry.data := by
    rw [stepData?, hentry]
    rfl
  have hmove := Move.process hkey hat env rfl
  rw [callMoments_some hat]
  constructor
  . simp [Manager.runStep, hentry, hstep, callOf, hdata, Entry.besidesEvents?, Moment.entry?]
  . rw [value_runStep, hentry]
    simp only [hstep, ← hdata]
    exact .single hmove

theorem Faithful.amounts_follow {m : Manager σ} (h : m.Faithful) (key : StepKey)
    (transition : Transition) (env : Env σ) :
    Amounts (m, env.world) (m.followMoments transition env) (m.follow key transition env)
      fun r => (r.1, r.2.world) := by
  have hmove := h.amounts_makeCurrent (m.landing? transition)
    (fun tree p htree hp => h.landing?_lt htree hp) env
  cases transition with
  | stay => exact .pure rfl
  | advance => exact hmove
  | jumpTo target =>
    simp only [Manager.follow, followMoments]
    rw [landing?] at hmove ⊢
    cases hposition : (m.keyOf? target).bind m.positionOf? with
    | none =>
      rw [hposition] at hmove
      exact hmove.log
    | some position =>
      rw [hposition] at hmove
      exact hmove.log

theorem Faithful.amounts_settle {m : Manager σ} (h : m.Faithful) (key : StepKey) (flow : Flow)
    (env : Env σ) :
    Amounts (m, env.world) (m.settleMoments flow env) (m.settle key flow env)
      fun t => (t.manager, t.env.world) := by
  cases flow with
  | nextCycle => exact .pure rfl
  | continueInCycle => exact .pure rfl
  | repeatWhole again =>
    apply Amounts.log
    exact (h.amounts_reset env.world).answer (.pure rfl)
  | terminate =>
    have hnone : ∀ (tree : StepTree) p, m.tree = some tree → none = some p →
        p < tree.keys.length := by
      simp
    have hended := h.amounts_makeCurrent none hnone env
    have hsuspend := (h.makeCurrent hnone env).amounts_suspend (m.makeCurrent none env).value.2.world
    apply Amounts.log
    exact hended.bind (hsuspend.answer (.pure rfl))

theorem Faithful.amounts_turn {m : Manager σ} (h : m.Faithful) {key : StepKey}
    (hkey : m.currentKey? = some key) (env : Env σ) :
    Amounts (m, env.world) (m.turnMoments key env) (m.turn key env)
      fun t => (t.manager, t.env.world) :=
  (h.amounts_runStep hkey env).bind <|
    ((h.runStep key env).amounts_follow key _ _).bind <|
      ((h.runStep key env).follow key _ _).amounts_settle key _ _

theorem Faithful.amounts_run {m : Manager σ} (h : m.Faithful) (limit left : Nat) (env : Env σ) :
    Amounts (m, env.world) ((runs left m env).flatMap StepRun.moments)
      (Manager.run limit left m env) fun r => (r.1, r.2.world) := by
  induction left generalizing m env with
  | zero =>
    rw [Manager.run]
    apply Amounts.log
    exact .pure rfl
  | succ left ih =>
    rw [Manager.run]
    cases hkey : m.currentKey? with
    | none =>
      simp only [runs, hkey]
      exact .pure rfl
    | some key =>
      rw [runs_succ hkey, List.flatMap_cons]
      refine (h.amounts_turn hkey env).bind ?_
      split
      . exact ih (h.turn key env) _
      . exact .pure rfl

theorem Faithful.amounts_process {m : Manager σ} (h : m.Faithful) (env : Env σ) :
    Amounts (m, env.world)
      (m.layOutMoments env.world ++ (m.stepRuns env).flatMap StepRun.moments) (m.process env)
      fun r => (r.1, r.2.world) := by
  refine (amounts_ensureTree m env.world).bind ?_
  exact (h.ensureTree env.world).amounts_run _ _ { env with world := _ }

theorem Faithful.amounts_restart {m : Manager σ} (h : m.Faithful) (target : StepRef)
    (env : Env σ) :
    Amounts (m, env.world)
      (m.layOutMoments env.world ++ (m.laidOut env).1.restartMoments target (m.laidOut env).2)
      (m.restart target env) fun r => (r.2.1, r.2.2.world) := by
  refine (amounts_ensureTree m env.world).bind ?_
  have hensured := h.ensureTree env.world
  unfold restartMoments laidOut
  generalize (m.ensureTree env.world).value = ensured at hensured ⊢
  dsimp only
  cases hposition : (ensured.1.keyOf? target).bind ensured.1.positionOf? with
  | none => exact .pure rfl
  | some position =>
    obtain ⟨key, _, hkey⟩ := Option.bind_eq_some_iff.mp hposition
    have hmove := hensured.amounts_makeCurrent (some position) (by
      intro tree p htree hp
      cases hp
      exact positionOf?_lt htree hkey) { env with world := ensured.2 }
    exact hmove.answer (.pure rfl)

theorem Faithful.amounts_perform {m : Manager σ} (h : m.Faithful) (op : Operation σ) (found : σ) :
    (m.perform op).seen Entry.besidesEvents? = (m.moments op).filterMap Moment.entry? ∧
      ∃ left, Path (m, found) (m.moments op) (m.after op, left) := by
  have henter {moments : List (Moment σ)} {world left : σ}
      (hpath : Path (m, world) moments (m.after op, left)) :
      ∃ left, Path (m, found) (.entered world :: moments) (m.after op, left) :=
    ⟨left, (Path.single (.enter m found world)).trans hpath⟩
  cases op with
  | insert source data => exact ⟨rfl, _, .single (.insert m found source data)⟩
  | remove target =>
    simp only [perform, moments, Manager.after, Traced.seen_map, Manager.remove]
    cases htarget : m.keyOf? target with
    | none => exact ⟨rfl, _, .refl⟩
    | some key =>
      have hmem := mem_keys_of_keyOf? htarget
      cases hentry : m.steps.get? key with
      | none =>
        rw [KeyMap.get?_eq_none_iff] at hentry
        contradiction
      | some entry =>
        simp only [Option.bind_some, hentry]
        exact ⟨rfl, _, .single (.remove hmem found)⟩
  | setLoop loop => exact ⟨rfl, _, .single (.setLoop m found loop)⟩
  | editContext edit => exact ⟨rfl, _, .single (.edit m found edit)⟩
  | needsProcess world =>
    have hlaid : Amounts (m, world) (m.layOutMoments world) (m.needsProcess world) (·.2) :=
      (amounts_ensureTree m world).answer (.pure rfl)
    simp only [perform, moments, Traced.seen_map]
    exact ⟨hlaid.seen, henter hlaid.path⟩
  | getStep target world =>
    have hlaid : Amounts (m, world) (m.layOutMoments world) (m.getStep target world) (·.2) :=
      (amounts_ensureTree m world).answer (.pure rfl)
    simp only [perform, moments, Traced.seen_map]
    exact ⟨hlaid.seen, henter hlaid.path⟩
  | initialStep world =>
    have hlaid : Amounts (m, world) (m.layOutMoments world) (m.initialStep world) (·.2) :=
      (amounts_ensureTree m world).answer (.pure rfl)
    simp only [perform, moments, Traced.seen_map]
    exact ⟨hlaid.seen, henter hlaid.path⟩
  | reset world =>
    have hreset := h.amounts_reset world
    simp only [perform, moments, Traced.seen_map]
    exact ⟨hreset.seen, henter hreset.path⟩
  | suspend world =>
    have hsuspend := h.amounts_suspend world
    simp only [perform, moments, Traced.seen_map]
    exact ⟨hsuspend.seen, henter hsuspend.path⟩
  | restart target env =>
    have hrestart := h.amounts_restart target env
    simp only [perform, moments, Traced.seen_map]
    exact ⟨hrestart.seen, henter hrestart.path⟩
  | process env =>
    have hprocess := h.amounts_process env
    simp only [perform, moments, Traced.seen_map]
    exact ⟨hprocess.seen, henter hprocess.path⟩

theorem Move.faithful {s s' : Manager σ × σ} {moments : List (Moment σ)} (h : Move s moments s')
    (hs : s.1.Faithful) : s'.1.Faithful := by
  cases h with
  | enter m found world => exact hs
  | insert m world source data => exact hs.insert source data
  | remove hkey world => exact .of_tree_none (KeyMap.ascending_erase hs.ascending _) rfl
  | setLoop m world loop => exact ⟨hs.ascending, hs.keys, hs.cursor, hs.made⟩
  | edit m world edit => exact ⟨hs.ascending, hs.keys, hs.cursor, hs.made⟩
  | rebuild m world => exact .rebuild hs.ascending world
  | @process m key step hkey hstep env left hleft =>
    exact hs.of_sameTree ⟨withoutData_modify m.steps key _, rfl, rfl, rfl⟩
  | willEnd hkey hstep env hleft => exact ⟨hs.ascending, hs.keys, by simp, hs.made⟩
  | @didBegin m position key step hopen hkey hstep env left hleft =>
    refine ⟨hs.ascending, hs.keys, ?_, hs.made⟩
    intro tree p (htree : m.tree = some tree) hp
    cases hp
    rw [currentKey?_of_tree htree, Option.bind_some] at hkey
    exact (List.getElem?_eq_some_iff.mp hkey).1
  | reset hstep env hleft => exact ⟨hs.ascending, hs.keys, hs.cursor, hs.made⟩
  | shift hopen h hposition world => exact h
  | suspend m world => exact hs.moved (by simp)

namespace Path

variable {s s' : Manager σ × σ} {moments : List (Moment σ)}

theorem faithful (h : Path s moments s') (hs : s.1.Faithful) : s'.1.Faithful := by
  induction h with
  | refl => exact hs
  | tail _ hmove ih => exact hmove.faithful ih

theorem split {before after : List (Moment σ)} {moment : Moment σ}
    (h : Path s (before ++ moment :: after) s') :
    ∃ earlier s₁ before' after' s₂ later, before = earlier ++ before' ∧ after = after' ++ later ∧
      Path s earlier s₁ ∧ Move s₁ (before' ++ moment :: after') s₂ := by
  generalize hmoments : before ++ moment :: after = moments at h
  induction h generalizing after with
  | refl => simp at hmoments
  | @tail moments moments' s₁ s₂ hpath hmove ih =>
    rcases append_eq_append_cons hmoments.symm with ⟨rest, rfl, rfl⟩ | ⟨rest, hfirst, rfl⟩
    . exact ⟨moments, s₁, rest, after, s₂, [], rfl, (List.append_nil _).symm, hpath, hmove⟩
    . obtain ⟨earlier, s₁, before', after', s₂, later, rfl, rfl, hearlier, hmove'⟩ :=
        ih hfirst.symm
      exact ⟨earlier, s₁, before', after', s₂, later ++ moments', rfl,
        List.append_assoc .., hearlier, hmove'⟩

end Path

theorem Faithful.path_history {m : Manager σ} (h : m.Faithful) (ops : List (Operation σ))
    (found : σ) :
    (m.carryOut ops).seen Entry.besidesEvents? = (m.history ops).filterMap Moment.entry? ∧
      ∃ left, Path (m, found) (m.history ops) ((m.carryOut ops).value, left) := by
  induction ops generalizing m found with
  | nil => exact ⟨rfl, found, .refl⟩
  | cons op ops ih =>
    obtain ⟨hseen, world, hpath⟩ := h.amounts_perform op found
    obtain ⟨hrest, left, hpath'⟩ := ih (hpath.faithful h) world
    rw [carryOut, history, Traced.seen_bind, Traced.value_bind, List.filterMap_append, hseen,
      value_perform, hrest]
    exact ⟨rfl, left, hpath.trans hpath'⟩

end Manager

end Sequencer
