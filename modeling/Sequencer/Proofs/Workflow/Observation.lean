import Sequencer.Proofs.Workflow.Handles

/-!
What can be seen of a workflow from outside. Two workflows are `Alike` when they differ in no more
than what nodes other than the pending one keep of their visits. An operation answers and reports
the same on both and leaves them alike, because a node forgets its last visit when it is armed. So
no caller can tell them apart, whatever operations it chooses by what it saw before.
-/

namespace Sequencer

namespace Workflow

variable {σ : Type}

/-- Apart from visits of nodes that are not pending the workflows are the same. -/
structure Alike (w w' : Workflow σ) : Prop extends SameProgram w w', SameStatus w w' where
  visit : ∀ id, w.pending = some id → w'.graph.kind? id = w.graph.kind? id

structure AlikeAfter {α : Type} (a b : α × Workflow σ) : Prop where
  answer : a.1 = b.1
  workflow : Alike a.2 b.2

structure AlikeTurn (a b : Turn σ) : Prop where
  workflow : Alike a.workflow b.workflow
  env : a.env = b.env
  goesOn : a.goesOn = b.goesOn

theorem findLabelClash?_congr {g h : Graph σ} (heq : g.shape = h.shape) (taken : List String)
    (ids : List InstructionId) : findLabelClash? g taken ids = findLabelClash? h taken ids := by
  have hname := Graph.labelName?_congr heq
  induction ids generalizing taken with
  | nil => rfl
  | cons id rest ih => simp only [findLabelClash?, hname, ih]

theorem bindJumps_congr {g h : Graph σ} (heq : g.shape = h.shape) (live ids : List InstructionId) :
    bindJumps g live ids = bindJumps h live ids := by
  have hjump := Graph.jumpLabel?_congr heq
  have hfind := findLabel?_congr heq live
  induction ids with
  | nil => rfl
  | cons id rest ih => simp only [bindJumps, hjump, hfind, ih]

theorem unvisited_resolve (g : Graph σ) (bindings : List (InstructionId × InstructionId)) :
    (resolve g bindings).unvisited = resolve g.unvisited bindings := by
  induction bindings generalizing g with
  | nil => rfl
  | cons binding rest ih => rw [resolve, resolve, ih, Graph.unvisited_link]

theorem add_eq (w : Workflow σ) (source : InstructionSource σ) (number : Option Int64)
    (name : Option String) :
    w.add source number name =
      match w.candidate source with
      | (.error fault, w) => pure (.error fault, w)
      | (.ok id, w) =>
        match w.labelClash? id with
        | some fault => pure (.error fault, w)
        | none => do
          .log (.instructionRegistered id (number.getD (Int64.ofNat w.registered.length)) name)
          return (.ok id, w.register id number name) := by
  cases source with
  | new instruction => rfl
  | existing id =>
    simp only [add, candidate]
    cases w.handleFault? id <;> rfl

namespace Alike

variable {w w' : Workflow σ}

theorem labelClash? (h : Alike w w') (id : InstructionId) :
    w.labelClash? id = w'.labelClash? id := by
  rw [Workflow.labelClash?, Workflow.labelClash?, liveNodes_congr h.registered h.shape,
    Graph.labelName?_congr h.shape, Graph.subtree_congr h.shape, findLabelClash?_congr h.shape]

theorem handleFault? (h : Alike w w') (id : InstructionId) :
    w.handleFault? id = w'.handleFault? id := by
  rw [Workflow.handleFault?, Workflow.handleFault?, isRegistered, isRegistered, h.registered,
    Graph.contains_congr h.shape, Graph.owner?_congr h.shape]

theorem registrationOf? (h : Alike w w') (id : InstructionId) :
    w.registrationOf? id = w'.registrationOf? id := by
  unfold Workflow.registrationOf?
  rw [h.registered, Graph.owner?_congr h.shape]
  cases w.registered.find? fun entry => decide (entry.id = id) with
  | some entry => rfl
  | none =>
    cases w.graph.owner? id with
    | none => rfl
    | some owner =>
      dsimp only
      split
      . exact h.registrationOf? owner
      . rfl
termination_by id.index

theorem numberOf (h : Alike w w') (id : InstructionId) : w.numberOf id = w'.numberOf id := by
  rw [Workflow.numberOf, Workflow.numberOf, h.registrationOf?]

theorem currentNumber (h : Alike w w') : w.currentNumber = w'.currentNumber := by
  rw [Workflow.currentNumber, Workflow.currentNumber, h.pending, funext h.numberOf]

theorem currentName (h : Alike w w') : w.currentName = w'.currentName := by
  rw [Workflow.currentName, Workflow.currentName, h.pending, funext h.registrationOf?]

theorem bindings (h : Alike w w') : w.bindings = w'.bindings := by
  rw [Workflow.bindings, Workflow.bindings, liveNodes_congr h.registered h.shape,
    bindJumps_congr h.shape]

theorem of_graph (h : Alike w w') {g g' : Graph σ} (hunvisited : g'.unvisited = g.unvisited)
    (hvisit : ∀ id, w.pending = some id → g'.kind? id = g.kind? id) :
    Alike { w with graph := g } { w' with graph := g' } where
  unvisited := hunvisited
  registered := h.registered
  linksStale := h.linksStale
  config := h.config
  pending := h.pending
  failed := h.failed
  on := h.on
  error := h.error
  visit := hvisit

theorem create (h : Alike w w') (instruction : Instruction σ) :
    AlikeAfter (w.create instruction) (w'.create instruction) := by
  obtain ⟨hid, hunvisited, hkind⟩ := Graph.insert_congr h.unvisited none instruction
  exact ⟨hid.symm, h.of_graph hunvisited fun id hid => hkind id (h.visit id hid)⟩

theorem candidate (h : Alike w w') (source : InstructionSource σ) :
    AlikeAfter (w.candidate source) (w'.candidate source) := by
  cases source with
  | new instruction =>
    obtain ⟨hid, hcreate⟩ := h.create instruction
    exact ⟨congrArg Except.ok hid, hcreate⟩
  | existing id =>
    rw [Workflow.candidate, Workflow.candidate, h.handleFault?]
    cases w'.handleFault? id with
    | some fault => exact ⟨rfl, h⟩
    | none => exact ⟨rfl, h⟩

theorem register (h : Alike w w') (id : InstructionId) (number : Option Int64)
    (name : Option String) : Alike (w.register id number name) (w'.register id number name) where
  unvisited := h.unvisited
  registered := by rw [Workflow.register, Workflow.register, h.registered]
  linksStale := rfl
  config := h.config
  pending := h.pending
  failed := h.failed
  on := h.on
  error := h.error
  visit := h.visit

theorem add (h : Alike w w') (source : InstructionSource σ) (number : Option Int64)
    (name : Option String) :
    (w.add source number name).Agree AlikeAfter (w'.add source number name) := by
  obtain ⟨hresult, hworkflow⟩ := h.candidate source
  rw [add_eq, add_eq]
  generalize w.candidate source = taken at hresult hworkflow
  generalize w'.candidate source = taken' at hresult hworkflow
  obtain ⟨result, w⟩ := taken
  obtain ⟨result', w'⟩ := taken'
  dsimp only at hresult hworkflow
  subst hresult
  cases result with
  | error fault => exact .pure ⟨rfl, hworkflow⟩
  | ok id =>
    dsimp only
    rw [hworkflow.labelClash?, hworkflow.registered]
    cases w'.labelClash? id with
    | some fault => exact .pure ⟨rfl, hworkflow⟩
    | none => exact .after _ (.pure ⟨rfl, hworkflow.register id number name⟩)

theorem append (h : Alike w w') (source : InstructionSource σ) (number : Option Int64)
    (name : Option String) :
    (w.append source number name).Agree AlikeAfter (w'.append source number name) := by
  unfold Workflow.append
  apply (h.add source number name).bind
  rintro ⟨result, v⟩ ⟨result', v'⟩ ⟨hresult, hv⟩
  dsimp only at hresult hv
  rw [hresult, h.registered]
  cases result' with
  | error fault => exact .pure ⟨rfl, hv⟩
  | ok id =>
    cases w.registered.getLast? with
    | none => exact .pure ⟨rfl, hv⟩
    | some previous =>
      refine .pure ⟨rfl, hv.of_graph ?_ ?_⟩
      . rw [Graph.unvisited_setNext, Graph.unvisited_setNext, hv.unvisited]
      . intro pending hpending
        rw [Graph.kind?_setNext, Graph.kind?_setNext, hv.visit pending hpending]

theorem unregister (h : Alike w w') (registered : List Registration) :
    Alike { w with registered, linksStale := true } { w' with registered, linksStale := true } where
  unvisited := h.unvisited
  registered := rfl
  linksStale := rfl
  config := h.config
  pending := h.pending
  failed := h.failed
  on := h.on
  error := h.error
  visit := h.visit

theorem remove (h : Alike w w') (selector : InstructionSelector) :
    (w.remove selector).Agree AlikeAfter (w'.remove selector) := by
  have hselect : w'.select? selector = w.select? selector := by
    cases selector <;> simp only [select?, findNumber?, findName?, h.registered]
  unfold Workflow.remove
  rw [hselect, h.registered]
  split
  . exact .pure ⟨rfl, h⟩
  . exact .after _ (.pure ⟨rfl, h.unregister _⟩)

theorem ensureLinked (h : Alike w w') : w.ensureLinked.Agree AlikeAfter w'.ensureLinked := by
  unfold Workflow.ensureLinked
  rw [h.linksStale]
  split
  . unfold link
    rw [h.bindings]
    cases w'.bindings with
    | error missing => exact .after _ (.pure ⟨rfl, h⟩)
    | ok bindings =>
      refine .after _ (.pure ⟨rfl, ?_⟩)
      constructor
      . exact ⟨by simp only [unvisited_resolve, h.unvisited], h.registered, rfl, h.config⟩
      . exact ⟨h.pending, h.failed, h.on, h.error⟩
      . intro id hid
        rw [kind?_resolve, kind?_resolve, h.visit id hid]
  . exact .pure ⟨rfl, h⟩

theorem makePending (h : Alike w w') (now : Instant) (next : Option InstructionId) :
    (w.makePending now next).Agree Alike (w'.makePending now next) := by
  cases next with
  | none =>
    apply Traced.Agree.pure
    exact ⟨⟨h.unvisited, h.registered, h.linksStale, h.config⟩, ⟨rfl, h.failed, rfl, h.error⟩,
      by simp⟩
  | some id =>
    -- whatever the two nodes kept of their last visits is forgotten
    refine .after _ (.pure ?_)
    constructor
    . refine ⟨?_, h.registered, h.linksStale, h.config⟩
      rw [Graph.unvisited_arm, Graph.unvisited_arm, h.unvisited]
    . exact ⟨rfl, h.failed, h.on, h.error⟩
    . intro pending hpending
      cases hpending
      exact Graph.kind?_arm_congr h.unvisited now id

theorem enable (h : Alike w w') (now : Instant) :
    (w.enable now).Agree Alike (w'.enable now) := by
  unfold Workflow.enable
  rw [h.on]
  split
  . exact .pure h
  . have hon : Alike { w with on := true } { w' with on := true } :=
      ⟨⟨h.unvisited, h.registered, h.linksStale, h.config⟩, ⟨h.pending, h.failed, rfl, h.error⟩,
        h.visit⟩
    have hfirst : w'.registered.head?.map Registration.id =
        w.registered.head?.map Registration.id := by
      rw [h.registered]
    dsimp only
    rw [hfirst]
    apply (hon.makePending now _).bind
    intro v v' hv
    rw [hv.registered, hv.on]
    exact .after _ (.pure hv)

theorem disable (h : Alike w w') : w.disable.Agree Alike w'.disable := by
  unfold Workflow.disable
  rw [h.on]
  split
  . exact .pure h
  . apply Traced.Agree.after
    apply Traced.Agree.pure
    exact ⟨⟨h.unvisited, h.registered, h.linksStale, h.config⟩, ⟨rfl, h.failed, rfl, h.error⟩,
      by simp⟩

theorem releaseFailure (h : Alike w w') (instruction : Option InstructionId) :
    (w.releaseFailure instruction).Agree Alike (w'.releaseFailure instruction) := by
  have hreleased : Alike { w with failed := none, error := false }
      { w' with failed := none, error := false } :=
    ⟨⟨h.unvisited, h.registered, h.linksStale, h.config⟩, ⟨h.pending, rfl, h.on, rfl⟩, h.visit⟩
  unfold Workflow.releaseFailure
  rw [h.failed]
  split
  . exact .pure h
  . cases w.failed with
    | none => exact .pure hreleased
    | some failed => exact .after _ (.pure hreleased)

theorem advanceFrom (h : Alike w w') (now : Instant) {id : InstructionId}
    (hpending : w.pending = some id) :
    (w.advanceFrom now id).Agree Alike (w'.advanceFrom now id) := by
  have hnext := Graph.successor?_congr (h.visit id hpending) h.unvisited
  unfold Workflow.advanceFrom
  rw [hnext]
  dsimp only
  split
  . exact .after _ (h.makePending now _)
  . exact h.makePending now _

theorem recordFailure (h : Alike w w') (id : InstructionId) :
    (w.recordFailure id).Agree (fun v v' => Alike v v' ∧ v.pending = w.pending)
      (w'.recordFailure id) := by
  unfold Workflow.recordFailure
  rw [h.numberOf]
  apply Traced.Agree.after
  apply Traced.Agree.pure
  exact ⟨⟨⟨h.unvisited, h.registered, h.linksStale, h.config⟩, ⟨h.pending, rfl, h.on, rfl⟩, h.visit⟩,
    rfl⟩

theorem invoke (h : Alike w w') (now : Instant) {id : InstructionId}
    (hpending : w.pending = some id) (env : Env σ) :
    (w.graph.invoke now id env).Agree
      (fun a b => a.1 = b.1 ∧ a.2.2 = b.2.2 ∧
        Alike { w with graph := a.2.1 } { w' with graph := b.2.1 })
      (w'.graph.invoke now id env) := by
  have hkind := h.visit id hpending
  obtain ⟨hprogress, hvisited, henv⟩ := Graph.perform_congr hkind now env
  unfold Graph.invoke
  rw [Graph.announce_congr hkind]
  apply Traced.Agree.after
  dsimp only
  rw [hprogress]
  refine .after _ (.pure ⟨rfl, henv.symm, h.of_graph ?_ ?_⟩)
  . rw [Graph.unvisited_perform, Graph.unvisited_perform, h.unvisited]
  . intro pending heq
    rw [hpending, Option.some.injEq] at heq
    rw [← heq]
    exact hvisited

theorem turn (h : Alike w w') (reading : Reading) {id : InstructionId}
    (hpending : w.pending = some id) (env : Env σ) :
    (w.turn reading id env).Agree AlikeTurn (w'.turn reading id env) := by
  unfold Workflow.turn
  apply (h.invoke reading.invoked hpending env).bind
  rintro ⟨progress, g, env⟩ ⟨progress', g', env'⟩ ⟨hprogress, henv, hw⟩
  dsimp only at hprogress henv hw
  subst hprogress henv
  cases progress with
  | success =>
    exact (hw.advanceFrom reading.armed hpending).bind fun _ _ hv => .pure ⟨hv, rfl, rfl⟩
  | continueNow =>
    exact (hw.advanceFrom reading.armed hpending).bind fun _ _ hv => .pure ⟨hv, rfl, rfl⟩
  | retry => exact .pure ⟨hw, rfl, rfl⟩
  | failContinue =>
    apply (hw.recordFailure id).bind
    rintro v v' ⟨hv, hsame⟩
    exact (hv.advanceFrom reading.armed (hsame.trans hpending)).bind fun _ _ hu =>
      .pure ⟨hu, rfl, rfl⟩
  | failRetry => exact (hw.recordFailure id).bind fun _ _ hv => .pure ⟨hv.1, rfl, rfl⟩

theorem run (h : Alike w w') (limit : Nat) (clock : Clock) (made left : Nat) (env : Env σ) :
    (Workflow.run limit clock made left w env).Agree (fun a b => a.2 = b.2 ∧ Alike a.1 b.1)
      (Workflow.run limit clock made left w' env) := by
  induction left generalizing made w w' env with
  | zero => exact .after _ (.pure ⟨rfl, h⟩)
  | succ left ih =>
    rw [Workflow.run, Workflow.run, h.pending]
    cases hpending : w.pending with
    | none => exact .pure ⟨rfl, h⟩
    | some id =>
      apply (h.turn (clock made) hpending env).bind
      rintro ⟨v, env, goesOn⟩ ⟨v', env', goesOn'⟩ ⟨hv, henv, hgoesOn⟩
      dsimp only at hv henv hgoesOn
      subst henv hgoesOn
      cases goesOn with
      | true => exact ih hv _ env
      | false => exact .pure ⟨rfl, hv⟩

theorem process (h : Alike w w') (clock : Clock) (env : Env σ) :
    (w.process clock env).Agree
      (fun a b => a.result = b.result ∧ a.env = b.env ∧ Alike a.workflow b.workflow)
      (w'.process clock env) := by
  unfold Workflow.process
  rw [h.on]
  split
  . exact .pure ⟨rfl, rfl, h⟩
  . apply h.ensureLinked.bind
    rintro ⟨result, v⟩ ⟨result', v'⟩ ⟨hresult, hv⟩
    dsimp only at hresult hv
    subst hresult
    cases result with
    | error fault => exact .pure ⟨rfl, rfl, hv⟩
    | ok _ =>
      dsimp only
      rw [hv.config]
      exact (hv.run _ clock 0 _ env).bind fun _ _ hu => .pure ⟨rfl, hu.1, hu.2⟩

theorem perform (h : Alike w w') (op : Operation σ) :
    (w.perform op).Agree AlikeAfter (w'.perform op) := by
  cases op with
  | create instruction =>
    obtain ⟨hid, hcreate⟩ := h.create instruction
    exact .pure ⟨congrArg Answer.created hid, hcreate⟩
  | add source number name =>
    exact (h.add source number name).bind fun _ _ hv =>
      .pure ⟨congrArg Answer.registered hv.answer, hv.workflow⟩
  | append source number name =>
    exact (h.append source number name).bind fun _ _ hv =>
      .pure ⟨congrArg Answer.registered hv.answer, hv.workflow⟩
  | remove selector =>
    exact (h.remove selector).bind fun _ _ hv =>
      .pure ⟨congrArg Answer.removed hv.answer, hv.workflow⟩
  | removeAll => exact .pure ⟨rfl, h.unregister []⟩
  | enable now => exact (h.enable now).bind fun _ _ hv => .pure ⟨rfl, hv⟩
  | disable => exact h.disable.bind fun _ _ hv => .pure ⟨rfl, hv⟩
  | process clock env =>
    apply (h.process clock env).bind
    rintro ⟨result, v, env⟩ ⟨result', v', env'⟩ ⟨hresult, henv, hv⟩
    dsimp only at hresult henv hv
    subst hresult henv
    exact .pure ⟨rfl, hv⟩
  | releaseFailure instruction =>
    exact (h.releaseFailure instruction).bind fun _ _ hv => .pure ⟨rfl, hv⟩

end Alike

structure Observation (σ : Type) where
  answer : Answer σ
  entries : List (Entry σ)
  pending : Option InstructionId
  failed : Option InstructionId
  on : Bool
  error : Bool
  number : Int64
  name : String

def observe (w : Workflow σ) (op : Operation σ) : Observation σ :=
  let performed := w.perform op
  let (answer, w) := performed.value
  { answer, entries := performed.entries, pending := w.pending, failed := w.failed, on := w.on
    error := w.error, number := w.currentNumber, name := w.currentName }

def session (caller : List (Observation σ) → Operation σ) :
    Nat → Workflow σ → List (Observation σ) × Workflow σ
  | 0, w => ([], w)
  | n + 1, w =>
    let (seen, w) := session caller n w
    let op := caller seen
    (seen ++ [w.observe op], w.after op)

theorem Alike.observe {w w' : Workflow σ} (h : Alike w w') (op : Operation σ) :
    w.observe op = w'.observe op := by
  obtain ⟨⟨hanswer, hworkflow⟩, hentries⟩ := h.perform op
  simp only [Workflow.observe, hanswer, hentries, hworkflow.pending, hworkflow.failed,
    hworkflow.on, hworkflow.error, hworkflow.currentNumber, hworkflow.currentName]

theorem Alike.session {w w' : Workflow σ} (h : Alike w w')
    (caller : List (Observation σ) → Operation σ) (n : Nat) :
    AlikeAfter (w.session caller n) (w'.session caller n) := by
  induction n with
  | zero => exact ⟨rfl, h⟩
  | succ n ih =>
    obtain ⟨hseen, hworkflow⟩ := ih
    have hafter := fun op => (hworkflow.perform op).value.workflow
    simp only [value_perform] at hafter
    simp only [Workflow.session, hseen]
    refine ⟨?_, hafter _⟩
    simp only [hworkflow.observe]

/--
What nodes that are not pending keep of earlier visits is never seen: on two workflows that differ
in no more than that, every caller sees the same.
-/
theorem Alike.session_eq {w w' : Workflow σ} (h : Alike w w')
    (caller : List (Observation σ) → Operation σ) (n : Nat) :
    (w.session caller n).1 = (w'.session caller n).1 :=
  (h.session caller n).answer

def revisited (deadline : Timer.Deadline) (holds : Bool) : Workflow Unit where
  graph :=
    { id := 0
      nodes := #[
        { kind := .timedCondition ⟨some (.ofSeconds 1), deadline⟩ (.const true) none holds
          next := some ⟨0, 1⟩
          owner := none },
        { kind := .wait ⟨some (.ofSeconds 1), .never⟩, next := none, owner := none }] }
  registered := [⟨⟨0, 0⟩, 0, none⟩, ⟨⟨0, 1⟩, 1, none⟩]
  pending := some ⟨0, 1⟩
  failed := none
  on := true
  error := false
  linksStale := false
  config := .default

def restart (seen : List (Observation Unit)) : Operation Unit :=
  match seen.length with
  | 0 => .disable
  | 1 => .enable default
  | _ => .process default ⟨.empty, ()⟩

theorem Alike.session_eq_revisited :
    Alike (revisited .never true) (revisited .expired false) ∧
    ((revisited .never true).session restart 3).1 =
      ((revisited .expired false).session restart 3).1 ∧
    ((revisited .expired false).session restart 3).1.map (·.pending) =
      [none, some ⟨0, 0⟩, some ⟨0, 1⟩] := by
  have halike : Alike (revisited .never true) (revisited .expired false) := by
    refine ⟨⟨?_, rfl, rfl, rfl⟩, ⟨rfl, rfl, rfl, rfl⟩, ?_⟩
    . simp [revisited, Graph.unvisited, NodeKind.unvisited, Timer.invalidate]
    . intro id hid
      cases hid
      rfl
  exact ⟨halike, halike.session_eq restart 3, by decide +kernel⟩

end Workflow

end Sequencer
