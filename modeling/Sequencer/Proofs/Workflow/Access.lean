import Sequencer.Proofs.Instruction.Access
import Sequencer.Proofs.Workflow.Handles
import Sequencer.Proofs.Workflow.Structure

/-!
The operations of a workflow with every handle checked. Each does what its counterpart does, and
fails where that would go to a node by a handle that is not one of the graph. On a `Sound` workflow
none of them fails, so no operation ever does on a workflow that operations lead to.
-/

namespace Sequencer

namespace Workflow

variable {σ : Type}

namespace Checked

def liveNodes (w : Workflow σ) : Option (List InstructionId) := do
  let nodes ← w.registered.mapM fun entry => Graph.Checked.subtree w.graph entry.id
  return nodes.flatten

def findLabelClash? (g : Graph σ) (taken : List String) :
    List InstructionId → Option (Option (InstructionId × String))
  | [] => some none
  | id :: rest => do
    match ← g.access id g.labelName? with
    | none => findLabelClash? g taken rest
    | some name =>
      if name ∈ taken then return some (id, name) else findLabelClash? g (name :: taken) rest

def labelClash? (w : Workflow σ) (id : InstructionId) : Option (Option WorkflowError) := do
  let live ← liveNodes w
  let names ← live.mapM fun node => w.graph.access node w.graph.labelName?
  let candidates ← Graph.Checked.subtree w.graph id
  let clash ← findLabelClash? w.graph (names.filterMap fun name => name) candidates
  return clash.map fun (node, name) => .duplicateInstruction node (.label name)

def handleFault? (w : Workflow σ) (id : InstructionId) : Option (Option WorkflowError) :=
  if !w.graph.contains id then some (some (.unknownInstruction id))
  else if w.isRegistered id then some (some (.duplicateInstruction id .alreadyRegistered))
  else do
    let owner ← w.graph.access id w.graph.owner?
    return if owner.isSome then some (.duplicateInstruction id .alreadyRegistered) else none

def create (w : Workflow σ) (instruction : Instruction σ) :
    Option (InstructionId × Workflow σ) := do
  let (id, graph) ← Graph.Checked.insert none w.graph instruction
  return (id, { w with graph })

def candidate (w : Workflow σ) :
    InstructionSource σ → Option (Except WorkflowError InstructionId × Workflow σ)
  | .new instruction => do
    let (id, w) ← create w instruction
    return (.ok id, w)
  | .existing id => do
    match ← handleFault? w id with
    | some fault => return (.error fault, w)
    | none => return (.ok id, w)

def add (w : Workflow σ) (source : InstructionSource σ) (number : Option Int64)
    (name : Option String) : Option (Except WorkflowError InstructionId × Workflow σ) := do
  match ← candidate w source with
  | (.error fault, w) => return (.error fault, w)
  | (.ok id, w) =>
    match ← labelClash? w id with
    | some fault => return (.error fault, w)
    | none => return (.ok id, w.register id number name)

def append (w : Workflow σ) (source : InstructionSource σ) (number : Option Int64)
    (name : Option String) : Option (Except WorkflowError InstructionId × Workflow σ) := do
  match ← add w source number name, w.registered.getLast? with
  | (.ok id, w), some previous =>
    let graph ← Graph.Checked.setNext w.graph previous.id (some id)
    return (.ok id, { w with graph })
  | result, _ => return result

def findLabel? (g : Graph σ) (name : String) :
    List InstructionId → Option (Option InstructionId)
  | [] => some none
  | id :: rest => do
    if (← g.access id g.labelName?) = some name then return some id else findLabel? g name rest

def bindJumps (g : Graph σ) (live : List InstructionId) :
    List InstructionId →
      Option (Except (InstructionId × String) (List (InstructionId × InstructionId)))
  | [] => some (.ok [])
  | id :: rest => do
    match ← g.access id g.jumpLabel? with
    | none => bindJumps g live rest
    | some label =>
      match ← findLabel? g label live with
      | none => return .error (id, label)
      | some target =>
        match ← bindJumps g live rest with
        | .error missing => return .error missing
        | .ok bindings => return .ok ((id, target) :: bindings)

def resolve (g : Graph σ) : List (InstructionId × InstructionId) → Option (Graph σ)
  | [] => some g
  | (jump, target) :: rest => do resolve (← g.access jump (g.link · (some target))) rest

def link (w : Workflow σ) : Option (Except WorkflowError Unit × Workflow σ) := do
  let live ← liveNodes w
  match ← bindJumps w.graph live live with
  | .error (jump, label) => return (.error (.instructionReference jump label), w)
  | .ok bindings =>
    let graph ← resolve w.graph bindings
    return (.ok (), { w with graph, linksStale := false })

def ensureLinked (w : Workflow σ) : Option (Except WorkflowError Unit × Workflow σ) :=
  if w.linksStale then link w else some (.ok (), w)

def registrationOf? (w : Workflow σ) (id : InstructionId) : Option (Option Registration) :=
  match w.registered.find? fun entry => entry.id = id with
  | some entry => some (some entry)
  | none => do
    match ← w.graph.access id w.graph.owner? with
    | none => return none
    | some owner => if owner.index < id.index then registrationOf? w owner else none
termination_by id.index

def numberOf (w : Workflow σ) (id : InstructionId) : Option Int64 := do
  let registration ← registrationOf? w id
  return (registration.map (·.number)).getD idleNumber

def currentNumber (w : Workflow σ) : Option Int64 :=
  match w.pending with
  | none => some idleNumber
  | some id => numberOf w id

def currentName (w : Workflow σ) : Option String :=
  match w.pending with
  | none => some idleName
  | some id => do
    let registration ← registrationOf? w id
    return (registration.bind (·.name)).getD idleName

def makePending (w : Workflow σ) (now : Instant) :
    Option InstructionId → Option (Workflow σ)
  | none => some { w with pending := none, on := false }
  | some id => do
    let graph ← w.graph.access id (w.graph.arm now)
    return { w with graph, pending := some id }

def enable (w : Workflow σ) (now : Instant) : Option (Workflow σ) :=
  if w.on then some w
  else makePending { w with on := true } now (w.registered.head?.map Registration.id)

def advanceFrom (w : Workflow σ) (now : Instant) (id : InstructionId) : Option (Workflow σ) := do
  makePending w now (← w.graph.access id w.graph.successor?)

def recordFailure (w : Workflow σ) (id : InstructionId) : Option (Workflow σ) := do
  let _ ← numberOf w id
  return { w with error := true, failed := some id }

def turn (w : Workflow σ) (reading : Reading) (id : InstructionId) (env : Env σ) :
    Option (Turn σ) := do
  let (progress, graph, env) ← w.graph.access id fun id => w.graph.perform reading.invoked id env
  let w := { w with graph }
  match progress with
  | .success => return ⟨← advanceFrom w reading.armed id, env, false⟩
  | .continueNow => return ⟨← advanceFrom w reading.armed id, env, true⟩
  | .retry => return ⟨w, env, false⟩
  | .failContinue => return ⟨← advanceFrom (← recordFailure w id) reading.armed id, env, false⟩
  | .failRetry => return ⟨← recordFailure w id, env, false⟩

def run (clock : Clock) (made left : Nat) (w : Workflow σ) (env : Env σ) :
    Option (Workflow σ × Env σ) :=
  match left with
  | 0 => some (w, env)
  | left + 1 =>
    match w.pending with
    | none => some (w, env)
    | some id => do
      let turn ← turn w (clock made) id env
      if turn.goesOn then run clock (made + 1) left turn.workflow turn.env
      else return (turn.workflow, turn.env)

def process (w : Workflow σ) (clock : Clock) (env : Env σ) : Option (Cycle σ) :=
  if w.on then do
    match ← ensureLinked w with
    | (.error fault, w) => return ⟨.error fault, w, env⟩
    | (.ok (), w) =>
      let (w, env) ← run clock 0 w.config.transitionBudget w env
      return ⟨.ok (), w, env⟩
  else some ⟨.ok (), w, env⟩

def perform (w : Workflow σ) : Operation σ → Option (Answer σ × Workflow σ)
  | .create instruction => do
    let (id, w) ← create w instruction
    return (.created id, w)
  | .add source number name => do
    let (result, w) ← add w source number name
    return (.registered result, w)
  | .append source number name => do
    let (result, w) ← append w source number name
    return (.registered result, w)
  | .enable now => do return (.nothing, ← enable w now)
  | .process clock env => do
    let cycle ← process w clock env
    return (.cycled cycle.result cycle.env, cycle.workflow)
  -- these go to no node of the graph
  | .remove selector => some (w.perform (.remove selector)).value
  | .removeAll => some (w.perform .removeAll).value
  | .disable => some (w.perform .disable).value
  | .releaseFailure instruction => some (w.perform (.releaseFailure instruction)).value

end Checked

section Nodes

variable {g : Graph σ}

theorem checked_findLabelClash? {ids : List InstructionId}
    (hids : ∀ id ∈ ids, g.contains id = true) (taken : List String) :
    Checked.findLabelClash? g taken ids = some (findLabelClash? g taken ids) := by
  induction ids generalizing taken with
  | nil => rfl
  | cons id rest ih =>
    rw [List.forall_mem_cons] at hids
    rw [Checked.findLabelClash?, findLabelClash?, Graph.access_eq hids.1, Option.bind_eq_bind,
      Option.bind_some]
    cases g.labelName? id with
    | none => exact ih hids.2 taken
    | some name =>
      dsimp only
      split
      . rfl
      . exact ih hids.2 _

theorem checked_findLabel? {live : List InstructionId}
    (hlive : ∀ id ∈ live, g.contains id = true) (name : String) :
    Checked.findLabel? g name live = some (findLabel? g live name) := by
  induction live with
  | nil => rfl
  | cons id rest ih =>
    rw [List.forall_mem_cons] at hlive
    rw [Checked.findLabel?, findLabel?, List.find?_cons, Graph.access_eq hlive.1,
      Option.bind_eq_bind, Option.bind_some]
    by_cases hname : g.labelName? id = some name
    . simp [hname]
    . simpa [hname, findLabel?] using ih hlive.2

theorem checked_bindJumps {live ids : List InstructionId}
    (hlive : ∀ id ∈ live, g.contains id = true) (hids : ∀ id ∈ ids, g.contains id = true) :
    Checked.bindJumps g live ids = some (bindJumps g live ids) := by
  induction ids with
  | nil => rfl
  | cons id rest ih =>
    rw [List.forall_mem_cons] at hids
    rw [Checked.bindJumps, bindJumps, Graph.access_eq hids.1, Option.bind_eq_bind,
      Option.bind_some]
    cases g.jumpLabel? id with
    | none => exact ih hids.2
    | some label =>
      simp only [checked_findLabel? hlive, Option.bind_eq_bind, Option.bind_some]
      cases findLabel? g live label with
      | none => rfl
      | some target =>
        simp only [ih hids.2, Option.bind_some]
        cases bindJumps g live rest <;> rfl

theorem checked_resolve {bindings : List (InstructionId × InstructionId)}
    (hjumps : ∀ jump target, (jump, target) ∈ bindings → g.contains jump = true) :
    Checked.resolve g bindings = some (resolve g bindings) := by
  induction bindings generalizing g with
  | nil => rfl
  | cons binding rest ih =>
    obtain ⟨jump, target⟩ := binding
    rw [Checked.resolve, resolve, Graph.access_eq (hjumps jump target List.mem_cons_self),
      Option.bind_eq_bind, Option.bind_some]
    apply ih
    intro other target' hmem
    rw [Graph.contains_congr (Graph.shape_link g jump _)]
    exact hjumps other target' (List.mem_cons_of_mem _ hmem)

end Nodes

namespace Sound

variable {w : Workflow σ}

theorem checked_liveNodes (h : w.Sound) : Checked.liveNodes w = some w.liveNodes := by
  have hnodes := mapM_eq_some fun entry hentry =>
    h.graph.forest.checked_subtree (h.registered entry hentry)
  rw [Checked.liveNodes, hnodes, Workflow.liveNodes, List.flatMap]
  rfl

theorem checked_labelClash? (h : w.Sound) {id : InstructionId}
    (hid : w.graph.contains id = true) :
    Checked.labelClash? w id = some (w.labelClash? id) := by
  have hnames := mapM_eq_some fun node hnode =>
    Graph.access_eq (h.contains_of_mem_liveNodes hnode) w.graph.labelName?
  have hclash := checked_findLabelClash? (fun _ => h.graph.contains_of_mem_subtree hid)
    (w.liveNodes.filterMap w.graph.labelName?)
  simp only [Checked.labelClash?, h.checked_liveNodes, Option.bind_eq_bind, Option.bind_some,
    hnames, h.graph.forest.checked_subtree hid, List.filterMap_map]
  exact congrArg (Option.bind · _) hclash

theorem checked_handleFault? (w : Workflow σ) (id : InstructionId) :
    Checked.handleFault? w id = some (w.handleFault? id) := by
  unfold Checked.handleFault? Workflow.handleFault?
  cases hid : w.graph.contains id with
  | false => rfl
  | true =>
    rw [Graph.access_eq hid]
    cases w.isRegistered id <;> rfl

theorem checked_create (h : w.Sound) (instruction : Instruction σ) :
    Checked.create w instruction = some (w.create instruction) := by
  rw [Checked.create, h.graph.forest.checked_insert]
  rfl

theorem checked_candidate (h : w.Sound) (source : InstructionSource σ) :
    Checked.candidate w source = some (w.candidate source) := by
  cases source with
  | new instruction =>
    rw [Checked.candidate, h.checked_create]
    rfl
  | existing id =>
    rw [Checked.candidate, Workflow.candidate, checked_handleFault?]
    cases w.handleFault? id <;> rfl

theorem candidate (h : w.Sound) {source : InstructionSource σ} {id : InstructionId}
    {w' : Workflow σ} (heq : w.candidate source = (.ok id, w')) :
    w'.Sound ∧ w'.graph.contains id = true := by
  cases source with
  | new instruction =>
    cases heq
    exact ⟨h.create instruction, Graph.contains_insert _ _ _⟩
  | existing id' =>
    simp only [Workflow.candidate] at heq
    split at heq
    . simp at heq
    . next hfault =>
      cases heq
      exact ⟨h, (handleFault?_eq_none_iff.mp hfault).1⟩

theorem checked_add (h : w.Sound) (source : InstructionSource σ) (number : Option Int64)
    (name : Option String) :
    Checked.add w source number name = some (w.add source number name).value := by
  rw [Checked.add, value_add, h.checked_candidate, Option.bind_eq_bind, Option.bind_some]
  cases hcandidate : w.candidate source with
  | mk result w' =>
    cases result with
    | error fault => rfl
    | ok id =>
      obtain ⟨hsound, hid⟩ := h.candidate hcandidate
      simp only [hsound.checked_labelClash? hid, Option.bind_eq_bind, Option.bind_some]
      cases w'.labelClash? id <;> rfl

theorem checked_append (h : w.Sound) (source : InstructionSource σ) (number : Option Int64)
    (name : Option String) :
    Checked.append w source number name = some (w.append source number name).value := by
  have hadd := h.edit (.add source number name)
  have hold := fun id => @Edit.contains σ w _ (.add source number name) id
  rw [Checked.append, h.checked_add, value_append, Option.bind_eq_bind, Option.bind_some]
  generalize (w.add source number name).value = added at hadd hold
  rcases added with ⟨_ | id, w'⟩
  . rfl
  . cases hlast : w.registered.getLast? with
    | none => rfl
    | some previous =>
      have hprevious := hold previous.id (h.registered previous (List.mem_of_getLast? hlast))
      simp only [hadd.graph.forest.checked_setNext hprevious, Option.bind_eq_bind, Option.bind_some]
      rfl

theorem checked_link (h : w.Sound) : Checked.link w = some w.link.value := by
  have hlive := fun id (hid : id ∈ w.liveNodes) => h.contains_of_mem_liveNodes hid
  rw [Checked.link, h.checked_liveNodes, value_link, Option.bind_eq_bind, Option.bind_some]
  simp only [checked_bindJumps hlive hlive, Option.bind_eq_bind, Option.bind_some]
  rw [← bindings]
  cases hbindings : w.bindings with
  | error missing => rfl
  | ok bindings =>
    have hjumps : ∀ jump target, (jump, target) ∈ bindings → w.graph.contains jump = true :=
      fun jump target hmem => hlive jump ((bindJumps_ok hbindings).2 jump target hmem).1
    simp only [checked_resolve hjumps, Option.bind_some]
    rfl

theorem checked_ensureLinked (h : w.Sound) :
    Checked.ensureLinked w = some w.ensureLinked.value := by
  unfold Checked.ensureLinked Workflow.ensureLinked
  split
  . exact h.checked_link
  . rfl

theorem checked_registrationOf? (h : w.Sound) {id : InstructionId}
    (hid : w.graph.contains id = true) :
    Checked.registrationOf? w id = some (w.registrationOf? id) := by
  unfold Checked.registrationOf? Workflow.registrationOf?
  cases w.registered.find? fun entry => decide (entry.id = id) with
  | some entry => rfl
  | none =>
    rw [Graph.access_eq hid, Option.bind_eq_bind, Option.bind_some]
    cases howner : w.graph.owner? id with
    | none => rfl
    | some owner =>
      obtain ⟨hcontains, hlt⟩ := h.graph.owner id owner howner
      simp only [if_pos hlt]
      exact h.checked_registrationOf? hcontains
termination_by id.index

theorem checked_numberOf (h : w.Sound) {id : InstructionId} (hid : w.graph.contains id = true) :
    Checked.numberOf w id = some (w.numberOf id) := by
  rw [Checked.numberOf, h.checked_registrationOf? hid]
  rfl

theorem checked_currentNumber (h : w.Sound) :
    Checked.currentNumber w = some w.currentNumber := by
  unfold Checked.currentNumber Workflow.currentNumber
  cases hpending : w.pending with
  | none => rfl
  | some id => exact h.checked_numberOf (h.pending id hpending)

theorem checked_currentName (h : w.Sound) : Checked.currentName w = some w.currentName := by
  unfold Checked.currentName Workflow.currentName
  cases hpending : w.pending with
  | none => rfl
  | some id =>
    simp only [h.checked_registrationOf? (h.pending id hpending)]
    rfl

theorem checked_makePending (w : Workflow σ) (now : Instant) {next : Option InstructionId}
    (hnext : ∀ id, next = some id → w.graph.contains id = true) :
    Checked.makePending w now next = some (w.makePending now next).value := by
  cases next with
  | none => rfl
  | some id =>
    rw [Checked.makePending, Graph.access_eq (hnext id rfl)]
    rfl

theorem checked_enable (h : w.Sound) (now : Instant) :
    Checked.enable w now = some (w.enable now).value := by
  unfold Checked.enable Workflow.enable
  cases w.on with
  | true => rfl
  | false =>
    apply checked_makePending
    intro id hid
    obtain ⟨entry, hentry, rfl⟩ := Option.map_eq_some_iff.mp hid
    exact h.registered entry (List.mem_of_mem_head? hentry)

theorem checked_advanceFrom (h : w.Sound) (now : Instant) {id : InstructionId}
    (hid : w.graph.contains id = true) :
    Checked.advanceFrom w now id = some (w.advanceFrom now id).value := by
  rw [Checked.advanceFrom, Graph.access_eq hid, value_advanceFrom]
  exact checked_makePending w now fun next hnext => h.graph.contains_successor? hnext

theorem checked_recordFailure (h : w.Sound) {id : InstructionId}
    (hid : w.graph.contains id = true) :
    Checked.recordFailure w id = some (w.recordFailure id).value := by
  rw [Checked.recordFailure, h.checked_numberOf hid]
  rfl

theorem recordFailure (h : w.Sound) {id : InstructionId} (hid : w.graph.contains id = true) :
    (w.recordFailure id).value.Sound where
  graph := h.graph
  registered := h.registered
  pending := h.pending
  failed := by
    intro other hother
    cases hother
    exact hid

theorem checked_turn (h : w.Sound) (reading : Reading) {id : InstructionId}
    (hid : w.graph.contains id = true) (env : Env σ) :
    Checked.turn w reading id env = some (w.turn reading id env).value := by
  have hvisited := Graph.unvisited_perform w.graph reading.invoked id env
  rw [Checked.turn, Graph.access_eq hid, value_turn, Option.bind_eq_bind, Option.bind_some]
  generalize w.graph.perform reading.invoked id env = result at hvisited
  obtain ⟨progress, g, env⟩ := result
  dsimp only at hvisited
  have hw : Sound { w with graph := g } :=
    h.of_sameProgram ⟨hvisited, rfl, rfl, rfl⟩ h.pending h.failed
  have hid' : g.contains id = true := by
    rw [Graph.contains_congr (Graph.shape_eq_of_unvisited hvisited)]
    exact hid
  cases progress with
  | success => simp only [hw.checked_advanceFrom reading.armed hid']; rfl
  | continueNow => simp only [hw.checked_advanceFrom reading.armed hid']; rfl
  | retry => rfl
  | failContinue =>
    simp only [hw.checked_recordFailure hid', Option.bind_eq_bind, Option.bind_some,
      (hw.recordFailure hid').checked_advanceFrom reading.armed hid']
    rfl
  | failRetry => simp only [hw.checked_recordFailure hid']; rfl

theorem checked_run (h : w.Sound) (limit : Nat) (clock : Clock) (made left : Nat) (env : Env σ) :
    Checked.run clock made left w env = some (run limit clock made left w env).value := by
  induction left generalizing made w env with
  | zero => rfl
  | succ left ih =>
    rw [Checked.run, run]
    cases hpending : w.pending with
    | none => rfl
    | some id =>
      have hid := h.pending id hpending
      simp only [h.checked_turn (clock made) hid, Option.bind_eq_bind, Option.bind_some,
        Traced.value_bind]
      split
      . exact ih (h.turn (clock made) hid env) _ _
      . rfl

theorem checked_process (h : w.Sound) (clock : Clock) (env : Env σ) :
    Checked.process w clock env = some (w.process clock env).value := by
  have hlinked := h.edit .link
  rw [Checked.process, value_process, h.checked_ensureLinked]
  split
  . generalize w.ensureLinked.value = linked at hlinked
    rcases linked with ⟨_ | _, linked⟩
    . rfl
    . dsimp only at hlinked
      simp only [Option.bind_eq_bind, Option.bind_some,
        hlinked.checked_run linked.config.transitionBudget clock 0]
      rfl
  . rfl

theorem checked_perform (h : w.Sound) (op : Operation σ) :
    Checked.perform w op = some (w.perform op).value := by
  cases op with
  | create instruction => rw [Checked.perform, h.checked_create]; rfl
  | add source number name => rw [Checked.perform, h.checked_add]; rfl
  | append source number name => rw [Checked.perform, h.checked_append]; rfl
  | remove selector => rfl
  | removeAll => rfl
  | enable now => rw [Checked.perform, h.checked_enable]; rfl
  | disable => rfl
  | process clock env => rw [Checked.perform, h.checked_process]; rfl
  | releaseFailure instruction => rfl

end Sound

/--
Every handle that is stored in a workflow is one of its graph, and no operation and neither of the
displayed texts goes to a node by any other handle, whatever handles the callers come with.
-/
theorem Reachable.handles_contained {w : Workflow σ} (h : w.Reachable) :
    (∀ id ∈ w.handles, w.graph.contains id = true) ∧
    (∀ op, Checked.perform w op = some (w.perform op).value) ∧
    Checked.currentNumber w = some w.currentNumber ∧
    Checked.currentName w = some w.currentName := by
  have hsound := h.sound
  exact ⟨fun _ => hsound.contains_of_mem_handles, hsound.checked_perform,
    hsound.checked_currentNumber, hsound.checked_currentName⟩

def mishandled : Workflow Unit :=
  (Workflow.empty 0 .default)
    |>.after (.append (.new (.block [.label "a", .condition (.const false)
      (some (.callback fun env => (.failRetry, env)))])) none none)
    |>.after (.append (.new (.block [.label "b", .label "a"])) none none)
    |>.after (.append (.existing ⟨0, 4⟩) none none)
    |>.after (.append (.existing ⟨0, 1⟩) none none)
    |>.after (.append (.existing ⟨7, 0⟩) none none)
    |>.after (.append (.new (.label "c")) none none)
    |>.after (.enable default)
    |>.after (.process default ⟨.empty, ()⟩)
    |>.after (.remove (.id ⟨0, 0⟩))

theorem Reachable.handles_contained_mishandled :
    mishandled.Reachable ∧
    mishandled.registered.map (·.id) = [⟨0, 7⟩] ∧
    mishandled.pending = some ⟨0, 3⟩ ∧ mishandled.failed = some ⟨0, 3⟩ ∧
    mishandled.graph.handles =
      [⟨0, 1⟩, ⟨0, 2⟩, ⟨0, 7⟩, ⟨0, 2⟩, ⟨0, 0⟩, ⟨0, 3⟩, ⟨0, 7⟩, ⟨0, 0⟩, ⟨0, 2⟩, ⟨0, 5⟩, ⟨0, 6⟩,
        ⟨0, 6⟩, ⟨0, 4⟩, ⟨0, 4⟩] ∧
    (∀ id ∈ mishandled.handles, mishandled.graph.contains id = true) ∧
    Checked.perform mishandled (.append (.existing ⟨7, 0⟩) none none) =
      some (.registered (.error (.unknownInstruction ⟨7, 0⟩)), mishandled) ∧
    Checked.currentNumber mishandled = some idleNumber := by
  have hreachable : mishandled.Reachable :=
    (((((((((Reachable.empty _ _).after _).after _).after _).after _).after _).after _).after
      _).after _).after _
  obtain ⟨hhandles, hperform, hnumber, _⟩ := Reachable.handles_contained hreachable
  have hforeign : mishandled.graph.contains ⟨7, 0⟩ = false := by
    decide +kernel
  refine ⟨hreachable, by decide +kernel, by decide +kernel, by decide +kernel, by decide +kernel,
    hhandles, ?_, ?_⟩
  . rw [hperform]
    simp [perform, append, add, handleFault?, hforeign]
  . rw [hnumber]
    decide +kernel

end Workflow

end Sequencer
