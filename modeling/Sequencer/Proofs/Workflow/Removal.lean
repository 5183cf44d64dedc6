import Sequencer.Proofs.Workflow.Limit
import Sequencer.Proofs.Workflow.Observation
import Sequencer.Proofs.Workflow.Refusal
import Sequencer.Proofs.Workflow.Status

/-!
What comes of a removed instruction. The links to it go on working, so control still gets to it, but
the link pass leaves out the jumps in it. If these are bound by then, a workflow without the
instruction does what it does with it.
-/

namespace Sequencer

namespace Graph

variable {σ : Type}

theorem labelName?_of_encloses_leaf {g : Graph σ} {id : InstructionId}
    (hchildren : g.children id = []) (hlabel : g.labelName? id = none) :
    ∀ node, g.Encloses id node → g.labelName? node = none := by
  have hself : ∀ node, g.Encloses id node → node = id := by
    intro node hnode
    induction hnode with
    | refl => rfl
    | nested _ hchild ih =>
      rw [ih, hchildren] at hchild
      simp at hchild
  intro node hnode
  rw [hself node hnode, hlabel]

end Graph

namespace Workflow

variable {σ : Type}

def Operation.Drives : Operation σ → Prop
  | .enable _ | .disable | .process _ _ => True
  | _ => False

structure Conduct (σ : Type) where
  answer : Answer σ
  movements : List (InstructionId × Instant × Option Progress)
  pending : Option InstructionId
  failed : Option InstructionId
  on : Bool
  error : Bool

def Conduct.course (conduct : Conduct σ) : List (InstructionId × Option Progress) :=
  conduct.movements.map fun (id, _, progress) => (id, progress)

def conduct (w : Workflow σ) (op : Operation σ) : Conduct σ :=
  let performed := w.perform op
  let (answer, w) := performed.value
  { answer, movements := performed.seen Entry.movement?, pending := w.pending, failed := w.failed
    on := w.on, error := w.error }

def conducts : Workflow σ → List (Operation σ) → List (Conduct σ)
  | _, [] => []
  | w, op :: ops => w.conduct op :: (w.after op).conducts ops

/-- The workflows differ in no more than what is registered and whether the links are stale. -/
structure SameCourse (w w' : Workflow σ) : Prop extends SameStatus w w' where
  graph : w'.graph = w.graph
  config : w'.config = w.config

namespace SameCourse

variable {w w' : Workflow σ}

theorem makePending (h : SameCourse w w') (now : Instant) (next : Option InstructionId) :
    SameCourse (w.makePending now next).value (w'.makePending now next).value := by
  cases next with
  | none => exact ⟨⟨rfl, h.failed, rfl, h.error⟩, h.graph, h.config⟩
  | some id =>
    exact ⟨⟨rfl, h.failed, h.on, h.error⟩, congrArg (·.arm now id) h.graph, h.config⟩

theorem enable (h : SameCourse w w') (hfirst : w'.registered.head? = w.registered.head?)
    (now : Instant) : SameCourse (w.enable now).value (w'.enable now).value := by
  unfold Workflow.enable
  rw [h.on, hfirst]
  split
  . exact h
  . apply makePending
    exact ⟨⟨h.pending, h.failed, rfl, h.error⟩, h.graph, h.config⟩

theorem disable (h : SameCourse w w') : SameCourse w.disable.value w'.disable.value := by
  unfold Workflow.disable
  rw [h.on]
  split
  . exact h
  . exact ⟨⟨rfl, h.failed, rfl, h.error⟩, h.graph, h.config⟩

theorem turn (h : SameCourse w w') (reading : Reading) (id : InstructionId) (env : Env σ) :
    SameCourse (w.turn reading id env).value.workflow (w'.turn reading id env).value.workflow := by
  have hinvoked : SameCourse (w.invoked reading.invoked id env)
      (w'.invoked reading.invoked id env) := by
    unfold invoked
    rw [h.graph, h.failed, h.error]
    exact ⟨⟨h.pending, rfl, h.on, rfl⟩, rfl, h.config⟩
  rw [workflow_turn, workflow_turn, h.graph]
  split
  . exact hinvoked.makePending reading.armed _
  . exact hinvoked

theorem run (h : SameCourse w w') (limit : Nat) (clock : Clock) (made left : Nat) (env : Env σ) :
    (Workflow.run limit clock made left w' env).seen Entry.movement? =
        (Workflow.run limit clock made left w env).seen Entry.movement? ∧
      (Workflow.run limit clock made left w' env).value.2 =
        (Workflow.run limit clock made left w env).value.2 ∧
      SameCourse (Workflow.run limit clock made left w env).value.1
        (Workflow.run limit clock made left w' env).value.1 := by
  induction left generalizing made w w' env with
  | zero => exact ⟨rfl, rfl, h⟩
  | succ left ih =>
    rw [Workflow.run, Workflow.run, h.pending]
    cases w.pending with
    | none => exact ⟨rfl, rfl, h⟩
    | some id =>
      have hseen : (w'.turn (clock made) id env).seen Entry.movement? =
          (w.turn (clock made) id env).seen Entry.movement? := by
        have hperformed : Visit.performed ⟨w', clock made, id, env⟩ =
            Visit.performed ⟨w, clock made, id, env⟩ := by
          rw [Visit.performed, Visit.performed, h.graph]
        change (Visit.turn ⟨w', clock made, id, env⟩).seen _ =
          (Visit.turn ⟨w, clock made, id, env⟩).seen _
        rw [Visit.seen_turn Entry.movement?_event, Visit.seen_turn Entry.movement?_event,
          Visit.progress, hperformed]
        rfl
      have henv : (w'.turn (clock made) id env).value.env =
          (w.turn (clock made) id env).value.env := by
        rw [env_turn, env_turn, h.graph]
      have hgoes : (w'.turn (clock made) id env).value.goesOn =
          (w.turn (clock made) id env).value.goesOn := by
        rw [Bool.eq_iff_iff, goesOn_turn, goesOn_turn, h.graph]
      have hturn := h.turn (clock made) id env
      simp only [Traced.seen_bind, Traced.value_bind, hseen, henv, hgoes]
      split
      . obtain ⟨hrest, hvalue, hsame⟩ := ih hturn _ (w.turn (clock made) id env).value.env
        exact ⟨by rw [hrest], hvalue, hsame⟩
      . exact ⟨rfl, rfl, hturn⟩

theorem process (h : SameCourse w w') {linked linked' : Workflow σ}
    (hlinked : w.ensureLinked.value = (.ok (), linked))
    (hlinked' : w'.ensureLinked.value = (.ok (), linked')) (hsame : SameCourse linked linked')
    (clock : Clock) (env : Env σ) :
    (w'.process clock env).seen Entry.movement? = (w.process clock env).seen Entry.movement? ∧
      (w'.process clock env).value.result = (w.process clock env).value.result ∧
      (w'.process clock env).value.env = (w.process clock env).value.env ∧
      SameCourse (w.process clock env).value.workflow (w'.process clock env).value.workflow := by
  cases hon : w.on with
  | false =>
    have hon' : w'.on = false := h.on.trans hon
    rw [process_of_on_eq_false hon, process_of_on_eq_false hon']
    exact ⟨rfl, rfl, rfl, h⟩
  | true =>
    have hon' : w'.on = true := h.on.trans hon
    obtain ⟨hseen, henv, hran⟩ :=
      hsame.run linked.config.transitionBudget clock 0 linked.config.transitionBudget env
    unfold Workflow.process
    simp only [hon, hon', Bool.not_true, Bool.false_eq_true, ↓reduceIte, Traced.seen_bind,
      Traced.value_bind, seen_ensureLinked Entry.movement?_event, hlinked, hlinked', hsame.config,
      hseen, henv]
    exact ⟨rfl, rfl, rfl, hran⟩

end SameCourse

theorem ensureLinked_cases (w : Workflow σ) :
    (∃ fault, w.ensureLinked.value = (.error fault, w)) ∨
    ∃ linked, w.ensureLinked.value = (.ok (), linked) ∧ linked.registered = w.registered ∧
      linked.graph.shape = w.graph.shape ∧ linked.linksStale = false := by
  unfold ensureLinked
  split
  . rw [value_link]
    split
    . exact Or.inl ⟨_, rfl⟩
    . exact Or.inr ⟨_, rfl, rfl, shape_resolve _ _, rfl⟩
  . next hstale => exact Or.inr ⟨w, rfl, rfl, rfl, by simpa using hstale⟩

theorem after_of_drives (w : Workflow σ) {op : Operation σ} (hop : op.Drives) :
    (w.after op).registered = w.registered ∧ (w.after op).graph.shape = w.graph.shape ∧
      ((w.after op).linksStale = true → SameProgram w (w.after op)) := by
  have hkept {w' : Workflow σ} (h : SameProgram w w') : w'.registered = w.registered ∧
      w'.graph.shape = w.graph.shape ∧ (w'.linksStale = true → SameProgram w w') :=
    ⟨h.registered, h.shape, fun _ => h⟩
  cases op with
  | enable now => exact hkept (sameProgram_enable w now)
  | disable => exact hkept (sameProgram_disable w)
  | process clock env =>
    rw [after, value_process]
    split
    . rcases w.ensureLinked_cases with ⟨fault, hvalue⟩ | ⟨linked, hvalue, hregistered, hshape, hstale⟩
      . rw [hvalue]
        exact hkept (.refl w)
      . rw [hvalue]
        have hran := sameProgram_run linked.config.transitionBudget clock 0
          linked.config.transitionBudget linked env
        refine ⟨hran.registered.trans hregistered, hran.shape.trans hshape, ?_⟩
        intro hran'
        rw [hran.linksStale, hstale] at hran'
        contradiction
    . exact hkept (.refl w)
  | _ => exact hop.elim

/--
The second workflow is the first without an instruction behind another one. All its jumps have their
labels, those in the instruction are bound, and no label is in it.
-/
structure Without (w : Workflow σ) (id : InstructionId) (w' : Workflow σ) : Prop
    extends SameCourse w w' where
  reachable : w.Reachable
  reachable' : w'.Reachable
  list : ∃ first before entry after, w.registered = first :: (before ++ entry :: after) ∧
    w'.registered = first :: (before ++ after) ∧ entry.id = id
  complete : ∃ bindings, w.bindings = .ok bindings
  unlabelled : ∀ node ∈ w.graph.subtree id, w.graph.labelName? node = none
  bound : w.linksStale = true → ∀ jump ∈ w.graph.subtree id, ∀ label,
    w.graph.jumpLabel? jump = some label →
      ∃ target, findLabel? w.graph w.liveNodes label = some target ∧
        w.graph.next? jump = some target

namespace Without

variable {w w' : Workflow σ} {id : InstructionId}

theorem head? (h : Without w id w') : w'.registered.head? = w.registered.head? := by
  obtain ⟨first, before, entry, after, hregistered, hregistered', _⟩ := h.list
  rw [hregistered, hregistered']
  rfl

theorem liveNodes (h : Without w id w') :
    ∃ before after, w.liveNodes = before ++ w.graph.subtree id ++ after ∧
      w'.liveNodes = before ++ after := by
  obtain ⟨first, before, entry, after, hregistered, hregistered', rfl⟩ := h.list
  let nested := fun entry : Registration => w.graph.subtree entry.id
  refine ⟨(first :: before).flatMap nested, after.flatMap nested, ?_, ?_⟩
  . simp [Workflow.liveNodes, hregistered, nested]
  . simp [Workflow.liveNodes, hregistered', h.graph, nested]

theorem ensureLinked (h : Without w id w') :
    ∃ linked linked', w.ensureLinked.value = (.ok (), linked) ∧
      w'.ensureLinked.value = (.ok (), linked') ∧ SameCourse linked linked' := by
  obtain ⟨bindings, hbindings⟩ := h.complete
  obtain ⟨before, after, hlive, hlive'⟩ := h.liveNodes
  have hbound : ∀ jump ∈ w.graph.subtree id, ∀ label, w.graph.jumpLabel? jump = some label →
      ∃ target, findLabel? w.graph w.liveNodes label = some target ∧
        w.graph.next? jump = some target := by
    cases hstale : w.linksStale with
    | true => exact h.bound hstale
    | false =>
      intro jump hjump
      apply h.reachable.coherent.bound hstale
      rw [hlive]
      simp [hjump]
  obtain ⟨bindings', hbindings', hresolve⟩ : ∃ bindings', w'.bindings = .ok bindings' ∧
      resolve w.graph bindings' = resolve w.graph bindings := by
    rw [hlive] at hbound
    rw [Workflow.bindings, hlive] at hbindings
    rw [Workflow.bindings, hlive', h.graph]
    exact resolve_without h.unlabelled hbound hbindings
  refine ⟨_, _, h.reachable.coherent.ensureLinked_of_bindings hbindings,
    h.reachable'.coherent.ensureLinked_of_bindings hbindings', ?_⟩
  refine ⟨⟨h.pending, h.failed, h.on, h.error⟩, ?_, h.config⟩
  dsimp only
  rw [h.graph, hresolve]

theorem perform (h : Without w id w') {op : Operation σ} (hop : op.Drives) :
    (w'.perform op).seen Entry.movement? = (w.perform op).seen Entry.movement? ∧
      (w'.perform op).value.1 = (w.perform op).value.1 ∧
      SameCourse (w.after op) (w'.after op) := by
  cases op with
  | enable now =>
    refine ⟨?_, rfl, h.toSameCourse.enable h.head? now⟩
    simp [Workflow.perform, seen_enable Entry.movement?_event, h.on, h.head?]
  | disable =>
    refine ⟨?_, rfl, h.toSameCourse.disable⟩
    rw [movement?_perform, movement?_perform]
    rfl
  | process clock env =>
    obtain ⟨linked, linked', hlinked, hlinked', hsame⟩ := h.ensureLinked
    obtain ⟨hseen, hresult, henv, hworkflow⟩ :=
      h.toSameCourse.process hlinked hlinked' hsame clock env
    refine ⟨?_, ?_, hworkflow⟩
    . simp [Workflow.perform, hseen]
    . simp [Workflow.perform, hresult, henv]
  | _ => exact hop.elim

theorem after (h : Without w id w') {op : Operation σ} (hop : op.Drives) :
    Without (w.after op) id (w'.after op) := by
  obtain ⟨_, _, hsame⟩ := h.perform hop
  obtain ⟨hregistered, hshape, hprogram⟩ := w.after_of_drives hop
  obtain ⟨hregistered', _, _⟩ := w'.after_of_drives hop
  have hlive := liveNodes_congr hregistered hshape
  have hsubtree := Graph.subtree_congr hshape id
  constructor
  . exact hsame
  . exact h.reachable.after op
  . exact h.reachable'.after op
  . rw [hregistered, hregistered']
    exact h.list
  . rw [bindings, bindJumps_congr hshape, hlive]
    exact h.complete
  . rw [hsubtree, Graph.labelName?_congr hshape]
    exact h.unlabelled
  . intro hstale
    have hkept := hprogram hstale
    rw [hkept.linksStale] at hstale
    simp only [hsubtree, hlive, Graph.jumpLabel?_congr hshape, findLabel?_congr hshape,
      Graph.next?_congr hkept.unvisited]
    exact h.bound hstale

theorem conduct (h : Without w id w') {op : Operation σ} (hop : op.Drives) :
    w'.conduct op = w.conduct op := by
  obtain ⟨hseen, hanswer, hsame⟩ := h.perform hop
  simp only [Workflow.conduct, value_perform, hseen, hanswer, hsame.pending, hsame.failed,
    hsame.on, hsame.error]

theorem conducts (h : Without w id w') {ops : List (Operation σ)} (hops : ∀ op ∈ ops, op.Drives) :
    w'.conducts ops = w.conducts ops := by
  induction ops generalizing w w' with
  | nil => rfl
  | cons op ops ih =>
    rw [List.forall_mem_cons] at hops
    rw [Workflow.conducts, Workflow.conducts, h.conduct hops.1, ih (h.after hops.1) hops.2]

end Without

theorem Reachable.findLabel?_of_isLiveLabel {w : Workflow σ} (h : w.Reachable) {name : String}
    {target : InstructionId} (htarget : w.IsLiveLabel name target) :
    findLabel? w.graph w.liveNodes name = some target := by
  cases hfind : findLabel? w.graph w.liveNodes name with
  | none =>
    have hmissing := (h.rooted.findLabel?_eq_none_iff name).mp hfind
    rw [IsLiveLabel, h.rooted.mem_liveNodes_iff_isLive] at htarget
    exact absurd htarget.2 (hmissing target htarget.1)
  | some found => rw [h.coherent.isLiveLabel_unique (isLiveLabel_of_findLabel? hfind) htarget]

theorem Rooted.ne_of_registered {w : Workflow σ} (h : w.Rooted) (before after : List Registration)
    {entry : Registration} (hregistered : w.registered = before ++ entry :: after) :
    ∀ other ∈ before ++ after, other.id ≠ entry.id := by
  have hdistinct := h.distinct
  rw [hregistered, List.map_append, List.map_cons, List.nodup_middle, List.nodup_cons,
    ← List.map_append] at hdistinct
  intro other hother heq
  exact hdistinct.1 (List.mem_map.mpr ⟨other, hother, heq⟩)

theorem Rooted.value_remove {w : Workflow σ} (h : w.Rooted) (before after : List Registration)
    {entry : Registration} (hregistered : w.registered = before ++ entry :: after)
    {selector : InstructionSelector} (hselect : w.select? selector = some entry.id) :
    (w.remove selector).value =
      (true, { w with registered := before ++ after, linksStale := true }) := by
  have hbefore : ∀ other ∈ before, ¬decide (other.id = entry.id) = true := by
    intro other hother
    simpa using h.ne_of_registered before after hregistered other (List.mem_append_left after hother)
  have hfind : w.registered.find? (fun other => other.id = entry.id) = some entry := by
    rw [hregistered, List.find?_append, List.find?_eq_none.mpr hbefore]
    simp
  have herase : w.registered.eraseP (fun other => other.id = entry.id) = before ++ after := by
    rw [hregistered, List.eraseP_append_right _ hbefore, List.eraseP_cons_of_pos (by simp)]
  unfold Workflow.remove
  rw [hselect, Option.bind_some, hfind]
  simp only [Traced.value_bind, Traced.value_pure, herase]

/--
Links to a removed instruction keep working. If every live jump has a live label, no label is in the
instruction, and no link pass is due or the jumps in it are bound by then, the removal leaves cursor
and status alone, and the workflow answers, moves and ends up the same as without it, whenever it is
switched on and off and run afterwards.
-/
theorem Reachable.conducts_after_remove {w : Workflow σ} (h : w.Reachable)
    (hcomplete : ∀ jump label, ¬w.Dangles jump label) {entry : Registration}
    (hentry : entry ∈ w.registered.tail)
    (hlabels : ∀ node, w.graph.Encloses entry.id node → w.graph.labelName? node = none)
    (hbound : w.linksStale = true → ∀ jump, w.graph.Encloses entry.id jump → ∀ label,
      w.graph.jumpLabel? jump = some label →
        ∃ target, w.IsLiveLabel label target ∧ w.graph.next? jump = some target)
    {selector : InstructionSelector} (hselect : w.select? selector = some entry.id) :
    (w.remove selector).value.1 = true ∧
    (w.after (.remove selector)).isRegistered entry.id = false ∧
    SameStatus w (w.after (.remove selector)) ∧
    ∀ ops : List (Operation σ), (∀ op ∈ ops, op.Drives) →
      (w.after (.remove selector)).conducts ops = w.conducts ops := by
  have hne : w.registered ≠ [] := by
    intro hnil
    simp [hnil] at hentry
  obtain ⟨first, rest, hregistered⟩ := List.exists_cons_of_ne_nil hne
  rw [hregistered, List.tail_cons] at hentry
  obtain ⟨before, after, rfl⟩ := List.append_of_mem hentry
  have hvalue := h.rooted.value_remove (first :: before) after hregistered hselect
  have hremoved : w.after (.remove selector) =
      { w with registered := first :: (before ++ after), linksStale := true } :=
    congrArg Prod.snd hvalue
  have hwithout : Without w entry.id (w.after (.remove selector)) := by
    constructor
    . rw [hremoved]
      exact ⟨⟨rfl, rfl, rfl, rfl⟩, rfl, rfl⟩
    . exact h
    . exact h.after _
    . exact ⟨first, before, entry, after, hregistered, by rw [hremoved], rfl⟩
    . exact h.rooted.exists_bindings hcomplete
    . intro node hnode
      exact hlabels node (h.rooted.forest.mem_subtree_iff.mp hnode)
    . intro hstale jump hjump label hlabel
      obtain ⟨target, htarget, hnext⟩ :=
        hbound hstale jump (h.rooted.forest.mem_subtree_iff.mp hjump) label hlabel
      exact ⟨target, h.findLabel?_of_isLiveLabel htarget, hnext⟩
  refine ⟨by rw [hvalue], ?_, hwithout.toSameStatus, fun ops hops => hwithout.conducts hops⟩
  rw [hremoved, isRegistered, List.any_eq_false]
  intro other hother
  simpa using h.rooted.ne_of_registered (first :: before) after hregistered other hother

def jumpAhead : Workflow Unit :=
  (Workflow.empty 0 .default)
    |>.after (.append (.new (.label "start")) none none)
    |>.after (.append (.new (.jump "end")) none none)
    |>.after (.append (.new (.label "end")) none none)
    |>.after (.append (.new (.setStatus "done" 1 true)) none none)

def firstCycle : List (Operation Unit) :=
  [.enable default, .process default ⟨.empty, ()⟩]

theorem drives_firstCycle : ∀ op ∈ firstCycle, op.Drives := by
  simp [firstCycle, Operation.Drives]

theorem reachable_jumpAhead : jumpAhead.Reachable :=
  ((((Reachable.empty _ _).after _).after _).after _).after _

theorem Reachable.conducts_after_remove_jumpAhead :
    let linked := (jumpAhead.after (.enable default)).after (.process default ⟨.empty, ()⟩)
    linked.Reachable ∧ linked.linksStale = false ∧ linked.select? (.number 1) = some ⟨0, 1⟩ ∧
      ((linked.after (.remove (.number 1))).conducts firstCycle).map Conduct.course =
        [[(⟨0, 0⟩, none)],
          [(⟨0, 0⟩, some .continueNow), (⟨0, 1⟩, none), (⟨0, 1⟩, some .continueNow),
            (⟨0, 2⟩, none), (⟨0, 2⟩, some .continueNow), (⟨0, 3⟩, none),
            (⟨0, 3⟩, some .continueNow)]] := by
  intro linked
  have hreachable : linked.Reachable := (reachable_jumpAhead.after _).after _
  have hstale : linked.linksStale = false := by decide +kernel
  have hselect : linked.select? (.number 1) = some ⟨0, 1⟩ := by decide +kernel
  have hbindings : linked.bindings = .ok [(⟨0, 1⟩, ⟨0, 2⟩)] := by
    decide +kernel
  have hentry : ⟨⟨0, 1⟩, 1, none⟩ ∈ linked.registered.tail := by decide +kernel
  obtain ⟨_, _, _, hconducts⟩ := Reachable.conducts_after_remove hreachable
    (hreachable.rooted.not_dangles_of_bindings hbindings) hentry
    (Graph.labelName?_of_encloses_leaf (by decide +kernel) (by decide +kernel))
    (by simp [hstale]) hselect
  refine ⟨hreachable, hstale, hselect, ?_⟩
  rw [hconducts firstCycle drives_firstCycle]
  decide +kernel

/--
Without a link pass since the jump was registered, the removal keeps the jump from being bound.
Control still gets to it, but it leads nowhere, so the workflow goes off before it is done.
-/
theorem conducts_after_remove_unlinked :
    jumpAhead.Reachable ∧ (∀ jump label, ¬jumpAhead.Dangles jump label) ∧
    ⟨⟨0, 1⟩, 1, none⟩ ∈ jumpAhead.registered.tail ∧
    (∀ node, jumpAhead.graph.Encloses ⟨0, 1⟩ node → jumpAhead.graph.labelName? node = none) ∧
    (∀ op ∈ firstCycle, op.Drives) ∧
    ((jumpAhead.after (.remove (.id ⟨0, 1⟩))).conducts firstCycle).map Conduct.course =
      [[(⟨0, 0⟩, none)],
        [(⟨0, 0⟩, some .continueNow), (⟨0, 1⟩, none), (⟨0, 1⟩, some .continueNow)]] ∧
    (jumpAhead.after (.remove (.id ⟨0, 1⟩))).conducts firstCycle ≠
      jumpAhead.conducts firstCycle := by
  have hbindings : jumpAhead.bindings = .ok [(⟨0, 1⟩, ⟨0, 2⟩)] := by decide +kernel
  have hcourse :
      ((jumpAhead.after (.remove (.id ⟨0, 1⟩))).conducts firstCycle).map Conduct.course =
        [[(⟨0, 0⟩, none)],
          [(⟨0, 0⟩, some .continueNow), (⟨0, 1⟩, none), (⟨0, 1⟩, some .continueNow)]] := by
    decide +kernel
  refine ⟨reachable_jumpAhead,
    reachable_jumpAhead.rooted.not_dangles_of_bindings hbindings, by decide +kernel,
    Graph.labelName?_of_encloses_leaf (by decide +kernel) (by decide +kernel),
    drives_firstCycle, hcourse, ?_⟩
  intro hsame
  rw [hsame] at hcourse
  revert hcourse
  decide +kernel

end Workflow

end Sequencer
