import Sequencer.Proofs.Manager.Moments
import Sequencer.Proofs.Workflow.Visit
import Sequencer.Scan

/-!
What a scan does, process by process. A process has one turn, in which it finds what those before it
left: it is asked whether it is active, and runs one cycle if it is. A scan is a round of such
turns. It ends at the first process that refuses its cycle, and this one changes nothing.
-/

namespace Sequencer

namespace Workflow

variable {σ : Type}

theorem workflow_ensureLinked_of_error {w : Workflow σ} {fault : WorkflowError}
    (h : w.ensureLinked.value.1 = .error fault) : w.ensureLinked.value.2 = w := by
  unfold ensureLinked at h ⊢
  split
  . next hstale =>
    rw [if_pos hstale] at h
    unfold link at h ⊢
    split
    . rfl
    . next heq => simp [heq] at h
  . rfl

theorem process_of_error {w : Workflow σ} {clock : Clock} {env : Env σ} {fault : WorkflowError}
    (h : (w.process clock env).value.result = .error fault) :
    (w.process clock env).value = ⟨.error fault, w, env⟩ ∧
      (w.process clock env).seen Entry.besidesEvents? = [] := by
  have hkept := @workflow_ensureLinked_of_error σ w
  have hseen : w.ensureLinked.seen Entry.besidesEvents? = [] := seen_ensureLinked (fun _ => rfl) w
  unfold process at h ⊢
  cases hon : w.on with
  | false => simp [hon] at h
  | true =>
    simp only [hon, Bool.not_true, Bool.false_eq_true, ↓reduceIte, Traced.value_bind,
      Traced.seen_bind, hseen, List.nil_append] at h ⊢
    generalize w.ensureLinked.value = linked at h hkept ⊢
    obtain ⟨_ | _, linked⟩ := linked
    . cases h
      cases hkept rfl
      exact ⟨rfl, rfl⟩
    . simp at h

end Workflow

namespace ScanCycle

variable {σ : Type}

structure Turn (σ : Type) where
  name : String
  process : CyclicProcess σ
  found : Env σ
  active : Bool
  /-- The calls of instructions and steps that were made, one after the other. -/
  calls : List (Entry σ)
  after : CyclicProcess σ
  left : Env σ

inductive Turn.Taken (clocks : String → Clock) : Turn σ → Prop where
  | workflowOff (name : String) {w : Workflow σ} (found : Env σ) (hon : w.on = false) :
      Taken clocks ⟨name, .workflow w, found, false, [], .workflow w, found⟩
  | workflowOn (name : String) {w w' : Workflow σ} {found left : Env σ} (hon : w.on = true)
      (hcycle : (w.process (clocks name) found).value = ⟨.ok (), w', left⟩) :
      Taken clocks ⟨name, .workflow w, found, true,
        (w.process (clocks name) found).seen Entry.besidesEvents?, .workflow w', left⟩
  | managerIdle (name : String) {m asked : Manager σ} (found : Env σ) {world : σ}
      (hasked : (m.needsProcess found.world).value = (false, asked, world)) :
      Taken clocks ⟨name, .manager m, found, false,
        (m.needsProcess found.world).seen Entry.besidesEvents?,
        .manager asked, { found with world }⟩
  | managerBusy (name : String) {m asked m' : Manager σ} {found left : Env σ} {world : σ}
      (hasked : (m.needsProcess found.world).value = (true, asked, world))
      (hcycle : (asked.process { found with world }).value = (m', left)) :
      Taken clocks ⟨name, .manager m, found, true,
        (m.needsProcess found.world).seen Entry.besidesEvents? ++
          (asked.process { found with world }).seen Entry.besidesEvents?,
        .manager m', left⟩

inductive Round (clocks : String → Clock) : Env σ → List (Turn σ) → Env σ → Prop where
  | nil (env : Env σ) : Round clocks env [] env
  | cons {turn : Turn σ} {turns : List (Turn σ)} {env : Env σ} (hturn : turn.Taken clocks)
      (hrest : Round clocks turn.left turns env) : Round clocks turn.found (turn :: turns) env

def Turn.start (turn : Turn σ) : String × CyclicProcess σ :=
  (turn.name, turn.process)

def Turn.finish (turn : Turn σ) : String × CyclicProcess σ :=
  (turn.name, turn.after)

theorem runAll_cons (clocks : String → Clock) (ran : Nat) (env : Env σ) (name : String)
    (p : CyclicProcess σ) (rest : List (String × CyclicProcess σ)) :
    let scan := runAll clocks ran env ((name, p) :: rest)
    (∃ turn : Turn σ, turn.Taken clocks ∧ turn.start = (name, p) ∧ turn.found = env ∧
      let later := runAll clocks (ran + turn.active.toNat) turn.left rest
      scan.value = { later.value with processes := turn.finish :: later.value.processes } ∧
        scan.seen Entry.besidesEvents? = turn.calls ++ later.seen Entry.besidesEvents?) ∨
    ∃ w cause, p = .workflow w ∧ w.on = true ∧
      (w.process (clocks name) env).value = ⟨.error cause, w, env⟩ ∧
      scan.value = ⟨.error (.process name cause), (name, p) :: rest, env⟩ ∧
      scan.seen Entry.besidesEvents? = [] := by
  dsimp only
  rw [runAll]
  cases p with
  | workflow w =>
    cases hon : w.on with
    | false =>
      refine Or.inl ⟨_, .workflowOff name env hon, rfl, rfl, ?_⟩
      simp [CyclicProcess.isActive, hon, Turn.finish, Entry.besidesEvents?]
    | true =>
      cases hresult : (w.process (clocks name) env).value.result with
      | ok _ =>
        have hcycle : (w.process (clocks name) env).value =
            ⟨.ok (), (w.process (clocks name) env).value.workflow,
              (w.process (clocks name) env).value.env⟩ := by
          rw [← hresult]
        refine Or.inl ⟨_, .workflowOn name hon hcycle, rfl, rfl, ?_⟩
        simp [CyclicProcess.isActive, CyclicProcess.runCycle, hon, hresult, Turn.finish]
      | error cause =>
        obtain ⟨hvalue, hseen⟩ := Workflow.process_of_error hresult
        refine Or.inr ⟨w, cause, rfl, hon, hvalue, ?_⟩
        simp [CyclicProcess.isActive, CyclicProcess.runCycle, hon, hvalue, hseen,
          Entry.besidesEvents?]
  | manager m =>
    refine Or.inl ?_
    rcases hasked : (m.needsProcess env.world).value with ⟨_ | _, asked, world⟩
    . refine ⟨_, .managerIdle name env hasked, rfl, rfl, ?_⟩
      simp [CyclicProcess.isActive, hasked, Turn.finish, Entry.besidesEvents?]
    . rcases hcycle : (asked.process { env with world }).value with ⟨m', left⟩
      refine ⟨_, .managerBusy name hasked hcycle, rfl, rfl, ?_⟩
      simp [CyclicProcess.isActive, CyclicProcess.runCycle, hasked, hcycle, Turn.finish]

theorem runAll_rounds (clocks : String → Clock) (ran : Nat) (env : Env σ)
    (processes : List (String × CyclicProcess σ)) :
    ∃ turns : List (Turn σ),
      let scan := runAll clocks ran env processes
      Round clocks env turns scan.value.env ∧
      scan.seen Entry.besidesEvents? = turns.flatMap (·.calls) ∧
      match scan.value.result with
      | .ok n => n = ran + turns.countP (·.active) ∧ processes = turns.map Turn.start ∧
          scan.value.processes = turns.map Turn.finish
      | .error fault => ∃ name w cause rest, fault = .process name cause ∧ w.on = true ∧
          (w.process (clocks name) scan.value.env).value = ⟨.error cause, w, scan.value.env⟩ ∧
          processes = turns.map Turn.start ++ (name, .workflow w) :: rest ∧
          scan.value.processes = turns.map Turn.finish ++ (name, .workflow w) :: rest := by
  induction processes generalizing ran env with
  | nil => exact ⟨[], .nil env, rfl, rfl, rfl, rfl⟩
  | cons process rest ih =>
    obtain ⟨name, p⟩ := process
    rcases runAll_cons clocks ran env name p rest with
      ⟨turn, hturn, hstart, rfl, hvalue, hseen⟩ | ⟨w, cause, rfl, hon, hrefused, hvalue, hseen⟩
    . obtain ⟨turns, hround, hcalls, hresult⟩ := ih (ran + turn.active.toNat) turn.left
      refine ⟨turn :: turns, ?_⟩
      dsimp only at hround hcalls hresult ⊢
      rw [hvalue, hseen, hcalls]
      refine ⟨.cons hturn hround, rfl, ?_⟩
      generalize (runAll clocks (ran + turn.active.toNat) turn.left rest).value = later at hresult ⊢
      obtain ⟨result, processes, env⟩ := later
      cases result with
      | ok n =>
        obtain ⟨rfl, rfl, rfl⟩ := hresult
        refine ⟨?_, by simp [hstart], rfl⟩
        rw [List.countP_cons]
        cases turn.active
        . rfl
        . simp only [Bool.toNat_true, ↓reduceIte]
          omega
      | error fault =>
        obtain ⟨failed, w, cause, later, rfl, hon, hrefused, rfl, rfl⟩ := hresult
        exact ⟨failed, w, cause, later, rfl, hon, hrefused, by simp [hstart], rfl⟩
    . refine ⟨[], ?_⟩
      dsimp only
      rw [hvalue, hseen]
      exact ⟨.nil env, rfl, name, w, cause, rest, rfl, hon, hrefused, rfl, rfl⟩

/--
A scan is a round of turns of its processes, in the order in which their names were first added. If
no process is refused, every one has its turn, and the scan answers how many were active. If one is,
those before it have had their turns, and the scan answers its error under its name; this process
and the surroundings are as its cycle found them, and those after it are as they were.
-/
theorem run_in_order (scan : ScanCycle σ) (clocks : String → Clock) (env : Env σ) :
    (∀ name p, (scan.add name p).processes.keys =
      if name ∈ scan.processes.keys then scan.processes.keys
      else scan.processes.keys ++ [name]) ∧
    ∃ turns : List (Turn σ),
      let (result, scan', env') := (scan.run clocks env).value
      Round clocks env turns env' ∧
      (scan.run clocks env).seen Entry.besidesEvents? = turns.flatMap (·.calls) ∧
      match result with
      | .ok n => n = turns.countP (·.active) ∧ scan.processes.entries = turns.map Turn.start ∧
          scan'.processes.entries = turns.map Turn.finish
      | .error fault => ∃ name w cause rest, fault = .process name cause ∧ w.on = true ∧
          (w.process (clocks name) env').value = ⟨.error cause, w, env'⟩ ∧
          scan.processes.entries = turns.map Turn.start ++ (name, .workflow w) :: rest ∧
          scan'.processes.entries = turns.map Turn.finish ++ (name, .workflow w) :: rest := by
  refine ⟨fun name p => Dictionary.keys_insert _ name p, ?_⟩
  obtain ⟨turns, hround, hseen, hresult⟩ := runAll_rounds clocks 0 env scan.processes.entries
  refine ⟨turns, hround, ?_, ?_⟩
  . rw [run, Traced.seen_bind, hseen, Traced.seen_pure, List.append_nil]
  . simp only [Nat.zero_add] at hresult
    exact hresult

end ScanCycle

end Sequencer
