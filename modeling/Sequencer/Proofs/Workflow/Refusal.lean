import Sequencer.Proofs.Workflow.Structure

/-!
When a cycle is refused. A workflow that is on refuses to run exactly when a live jump has no live
label of its name. It names the first such jump, warns and does nothing else.
-/

namespace Sequencer

namespace Workflow

variable {σ : Type}

/-- The instruction is a live jump to a label that no live node carries. -/
structure Dangles (w : Workflow σ) (jump : InstructionId) (label : String) : Prop where
  live : w.IsLive jump
  jumps : w.graph.jumpLabel? jump = some label
  missing : ∀ id, w.IsLive id → w.graph.labelName? id ≠ some label

def FirstDangling (w : Workflow σ) (jump : InstructionId) (label : String) : Prop :=
  ∃ before after, w.liveNodes = before ++ jump :: after ∧ w.Dangles jump label ∧
    ∀ earlier ∈ before, ∀ name, ¬w.Dangles earlier name

theorem bindJumps_error {g : Graph σ} {live ids : List InstructionId} {jump : InstructionId}
    {label : String} (h : bindJumps g live ids = .error (jump, label)) :
    ∃ before after, ids = before ++ jump :: after ∧ g.jumpLabel? jump = some label ∧
      findLabel? g live label = none ∧
      ∀ earlier ∈ before, ∀ name, g.jumpLabel? earlier = some name →
        findLabel? g live name ≠ none := by
  induction ids with
  | nil => simp [bindJumps] at h
  | cons id rest ih =>
    rw [bindJumps] at h
    split at h
    . next hnone =>
      obtain ⟨before, after, rfl, hlabel, hmissing, hearlier⟩ := ih h
      refine ⟨id :: before, after, rfl, hlabel, hmissing, ?_⟩
      rw [List.forall_mem_cons]
      exact ⟨by simp [hnone], hearlier⟩
    . next name hname =>
      split at h
      . next hmissing =>
        cases h
        exact ⟨[], rest, rfl, hname, hmissing, by simp⟩
      . next target htarget =>
        split at h
        . next hrest =>
          cases h
          obtain ⟨before, after, rfl, hlabel, hmissing, hearlier⟩ := ih hrest
          refine ⟨id :: before, after, rfl, hlabel, hmissing, ?_⟩
          rw [List.forall_mem_cons]
          refine ⟨?_, hearlier⟩
          intro other hother
          rw [hname, Option.some.injEq] at hother
          simp [← hother, htarget]
        . simp at h

theorem Rooted.findLabel?_eq_none_iff {w : Workflow σ} (h : w.Rooted) (label : String) :
    findLabel? w.graph w.liveNodes label = none ↔
      ∀ id, w.IsLive id → w.graph.labelName? id ≠ some label := by
  simp only [findLabel?, List.find?_eq_none, h.mem_liveNodes_iff_isLive, decide_eq_true_eq]

theorem Rooted.dangles_iff {w : Workflow σ} (h : w.Rooted) (jump : InstructionId)
    (label : String) :
    w.Dangles jump label ↔ jump ∈ w.liveNodes ∧ w.graph.jumpLabel? jump = some label ∧
      findLabel? w.graph w.liveNodes label = none := by
  rw [h.mem_liveNodes_iff_isLive, h.findLabel?_eq_none_iff]
  exact ⟨fun ⟨hlive, hjumps, hmissing⟩ => ⟨hlive, hjumps, hmissing⟩,
    fun ⟨hlive, hjumps, hmissing⟩ => ⟨hlive, hjumps, hmissing⟩⟩

theorem Rooted.firstDangling_of_bindings {w : Workflow σ} (h : w.Rooted) {jump : InstructionId}
    {label : String} (hbindings : w.bindings = .error (jump, label)) :
    w.FirstDangling jump label := by
  obtain ⟨before, after, hnodes, hlabel, hmissing, hearlier⟩ := bindJumps_error hbindings
  refine ⟨before, after, hnodes, ?_, ?_⟩
  . rw [h.dangles_iff, hnodes]
    exact ⟨by simp, hlabel, by rwa [← hnodes]⟩
  . intro earlier hmem name hdangles
    rw [h.dangles_iff] at hdangles
    exact hearlier earlier hmem name hdangles.2.1 hdangles.2.2

theorem Rooted.not_dangles_of_bindings {w : Workflow σ} (h : w.Rooted)
    {bindings : List (InstructionId × InstructionId)} (hbindings : w.bindings = .ok bindings)
    (jump : InstructionId) (label : String) : ¬w.Dangles jump label := by
  intro hdangles
  obtain ⟨hlive, hjumps, hmissing⟩ := (h.dangles_iff jump label).mp hdangles
  obtain ⟨hall, heach⟩ := bindJumps_ok hbindings
  obtain ⟨target, hmem⟩ := hall jump hlive label hjumps
  obtain ⟨_, name, hname, hfound⟩ := heach jump target hmem
  rw [hjumps, Option.some.injEq] at hname
  rw [← hname, hmissing] at hfound
  simp at hfound

theorem Rooted.exists_bindings {w : Workflow σ} (h : w.Rooted)
    (hcomplete : ∀ jump label, ¬w.Dangles jump label) : ∃ bindings, w.bindings = .ok bindings := by
  cases hbindings : w.bindings with
  | ok bindings => exact ⟨bindings, rfl⟩
  | error missing =>
    obtain ⟨_, _, _, hdangles, _⟩ := h.firstDangling_of_bindings hbindings
    exact absurd hdangles (hcomplete _ _)

theorem Coherent.linksStale_of_bindings {w : Workflow σ} (h : w.Coherent)
    {missing : InstructionId × String} (hbindings : w.bindings = .error missing) :
    w.linksStale = true := by
  by_contra hstale
  obtain ⟨_, hbound, _⟩ := resolve_of_bound (h.bound (by simpa using hstale))
  rw [bindings, hbound] at hbindings
  simp at hbindings

theorem process_of_on_eq_false {w : Workflow σ} (hon : w.on = false) (clock : Clock)
    (env : Env σ) : w.process clock env = pure ⟨.ok (), w, env⟩ := by
  unfold process
  simp [hon]

theorem Coherent.process_of_bindings_error {w : Workflow σ} (h : w.Coherent) (hon : w.on = true)
    {jump : InstructionId} {label : String} (hbindings : w.bindings = .error (jump, label))
    (clock : Clock) (env : Env σ) :
    w.process clock env =
      ⟨⟨.error (.instructionReference jump label), w, env⟩,
        [.event (.labelMissing jump label)]⟩ := by
  unfold Workflow.process Workflow.ensureLinked Workflow.link
  simp only [hon, h.linksStale_of_bindings hbindings, hbindings]
  rfl

theorem result_process_of_bindings {w : Workflow σ}
    {bindings : List (InstructionId × InstructionId)} (hbindings : w.bindings = .ok bindings)
    (clock : Clock) (env : Env σ) : (w.process clock env).value.result = .ok () := by
  have hlinked : w.ensureLinked.value.1 = .ok () := by
    unfold ensureLinked
    split
    . rw [value_link, hbindings]
    . rfl
  rw [value_process]
  split
  . split
    . next heq => simp [heq] at hlinked
    . rfl
  . rfl

theorem Reachable.process_cases {w : Workflow σ} (h : w.Reachable) (clock : Clock) (env : Env σ) :
    ((w.process clock env).value.result = .ok () ∧
      (w.on = true → ∀ jump label, ¬w.Dangles jump label)) ∨
    ∃ jump label, w.on = true ∧ w.FirstDangling jump label ∧
      w.process clock env =
        ⟨⟨.error (.instructionReference jump label), w, env⟩,
          [.event (.labelMissing jump label)]⟩ := by
  cases hon : w.on with
  | false =>
    rw [process_of_on_eq_false hon]
    exact Or.inl ⟨rfl, by simp⟩
  | true =>
    cases hbindings : w.bindings with
    | ok bindings =>
      exact Or.inl ⟨result_process_of_bindings hbindings clock env,
        fun _ => h.rooted.not_dangles_of_bindings hbindings⟩
    | error missing =>
      obtain ⟨jump, label⟩ := missing
      exact Or.inr ⟨jump, label, rfl, h.rooted.firstDangling_of_bindings hbindings,
        h.coherent.process_of_bindings_error hon hbindings clock env⟩

/--
A cycle is refused exactly when the workflow is on and a live jump has no live label of its name.
The error names the first such jump, registration by registration and depth first, and apart from a
warning in the log everything is as before.
-/
theorem Reachable.process_refused_iff {w : Workflow σ} (h : w.Reachable) (clock : Clock)
    (env : Env σ) :
    ((∃ fault, (w.process clock env).value.result = .error fault) ↔
      w.on = true ∧ ∃ jump label, w.Dangles jump label) ∧
    w.graph.DepthFirst (w.registered.map (·.id)) w.liveNodes ∧
    ∀ fault, (w.process clock env).value.result = .error fault →
      ∃ jump label, w.FirstDangling jump label ∧ fault = .instructionReference jump label ∧
        w.process clock env = ⟨⟨.error fault, w, env⟩, [.event (.labelMissing jump label)]⟩ := by
  refine ⟨?_, h.rooted.depthFirst_liveNodes, ?_⟩
  . rcases h.process_cases clock env with ⟨hok, hnone⟩ | ⟨jump, label, hon, hfirst, hprocess⟩
    . constructor
      . rintro ⟨fault, hfault⟩
        simp [hok] at hfault
      . rintro ⟨hon, jump, label, hdangles⟩
        exact absurd hdangles (hnone hon jump label)
    . obtain ⟨_, _, _, hdangles, _⟩ := hfirst
      rw [hprocess]
      exact ⟨fun _ => ⟨hon, jump, label, hdangles⟩, fun _ => ⟨_, rfl⟩⟩
  . intro fault hfault
    rcases h.process_cases clock env with ⟨hok, _⟩ | ⟨jump, label, _, hfirst, hprocess⟩
    . simp [hok] at hfault
    . rw [hprocess, Except.error.injEq] at hfault
      subst hfault
      exact ⟨jump, label, hfirst, rfl, hprocess⟩

def dangling : Workflow Unit :=
  (Workflow.empty 0 .default)
    |>.after (.append (.new (.label "start")) none none)
    |>.after (.append (.new (.label "end")) none none)
    |>.after (.append (.new (.block [.condition (.const false)
      (some (.block [.jump "start", .jump "end"])), .jump "gone"])) none none)
    |>.after (.remove (.id ⟨0, 1⟩))
    |>.after (.enable default)

theorem Reachable.process_refused_dangling :
    dangling.Reachable ∧
    (dangling.process default ⟨.empty, ()⟩).value.result =
      .error (.instructionReference ⟨0, 6⟩ "end") ∧
    dangling.on = true ∧ (∃ jump label, dangling.Dangles jump label) ∧
    (dangling.process default ⟨.empty, ()⟩).entries =
      [.event (.labelMissing ⟨0, 6⟩ "end")] := by
  have hreachable : dangling.Reachable :=
    (((((Reachable.empty _ _).after _).after _).after _).after _).after _
  have hresult : (dangling.process default ⟨.empty, ()⟩).value.result =
      .error (.instructionReference ⟨0, 6⟩ "end") := by
    decide +kernel
  obtain ⟨hiff, _, hfirst⟩ := Reachable.process_refused_iff hreachable default ⟨.empty, ()⟩
  obtain ⟨hon, hdangles⟩ := hiff.mp ⟨_, hresult⟩
  obtain ⟨jump, label, _, hfault, hprocess⟩ := hfirst _ hresult
  cases hfault
  exact ⟨hreachable, hresult, hon, hdangles, by rw [hprocess]⟩

end Workflow

end Sequencer
