import Sequencer.Proofs.Budget
import Sequencer.Proofs.Workflow.LazyLink

/-!
The transition limit of a workflow. A cycle that uses up its limit is cut, and the next cycle goes
on as if there had been no cut: nothing is skipped, repeated or armed again in between.
-/

namespace Sequencer

def Entry.wentOn? {σ : Type} : Entry σ → Option InstructionId
  | .invoked id _ .continueNow => some id
  | _ => none

theorem Entry.wentOn?_event {σ : Type} (event : Event) :
    (Entry.event event : Entry σ).wentOn? = none := rfl

theorem Entry.wentOn?_armed {σ : Type} (id : InstructionId) (now : Instant) :
    (Entry.armed id now : Entry σ).wentOn? = none := rfl

def Clock.skip (clock : Clock) (transitions : Nat) : Clock :=
  fun n => clock (transitions + n)

@[simp]
theorem Clock.skip_still (now : Instant) (transitions : Nat) :
    (still now).skip transitions = still now := rfl

namespace Workflow

variable {σ : Type}

def withLimit (w : Workflow σ) (limit : Nat) : Workflow σ :=
  { w with config := { w.config with immediateTransitionLimit := limit } }

def Cycle.withLimit (c : Cycle σ) (limit : Nat) : Cycle σ :=
  { c with workflow := c.workflow.withLimit limit }

def processWithin (w : Workflow σ) (limit : Nat) (clock : Clock) (env : Env σ) :
    Traced σ (Cycle σ) := do
  if !w.on then return ⟨.ok (), w, env⟩
  let (linked, w) ← w.ensureLinked
  match linked with
  | .error fault => return ⟨.error fault, w, env⟩
  | .ok () =>
    let (w, env) ← run limit clock 0 limit w env
    return ⟨.ok (), w, env⟩

section WithLimit

/-! The configured limit is looked at by a cycle as a whole, and by nothing in it. -/

variable (w : Workflow σ) (limit : Nat) (now : Instant)

theorem registrationOf?_withLimit (id : InstructionId) :
    (w.withLimit limit).registrationOf? id = w.registrationOf? id := by
  rw [registrationOf?, registrationOf?]
  dsimp only [withLimit]
  split
  . rfl
  . split
    . rfl
    . split
      . apply registrationOf?_withLimit
      . rfl
termination_by id.index

theorem makePending_withLimit (next : Option InstructionId) :
    (w.withLimit limit).makePending now next =
      (·.withLimit limit) <$> w.makePending now next := by
  cases next <;> rfl

theorem advanceFrom_withLimit (id : InstructionId) :
    (w.withLimit limit).advanceFrom now id = (·.withLimit limit) <$> w.advanceFrom now id := by
  unfold advanceFrom
  dsimp only [withLimit]
  split
  . rw [map_bind]
    apply bind_congr
    intro _
    apply makePending_withLimit
  . apply makePending_withLimit

theorem recordFailure_withLimit (id : InstructionId) :
    (w.withLimit limit).recordFailure id = (·.withLimit limit) <$> w.recordFailure id := by
  unfold recordFailure numberOf
  rw [registrationOf?_withLimit, map_bind]
  rfl

theorem turn_withLimit (reading : Reading) (id : InstructionId) (env : Env σ) :
    (w.withLimit limit).turn reading id env =
      (fun t => { t with workflow := t.workflow.withLimit limit }) <$> w.turn reading id env := by
  unfold turn
  rw [map_bind]
  apply bind_congr
  intro r
  have hgraph : { w.withLimit limit with graph := r.2.1 } =
      ({ w with graph := r.2.1 } : Workflow σ).withLimit limit := rfl
  simp only [hgraph]
  cases r.1 with
  | success => simp [advanceFrom_withLimit]
  | continueNow => simp [advanceFrom_withLimit]
  | retry => rfl
  | failContinue => simp [recordFailure_withLimit, advanceFrom_withLimit]
  | failRetry => simp [recordFailure_withLimit]

theorem link_withLimit :
    (w.withLimit limit).link = (fun r => (r.1, r.2.withLimit limit)) <$> w.link := by
  have hbindings : (w.withLimit limit).bindings = w.bindings := rfl
  unfold link
  rw [hbindings]
  cases w.bindings <;> rfl

theorem ensureLinked_withLimit :
    (w.withLimit limit).ensureLinked =
      (fun r => (r.1, r.2.withLimit limit)) <$> w.ensureLinked := by
  have hstale : (w.withLimit limit).linksStale = w.linksStale := rfl
  unfold ensureLinked
  rw [hstale]
  split
  . apply link_withLimit
  . rfl

end WithLimit

structure Stage (σ : Type) where
  made : Nat
  workflow : Workflow σ
  env : Env σ

namespace Stage

def left (s : Stage σ) : Workflow σ × Env σ :=
  (s.workflow, s.env)

def withLimit (s : Stage σ) (limit : Nat) : Stage σ :=
  { s with workflow := s.workflow.withLimit limit }

end Stage

def due (clock : Clock) (s : Stage σ) : Option (Traced σ (Stage σ × Bool)) :=
  s.workflow.pending.map fun id =>
    (fun t => (⟨s.made + 1, t.workflow, t.env⟩, t.goesOn)) <$>
      s.workflow.turn (clock s.made) id s.env

def limitReached (limit : Nat) (_ : Stage σ) : Entry σ :=
  .event (.transitionLimitReached limit)

theorem run_eq_loop (limit : Nat) (clock : Clock) (made left : Nat) (w : Workflow σ) (env : Env σ) :
    run limit clock made left w env =
      Stage.left <$> Traced.loop (due clock) (limitReached limit) left ⟨made, w, env⟩ := by
  induction left generalizing made w env with
  | zero => rfl
  | succ left ih =>
    rw [run, Traced.loop, due]
    cases w.pending with
    | none => rfl
    | some id =>
      simp only [Option.map_some, bind_map_left, map_bind, ih]
      apply bind_congr
      intro turn
      split <;> rfl

theorem made_loop {clock : Clock} (cut : Stage σ → Entry σ) {left : Nat} {s : Stage σ}
    (h : Traced.continued (due clock) left s = left) :
    (Traced.loop (due clock) cut left s).value.made = s.made + left := by
  induction left generalizing s with
  | zero => rfl
  | succ left ih =>
    cases hdue : due clock s with
    | none => simp [Traced.continued_of_due_none hdue] at h
    | some turn =>
      rw [Traced.continued_of_due_some hdue] at h
      have hmade : turn.value.1.made = s.made + 1 := by
        obtain ⟨id, _, rfl⟩ := Option.map_eq_some_iff.mp hdue
        rfl
      cases hgoes : turn.value.2 with
      | false => simp [hgoes] at h
      | true =>
        rw [if_pos hgoes] at h
        simp only [Traced.loop_of_due_some hdue, Traced.value_bind, hgoes, ↓reduceIte]
        rw [ih (by omega), hmade]
        omega

theorem run_skip (limit transitions : Nat) (clock : Clock) (made left : Nat) (w : Workflow σ)
    (env : Env σ) :
    run limit (clock.skip transitions) made left w env =
      run limit clock (transitions + made) left w env := by
  induction left generalizing made w env with
  | zero => rfl
  | succ left ih =>
    rw [run, run]
    cases w.pending with
    | none => rfl
    | some id =>
      apply bind_congr
      intro turn
      rw [ih, Nat.add_assoc]

theorem run_withLimit (w : Workflow σ) (config limit : Nat) (clock : Clock) (made left : Nat)
    (env : Env σ) :
    run limit clock made left (w.withLimit config) env =
      (fun r => (r.1.withLimit config, r.2)) <$> run limit clock made left w env := by
  have hdue (s : Stage σ) : due clock (s.withLimit config) =
      (due clock s).map fun turn => (fun r => (r.1.withLimit config, r.2)) <$> turn := by
    have hpending : (s.workflow.withLimit config).pending = s.workflow.pending := rfl
    simp only [due, Stage.withLimit, hpending, Option.map_map]
    congr 1
    funext id
    simp [turn_withLimit]
  have hstart : Stage.withLimit ⟨made, w, env⟩ config = ⟨made, w.withLimit config, env⟩ := rfl
  rw [run_eq_loop, run_eq_loop, ← hstart,
    Traced.loop_map (f := (Stage.withLimit · config)) hdue fun _ => rfl, ← comp_map, ← comp_map]
  rfl

theorem run_add_of_continued_eq {limit : Nat} {clock : Clock} {w : Workflow σ} {env : Env σ}
    (h : Traced.continued (due clock) limit ⟨0, w, env⟩ = limit) (more : Nat) :
    let first := run limit clock 0 limit w env
    let again := run more (clock.skip limit) 0 more first.value.1 first.value.2
    let whole := run (limit + more) clock 0 (limit + more) w env
    again.value = whole.value ∧
      first.seen Entry.besidesLimits? ++ again.seen Entry.besidesLimits? =
        whole.seen Entry.besidesLimits? := by
  have hcut (limit : Nat) (s : Stage σ) : (limitReached limit s).besidesLimits? = none := rfl
  have hstage : (Traced.loop (due clock) (limitReached limit) limit ⟨0, w, env⟩).value =
      ⟨limit, (run limit clock 0 limit w env).value.1,
        (run limit clock 0 limit w env).value.2⟩ := by
    have hmade := made_loop (limitReached limit) h
    rw [Nat.zero_add] at hmade
    rw [run_eq_loop, Traced.value_map]
    generalize (Traced.loop (due clock) (limitReached limit) limit ⟨0, w, env⟩).value = s at hmade ⊢
    rw [← hmade]
    rfl
  dsimp only
  rw [run_skip, Nat.add_zero, run_eq_loop (limit + more), run_eq_loop more, ← hstage,
    run_eq_loop limit]
  simp only [Traced.value_map, Traced.seen_map]
  rw [Traced.value_loop_add_of_continued_eq h,
    Traced.seen_loop_add_of_continued_eq (hcut _) (hcut _) (hcut _) h]
  exact ⟨rfl, rfl⟩

theorem process_withLimit (w : Workflow σ) {limit : Nat} (hlimit : 1 ≤ limit) (clock : Clock)
    (env : Env σ) :
    (w.withLimit limit).process clock env =
      (·.withLimit limit) <$> w.processWithin limit clock env := by
  have hbudget (w : Workflow σ) : (w.withLimit limit).config.transitionBudget = limit :=
    Nat.max_eq_left hlimit
  have hon : (w.withLimit limit).on = w.on := rfl
  unfold process processWithin
  rw [hon]
  cases w.on with
  | false => rfl
  | true =>
    simp only [Bool.not_true, Bool.false_eq_true, ↓reduceIte]
    rw [ensureLinked_withLimit, bind_map_left, map_bind]
    apply bind_congr
    rintro ⟨_ | _, linked⟩
    . rfl
    . simp [hbudget, run_withLimit, Cycle.withLimit]

theorem goesOn_turn (w : Workflow σ) (reading : Reading) (id : InstructionId) (env : Env σ) :
    (w.turn reading id env).value.goesOn = true ↔
      (w.graph.perform reading.invoked id env).1 = .continueNow := by
  rw [value_turn]
  dsimp only
  cases (w.graph.perform reading.invoked id env).1 <;> simp

theorem length_wentOn?_turn (w : Workflow σ) (reading : Reading) (id : InstructionId)
    (env : Env σ) :
    ((w.turn reading id env).seen Entry.wentOn?).length =
      (w.turn reading id env).value.goesOn.toNat := by
  have hgoes := goesOn_turn w reading id env
  rw [seen_turn Entry.wentOn?_event Entry.wentOn?_armed]
  cases hprogress : (w.graph.perform reading.invoked id env).1 <;> simp_all [Entry.wentOn?]

theorem length_wentOn?_run (limit : Nat) (clock : Clock) (made left : Nat) (w : Workflow σ)
    (env : Env σ) :
    ((run limit clock made left w env).seen Entry.wentOn?).length =
      Traced.continued (due clock) left ⟨made, w, env⟩ := by
  rw [run_eq_loop, Traced.seen_map]
  apply Traced.length_seen_loop
  . intro _
    rfl
  . intro s turn hdue
    obtain ⟨id, _, rfl⟩ := Option.map_eq_some_iff.mp hdue
    rw [Traced.seen_map, Traced.value_map]
    apply length_wentOn?_turn

theorem length_invoked?_run_le (limit : Nat) (clock : Clock) (made left : Nat) (w : Workflow σ)
    (env : Env σ) : ((run limit clock made left w env).seen Entry.invoked?).length ≤ left := by
  rw [run_eq_loop, Traced.seen_map]
  apply Traced.length_seen_loop_le
  . intro _
    rfl
  . intro s turn hdue
    obtain ⟨id, _, rfl⟩ := Option.map_eq_some_iff.mp hdue
    rw [Traced.seen_map, seen_turn Entry.invoked?_event Entry.invoked?_armed]
    exact Nat.le_refl 1

def RestsWhenOff (w : Workflow σ) : Prop :=
  w.on = false → w.pending = none

theorem restsWhenOff_makePending {w : Workflow σ} (hon : w.on = true) (now : Instant)
    (next : Option InstructionId) : (w.makePending now next).value.RestsWhenOff := by
  cases next with
  | none => exact fun _ => rfl
  | some id => simp [RestsWhenOff, makePending, hon]

theorem restsWhenOff_advanceFrom {w : Workflow σ} (hon : w.on = true) (now : Instant)
    (id : InstructionId) : (w.advanceFrom now id).value.RestsWhenOff := by
  rw [value_advanceFrom]
  exact restsWhenOff_makePending hon now _

theorem restsWhenOff_turn {w : Workflow σ} (hon : w.on = true) (reading : Reading)
    (id : InstructionId) (env : Env σ) :
    (w.turn reading id env).value.workflow.RestsWhenOff := by
  rw [value_turn]
  cases hprogress : (w.graph.perform reading.invoked id env).1 with
  | success | continueNow | failContinue =>
    simp only [hprogress]
    apply restsWhenOff_advanceFrom
    exact hon
  | retry | failRetry => simp [RestsWhenOff, recordFailure, hprogress, hon]

theorem restsWhenOff_run {w : Workflow σ} (h : w.RestsWhenOff) (limit : Nat) (clock : Clock)
    (made left : Nat) (env : Env σ) : (run limit clock made left w env).value.1.RestsWhenOff := by
  rw [run_eq_loop, Traced.value_map]
  refine Traced.loop_induction (motive := fun s : Stage σ => s.workflow.RestsWhenOff) ?_ left h
  intro s turn hdue hrests
  obtain ⟨id, hpending, rfl⟩ := Option.map_eq_some_iff.mp hdue
  apply restsWhenOff_turn
  by_contra hoff
  rw [Bool.not_eq_true] at hoff
  rw [hrests hoff] at hpending
  simp at hpending

theorem processWithin_of_linked {w : Workflow σ} (hstale : w.linksStale = false)
    (hrests : w.RestsWhenOff) {limit : Nat} (hlimit : 1 ≤ limit) (clock : Clock) (env : Env σ) :
    w.processWithin limit clock env =
      (fun r => ⟨.ok (), r.1, r.2⟩) <$> run limit clock 0 limit w env := by
  unfold processWithin ensureLinked
  cases hon : w.on with
  | true =>
    simp [hstale]
  | false =>
    obtain ⟨left, rfl⟩ := Nat.exists_eq_add_of_le' hlimit
    rw [run, hrests hon]
    rfl

theorem processWithin_of_on {w : Workflow σ} (hon : w.on = true) (limit : Nat) (clock : Clock)
    (env : Env σ) :
    w.processWithin limit clock env =
      w.ensureLinked >>= fun r =>
        match r.1 with
        | .error fault => pure ⟨.error fault, r.2, env⟩
        | .ok () => (fun s => ⟨.ok (), s.1, s.2⟩) <$> run limit clock 0 limit r.2 env := by
  unfold processWithin
  simp only [hon, Bool.not_true, Bool.false_eq_true, ↓reduceIte]
  apply bind_congr
  rintro ⟨_ | _, linked⟩ <;> simp

theorem processWithin_of_off {w : Workflow σ} (hon : w.on = false) (limit : Nat) (clock : Clock)
    (env : Env σ) : w.processWithin limit clock env = pure ⟨.ok (), w, env⟩ := by
  unfold processWithin
  simp [hon]

theorem length_invoked?_processWithin_le (w : Workflow σ) (limit : Nat) (clock : Clock)
    (env : Env σ) : ((w.processWithin limit clock env).seen Entry.invoked?).length ≤ limit := by
  cases hon : w.on with
  | false => simp [processWithin_of_off hon]
  | true =>
    rw [processWithin_of_on hon, Traced.seen_bind, seen_ensureLinked Entry.invoked?_event]
    split
    . simp
    . rw [Traced.seen_map]
      apply length_invoked?_run_le

theorem linked_of_le_wentOn? {w : Workflow σ} {limit : Nat} (hlimit : 1 ≤ limit) {clock : Clock}
    {env : Env σ} (h : limit ≤ ((w.processWithin limit clock env).seen Entry.wentOn?).length) :
    ∃ linked, w.on = true ∧ w.ensureLinked.value = (.ok (), linked) ∧
      Traced.continued (due clock) limit ⟨0, linked, env⟩ = limit := by
  cases hon : w.on with
  | false =>
    simp only [processWithin_of_off hon, Traced.seen_pure, List.length_nil] at h
    omega
  | true =>
    rw [processWithin_of_on hon, Traced.seen_bind, seen_ensureLinked Entry.wentOn?_event] at h
    rcases hlinked : w.ensureLinked.value with ⟨_ | _, linked⟩
    . simp only [hlinked, Traced.seen_pure, List.append_nil, List.length_nil] at h
      omega
    . simp only [hlinked, Traced.seen_map, List.nil_append, length_wentOn?_run] at h
      exact ⟨linked, rfl, rfl, Nat.le_antisymm (Traced.continued_le _ _) h⟩

theorem on_ensureLinked (w : Workflow σ) : w.ensureLinked.value.2.on = w.on := by
  unfold ensureLinked
  split
  . rw [value_link]
    split <;> rfl
  . rfl

theorem processWithin_add_of_lt {w : Workflow σ} {limit : Nat} {clock : Clock} {env : Env σ}
    (h : ((w.processWithin limit clock env).seen Entry.wentOn?).length < limit) (more : Nat) :
    w.processWithin (limit + more) clock env = w.processWithin limit clock env := by
  cases hon : w.on with
  | false => rw [processWithin_of_off hon, processWithin_of_off hon]
  | true =>
    rw [processWithin_of_on hon, Traced.seen_bind, seen_ensureLinked Entry.wentOn?_event] at h
    rw [processWithin_of_on hon, processWithin_of_on hon]
    apply Traced.bind_congr_value
    rcases hlinked : w.ensureLinked.value with ⟨_ | _, linked⟩
    . rfl
    . simp only [hlinked, Traced.seen_map, List.nil_append, length_wentOn?_run] at h
      simp only [run_eq_loop]
      rw [Traced.loop_add_of_continued_lt h]

theorem processWithin_of_run {w : Workflow σ} (hon : w.on = true) {linked : Workflow σ}
    (hlinked : w.ensureLinked.value = (.ok (), linked)) (limit : Nat) {more : Nat}
    (hmore : 1 ≤ more) (clock later : Clock) (env : Env σ) :
    let ran := (run limit clock 0 limit linked env).value
    ran.1.processWithin more later ran.2 =
      (fun r => ⟨.ok (), r.1, r.2⟩) <$> run more later 0 more ran.1 ran.2 := by
  have hlinkedOn : linked.on = true := by
    have := on_ensureLinked w
    rwa [hlinked, hon] at this
  apply processWithin_of_linked _ _ hmore
  . exact (sameProgram_run limit clock 0 limit linked env).linksStale.trans
      (linksStale_ensureLinked hlinked)
  . exact restsWhenOff_run (fun hoff => by simp [hlinkedOn] at hoff) limit clock 0 limit env

theorem processWithin_add_of_le {w : Workflow σ} {limit more : Nat} (hlimit : 1 ≤ limit)
    (hmore : 1 ≤ more) {clock : Clock} {env : Env σ}
    (h : limit ≤ ((w.processWithin limit clock env).seen Entry.wentOn?).length) :
    let first := w.processWithin limit clock env
    let again := first.value.workflow.processWithin more (clock.skip limit) first.value.env
    let whole := w.processWithin (limit + more) clock env
    again.value = whole.value ∧
      first.seen Entry.besidesLimits? ++ again.seen Entry.besidesLimits? =
        whole.seen Entry.besidesLimits? := by
  obtain ⟨linked, hon, hlinked, hcontinued⟩ := linked_of_le_wentOn? hlimit h
  have hagain := processWithin_of_run hon hlinked limit hmore clock (clock.skip limit) env
  obtain ⟨hvalue, hseen⟩ := run_add_of_continued_eq hcontinued more
  dsimp only at hagain hvalue hseen ⊢
  simp only [processWithin_of_on hon, Traced.value_bind, Traced.seen_bind, hlinked,
    Traced.value_map, Traced.seen_map, hagain, List.append_assoc]
  rw [hvalue, hseen]
  exact ⟨rfl, rfl⟩

/--
The limit of a cycle only cuts the run of a workflow into pieces. A cycle makes no more invocations
than its limit allows. If it uses up the limit, then a second cycle with another limit leaves behind
what one cycle with both limits does, and the two report what the one reports, apart from the limits
reached. The clock of the second goes on where that of the first was left, and one that stands still
is there as it was. If the limit is not used up, a higher one makes no difference at all.
-/
theorem process_withLimit_add (w : Workflow σ) (clock : Clock) (env : Env σ) {a b : Nat}
    (ha : 1 ≤ a) (hb : 1 ≤ b) :
    let first := (w.withLimit a).process clock env
    let again := (first.value.workflow.withLimit b).process (clock.skip a) first.value.env
    let whole := (w.withLimit (a + b)).process clock env
    (first.seen Entry.invoked?).length ≤ a ∧
    ((first.seen Entry.wentOn?).length < a →
      first.value.withLimit (a + b) = whole.value ∧ first.entries = whole.entries) ∧
    (a ≤ (first.seen Entry.wentOn?).length →
      again.value.withLimit (a + b) = whole.value ∧
        first.seen Entry.besidesLimits? ++ again.seen Entry.besidesLimits? =
          whole.seen Entry.besidesLimits?) := by
  have hagain : ((w.processWithin a clock env).value.withLimit a).workflow.withLimit b =
      (w.processWithin a clock env).value.workflow.withLimit b := rfl
  have hlimit (c : Cycle σ) : (c.withLimit b).withLimit (a + b) = c.withLimit (a + b) := rfl
  have hlimit' (c : Cycle σ) : (c.withLimit a).withLimit (a + b) = c.withLimit (a + b) := rfl
  dsimp only
  rw [process_withLimit w ha, process_withLimit w (Nat.le_add_right_of_le ha)]
  simp only [Traced.value_map, Traced.entries_map, Traced.seen_map]
  rw [hagain, process_withLimit _ hb]
  simp only [Traced.value_map, Traced.seen_map, hlimit, hlimit']
  refine ⟨length_invoked?_processWithin_le w a clock env, ?_, ?_⟩
  . intro hlt
    rw [processWithin_add_of_lt hlt]
    exact ⟨rfl, rfl⟩
  . intro hle
    obtain ⟨hvalue, hseen⟩ := processWithin_add_of_le ha hb hle
    refine ⟨?_, hseen⟩
    rw [← hvalue]
    rfl

def cycling : Workflow Unit :=
  (Workflow.empty 0 .default)
    |>.after (.append (.new (.label "again")) none none)
    |>.after (.append (.new (.timedCondition ⟨some (.ofSeconds 1), .expired⟩
      (.hasLevel "ready" 1) none)) none none)
    |>.after (.append (.new (.jump "again")) none none)
    |>.after (.enable default)

theorem process_withLimit_add_cycling :
    let ready : Env Unit := ⟨Register.empty.setStatusOn 1 "ready", ()⟩
    let first := (cycling.withLimit 1).process default ready
    let again := (first.value.workflow.withLimit 2).process default first.value.env
    let whole := (cycling.withLimit 3).process default ready
    first.seen Entry.invoked? = [⟨0, 0⟩] ∧ again.seen Entry.invoked? = [⟨0, 1⟩, ⟨0, 2⟩] ∧
      again.value.withLimit 3 = whole.value := by
  intro ready first again whole
  obtain ⟨_, _, hcut⟩ := process_withLimit_add cycling default ready (a := 1) (b := 2)
    (by decide) (by decide)
  refine ⟨by decide +kernel, by decide +kernel, ?_⟩
  exact (hcut (by decide +kernel)).1

end Workflow

end Sequencer
