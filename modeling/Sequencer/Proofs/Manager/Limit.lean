import Sequencer.Proofs.Budget
import Sequencer.Proofs.Manager.Run
import Sequencer.Proofs.Manager.Unread

/-!
The transition limit of a step manager. A cycle that uses up its limit is cut, and the next cycle
goes on as if there had been no cut: the tree is there, so nothing is generated, called or moved
before the step that was to run next.
-/

namespace Sequencer

namespace Manager

variable {σ α : Type}

def withLimit (m : Manager σ) (limit : Nat) : Manager σ :=
  { m with config := { m.config with immediateTransitionLimit := limit } }

def limited (limit : Nat) (r : Manager σ × α) : Manager σ × α :=
  (r.1.withLimit limit, r.2)

def Turn.withLimit (t : Turn σ) (limit : Nat) : Turn σ :=
  { t with manager := t.manager.withLimit limit }

def processWithin (m : Manager σ) (limit : Nat) (env : Env σ) : Traced σ (Manager σ × Env σ) := do
  let (m, world) ← m.ensureTree env.world
  run limit limit m { env with world }

section WithLimit

/-! The configured limit is looked at by a cycle as a whole, and by nothing in it. -/

variable (m : Manager σ) (limit : Nat)

@[simp]
theorem currentKey?_withLimit : (m.withLimit limit).currentKey? = m.currentKey? := rfl

theorem ensureTree_withLimit (world : σ) :
    (m.withLimit limit).ensureTree world = limited limit <$> m.ensureTree world :=
  ensureTree_adjust ({ · with immediateTransitionLimit := limit }) id m world

theorem turn_withLimit (key : StepKey) (env : Env σ) :
    (m.withLimit limit).turn key env = (·.withLimit limit) <$> m.turn key env :=
  turn_adjust ({ · with immediateTransitionLimit := limit }) id m key env

theorem run_withLimit (config left : Nat) (env : Env σ) :
    run limit left (m.withLimit config) env = limited config <$> run limit left m env :=
  run_adjust ({ · with immediateTransitionLimit := config }) id m limit left env

end WithLimit

def due (s : Manager σ × Env σ) : Option (Traced σ ((Manager σ × Env σ) × Bool)) :=
  s.1.currentKey?.map fun key => (fun t => ((t.manager, t.env), t.goesOn)) <$> s.1.turn key s.2

def limitReached (limit : Nat) (s : Manager σ × Env σ) : Entry σ :=
  .event (.reentryLimitReached limit s.1.currentKey?)

theorem due_limited (limit : Nat) (s : Manager σ × Env σ) :
    due (limited limit s) =
      (due s).map fun turn => (fun r => (limited limit r.1, r.2)) <$> turn := by
  simp only [due, limited, currentKey?_withLimit, turn_withLimit, Option.map_map]
  rfl

theorem run_eq_loop (limit left : Nat) (m : Manager σ) (env : Env σ) :
    run limit left m env = Traced.loop due (limitReached limit) left (m, env) := by
  induction left generalizing m env with
  | zero => rfl
  | succ left ih =>
    rw [run, Traced.loop, due]
    cases m.currentKey? with
    | none => rfl
    | some key =>
      simp only [Option.map_some, bind_map_left, ih]

theorem transitionBudget_withLimit (m : Manager σ) {limit : Nat} (hlimit : 1 ≤ limit) :
    (m.withLimit limit).config.transitionBudget = limit :=
  Nat.max_eq_left hlimit

theorem process_withLimit (m : Manager σ) {limit : Nat} (hlimit : 1 ≤ limit) (env : Env σ) :
    (m.withLimit limit).process env = limited limit <$> m.processWithin limit env := by
  simp only [process, processWithin, ensureTree_withLimit, bind_map_left, map_bind, limited,
    transitionBudget_withLimit _ hlimit, run_withLimit]

theorem countP_runs (left : Nat) (m : Manager σ) (env : Env σ) :
    (runs left m env).countP (fun r => r.outcome.flow.staysInCycle) =
      Traced.continued due left (m, env) := by
  induction left generalizing m env with
  | zero => rfl
  | succ left ih =>
    cases hkey : m.currentKey? with
    | none => simp [Traced.continued, due, runs, hkey]
    | some key =>
      have hdue : due (m, env) =
          some ((fun t => ((t.manager, t.env), t.goesOn)) <$> m.turn key env) := by
        rw [due, hkey, Option.map_some]
      rw [Traced.continued_of_due_some hdue, runs_succ hkey, List.countP_cons, StepRun.outcome,
        ← goesOn_turn, Traced.value_map]
      dsimp only
      split
      . rw [ih]
      . rfl

theorem length_runs_le (left : Nat) (m : Manager σ) (env : Env σ) :
    (runs left m env).length ≤ left := by
  induction left generalizing m env with
  | zero => exact Nat.le_refl 0
  | succ left ih =>
    unfold runs
    split
    . exact Nat.zero_le _
    . rw [List.length_cons, Nat.add_le_add_iff_right]
      split
      . apply ih
      . exact Nat.zero_le _

theorem isSome_tree_turn {m : Manager σ} (h : m.tree.isSome = true) (key : StepKey)
    (env : Env σ) : (m.turn key env).value.manager.tree.isSome = true := by
  have hran := (sameTree_runStep m key env).isSome_tree h
  simp only [turn, Traced.value_bind]
  generalize (m.runStep key env).value = ran at hran ⊢
  obtain ⟨outcome, m', env'⟩ := ran
  have hfollow := (sameTree_follow m' key outcome.transition env').isSome_tree hran
  dsimp only
  cases outcome.flow with
  | nextCycle => exact hfollow
  | continueInCycle => exact hfollow
  | repeatWhole continueInCycle => rfl
  | terminate => rfl

theorem isSome_tree_loop {s : Manager σ × Env σ} (h : s.1.tree.isSome = true) (limit left : Nat) :
    (Traced.loop due (limitReached limit) left s).value.1.tree.isSome = true := by
  refine Traced.loop_induction
    (motive := fun r : Manager σ × Env σ => r.1.tree.isSome = true) ?_ left h
  rintro ⟨m, env⟩ turn hdue htree
  obtain ⟨key, _, rfl⟩ := Option.map_eq_some_iff.mp hdue
  exact isSome_tree_turn htree key env

def laidOut (m : Manager σ) (env : Env σ) : Manager σ × Env σ :=
  let r := (m.ensureTree env.world).value
  (r.1, { env with world := r.2 })

theorem processWithin_eq_loop (m : Manager σ) (limit : Nat) (env : Env σ) :
    m.processWithin limit env =
      m.ensureTree env.world >>= fun _ =>
        Traced.loop due (limitReached limit) limit (m.laidOut env) := by
  apply Traced.bind_congr_value
  apply run_eq_loop

theorem processWithin_of_tree {m : Manager σ} (h : m.tree.isSome = true) (limit : Nat)
    (env : Env σ) :
    m.processWithin limit env = Traced.loop due (limitReached limit) limit (m, env) := by
  obtain ⟨tree, htree⟩ := Option.isSome_iff_exists.mp h
  unfold processWithin ensureTree
  rw [htree]
  exact run_eq_loop limit limit m env

def reentries (m : Manager σ) (env : Env σ) : Nat :=
  (m.stepRuns env).countP fun r => r.outcome.flow.staysInCycle

theorem stepRuns_withLimit (m : Manager σ) {limit : Nat} (hlimit : 1 ≤ limit) (env : Env σ) :
    (m.withLimit limit).stepRuns env =
      runs limit ((m.laidOut env).1.withLimit limit) (m.laidOut env).2 := by
  simp only [stepRuns, ensureTree_withLimit, Traced.value_map, limited,
    transitionBudget_withLimit _ hlimit, laidOut]

theorem reentries_withLimit (m : Manager σ) {limit : Nat} (hlimit : 1 ≤ limit) (env : Env σ) :
    (m.withLimit limit).reentries env = Traced.continued due limit (m.laidOut env) := by
  rw [reentries, stepRuns_withLimit m hlimit, countP_runs]
  exact Traced.continued_map (due_limited limit) limit (m.laidOut env)

theorem processWithin_add_of_lt {m : Manager σ} {limit : Nat} {env : Env σ}
    (h : Traced.continued due limit (m.laidOut env) < limit) (more : Nat) :
    m.processWithin (limit + more) env = m.processWithin limit env := by
  rw [processWithin_eq_loop, processWithin_eq_loop, Traced.loop_add_of_continued_lt h]

theorem processWithin_add_of_eq {m : Manager σ} {limit : Nat} {env : Env σ}
    (h : Traced.continued due limit (m.laidOut env) = limit) (more : Nat) :
    let first := m.processWithin limit env
    let again := first.value.1.processWithin more first.value.2
    let whole := m.processWithin (limit + more) env
    again.value = whole.value ∧
      first.seen Entry.besidesLimits? ++ again.seen Entry.besidesLimits? =
        whole.seen Entry.besidesLimits? := by
  have hcut (limit : Nat) (s : Manager σ × Env σ) :
      (limitReached limit s).besidesLimits? = none := rfl
  have htree := isSome_tree_loop (s := m.laidOut env) (isSome_tree_ensureTree m env.world)
    limit limit
  dsimp only
  rw [processWithin_eq_loop m limit, processWithin_eq_loop m (limit + more)]
  simp only [Traced.value_bind, Traced.seen_bind, processWithin_of_tree htree, List.append_assoc]
  rw [Traced.value_loop_add_of_continued_eq h,
    Traced.seen_loop_add_of_continued_eq (hcut _) (hcut _) (hcut _) h]
  exact ⟨rfl, rfl⟩

theorem Faithful.withLimit {m : Manager σ} (h : m.Faithful) (limit : Nat) :
    (m.withLimit limit).Faithful :=
  ⟨h.ascending, h.keys, h.cursor, h.made⟩

/--
The limit of a cycle only cuts the run of a manager into pieces. A cycle runs no more steps than its
limit allows. If it uses up the limit, then a second cycle with another limit leaves behind what one
cycle with both limits does, and the two make the calls that the one makes. If it does not, a higher
limit makes no difference at all.
-/
theorem Reachable.process_cut {m : Manager σ} (h : m.Reachable) (env : Env σ) {a b : Nat}
    (ha : 1 ≤ a) (hb : 1 ≤ b) :
    let first := (m.withLimit a).process env
    let again := (first.value.1.withLimit b).process first.value.2
    let whole := (m.withLimit (a + b)).process env
    (first.seen Entry.ran? = ((m.withLimit a).stepRuns env).map (·.key) ∧
      (first.seen Entry.ran?).length ≤ a) ∧
    ((m.withLimit a).reentries env < a →
      limited (a + b) first.value = whole.value ∧ first.entries = whole.entries) ∧
    (a ≤ (m.withLimit a).reentries env →
      limited (a + b) again.value = whole.value ∧
        first.seen Entry.besidesLimits? ++ again.seen Entry.besidesLimits? =
          whole.seen Entry.besidesLimits?) := by
  have hran := (h.faithful.withLimit a).ran?_process env
  have hagain : (limited a (m.processWithin a env).value).1.withLimit b =
      (m.processWithin a env).value.1.withLimit b := rfl
  dsimp only
  refine ⟨⟨hran, ?_⟩, ?_⟩
  . rw [hran, List.length_map, stepRuns_withLimit m ha]
    apply length_runs_le
  rw [process_withLimit m ha, process_withLimit m (Nat.le_add_right_of_le ha),
    reentries_withLimit m ha]
  simp only [Traced.value_map, Traced.entries_map, Traced.seen_map]
  rw [hagain, process_withLimit _ hb]
  simp only [Traced.value_map, Traced.seen_map]
  constructor
  . intro hlt
    rw [processWithin_add_of_lt hlt]
    exact ⟨rfl, rfl⟩
  . intro hle
    obtain ⟨hvalue, hseen⟩ :=
      processWithin_add_of_eq (Nat.le_antisymm (Traced.continued_le _ _) hle) b
    refine ⟨?_, hseen⟩
    rw [← hvalue]
    rfl

def repeating : Manager Nat :=
  (Manager.empty .default)
    |>.after (.insert (.generator ⟨some 1, none, fun count =>
      (.marker "fresh" (some 1), count + 1)⟩) none)
    |>.after (.insert (.step (.ofProcess "again" (some 2) fun context env =>
      (⟨.stay, if env.world < 3 then .repeatWhole true else .nextCycle⟩, context, env))) none)

theorem Reachable.process_cut_repeating :
    let first := (repeating.withLimit 2).process ⟨.empty, 0⟩
    let again := (first.value.1.withLimit 3).process first.value.2
    let whole := (repeating.withLimit 5).process ⟨.empty, 0⟩
    repeating.Reachable ∧ first.seen Entry.ran? = [1, 2] ∧ again.seen Entry.ran? = [1, 2, 1] ∧
      whole.value.2.world = 3 ∧ limited 5 again.value = whole.value := by
  intro first again whole
  have hreachable : repeating.Reachable := ((Reachable.empty _).after _).after _
  obtain ⟨_, _, hcut⟩ := Reachable.process_cut hreachable ⟨.empty, 0⟩ (a := 2) (b := 3)
    (by decide) (by decide)
  refine ⟨hreachable, by decide +kernel, by decide +kernel, by decide +kernel, ?_⟩
  exact (hcut (by decide +kernel)).1

end Manager

end Sequencer
