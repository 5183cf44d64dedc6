import Sequencer.Proofs.Manager.Operation

/-!
What holds of every manager that operations lead to: `Faithful`. The stored keys ascend, and a tree
that was laid out has just these keys, a cursor inside and a step for each of them.
-/

namespace Sequencer

namespace Manager

variable {σ : Type}

@[simp]
theorem keys_generateAll (world : σ) (entries : List (StepKey × StepEntry σ)) :
    (generateAll world entries).value.1.map (·.1) = entries.map (·.1) := by
  induction entries generalizing world with
  | nil => rfl
  | cons pair rest ih =>
    obtain ⟨key, entry⟩ := pair
    unfold generateAll
    split <;> simp only [Traced.value_bind, Traced.value_pure, List.map_cons, ih]

theorem stored_generateAll (world : σ) (entries : List (StepKey × StepEntry σ)) :
    (generateAll world entries).value.1.map (fun pair => (pair.1, pair.2.source, pair.2.data)) =
      entries.map fun pair => (pair.1, pair.2.source, pair.2.data) := by
  induction entries generalizing world with
  | nil => rfl
  | cons pair rest ih =>
    obtain ⟨key, entry⟩ := pair
    unfold generateAll
    split <;> simp only [Traced.value_bind, Traced.value_pure, List.map_cons, ih]

theorem step?_generateAll (world : σ) (entries : List (StepKey × StepEntry σ)) :
    ∀ pair ∈ (generateAll world entries).value.1, pair.2.step?.isSome = true := by
  induction entries generalizing world with
  | nil => simp [generateAll]
  | cons pair rest ih =>
    obtain ⟨key, entry⟩ := pair
    unfold generateAll
    split
    . next step hsource =>
      intro pair hpair
      simp only [Traced.value_bind, Traced.value_pure, List.mem_cons] at hpair
      rcases hpair with rfl | hpair
      . simp [StepEntry.step?, hsource]
      . exact ih _ pair hpair
    . next generator hsource =>
      intro pair hpair
      simp only [Traced.value_bind, Traced.value_pure, List.mem_cons] at hpair
      rcases hpair with rfl | hpair
      . simp [StepEntry.step?, hsource]
      . exact ih _ pair hpair

theorem value_rebuild (m : Manager σ) (world : σ) :
    (m.rebuild world).value =
      ({ m with
          steps := ⟨(generateAll world m.steps.entries).value.1⟩
          tree := some { keys := m.steps.keys, ring := m.loop }
          current := if m.steps.keys.isEmpty then none else some 0 },
        (generateAll world m.steps.entries).value.2) :=
  rfl

theorem keys_rebuild (m : Manager σ) (world : σ) :
    (m.rebuild world).value.1.steps.keys = m.steps.keys :=
  keys_generateAll world m.steps.entries

theorem isSome_tree_ensureTree (m : Manager σ) (world : σ) :
    (m.ensureTree world).value.1.tree.isSome = true := by
  unfold ensureTree
  split
  . next h => simp [h]
  . rfl

structure Faithful (m : Manager σ) : Prop where
  ascending : m.steps.keys.Pairwise (· < ·)
  keys : ∀ tree, m.tree = some tree → tree.keys = m.steps.keys
  cursor : ∀ tree position, m.tree = some tree → m.current = some position →
    position < tree.keys.length
  made : m.tree.isSome = true → ∀ pair ∈ m.plan, pair.2.step?.isSome = true

namespace Faithful

variable {m m' : Manager σ}

theorem empty (config : EngineConfig) : Faithful (.empty config : Manager σ) where
  ascending := by simp [Manager.empty, KeyMap.empty, KeyMap.keys]
  keys := by simp [Manager.empty]
  cursor := by simp [Manager.empty]
  made := by simp [Manager.empty]

theorem of_sameTree (h : m.Faithful) (hsame : SameTree m m') : m'.Faithful where
  ascending := by
    rw [hsame.keys]
    exact h.ascending
  keys := by
    rw [hsame.keys, hsame.tree]
    exact h.keys
  cursor := by
    rw [hsame.tree, hsame.current]
    exact h.cursor
  made := by
    rw [hsame.tree, hsame.plan]
    exact h.made

theorem moved (h : m.Faithful) {position : Option Nat}
    (hposition : ∀ tree p, m.tree = some tree → position = some p → p < tree.keys.length) :
    Faithful { m with current := position } :=
  ⟨h.ascending, h.keys, hposition, h.made⟩

theorem of_tree_none (hascending : m.steps.keys.Pairwise (· < ·)) (htree : m.tree = none) :
    m.Faithful where
  ascending := hascending
  keys := by simp [htree]
  cursor := by simp [htree]
  made := by simp [htree]

theorem rebuild (hascending : m.steps.keys.Pairwise (· < ·)) (world : σ) :
    (m.rebuild world).value.1.Faithful where
  ascending := by
    rw [keys_rebuild]
    exact hascending
  keys := by
    intro tree htree
    rw [keys_rebuild]
    cases htree
    rfl
  cursor := by
    intro tree position htree hcurrent
    cases htree
    simp only [value_rebuild] at hcurrent
    split at hcurrent
    . simp at hcurrent
    . next hempty =>
      cases hcurrent
      rw [List.isEmpty_iff_length_eq_zero] at hempty
      exact Nat.pos_of_ne_zero hempty
  made := by
    intro _ pair hpair
    simp only [Manager.plan, value_rebuild, List.mem_map] at hpair
    obtain ⟨pair, hpair, rfl⟩ := hpair
    have hstep := step?_generateAll world m.steps.entries pair hpair
    obtain ⟨_, source, _, _⟩ := pair
    cases source <;> exact hstep

theorem insert (h : m.Faithful) (source : StepSource σ) (data : Option StepData) :
    (m.insert source data).value.2.Faithful :=
  of_tree_none (KeyMap.ascending_insert h.ascending _ _) rfl

theorem remove (h : m.Faithful) (target : StepRef) : (m.remove target).value.2.Faithful := by
  unfold Manager.remove
  split
  . exact h
  . exact of_tree_none (KeyMap.ascending_erase h.ascending _) rfl

theorem ensureTree (h : m.Faithful) (world : σ) : (m.ensureTree world).value.1.Faithful := by
  unfold Manager.ensureTree
  split
  . exact h
  . exact rebuild h.ascending world

theorem reset (h : m.Faithful) (world : σ) : (m.reset world).value.1.Faithful := by
  unfold Manager.reset
  rw [Traced.value_bind]
  apply rebuild
  exact h.ascending

theorem suspend (h : m.Faithful) (world : σ) : (m.suspend world).value.1.Faithful :=
  (h.reset world).moved (by simp)

end Faithful

theorem following?_lt {m : Manager σ} {tree : StepTree} {position : Nat}
    (htree : m.tree = some tree) (hfollowing : m.following? = some position) :
    position < tree.keys.length := by
  unfold Manager.following? at hfollowing
  rw [htree] at hfollowing
  cases hcurrent : m.current with
  | none => simp [hcurrent] at hfollowing
  | some current =>
    simp only [hcurrent, Option.bind_eq_bind, Option.bind_some, StepTree.successor?] at hfollowing
    split at hfollowing
    . cases hfollowing
      assumption
    . split at hfollowing
      . next hring =>
        cases hfollowing
        exact List.length_pos_iff.mpr hring.2
      . simp at hfollowing

theorem positionOf?_lt {m : Manager σ} {tree : StepTree} {key : StepKey} {position : Nat}
    (htree : m.tree = some tree) (hposition : m.positionOf? key = some position) :
    position < tree.keys.length := by
  rw [positionOf?, htree, Option.bind_some] at hposition
  exact (List.findIdx?_eq_some_iff_findIdx_eq.mp hposition).1

namespace Faithful

variable {m m' : Manager σ}

theorem makeCurrent (h : m.Faithful) {position : Option Nat}
    (hposition : ∀ tree p, m.tree = some tree → position = some p → p < tree.keys.length)
    (env : Env σ) : (m.makeCurrent position env).value.1.Faithful :=
  (h.moved hposition).of_sameTree (sameTree_makeCurrent m position env)

theorem landing?_lt (h : m.Faithful) {transition : Transition} {tree : StepTree} {position : Nat}
    (htree : m.tree = some tree) (hlanding : m.landing? transition = some position) :
    position < tree.keys.length := by
  cases transition with
  | advance => exact following?_lt htree hlanding
  | stay => exact h.cursor tree position htree hlanding
  | jumpTo target =>
    simp only [landing?, Option.or_eq_some_iff] at hlanding
    rcases hlanding with hposition | ⟨_, hfollowing⟩
    . obtain ⟨key, _, hposition⟩ := Option.bind_eq_some_iff.mp hposition
      exact positionOf?_lt htree hposition
    . exact following?_lt htree hfollowing

theorem restart (h : m.Faithful) (target : StepRef) (env : Env σ) :
    (m.restart target env).value.2.1.Faithful := by
  have hensured := h.ensureTree env.world
  unfold Manager.restart
  simp only [Traced.value_bind]
  split
  . exact hensured
  . next position hposition =>
    apply hensured.makeCurrent
    intro tree p htree hp
    cases hp
    obtain ⟨key, _, hposition⟩ := Option.bind_eq_some_iff.mp hposition
    exact positionOf?_lt htree hposition

theorem runStep (h : m.Faithful) (key : StepKey) (env : Env σ) :
    (m.runStep key env).value.2.1.Faithful :=
  h.of_sameTree (sameTree_runStep m key env)

theorem follow (h : m.Faithful) (key : StepKey) (transition : Transition) (env : Env σ) :
    (m.follow key transition env).value.1.Faithful := by
  apply of_sameTree _ (sameTree_follow m key transition env)
  apply h.moved
  intro tree p htree hp
  exact h.landing?_lt htree hp

theorem settle (h : m.Faithful) (key : StepKey) (flow : Flow) (env : Env σ) :
    (m.settle key flow env).value.manager.Faithful := by
  cases flow with
  | nextCycle => exact h
  | continueInCycle => exact h
  | repeatWhole continueInCycle => exact h.reset env.world
  | terminate => exact (h.makeCurrent (by simp) env).suspend _

theorem turn (h : m.Faithful) (key : StepKey) (env : Env σ) :
    (m.turn key env).value.manager.Faithful :=
  ((h.runStep key env).follow key _ _).settle key _ _

theorem run (h : m.Faithful) (limit left : Nat) (env : Env σ) :
    (run limit left m env).value.1.Faithful := by
  induction left generalizing m env with
  | zero => exact h
  | succ left ih =>
    unfold Manager.run
    split
    . exact h
    . next key _ =>
      simp only [Traced.value_bind]
      split
      . exact ih (h.turn key env) _
      . exact h.turn key env

theorem process (h : m.Faithful) (env : Env σ) : (m.process env).value.1.Faithful :=
  (h.ensureTree env.world).run _ _ _

end Faithful

theorem Reachable.faithful {m : Manager σ} (h : m.Reachable) : m.Faithful := by
  induction h with
  | empty config => exact Faithful.empty config
  | after _ op ih =>
    cases op with
    | insert source data => exact ih.insert source data
    | remove target => exact ih.remove target
    | setLoop loop => exact ⟨ih.ascending, ih.keys, ih.cursor, ih.made⟩
    | editContext edit => exact ⟨ih.ascending, ih.keys, ih.cursor, ih.made⟩
    | needsProcess world => exact ih.ensureTree world
    | getStep target world => exact ih.ensureTree world
    | initialStep world => exact ih.ensureTree world
    | reset world => exact ih.reset world
    | suspend world => exact ih.suspend world
    | restart target env => exact ih.restart target env
    | process env => exact ih.process env

end Manager

end Sequencer
