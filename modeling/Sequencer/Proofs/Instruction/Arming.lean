import Sequencer.Proofs.Instruction.Successor

/-!
What happens at a single node. Invoking a node and arming it depend on the kind of the node alone
and change nothing else, and arming forgets whatever the node kept of its last visit.
-/

namespace Sequencer

namespace Timer

@[simp]
theorem reset_invalidate (now : Instant) (timer : Timer) :
    timer.invalidate.reset now = timer.reset now := rfl

@[simp]
theorem reset_reset (now earlier : Instant) (timer : Timer) :
    (timer.reset earlier).reset now = timer.reset now := by
  rw [← reset_invalidate, invalidate_reset, reset_invalidate]

end Timer

namespace NodeKind

variable {σ : Type}

def arm (now : Instant) : NodeKind σ → NodeKind σ
  | .condition test alternative _ => .condition test alternative false
  | .wait timer => .wait (timer.reset now)
  | .timedCondition timer test alternative _ =>
    .timedCondition (timer.reset now) test alternative false
  | kind => kind

def perform (now : Instant) (env : Env σ) : NodeKind σ → Progress × NodeKind σ × Env σ
  | .callback run => ((run env).1, .callback run, (run env).2)
  | .condition test alternative _ =>
    (.continueNow, .condition test alternative (test.evaluate env.register), env)
  | .wait timer => (if timer.isUp now then .success else .retry, .wait timer, env)
  | .timedCondition timer test alternative holds =>
    if timer.isUp now then (.continueNow, .timedCondition timer test alternative false, env)
    else if test.evaluate env.register then
      (.continueNow, .timedCondition timer test alternative true, env)
    else (.retry, .timedCondition timer test alternative holds, env)
  | .setStatus name level on =>
    (.continueNow, .setStatus name level on,
      { env with register := env.register.setStatus level name on })
  | .putValue name space value persist =>
    (.continueNow, .putValue name space value persist,
      { env with register := env.register.putValue value name space persist })
  | kind => (.continueNow, kind, env)

theorem arm_unvisited (now : Instant) (kind : NodeKind σ) :
    kind.unvisited.arm now = kind.arm now := by
  cases kind <;> rfl

end NodeKind

namespace Graph

variable {σ : Type}

theorem kind?_setKind (g : Graph σ) (id other : InstructionId) (kind : NodeKind σ) :
    (g.setKind id kind).kind? other =
      if id.index = other.index ∧ other.index < g.size then some kind else g.kind? other := by
  simp only [kind?, node?, setKind, Array.getElem?_modify, size]
  by_cases hid : id.index = other.index
  . by_cases hlt : other.index < g.nodes.size
    . simp [hid, hlt]
    . simp [hid, hlt]
  . simp [hid]

theorem lt_of_kind? {g : Graph σ} {id : InstructionId} {kind : NodeKind σ}
    (h : g.kind? id = some kind) : id.index < g.size := by
  simp only [kind?, node?, Option.map_eq_some_iff] at h
  obtain ⟨n, hn, _⟩ := h
  exact (Array.getElem?_eq_some_iff.mp hn).1

theorem kind?_setKind_self {g : Graph σ} {id : InstructionId} {kind : NodeKind σ}
    (h : g.kind? id = some kind) (kind' : NodeKind σ) :
    (g.setKind id kind').kind? id = some kind' := by
  rw [kind?_setKind, if_pos ⟨rfl, lt_of_kind? h⟩]

theorem setKind_kind? {g : Graph σ} {id : InstructionId} {kind : NodeKind σ}
    (h : g.kind? id = some kind) : g.setKind id kind = g := by
  simp only [kind?, node?, Option.map_eq_some_iff] at h
  obtain ⟨n, hn, hkind⟩ := h
  simp only [setKind]
  congr 1
  apply Array.ext_getElem?
  intro j
  rw [Array.getElem?_modify]
  split
  . next hj =>
    subst hj
    simp [hn, ← hkind]
  . rfl

theorem arm_eq {g : Graph σ} {id : InstructionId} {kind : NodeKind σ}
    (h : g.kind? id = some kind) (now : Instant) :
    g.arm now id = g.setKind id (kind.arm now) := by
  unfold arm
  rw [h]
  cases kind <;> simp [NodeKind.arm, setKind_kind? h]

theorem perform_eq {g : Graph σ} {id : InstructionId} {kind : NodeKind σ}
    (h : g.kind? id = some kind) (now : Instant) (env : Env σ) :
    g.perform now id env =
      ((kind.perform now env).1, g.setKind id (kind.perform now env).2.1,
        (kind.perform now env).2.2) := by
  unfold perform
  rw [h]
  cases kind with
  | timedCondition timer test alternative holds =>
    simp only [NodeKind.perform]
    split
    . rfl
    . split
      . rfl
      . rw [setKind_kind? h]
  | _ => simp [NodeKind.perform, setKind_kind? h]

theorem kind?_arm (g : Graph σ) (now : Instant) (id : InstructionId) :
    (g.arm now id).kind? id = (g.kind? id).map (NodeKind.arm now) := by
  cases h : g.kind? id with
  | none =>
    unfold arm
    simp [h]
  | some kind => rw [arm_eq h, kind?_setKind_self h, Option.map_some]

theorem kind?_link (g : Graph σ) (id other : InstructionId) (next : Option InstructionId) :
    (g.link id next).kind? other = g.kind? other := by
  simp only [kind?, node?, link, Array.getElem?_modify]
  split
  . rw [Option.map_map]
    rfl
  . rfl

theorem kind?_setNext (g : Graph σ) (id other : InstructionId) (next : Option InstructionId) :
    (g.setNext id next).kind? other = g.kind? other := by
  unfold setNext
  split
  . rfl
  . rfl
  . split
    . apply kind?_link
    . split
      . rw [kind?_setNext, kind?_link]
      . apply kind?_link
  . apply kind?_link
termination_by g.size - id.index
decreasing_by simp only [size_link]; omega

theorem kind?_unvisited (g : Graph σ) (id : InstructionId) :
    g.unvisited.kind? id = (g.kind? id).map NodeKind.unvisited := by
  simp only [kind?, node?, unvisited, Array.getElem?_map, Option.map_map]
  rfl

theorem unvisited_link (g : Graph σ) (id : InstructionId) (next : Option InstructionId) :
    (g.link id next).unvisited = g.unvisited.link id next := by
  simp only [unvisited, link]
  congr 1
  apply Array.ext_getElem?
  intro j
  simp only [Array.getElem?_map, Array.getElem?_modify]
  split <;> simp [Option.map_map, Function.comp_def]

theorem unvisited_extend (g : Graph σ) (nodes : List (Node σ)) :
    (g.extend nodes).unvisited =
      g.unvisited.extend (nodes.map fun n => { n with kind := n.kind.unvisited }) := by
  simp [unvisited, extend]

theorem size_unvisited (g : Graph σ) : g.unvisited.size = g.size := by
  simp [unvisited, size]

theorem unvisited_setNext (g : Graph σ) (id : InstructionId) (next : Option InstructionId) :
    (g.setNext id next).unvisited = g.unvisited.setNext id next := by
  have hunvisited := kind?_unvisited g id
  cases hkind : g.kind? id with
  | none =>
    rw [hkind] at hunvisited
    rw [setNext, hkind, setNext, hunvisited]
    rfl
  | some kind =>
    rw [hkind] at hunvisited
    cases kind with
    | jump label => rw [setNext_of_jump hkind, setNext_of_jump hunvisited]
    | block children =>
      rw [setNext_of_block hkind, setNext_of_block hunvisited, size_unvisited]
      cases children.getLast? with
      | none => apply unvisited_link
      | some last =>
        dsimp only
        split
        . rw [unvisited_setNext, unvisited_link]
        . apply unvisited_link
    | _ =>
      rw [setNext_of_other hkind (by simp) (by simp),
        setNext_of_other hunvisited (by simp [NodeKind.unvisited]) (by simp [NodeKind.unvisited])]
      apply unvisited_link
termination_by g.size - id.index
decreasing_by simp only [size_link]; omega

section Congruence

variable {g h : Graph σ}

theorem kind?_arm_congr (heq : g.unvisited = h.unvisited) (now : Instant) (id : InstructionId) :
    (g.arm now id).kind? id = (h.arm now id).kind? id := by
  have harm (kind : Option (NodeKind σ)) :
      kind.map (NodeKind.arm now) = (kind.map NodeKind.unvisited).map (NodeKind.arm now) := by
    cases kind with
    | none => rfl
    | some kind => simp [NodeKind.arm_unvisited]
  rw [kind?_arm, kind?_arm, harm, ← kind?_unvisited, heq, kind?_unvisited, ← harm]

theorem insert_congr (heq : g.unvisited = h.unvisited) (owner : Option InstructionId)
    (i : Instruction σ) :
    (g.insert owner i).1 = (h.insert owner i).1 ∧
    (g.insert owner i).2.unvisited = (h.insert owner i).2.unvisited ∧
    ∀ id, g.kind? id = h.kind? id →
      (g.insert owner i).2.kind? id = (h.insert owner i).2.kind? id := by
  have hid : g.id = h.id := congrArg (fun g => g.id) heq
  have hsize := size_congr (shape_eq_of_unvisited heq)
  rw [insert_eq_layout, insert_eq_layout, hid, hsize]
  refine ⟨rfl, ?_, ?_⟩
  . rw [unvisited_extend, unvisited_extend, heq]
  . intro id hkind
    by_cases hlt : id.index < h.size
    . rw [kind?_extend hlt, kind?_extend (by omega), hkind]
    . rw [kind?_extend_of_le (by omega), kind?_extend_of_le (by omega), hsize]

variable {id : InstructionId} (hid : g.kind? id = h.kind? id)

include hid

theorem perform_congr (now : Instant) (env : Env σ) :
    (g.perform now id env).1 = (h.perform now id env).1 ∧
    (g.perform now id env).2.1.kind? id = (h.perform now id env).2.1.kind? id ∧
    (g.perform now id env).2.2 = (h.perform now id env).2.2 := by
  cases hkind : g.kind? id with
  | none =>
    have hkind' := hid.symm.trans hkind
    unfold perform
    simp [hkind, hkind']
  | some kind =>
    have hkind' := hid.symm.trans hkind
    rw [perform_eq hkind, perform_eq hkind', kind?_setKind_self hkind, kind?_setKind_self hkind']
    exact ⟨rfl, rfl, rfl⟩

theorem successor?_congr (heq : g.unvisited = h.unvisited) :
    g.successor? id = h.successor? id := by
  rw [successor?_eq, successor?_eq, hid, next?_congr heq]

theorem announce_congr : g.announce id = h.announce id := by
  rw [announce, hid, announce]

end Congruence

end Graph

end Sequencer
