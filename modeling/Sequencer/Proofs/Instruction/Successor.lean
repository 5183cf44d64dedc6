import Sequencer.Proofs.Instruction.Shape

/-!
Links and where control goes along them.
-/

namespace Sequencer

namespace Graph

variable {σ : Type}

def next? (g : Graph σ) (id : InstructionId) : Option InstructionId :=
  (g.node? id).bind (·.next)

theorem next?_congr {g h : Graph σ} (heq : g.unvisited = h.unvisited) (id : InstructionId) :
    g.next? id = h.next? id := by
  have hnext (g : Graph σ) : g.next? id = g.unvisited.next? id := by
    simp only [next?, node?, unvisited, Array.getElem?_map]
    cases g.nodes[id.index]? <;> rfl
  rw [hnext g, heq, ← hnext h]

theorem next?_extend {g : Graph σ} {nodes : List (Node σ)} {id : InstructionId}
    (hid : id.index < g.size) : (g.extend nodes).next? id = g.next? id := by
  rw [next?, node?_extend hid, next?]

theorem next?_link (g : Graph σ) (id other : InstructionId) (next : Option InstructionId) :
    (g.link id next).next? other =
      if id.index = other.index ∧ other.index < g.size then next else g.next? other := by
  simp only [next?, node?, link, Array.getElem?_modify, size]
  by_cases hid : id.index = other.index
  . by_cases hlt : other.index < g.nodes.size
    . simp [hid, hlt]
    . simp [hid, hlt]
  . simp [hid]

theorem link_next?_self {g : Graph σ} {id : InstructionId} {target : InstructionId}
    (h : g.next? id = some target) : g.link id (some target) = g := by
  simp only [next?, node?, Option.bind_eq_some_iff] at h
  obtain ⟨n, hn, hnext⟩ := h
  simp only [link]
  congr 1
  apply Array.ext_getElem?
  intro j
  rw [Array.getElem?_modify]
  split
  . next hj =>
    subst hj
    simp [hn, ← hnext]
  . rfl

theorem jumpLabel?_lt {g : Graph σ} {id : InstructionId} {label : String}
    (h : g.jumpLabel? id = some label) : id.index < g.size := by
  unfold jumpLabel? at h
  split at h
  . next hkind =>
    simp only [kind?, node?, Option.map_eq_some_iff] at hkind
    obtain ⟨n, hn, _⟩ := hkind
    exact (Array.getElem?_eq_some_iff.mp hn).1
  . simp at h

theorem successor?_eq (g : Graph σ) (id : InstructionId) :
    g.successor? id =
      match g.kind? id with
      | some (.condition _ alternative holds) => if holds then g.next? id else alternative
      | some (.timedCondition _ _ alternative holds) => if holds then g.next? id else alternative
      | some (.block children) => children.head?.or (g.next? id)
      | _ => g.next? id := by
  unfold successor? kind? next?
  cases g.node? id with
  | none => rfl
  | some node =>
    dsimp only [Option.map_some, Option.bind_some, Option.bind_eq_bind]
    cases node.kind <;> rfl

theorem successor?_of_jumpLabel? {g : Graph σ} {id : InstructionId} {label : String}
    (h : g.jumpLabel? id = some label) : g.successor? id = g.next? id := by
  unfold jumpLabel? at h
  split at h
  . next hkind => rw [successor?_eq, hkind]
  . simp at h

end Graph

end Sequencer
