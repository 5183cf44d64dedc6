import Mathlib.Data.List.Find
import Sequencer.Proofs.Manager.Faithful

/-!
Where the cursor of a manager is after a step has run, as a law about keys. `Moves` knows nothing of
positions; it looks for least keys among those stored, and allows one key only. `moves_iff` says
that this is the key of the cursor, which is a position in the list of keys that was laid out.
-/

namespace Sequencer

namespace Manager

variable {σ : Type}

def isRing (m : Manager σ) : Bool :=
  m.tree.any (·.ring)

def Stored (m : Manager σ) (key : StepKey) : Prop :=
  key ∈ m.steps.keys

def HasName (m : Manager σ) (name : String) (key : StepKey) : Prop :=
  ∃ entry, m.steps.get? key = some entry ∧ entry.name? = some name

def Refers (m : Manager σ) (target : StepRef) (found : Option StepKey) : Prop :=
  match target with
  | .key key => (m.Stored key ∧ found = some key) ∨ (¬m.Stored key ∧ found = none)
  | .name name => IsLeast (m.HasName name) found

/-- On to the next larger key. From the greatest one a ring goes on to the least, a chain ends. -/
def Advances (m : Manager σ) (key : StepKey) (next : Option StepKey) : Prop :=
  ∃ larger, IsLeast (fun other => m.Stored other ∧ key < other) larger ∧
    match larger with
    | some other => next = some other
    | none => if m.isRing then IsLeast m.Stored next else next = none

def Transfers (m : Manager σ) (key : StepKey) (transition : Transition)
    (next : Option StepKey) : Prop :=
  match transition with
  | .stay => next = some key
  | .advance => m.Advances key next
  | .jumpTo target => ∃ found, m.Refers target found ∧
    match found with
    | some other => next = some other
    | none => m.Advances key next

def Moves (m : Manager σ) (key : StepKey) (outcome : Outcome) (next : Option StepKey) : Prop :=
  match outcome.flow with
  | .terminate => next = none
  | .repeatWhole _ => IsLeast m.Stored next
  | .nextCycle | .continueInCycle => m.Transfers key outcome.transition next

section Determinism

variable {m : Manager σ} {key : StepKey} {a b : Option StepKey}

theorem Refers.unique {target : StepRef} (ha : m.Refers target a) (hb : m.Refers target b) :
    a = b := by
  cases target with
  | key key =>
    rcases ha with ⟨_, rfl⟩ | ⟨hnot, rfl⟩ <;> rcases hb with ⟨_, rfl⟩ | ⟨_, rfl⟩
    . rfl
    . contradiction
    . contradiction
    . rfl
  | name name => exact IsLeast.unique ha hb

theorem Advances.unique (ha : m.Advances key a) (hb : m.Advances key b) : a = b := by
  obtain ⟨largerA, hleastA, ha⟩ := ha
  obtain ⟨largerB, hleastB, hb⟩ := hb
  obtain rfl := hleastA.unique hleastB
  cases largerA with
  | some other => exact ha.trans hb.symm
  | none =>
    dsimp only at ha hb
    split at ha
    . next hring =>
      rw [if_pos hring] at hb
      exact ha.unique hb
    . next hring =>
      rw [if_neg hring] at hb
      exact ha.trans hb.symm

theorem Transfers.unique {transition : Transition} (ha : m.Transfers key transition a)
    (hb : m.Transfers key transition b) : a = b := by
  cases transition with
  | stay => exact ha.trans hb.symm
  | advance => exact Advances.unique ha hb
  | jumpTo target =>
    obtain ⟨foundA, hrefersA, ha⟩ := ha
    obtain ⟨foundB, hrefersB, hb⟩ := hb
    obtain rfl := hrefersA.unique hrefersB
    cases foundA with
    | some other => exact ha.trans hb.symm
    | none => exact Advances.unique ha hb

theorem Moves.unique {outcome : Outcome} (ha : m.Moves key outcome a)
    (hb : m.Moves key outcome b) : a = b := by
  obtain ⟨transition, flow⟩ := outcome
  cases flow with
  | terminate => exact ha.trans hb.symm
  | repeatWhole continueInCycle => exact IsLeast.unique ha hb
  | nextCycle => exact Transfers.unique ha hb
  | continueInCycle => exact Transfers.unique ha hb

end Determinism

theorem currentKey?_of_tree {m : Manager σ} {tree : StepTree} (htree : m.tree = some tree)
    (position : Option Nat) :
    currentKey? { m with current := position } = position.bind (tree.keys[·]?) := by
  simp [currentKey?, htree]

theorem exists_tree_of_currentKey? {m : Manager σ} {key : StepKey}
    (h : m.currentKey? = some key) :
    ∃ tree position, m.tree = some tree ∧ m.current = some position ∧
      tree.keys[position]? = some key := by
  simp only [currentKey?, Option.bind_eq_bind, Option.bind_eq_some_iff] at h
  obtain ⟨tree, htree, position, hposition, hkey⟩ := h
  exact ⟨tree, position, htree, hposition, hkey⟩

theorem currentKey?_rebuild (m : Manager σ) (world : σ) :
    (m.rebuild world).value.1.currentKey? = m.steps.keys.head? := by
  rw [value_rebuild]
  cases hkeys : m.steps.keys with
  | nil => simp [currentKey?]
  | cons key rest => simp [currentKey?]

theorem mem_keys_of_keyOf? {m : Manager σ} {target : StepRef} {key : StepKey}
    (h : m.keyOf? target = some key) : key ∈ m.steps.keys := by
  cases target with
  | key other =>
    rw [keyOf?, Option.ite_none_right_eq_some, KeyMap.contains_iff] at h
    obtain ⟨hmem, heq⟩ := h
    cases heq
    exact hmem
  | name name =>
    rw [keyOf?, Option.map_eq_some_iff] at h
    obtain ⟨pair, hfind, rfl⟩ := h
    exact List.mem_map_of_mem (List.mem_of_find?_eq_some hfind)

namespace Faithful

variable {m : Manager σ}

theorem refers_keyOf? (h : m.Faithful) (target : StepRef) : m.Refers target (m.keyOf? target) := by
  cases target with
  | key key =>
    simp only [Refers, keyOf?, KeyMap.contains_iff, Stored]
    by_cases hkey : key ∈ m.steps.keys <;> simp [hkey]
  | name name =>
    let named (key : StepKey) : Bool := (m.steps.get? key).any fun entry => entry.name? = some name
    have hfind : m.keyOf? (.name name) = m.steps.keys.find? named := by
      rw [keyOf?, KeyMap.keys, List.find?_map]
      congr 1
      apply List.find?_congr
      intro pair hpair
      simp [named, KeyMap.get?_of_mem h.ascending hpair]
    have hnamed (key : StepKey) : m.HasName name key ↔ key ∈ m.steps.keys ∧ named key = true := by
      constructor
      . rintro ⟨entry, hentry, hname⟩
        have hkey := List.mem_map_of_mem (f := (·.1)) (KeyMap.mem_of_get? hentry)
        exact ⟨hkey, by simp [named, hentry, hname]⟩
      . rintro ⟨_, hkey⟩
        simpa [named, HasName, Option.any_eq_true] using hkey
    have hleast := isLeast_find? h.ascending named
    simp only [Refers, hfind, funext fun key => propext (hnamed key)]
    exact hleast

theorem advances_following? (h : m.Faithful) {key : StepKey} (hkey : m.currentKey? = some key) :
    m.Advances key (currentKey? { m with current := m.following? }) := by
  obtain ⟨tree, position, htree, hposition, hget⟩ := exists_tree_of_currentKey? hkey
  have hkeys := h.keys tree htree
  have hleast := isLeast_after (hkeys ▸ h.ascending) hget
  have hfollowing : m.following? = tree.successor? position := by
    simp [following?, htree, hposition]
  rw [currentKey?_of_tree htree, hfollowing]
  refine ⟨tree.keys[position + 1]?, ?_, ?_⟩
  . simp only [Stored, ← hkeys]
    exact hleast
  . rw [StepTree.successor?]
    cases hlarger : tree.keys[position + 1]? with
    | some other =>
      obtain ⟨hlt, _⟩ := List.getElem?_eq_some_iff.mp hlarger
      rw [if_pos hlt]
      exact hlarger
    | none =>
      have hle := List.getElem?_eq_none_iff.mp hlarger
      have hne : tree.keys ≠ [] := List.ne_nil_of_mem (List.mem_of_getElem? hget)
      have hring : m.isRing = tree.ring := by
        simp [isRing, htree]
      rw [if_neg (Nat.not_lt.mpr hle), hring]
      dsimp only
      split
      . next htrue =>
        rw [if_pos ⟨htrue, hne⟩, Option.bind_some, ← List.head?_eq_getElem?, hkeys]
        exact isLeast_head? h.ascending
      . next hfalse =>
        rw [if_neg (by simp [hfalse])]
        rfl

theorem exists_position_of_mem (h : m.Faithful) {tree : StepTree} (htree : m.tree = some tree)
    {key : StepKey} (hkey : key ∈ m.steps.keys) :
    ∃ position, m.positionOf? key = some position ∧ tree.keys[position]? = some key := by
  rw [← h.keys tree htree] at hkey
  rw [positionOf?, htree, Option.bind_some]
  cases hfind : tree.keys.findIdx? (· = key) with
  | none =>
    rw [List.findIdx?_eq_none_iff] at hfind
    have := hfind key hkey
    simp at this
  | some position =>
    refine ⟨position, rfl, ?_⟩
    obtain ⟨hlt, heq, _⟩ := List.findIdx?_eq_some_iff_getElem.mp hfind
    rw [List.getElem?_eq_getElem hlt]
    simpa using heq

theorem transfers_landing? (h : m.Faithful) {key : StepKey} (hkey : m.currentKey? = some key)
    (transition : Transition) :
    m.Transfers key transition (currentKey? { m with current := m.landing? transition }) := by
  obtain ⟨tree, _, htree, _, _⟩ := exists_tree_of_currentKey? hkey
  cases transition with
  | stay => exact hkey
  | advance => exact h.advances_following? hkey
  | jumpTo target =>
    refine ⟨m.keyOf? target, h.refers_keyOf? target, ?_⟩
    rw [landing?]
    cases hfound : m.keyOf? target with
    | none => exact h.advances_following? hkey
    | some other =>
      obtain ⟨position, hposition, hget⟩ :=
        h.exists_position_of_mem htree (mem_keys_of_keyOf? hfound)
      dsimp only
      rw [Option.bind_some, hposition, currentKey?_of_tree htree]
      exact hget

end Faithful

theorem SameTree.landing? {m m' : Manager σ} (h : SameTree m m') (transition : Transition) :
    m'.landing? transition = m.landing? transition := by
  cases transition with
  | advance => exact h.following?
  | stay => exact h.current
  | jumpTo target => rw [Manager.landing?, Manager.landing?, h.keyOf?, h.positionOf?, h.following?]

theorem currentKey?_settle (m : Manager σ) (key : StepKey) (flow : Flow) (env : Env σ) :
    (m.settle key flow env).value.manager.currentKey? =
      match flow with
      | .terminate => none
      | .repeatWhole _ => m.steps.keys.head?
      | .nextCycle | .continueInCycle => m.currentKey? := by
  cases flow with
  | nextCycle => rfl
  | continueInCycle => rfl
  | repeatWhole continueInCycle => exact currentKey?_rebuild _ _
  | terminate => exact currentKey?_of_tree rfl none

theorem Faithful.moves_turn {m : Manager σ} (h : m.Faithful) {key : StepKey}
    (hkey : m.currentKey? = some key) (env : Env σ) :
    m.Moves key (m.runStep key env).value.1 (m.turn key env).value.manager.currentKey? := by
  -- running the step keeps keys, names and cursor, so the transition is taken from the old tree
  have hran := sameTree_runStep m key env
  simp only [Manager.turn, Traced.value_bind]
  generalize (m.runStep key env).value = ran at hran ⊢
  obtain ⟨⟨transition, flow⟩, m', env'⟩ := ran
  dsimp only at hran ⊢
  have hfollow := sameTree_follow m' key transition env'
  rw [hran.landing?] at hfollow
  have hmoved := hran.moved (m.landing? transition)
  have htransfers := h.transfers_landing? hkey transition
  rw [← hmoved.currentKey?, ← hfollow.currentKey?] at htransfers
  have hkeys := hfollow.keys.trans hran.keys
  rw [currentKey?_settle]
  cases flow with
  | nextCycle => exact htransfers
  | continueInCycle => exact htransfers
  | repeatWhole continueInCycle =>
    dsimp only
    rw [hkeys]
    exact isLeast_head? h.ascending
  | terminate => rfl

theorem Faithful.moves_iff {m : Manager σ} (h : m.Faithful) {key : StepKey}
    (hkey : m.currentKey? = some key) (env : Env σ) (next : Option StepKey) :
    m.Moves key (m.runStep key env).value.1 next ↔
      next = (m.turn key env).value.manager.currentKey? := by
  constructor
  . intro hmoves
    exact hmoves.unique (h.moves_turn hkey env)
  . rintro rfl
    exact h.moves_turn hkey env

end Manager

end Sequencer
