import Mathlib.Data.List.Dedup
import Sequencer.Proofs.Manager.Faithful

/-!
Storing steps one after the other. `assignedKeys` are the keys they are stored under; nothing is
replaced exactly when no key is assigned twice.
-/

namespace Sequencer

namespace KeyMap

variable {α β : Type}

theorem assoc?_map (f : α → β) (key : StepKey) (entries : List (StepKey × α)) :
    assoc? key (entries.map fun pair => (pair.1, f pair.2)) = (assoc? key entries).map f := by
  induction entries with
  | nil => rfl
  | cons pair rest ih =>
    obtain ⟨k, x⟩ := pair
    simp only [List.map_cons, assoc?, ih]
    split <;> rfl

theorem size_eq (m : KeyMap α) : m.size = m.keys.length := by
  simp [size, keys]

end KeyMap

namespace Manager

variable {σ : Type}

/-- The keys of steps that are stored one after the other, the next free one being `next`. -/
def assignedKeys (next : StepKey) : List (StepSource σ) → List StepKey
  | [] => []
  | source :: rest =>
    let key := source.key.getD next
    key :: assignedKeys (keyAfter (if next < key then key else next)) rest

def insertAll (m : Manager σ) : List (StepSource σ × Option StepData) → Manager σ
  | [] => m
  | (source, data) :: rest => insertAll (m.insert source data).value.2 rest

@[simp]
theorem length_assignedKeys (next : StepKey) (sources : List (StepSource σ)) :
    (assignedKeys next sources).length = sources.length := by
  induction sources generalizing next with
  | nil => rfl
  | cons source rest ih => simp [assignedKeys, ih]

theorem getElem?_assignedKeys (next : StepKey) {sources : List (StepSource σ)} {k : Nat}
    {source : StepSource σ} (hsource : sources[k]? = some source) {key : StepKey}
    (hkey : source.key = some key) : (assignedKeys next sources)[k]? = some key := by
  induction sources generalizing next k with
  | nil => simp at hsource
  | cons first rest ih =>
    cases k with
    | zero =>
      cases hsource
      simp [assignedKeys, hkey]
    | succ k =>
      rw [List.getElem?_cons_succ] at hsource
      exact ih _ hsource

theorem value_insert (m : Manager σ) (source : StepSource σ) (data : Option StepData) :
    (m.insert source data).value.2 =
      { m with
        nextKey := keyAfter
          (if m.nextKey < source.key.getD m.nextKey then source.key.getD m.nextKey else m.nextKey)
        steps := m.steps.insert (source.key.getD m.nextKey) { source, generated := none, data }
        tree := none } :=
  rfl

section InsertAll

variable (m : Manager σ) (pairs : List (StepSource σ × Option StepData))

theorem mem_keys_insertAll (key : StepKey) :
    key ∈ (m.insertAll pairs).steps.keys ↔
      key ∈ m.steps.keys ∨ key ∈ assignedKeys m.nextKey (pairs.map (·.1)) := by
  induction pairs generalizing m with
  | nil => simp [insertAll, assignedKeys]
  | cons pair rest ih =>
    obtain ⟨source, data⟩ := pair
    rw [insertAll, ih, value_insert]
    simp only [KeyMap.mem_keys_insert, List.map_cons, assignedKeys, List.mem_cons]
    constructor
    . rintro ((h | h) | h) <;> simp [h]
    . rintro (h | h | h) <;> simp [h]

variable {m pairs}

theorem Faithful.insertAll (h : m.Faithful) : (m.insertAll pairs).Faithful := by
  induction pairs generalizing m with
  | nil => exact h
  | cons pair rest ih => exact ih (h.insert pair.1 pair.2)

theorem get?_insertAll_of_not_mem {key : StepKey}
    (h : key ∉ assignedKeys m.nextKey (pairs.map (·.1))) :
    (m.insertAll pairs).steps.get? key = m.steps.get? key := by
  induction pairs generalizing m with
  | nil => rfl
  | cons pair rest ih =>
    obtain ⟨source, data⟩ := pair
    simp only [List.map_cons, assignedKeys, List.mem_cons, not_or] at h
    rw [Manager.insertAll, ih h.2, value_insert]
    exact KeyMap.get?_insert_of_ne _ h.1 _

theorem get?_insertAll (h : (assignedKeys m.nextKey (pairs.map (·.1))).Nodup) {k : Nat}
    {source : StepSource σ} {data : Option StepData} (hpair : pairs[k]? = some (source, data))
    {key : StepKey} (hkey : (assignedKeys m.nextKey (pairs.map (·.1)))[k]? = some key) :
    (m.insertAll pairs).steps.get? key = some { source, generated := none, data } := by
  induction pairs generalizing m k with
  | nil => simp at hpair
  | cons pair rest ih =>
    obtain ⟨first, firstData⟩ := pair
    simp only [List.map_cons, assignedKeys, List.nodup_cons] at h hkey
    rw [Manager.insertAll]
    cases k with
    | zero =>
      cases hpair
      cases hkey
      -- the steps that come later have other keys
      rw [get?_insertAll_of_not_mem h.1, value_insert]
      apply KeyMap.get?_insert_self
    | succ k =>
      rw [List.getElem?_cons_succ] at hpair hkey
      exact ih h.2 hpair hkey

end InsertAll

theorem length_eq_iff_nodup {keys assigned : List StepKey} (hnodup : keys.Nodup)
    (hmem : ∀ key, key ∈ keys ↔ key ∈ assigned) : keys.length = assigned.length ↔ assigned.Nodup := by
  -- both are the assigned keys without repetitions, in some order
  have hperm : keys.Perm assigned.dedup := by
    rw [List.perm_ext_iff_of_nodup hnodup assigned.nodup_dedup]
    intro key
    rw [hmem, List.mem_dedup]
  rw [hperm.length_eq, ← List.dedup_eq_self]
  constructor
  . exact fun hlength => (List.dedup_sublist assigned).eq_of_length hlength
  . intro heq
    rw [heq]

theorem size_insertAll_iff (config : EngineConfig)
    (pairs : List (StepSource σ × Option StepData)) :
    ((empty config : Manager σ).insertAll pairs).steps.size = pairs.length ↔
      (assignedKeys (1 : StepKey) (pairs.map (·.1))).Nodup := by
  have hfaithful : ((empty config : Manager σ).insertAll pairs).Faithful :=
    (Faithful.empty config).insertAll
  have hmem (key : StepKey) : key ∈ ((empty config : Manager σ).insertAll pairs).steps.keys ↔
      key ∈ assignedKeys (1 : StepKey) (pairs.map (·.1)) := by
    rw [mem_keys_insertAll]
    simp [empty, KeyMap.empty, KeyMap.keys]
  have hlength : pairs.length = (assignedKeys (1 : StepKey) (pairs.map (·.1))).length := by
    rw [length_assignedKeys, List.length_map]
  rw [KeyMap.size_eq, hlength]
  exact length_eq_iff_nodup (nodup_of_ascending hfaithful.ascending) hmem

def stored (m : Manager σ) : List (StepKey × StepSource σ × Option StepData) :=
  m.steps.entries.map fun pair => (pair.1, pair.2.source, pair.2.data)

theorem stored_suspend (m : Manager σ) (world : σ) :
    (m.suspend world).value.1.stored = m.stored :=
  stored_generateAll _ _

end Manager

end Sequencer
