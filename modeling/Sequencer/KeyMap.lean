import Sequencer.Step.Outcome

/-!
Maps from step keys, listed in ascending order of the keys.
-/

namespace Sequencer

structure KeyMap (α : Type) where
  entries : List (StepKey × α)

namespace KeyMap

variable {α : Type}

def empty : KeyMap α := ⟨[]⟩

instance : Inhabited (KeyMap α) := ⟨empty⟩

def insertEntry (key : StepKey) (value : α) : List (StepKey × α) → List (StepKey × α)
  | [] => [(key, value)]
  | (k, x) :: rest =>
    if key = k then (key, value) :: rest
    else if key < k then (key, value) :: (k, x) :: rest
    else (k, x) :: insertEntry key value rest

def insert (m : KeyMap α) (key : StepKey) (value : α) : KeyMap α :=
  ⟨insertEntry key value m.entries⟩

def assoc? (key : StepKey) : List (StepKey × α) → Option α
  | [] => none
  | (k, x) :: rest => if k = key then some x else assoc? key rest

def get? (m : KeyMap α) (key : StepKey) : Option α :=
  assoc? key m.entries

def contains (m : KeyMap α) (key : StepKey) : Bool :=
  (m.get? key).isSome

def erase (m : KeyMap α) (key : StepKey) : KeyMap α :=
  ⟨m.entries.filter fun (k, _) => k ≠ key⟩

def modifyEntry (key : StepKey) (f : α → α) : List (StepKey × α) → List (StepKey × α)
  | [] => []
  | (k, x) :: rest => if k = key then (k, f x) :: rest else (k, x) :: modifyEntry key f rest

def modify (m : KeyMap α) (key : StepKey) (f : α → α) : KeyMap α :=
  ⟨modifyEntry key f m.entries⟩

def keys (m : KeyMap α) : List StepKey :=
  m.entries.map (·.1)

def size (m : KeyMap α) : Nat :=
  m.entries.length

def isEmpty (m : KeyMap α) : Bool :=
  m.entries.isEmpty

@[simp]
theorem keys_modify (m : KeyMap α) (key : StepKey) (f : α → α) : (m.modify key f).keys = m.keys := by
  obtain ⟨entries⟩ := m
  simp only [modify, keys]
  induction entries with
  | nil => rfl
  | cons e rest ih =>
    obtain ⟨k, x⟩ := e
    by_cases h : k = key <;> simp [modifyEntry, h, ih]

theorem get?_insert_self (m : KeyMap α) (key : StepKey) (value : α) :
    (m.insert key value).get? key = some value := by
  obtain ⟨entries⟩ := m
  simp only [insert, get?]
  induction entries with
  | nil => simp [insertEntry, assoc?]
  | cons e rest ih =>
    obtain ⟨k, x⟩ := e
    by_cases h : key = k
    · simp [insertEntry, assoc?, h]
    · by_cases hlt : key < k
      · simp [insertEntry, assoc?, h, hlt]
      · have h' : ¬k = key := fun hk => h hk.symm
        simp only [insertEntry, h, hlt, ↓reduceIte, assoc?, h', ih]

end KeyMap

end Sequencer
