/-!
Dictionaries that remember the order in which their keys were first written. Writing over a key
keeps its place; removing a key forgets it, so a later write puts it at the end.
-/

namespace Sequencer

structure Dictionary (α : Type) where
  entries : List (String × α)
deriving Repr, DecidableEq

namespace Dictionary

variable {α : Type}

def empty : Dictionary α := ⟨[]⟩

instance : Inhabited (Dictionary α) := ⟨empty⟩

def insertEntry (key : String) (value : α) : List (String × α) → List (String × α)
  | [] => [(key, value)]
  | (k, x) :: rest => if k = key then (key, value) :: rest else (k, x) :: insertEntry key value rest

def insert (d : Dictionary α) (key : String) (value : α) : Dictionary α :=
  ⟨insertEntry key value d.entries⟩

def assoc? (key : String) : List (String × α) → Option α
  | [] => none
  | (k, x) :: rest => if k = key then some x else assoc? key rest

def get? (d : Dictionary α) (key : String) : Option α :=
  assoc? key d.entries

def contains (d : Dictionary α) (key : String) : Bool :=
  (d.get? key).isSome

def erase (d : Dictionary α) (key : String) : Dictionary α :=
  ⟨d.entries.filter fun (k, _) => k ≠ key⟩

def keys (d : Dictionary α) : List String :=
  d.entries.map (·.1)

def size (d : Dictionary α) : Nat :=
  d.entries.length

def isEmpty (d : Dictionary α) : Bool :=
  d.entries.isEmpty

def ofList (entries : List (String × α)) : Dictionary α :=
  entries.foldl (fun d (k, x) => d.insert k x) empty

theorem get?_insert_self (d : Dictionary α) (key : String) (value : α) :
    (d.insert key value).get? key = some value := by
  obtain ⟨entries⟩ := d
  simp only [insert, get?]
  induction entries with
  | nil => simp [insertEntry, assoc?]
  | cons e rest ih =>
    obtain ⟨k, x⟩ := e
    by_cases h : k = key <;> simp [insertEntry, assoc?, h, ih]

theorem get?_insert_of_ne (d : Dictionary α) {key other : String} (value : α) (h : other ≠ key) :
    (d.insert key value).get? other = d.get? other := by
  obtain ⟨entries⟩ := d
  simp only [insert, get?]
  induction entries with
  | nil => simp [insertEntry, assoc?, h.symm]
  | cons e rest ih =>
    obtain ⟨k, x⟩ := e
    by_cases hk : k = key
    · subst hk
      simp [insertEntry, assoc?, h.symm]
    · simp only [insertEntry, hk, ↓reduceIte, assoc?, ih]

theorem get?_erase_self (d : Dictionary α) (key : String) : (d.erase key).get? key = none := by
  obtain ⟨entries⟩ := d
  simp only [erase, get?, decide_not]
  induction entries with
  | nil => rfl
  | cons e rest ih =>
    obtain ⟨k, x⟩ := e
    by_cases h : k = key <;> simp [assoc?, h, ih]

theorem keys_insert (d : Dictionary α) (key : String) (value : α) :
    (d.insert key value).keys = if key ∈ d.keys then d.keys else d.keys ++ [key] := by
  obtain ⟨entries⟩ := d
  simp only [insert, keys]
  induction entries with
  | nil => simp [insertEntry]
  | cons e rest ih =>
    obtain ⟨k, x⟩ := e
    by_cases h : k = key
    · simp [insertEntry, h]
    · have h' : key ≠ k := fun hk => h hk.symm
      simp only [insertEntry, h, ↓reduceIte, List.map_cons, ih, List.mem_cons, h', false_or]
      by_cases hm : key ∈ rest.map (·.1) <;> simp [hm]

end Dictionary

end Sequencer
