import Sequencer.KeyMap

/-!
Maps whose keys ascend, which is how every operation leaves them.
-/

namespace Sequencer

theorem nodup_of_ascending {keys : List StepKey} (h : keys.Pairwise (· < ·)) : keys.Nodup := by
  apply h.imp
  rintro key _ hlt rfl
  simp at hlt

/-- The least key with a property, or none when no key has it. -/
def IsLeast (p : StepKey → Prop) : Option StepKey → Prop
  | some key => p key ∧ ∀ other, p other → key ≤ other
  | none => ∀ other, ¬p other

theorem IsLeast.unique {p : StepKey → Prop} {a b : Option StepKey} (ha : IsLeast p a)
    (hb : IsLeast p b) : a = b := by
  cases a with
  | none =>
    cases b with
    | none => rfl
    | some b => exact absurd hb.1 (ha b)
  | some a =>
    cases b with
    | none => exact absurd ha.1 (hb a)
    | some b => rw [Int64.le_antisymm (ha.2 b hb.1) (hb.2 a ha.1)]

theorem isLeast_find? {keys : List StepKey} (h : keys.Pairwise (· < ·)) (p : StepKey → Bool) :
    IsLeast (fun key => key ∈ keys ∧ p key = true) (keys.find? p) := by
  induction keys with
  | nil => simp [IsLeast]
  | cons k rest ih =>
    rw [List.pairwise_cons] at h
    rw [List.find?_cons]
    cases hk : p k with
    | true =>
      refine ⟨⟨List.mem_cons_self, hk⟩, ?_⟩
      rintro other ⟨hother, _⟩
      rw [List.mem_cons] at hother
      rcases hother with rfl | hother
      . apply Int64.le_refl
      . exact Int64.le_of_lt (h.1 other hother)
    | false =>
      have hmem (key : StepKey) : (key ∈ k :: rest ∧ p key = true) ↔ (key ∈ rest ∧ p key = true) := by
        rw [List.mem_cons]
        constructor
        . rintro ⟨rfl | hkey, hp⟩
          . simp [hk] at hp
          . exact ⟨hkey, hp⟩
        . rintro ⟨hkey, hp⟩
          exact ⟨Or.inr hkey, hp⟩
      simp only [hmem]
      exact ih h.2

theorem isLeast_head? {keys : List StepKey} (h : keys.Pairwise (· < ·)) :
    IsLeast (· ∈ keys) keys.head? := by
  have := isLeast_find? h fun _ => true
  cases keys with
  | nil => simpa using this
  | cons k rest => simpa using this

theorem isLeast_after {keys : List StepKey} (h : keys.Pairwise (· < ·)) {position : Nat}
    {key : StepKey} (hkey : keys[position]? = some key) :
    IsLeast (fun other => other ∈ keys ∧ key < other) keys[position + 1]? := by
  induction keys generalizing position with
  | nil => simp at hkey
  | cons k rest ih =>
    rw [List.pairwise_cons] at h
    cases position with
    | zero =>
      cases hkey
      have hmem (other : StepKey) : (other ∈ key :: rest ∧ key < other) ↔ other ∈ rest := by
        rw [List.mem_cons]
        constructor
        . rintro ⟨rfl | hother, hlt⟩
          . simp at hlt
          . exact hother
        . intro hother
          exact ⟨Or.inr hother, h.1 other hother⟩
      simp only [hmem, List.getElem?_cons_succ, ← List.head?_eq_getElem?]
      exact isLeast_head? h.2
    | succ position =>
      rw [List.getElem?_cons_succ] at hkey ⊢
      have hlt := h.1 key (List.mem_of_getElem? hkey)
      have hmem (other : StepKey) :
          (other ∈ k :: rest ∧ key < other) ↔ (other ∈ rest ∧ key < other) := by
        rw [List.mem_cons]
        constructor
        . rintro ⟨rfl | hother, hkey⟩
          . exact absurd hkey (Int64.lt_asymm hlt)
          . exact ⟨hother, hkey⟩
        . rintro ⟨hother, hkey⟩
          exact ⟨Or.inr hother, hkey⟩
      simp only [hmem]
      exact ih h.2 hkey

namespace KeyMap

variable {α : Type}

theorem mem_keys_insertEntry (key : StepKey) (value : α) (entries : List (StepKey × α))
    (other : StepKey) :
    other ∈ (insertEntry key value entries).map (·.1) ↔
      other = key ∨ other ∈ entries.map (·.1) := by
  induction entries with
  | nil => simp [insertEntry]
  | cons entry rest ih =>
    obtain ⟨k, x⟩ := entry
    unfold insertEntry
    split
    . next heq =>
      subst heq
      simp
    . split
      . simp
      . simp only [List.map_cons, List.mem_cons, ih]
        constructor
        . rintro (h | h | h) <;> simp [h]
        . rintro (h | h | h) <;> simp [h]

@[simp]
theorem mem_keys_insert (m : KeyMap α) (key : StepKey) (value : α) (other : StepKey) :
    other ∈ (m.insert key value).keys ↔ other = key ∨ other ∈ m.keys :=
  mem_keys_insertEntry key value m.entries other

theorem ascending_insert {m : KeyMap α} (h : m.keys.Pairwise (· < ·)) (key : StepKey)
    (value : α) : (m.insert key value).keys.Pairwise (· < ·) := by
  obtain ⟨entries⟩ := m
  simp only [keys, insert] at h ⊢
  induction entries with
  | nil => simp [insertEntry]
  | cons entry rest ih =>
    obtain ⟨k, x⟩ := entry
    rw [List.map_cons, List.pairwise_cons] at h
    unfold insertEntry
    split
    . next heq =>
      subst heq
      rw [List.map_cons, List.pairwise_cons]
      exact h
    . next hne =>
      split
      . next hlt =>
        rw [List.map_cons, List.map_cons, List.pairwise_cons, List.pairwise_cons]
        refine ⟨?_, h⟩
        intro other hother
        rw [List.mem_cons] at hother
        rcases hother with rfl | hother
        . exact hlt
        . exact Int64.lt_trans hlt (h.1 other hother)
      . next hge =>
        rw [List.map_cons, List.pairwise_cons]
        refine ⟨?_, ih h.2⟩
        intro other hother
        rw [mem_keys_insertEntry] at hother
        rcases hother with rfl | hother
        . rcases Int64.lt_or_lt_of_ne hne with hlt | hgt
          . exact absurd hlt hge
          . exact hgt
        . exact h.1 other hother

theorem ascending_erase {m : KeyMap α} (h : m.keys.Pairwise (· < ·)) (key : StepKey) :
    (m.erase key).keys.Pairwise (· < ·) :=
  h.sublist (List.filter_sublist.map _)

theorem get?_insert_of_ne (m : KeyMap α) {key other : StepKey} (h : other ≠ key) (value : α) :
    (m.insert key value).get? other = m.get? other := by
  obtain ⟨entries⟩ := m
  simp only [insert, get?]
  induction entries with
  | nil => simp [insertEntry, assoc?, h.symm]
  | cons entry rest ih =>
    obtain ⟨k, x⟩ := entry
    unfold insertEntry
    split
    . next heq =>
      subst heq
      simp [assoc?, h.symm]
    . split
      . simp [assoc?, h.symm]
      . simp only [assoc?, ih]

theorem get?_eq_none_iff (m : KeyMap α) (key : StepKey) : m.get? key = none ↔ key ∉ m.keys := by
  obtain ⟨entries⟩ := m
  simp only [get?, keys]
  induction entries with
  | nil => simp [assoc?]
  | cons entry rest ih =>
    obtain ⟨k, x⟩ := entry
    simp only [assoc?, List.map_cons, List.mem_cons, not_or]
    split
    . next heq => simp [heq]
    . next hne =>
      rw [ih]
      constructor
      . intro h
        exact ⟨fun heq => hne heq.symm, h⟩
      . exact fun h => h.2

theorem contains_iff (m : KeyMap α) (key : StepKey) : m.contains key = true ↔ key ∈ m.keys := by
  rw [contains, ← Option.ne_none_iff_isSome, Ne, get?_eq_none_iff, Decidable.not_not]

theorem get?_of_mem {m : KeyMap α} (h : m.keys.Pairwise (· < ·)) {key : StepKey} {value : α}
    (hmem : (key, value) ∈ m.entries) : m.get? key = some value := by
  obtain ⟨entries⟩ := m
  simp only [get?, keys] at h hmem ⊢
  induction entries with
  | nil => simp at hmem
  | cons entry rest ih =>
    obtain ⟨k, x⟩ := entry
    rw [List.map_cons, List.pairwise_cons] at h
    rw [List.mem_cons] at hmem
    rcases hmem with heq | hmem
    . cases heq
      simp [assoc?]
    . have hlt := h.1 key (List.mem_map_of_mem hmem)
      have hne : k ≠ key := by
        rintro rfl
        simp at hlt
      rw [assoc?, if_neg hne, ih h.2 hmem]

theorem mem_of_get? {m : KeyMap α} {key : StepKey} {value : α} (h : m.get? key = some value) :
    (key, value) ∈ m.entries := by
  obtain ⟨entries⟩ := m
  simp only [get?] at h ⊢
  induction entries with
  | nil => simp [assoc?] at h
  | cons entry rest ih =>
    obtain ⟨k, x⟩ := entry
    rw [assoc?] at h
    split at h
    . next heq =>
      cases h
      rw [heq]
      apply List.mem_cons_self
    . exact List.mem_cons_of_mem _ (ih h)

theorem get?_insert (m : KeyMap α) (key : StepKey) (value : α) (other : StepKey) :
    (m.insert key value).get? other = if key = other then some value else m.get? other := by
  split
  . next heq =>
    subst heq
    apply get?_insert_self
  . next hne => exact get?_insert_of_ne m (Ne.symm hne) value

theorem get?_erase (m : KeyMap α) (key other : StepKey) :
    (m.erase key).get? other = if key = other then none else m.get? other := by
  obtain ⟨entries⟩ := m
  simp only [erase, get?]
  induction entries with
  | nil => simp [assoc?]
  | cons entry rest ih =>
    obtain ⟨k, x⟩ := entry
    rw [List.filter_cons]
    by_cases hk : k = key
    . subst hk
      simp only [ne_eq, not_true_eq_false, decide_false, Bool.false_eq_true, ↓reduceIte, ih,
        assoc?]
      split <;> rfl
    . simp only [ne_eq, hk, not_false_eq_true, decide_true, ↓reduceIte, assoc?, ih]
      split
      . next heq =>
        subst heq
        rw [if_neg (Ne.symm hk)]
      . rfl

theorem mem_keys_erase (m : KeyMap α) (key other : StepKey) :
    other ∈ (m.erase key).keys ↔ other ∈ m.keys ∧ other ≠ key := by
  rw [← contains_iff, ← contains_iff, contains, contains, get?_erase]
  split
  . next heq => simp [heq]
  . next hne => simp [Ne.symm hne]

theorem get?_modify (m : KeyMap α) (key : StepKey) (f : α → α) (other : StepKey) :
    (m.modify key f).get? other = if key = other then (m.get? other).map f else m.get? other := by
  obtain ⟨entries⟩ := m
  simp only [modify, get?]
  induction entries with
  | nil => simp [modifyEntry, assoc?]
  | cons entry rest ih =>
    obtain ⟨k, x⟩ := entry
    unfold modifyEntry
    by_cases hk : k = key
    . subst hk
      by_cases hother : k = other <;> simp [assoc?, hother]
    . rw [if_neg hk, assoc?, assoc?, ih]
      by_cases hother : k = other
      . subst hother
        simp [Ne.symm hk]
      . simp [hother]

end KeyMap

end Sequencer
