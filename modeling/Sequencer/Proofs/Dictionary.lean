import Mathlib.Data.List.Induction
import Mathlib.Data.List.Nodup
import Sequencer.Dictionary

/-!
Dictionaries and what was written into them. The keys are those that were written, in the order of
the first write, and each key has the entry that was written last.
-/

namespace Sequencer

namespace Dictionary

variable {α : Type}

def firstKeys (entries : List (String × α)) : List String :=
  (entries.map (·.1)).eraseDups

def last? (key : String) (entries : List (String × α)) : Option α :=
  entries.reverse.lookup key

theorem firstKeys_concat (entries : List (String × α)) (key : String) (value : α) :
    firstKeys (entries ++ [(key, value)]) =
      if key ∈ firstKeys entries then firstKeys entries else firstKeys entries ++ [key] := by
  rw [firstKeys, firstKeys, List.map_append, List.map_singleton, List.eraseDups_append]
  by_cases h : key ∈ entries.map (·.1) <;> simp [List.removeAll, List.eraseDups_cons, h]

theorem nodup_firstKeys (entries : List (String × α)) : (firstKeys entries).Nodup := by
  induction entries using List.reverseRecOn with
  | nil => exact List.nodup_nil
  | append_singleton entries entry ih =>
    rw [firstKeys_concat]
    split
    . exact ih
    . next h =>
      rw [← List.concat_eq_append, List.nodup_concat]
      exact ⟨h, ih⟩

theorem firstKeys_filter (p : String → Bool) (entries : List (String × α)) :
    firstKeys (entries.filter fun entry => p entry.1) = (firstKeys entries).filter p := by
  induction entries using List.reverseRecOn with
  | nil => rfl
  | append_singleton entries entry ih =>
    obtain ⟨key, value⟩ := entry
    rw [List.filter_append, firstKeys_concat]
    cases hp : p key with
    | false => split <;> simp [hp, ih]
    | true =>
      rw [List.filter_singleton, hp, cond_true, firstKeys_concat, ih]
      split <;> simp_all

theorem last?_concat (key other : String) (value : α) (entries : List (String × α)) :
    last? key (entries ++ [(other, value)]) =
      if other = key then some value else last? key entries := by
  rw [last?, List.reverse_append, List.reverse_singleton, List.singleton_append, List.lookup_cons]
  by_cases h : other = key
  . simp [h]
  . rw [if_neg h, beq_eq_false_iff_ne.mpr (Ne.symm h), last?]

theorem ofList_concat (entries : List (String × α)) (key : String) (value : α) :
    ofList (entries ++ [(key, value)]) = (ofList entries).insert key value := by
  rw [ofList, List.foldl_append]
  rfl

theorem keys_ofList (entries : List (String × α)) :
    (ofList entries).keys = firstKeys entries := by
  induction entries using List.reverseRecOn with
  | nil => rfl
  | append_singleton entries entry ih =>
    obtain ⟨key, value⟩ := entry
    rw [ofList_concat, keys_insert, ih, firstKeys_concat]

theorem get?_ofList (entries : List (String × α)) (key : String) :
    (ofList entries).get? key = last? key entries := by
  induction entries using List.reverseRecOn with
  | nil => rfl
  | append_singleton entries entry ih =>
    obtain ⟨other, value⟩ := entry
    rw [ofList_concat, last?_concat]
    split
    . next heq =>
      subst heq
      exact get?_insert_self _ other value
    . next hne => rw [get?_insert_of_ne _ value (Ne.symm hne), ih]

theorem nodup_keys_ofList (entries : List (String × α)) : (ofList entries).keys.Nodup := by
  rw [keys_ofList]
  exact nodup_firstKeys _

theorem insert_of_not_mem {d : Dictionary α} {key : String} (h : key ∉ d.keys) (value : α) :
    d.insert key value = ⟨d.entries ++ [(key, value)]⟩ := by
  obtain ⟨entries⟩ := d
  simp only [keys, insert, mk.injEq] at h ⊢
  induction entries with
  | nil => rfl
  | cons e rest ih =>
    obtain ⟨k, x⟩ := e
    rw [List.map_cons, List.mem_cons, not_or] at h
    rw [insertEntry, if_neg (Ne.symm h.1), ih h.2, List.cons_append]

theorem ofList_of_nodup {entries : List (String × α)} (h : (entries.map (·.1)).Nodup) :
    ofList entries = ⟨entries⟩ := by
  induction entries using List.reverseRecOn with
  | nil => rfl
  | append_singleton entries entry ih =>
    obtain ⟨key, value⟩ := entry
    rw [List.map_append, List.map_singleton, ← List.concat_eq_append, List.nodup_concat] at h
    rw [ofList_concat, ih h.2, insert_of_not_mem h.1]

theorem keys_erase (d : Dictionary α) (key : String) :
    (d.erase key).keys = d.keys.filter fun k => k ≠ key := by
  rw [erase, keys, keys, List.filter_map]
  rfl

theorem get?_erase_of_ne (d : Dictionary α) {key other : String} (h : other ≠ key) :
    (d.erase key).get? other = d.get? other := by
  obtain ⟨entries⟩ := d
  simp only [erase, get?, decide_not]
  induction entries with
  | nil => rfl
  | cons e rest ih =>
    obtain ⟨k, x⟩ := e
    by_cases hk : k = key
    . subst hk
      simp [assoc?, h.symm, ih]
    . simp [assoc?, hk, ih]

theorem exists_get?_of_mem {d : Dictionary α} {key : String} (h : key ∈ d.keys) :
    ∃ value, d.get? key = some value := by
  obtain ⟨entries⟩ := d
  simp only [keys, get?] at h ⊢
  induction entries with
  | nil => simp at h
  | cons e rest ih =>
    obtain ⟨k, x⟩ := e
    rw [List.map_cons, List.mem_cons] at h
    by_cases hk : k = key
    . exact ⟨x, by rw [assoc?, if_pos hk]⟩
    . rw [assoc?, if_neg hk]
      exact ih (h.resolve_left (Ne.symm hk))

theorem entries_eq_filterMap {d : Dictionary α} (h : d.keys.Nodup) :
    d.entries = d.keys.filterMap fun key => (d.get? key).map (key, ·) := by
  obtain ⟨entries⟩ := d
  simp only [keys, get?] at h ⊢
  induction entries with
  | nil => rfl
  | cons e rest ih =>
    obtain ⟨key, value⟩ := e
    rw [List.map_cons, List.nodup_cons] at h
    have hrest : ∀ other ∈ rest.map (·.1),
        assoc? other ((key, value) :: rest) = assoc? other rest := by
      intro other hother
      have hne : key ≠ other := by
        rintro rfl
        exact h.1 hother
      rw [assoc?, if_neg hne]
    rw [List.map_cons, List.filterMap_cons, assoc?, if_pos rfl, Option.map_some]
    dsimp only
    congr 1
    calc
      rest = (rest.map (·.1)).filterMap fun key => (assoc? key rest).map (key, ·) := ih h.2
      _ = _ := List.filterMap_congr fun other hother => by rw [hrest other hother]

theorem entries_eq_map {d : Dictionary α} (h : d.keys.Nodup) (default : α) :
    d.entries = d.keys.map fun key => (key, (d.get? key).getD default) := by
  rw [entries_eq_filterMap h, ← List.filterMap_eq_map]
  apply List.filterMap_congr
  intro key hkey
  obtain ⟨value, hvalue⟩ := exists_get?_of_mem hkey
  simp [hvalue]

end Dictionary

end Sequencer
