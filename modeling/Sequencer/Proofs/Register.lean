import Sequencer.Proofs.Dictionary
import Sequencer.Register

/-!
A register and what was written to it. `statusesSet` has the statuses of a history of writes and
`kept` its values, but for those whose namespace was cleared later. All that is read from a register
is the last of these under its name, and all that is listed stands in the order in which it was
written first.
-/

namespace Sequencer

open Dictionary (firstKeys last?)

namespace Register

inductive Write where
  | status (level : Int64) (name : String) (on : Bool)
  | value (value : Json) (name space : String) (persist : Bool)
  | clear (space : String)

namespace Write

def status? : Write → Option (String × Status)
  | .status level name on => some (name, ⟨level, on⟩)
  | .value .. | .clear _ => none

def clears (space : String) : Write → Bool
  | .clear other => other = space
  | .status .. | .value .. => false

end Write

def after (r : Register) : Write → Register
  | .status level name on => r.setStatus level name on
  | .value value name space persist => r.putValue value name space persist
  | .clear space => (r.clearNamespace space).2

def carryOut (r : Register) (writes : List Write) : Register :=
  writes.foldl after r

def statusesSet (writes : List Write) : List (String × Status) :=
  writes.filterMap Write.status?

def kept : List Write → List (String × String × StoredValue)
  | [] => []
  | .value value name space persist :: rest =>
    if rest.any (·.clears space) then kept rest
    else (space, name, ⟨value, persist⟩) :: kept rest
  | .status .. :: rest => kept rest
  | .clear _ :: rest => kept rest

def keptIn (space : String) (writes : List Write) : List (String × StoredValue) :=
  ((kept writes).filter (·.1 = space)).map (·.2)

theorem carryOut_concat (r : Register) (writes : List Write) (write : Write) :
    r.carryOut (writes ++ [write]) = (r.carryOut writes).after write := by
  rw [carryOut, List.foldl_append]
  rfl

theorem statusesSet_concat (writes : List Write) (write : Write) :
    statusesSet (writes ++ [write]) = statusesSet writes ++ write.status?.toList := by
  rw [statusesSet, List.filterMap_append]
  cases write <;> rfl

theorem kept_append (before after : List Write) :
    kept (before ++ after) =
      ((kept before).filter fun entry => !after.any (·.clears entry.1)) ++ kept after := by
  induction before with
  | nil => rfl
  | cons write rest ih =>
    cases write with
    | status level name on => exact ih
    | clear space => exact ih
    | value value name space persist =>
      rw [List.cons_append, kept, kept, ih, List.any_append]
      cases rest.any (·.clears space) <;> cases hafter : after.any (·.clears space) <;>
        simp [hafter]

theorem kept_concat_status (writes : List Write) (level : Int64) (name : String) (on : Bool) :
    kept (writes ++ [.status level name on]) = kept writes := by
  simp [kept_append, kept, Write.clears]

theorem kept_concat_value (writes : List Write) (value : Json) (name space : String)
    (persist : Bool) :
    kept (writes ++ [.value value name space persist]) =
      kept writes ++ [(space, name, ⟨value, persist⟩)] := by
  simp [kept_append, kept, Write.clears]

theorem kept_concat_clear (writes : List Write) (space : String) :
    kept (writes ++ [.clear space]) = (kept writes).filter (·.1 ≠ space) := by
  simp [kept_append, kept, Write.clears, eq_comm]

theorem keptIn_concat_value (writes : List Write) (value : Json) (name space other : String)
    (persist : Bool) :
    keptIn other (writes ++ [.value value name space persist]) =
      if space = other then keptIn other writes ++ [(name, ⟨value, persist⟩)]
      else keptIn other writes := by
  rw [keptIn, kept_concat_value, List.filter_append, List.map_append, keptIn]
  split <;> simp_all

theorem keptIn_concat_clear (writes : List Write) (space other : String) :
    keptIn other (writes ++ [.clear space]) =
      if space = other then [] else keptIn other writes := by
  rw [keptIn, kept_concat_clear, List.filter_filter, keptIn]
  split
  . next h => simp [h]
  . next h =>
    congr 2
    funext entry
    by_cases heq : entry.1 = other
    . simp [heq, Ne.symm h]
    . simp [heq]

theorem statuses_carryOut (writes : List Write) :
    (empty.carryOut writes).statuses = .ofList (statusesSet writes) := by
  induction writes using List.reverseRecOn with
  | nil => rfl
  | append_singleton writes write ih =>
    rw [carryOut_concat, statusesSet_concat]
    cases write with
    | status level name on =>
      rw [after, setStatus, ih, Write.status?, Option.toList_some, Dictionary.ofList_concat]
    | value value name space persist =>
      rw [Write.status?, Option.toList_none, List.append_nil]
      exact ih
    | clear space =>
      rw [Write.status?, Option.toList_none, List.append_nil]
      exact ih

theorem keys_values_carryOut (writes : List Write) :
    (empty.carryOut writes).values.keys = firstKeys (kept writes) := by
  induction writes using List.reverseRecOn with
  | nil => rfl
  | append_singleton writes write ih =>
    rw [carryOut_concat]
    cases write with
    | status level name on =>
      rw [kept_concat_status]
      exact ih
    | value value name space persist =>
      rw [kept_concat_value, Dictionary.firstKeys_concat, after, putValue, Dictionary.keys_insert,
        ih]
    | clear space =>
      rw [kept_concat_clear, Dictionary.firstKeys_filter (· ≠ space), after, clearNamespace,
        Dictionary.keys_erase, ih]

theorem namespace_carryOut (writes : List Write) (space : String) :
    ((empty.carryOut writes).values.get? space).getD .empty = .ofList (keptIn space writes) := by
  induction writes using List.reverseRecOn with
  | nil => rfl
  | append_singleton writes write ih =>
    rw [carryOut_concat]
    cases write with
    | status level name on =>
      rw [keptIn, kept_concat_status, ← keptIn]
      exact ih
    | value value name other persist =>
      rw [keptIn_concat_value, after, putValue]
      split
      . next h =>
        subst h
        rw [Dictionary.get?_insert_self, Option.getD_some, ih, Dictionary.ofList_concat]
      . next h => rw [Dictionary.get?_insert_of_ne _ _ (Ne.symm h), ih]
    | clear other =>
      rw [keptIn_concat_clear, after, clearNamespace]
      split
      . next h =>
        subst h
        rw [Dictionary.get?_erase_self]
        rfl
      . next h => rw [Dictionary.get?_erase_of_ne _ (Ne.symm h), ih]

theorem value?_eq (r : Register) (name space : String) :
    r.value? name space =
      (((r.values.get? space).getD .empty).get? name).map (·.value) := by
  rw [value?]
  cases r.values.get? space <;> rfl

theorem clearNamespace_fst (r : Register) (space : String) :
    (r.clearNamespace space).1 = ((r.values.get? space).getD .empty).size := by
  rw [clearNamespace]
  cases r.values.get? space <;> rfl

def persistentIn (space : String) (entries : Dictionary StoredValue) :
    List (String × String × Json) :=
  entries.entries.filterMap fun (name, stored) =>
    if stored.persist then some (space, name, stored.value) else none

theorem persistentValues_eq (r : Register) :
    r.persistentValues = r.values.entries.flatMap fun entry => persistentIn entry.1 entry.2 := rfl

theorem filter_persistentIn (space other : String) (entries : Dictionary StoredValue) :
    (persistentIn other entries).filter (·.1 ≠ space) =
      if other = space then [] else persistentIn other entries := by
  have hspace : ∀ value ∈ persistentIn other entries, value.1 = other := by
    intro value hvalue
    obtain ⟨⟨name, stored⟩, _, heq⟩ := List.mem_filterMap.mp hvalue
    cases hpersist : stored.persist <;> simp [hpersist] at heq
    rw [← heq]
  split
  . next h =>
    rw [List.filter_eq_nil_iff]
    intro value hvalue
    simp [hspace value hvalue, h]
  . next h =>
    rw [List.filter_eq_self]
    intro value hvalue
    simp [hspace value hvalue, h]

theorem persistentValues_clearNamespace (r : Register) (space : String) :
    (r.clearNamespace space).2.persistentValues = r.persistentValues.filter (·.1 ≠ space) := by
  simp only [persistentValues_eq, clearNamespace, Dictionary.erase]
  induction r.values.entries with
  | nil => rfl
  | cons entry rest ih =>
    rw [List.flatMap_cons, List.filter_append, ← ih, List.filter_cons, filter_persistentIn]
    by_cases h : entry.1 = space <;> simp [h]

theorem persistentIn_ofList (space : String) (entries : List (String × StoredValue)) :
    persistentIn space (.ofList entries) =
      (firstKeys entries).filterMap fun name => (last? name entries).bind fun stored =>
        if stored.persist then some (space, name, stored.value) else none := by
  rw [persistentIn, Dictionary.entries_eq_filterMap (Dictionary.nodup_keys_ofList _),
    List.filterMap_filterMap, Dictionary.keys_ofList]
  congr 1
  funext name
  rw [Dictionary.get?_ofList]
  cases last? name entries <;> rfl

/--
A register is what was written to it since it was empty. Statuses and values read as they were
written last, a namespace as it was since its last clear. A clear tells how many names it takes
away, and takes nothing else. Statuses are listed in the order in which they were first set, and the
values to be kept by namespaces and in them by names, in the order in which these were first put
since the last clear.
-/
theorem reads_history (writes : List Write) :
    let r := empty.carryOut writes
    (∀ name, r.status name = (last? name (statusesSet writes)).getD .zero) ∧
    (∀ name space, r.value? name space = (last? name (keptIn space writes)).map (·.value)) ∧
    (∀ space,
      let cleared := (r.clearNamespace space).2
      (r.clearNamespace space).1 = (firstKeys (keptIn space writes)).length ∧
      cleared.statuses = r.statuses ∧
      (∀ name other, cleared.value? name other =
        if other = space then none else r.value? name other) ∧
      cleared.persistentValues = r.persistentValues.filter (·.1 ≠ space)) ∧
    r.statuses.entries = (firstKeys (statusesSet writes)).map (fun name => (name, r.status name)) ∧
    r.persistentValues = (firstKeys (kept writes)).flatMap fun space =>
      (firstKeys (keptIn space writes)).filterMap fun name =>
        (last? name (keptIn space writes)).bind fun stored =>
          if stored.persist then some (space, name, stored.value) else none := by
  intro r
  have hstatuses := statuses_carryOut writes
  have hspace := namespace_carryOut writes
  have hspaces := keys_values_carryOut writes
  refine ⟨?_, ?_, ?_, ?_, ?_⟩
  . intro name
    rw [status, hstatuses, Dictionary.get?_ofList]
  . intro name space
    rw [value?_eq, hspace, Dictionary.get?_ofList]
  . intro space
    refine ⟨?_, rfl, ?_, persistentValues_clearNamespace r space⟩
    . rw [clearNamespace_fst, hspace, ← Dictionary.keys_ofList]
      exact (List.length_map _).symm
    . intro name other
      split
      . next h =>
        subst h
        simp [value?, clearNamespace, Dictionary.get?_erase_self]
      . next h => simp [value?, clearNamespace, Dictionary.get?_erase_of_ne _ h]
  . rw [hstatuses, Dictionary.entries_eq_map (Dictionary.nodup_keys_ofList _) .zero,
      Dictionary.keys_ofList]
    apply List.map_congr_left
    intro name _
    rw [status, hstatuses]
  . have hnodup : r.values.keys.Nodup := by
      rw [hspaces]
      exact Dictionary.nodup_firstKeys _
    rw [persistentValues_eq, Dictionary.entries_eq_map hnodup .empty, hspaces, List.flatMap_map]
    apply List.flatMap_congr
    intro space _
    dsimp only
    rw [hspace, persistentIn_ofList]

end Register

end Sequencer
