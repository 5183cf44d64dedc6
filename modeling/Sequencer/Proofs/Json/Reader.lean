import Mathlib.Data.List.Induction
import Sequencer.Json.Reader
import Sequencer.Proofs.List

/-!
Reading what was written as a JSON document. A value whose objects are ordered comes back as it is,
and the fields of a record are found under their names, unless the nesting is deeper than the
reader goes.
-/

namespace Sequencer

namespace Json

inductive Ordered : Json → Prop
  | null : Ordered .null
  | bool (b : Bool) : Ordered (.bool b)
  | number (n : Number) : Ordered (.number n)
  | string (s : String) : Ordered (.string s)
  | array {items : List Json} (h : ∀ x ∈ items, Ordered x) : Ordered (.array items)
  | object {members : List (String × Json)} (sorted : (members.map (·.1)).Pairwise (· < ·))
    (h : ∀ member ∈ members, Ordered member.2) : Ordered (.object members)

theorem insertMember_of_forall_lt {name : String} {value : Json} {members : List (String × Json)}
    (h : ∀ other ∈ members.map (·.1), other < name) :
    insertMember name value members = members ++ [(name, value)] := by
  induction members with
  | nil => rfl
  | cons member rest ih =>
    obtain ⟨other, x⟩ := member
    rw [List.map_cons, List.forall_mem_cons] at h
    have hne : name ≠ other := by
      rintro rfl
      exact String.lt_irrefl name h.1
    rw [insertMember, if_neg hne, if_neg (String.lt_asymm h.1), ih h.2, List.cons_append]

theorem ofMembers_of_sorted {members : List (String × Json)}
    (h : (members.map (·.1)).Pairwise (· < ·)) : ofMembers members = .object members := by
  rw [ofMembers]
  congr 1
  induction members using List.reverseRecOn with
  | nil => rfl
  | append_singleton members member ih =>
    rw [List.map_append, List.pairwise_append] at h
    rw [List.foldl_append, ih h.1, List.foldl_cons, List.foldl_nil]
    apply insertMember_of_forall_lt
    intro other hother
    exact h.2.2 other hother member.1 (List.mem_singleton_self _)

namespace Document

mutual

def nesting : Document → Nat
  | .array items => nestingItems items + 1
  | .object members => nestingMembers members + 1
  | _ => 0

def nestingItems : List Document → Nat
  | [] => 0
  | d :: ds => max (nesting d) (nestingItems ds)

def nestingMembers : List (Option String × Document) → Nat
  | [] => 0
  | (_, d) :: ds => max (nesting d) (nestingMembers ds)

end

theorem nesting_le_items {d : Document} {items : List Document} (h : d ∈ items) :
    d.nesting ≤ nestingItems items := by
  induction items with
  | nil => simp at h
  | cons e rest ih =>
    rw [nestingItems]
    cases h with
    | head => exact Nat.le_max_left ..
    | tail _ h => exact Nat.le_trans (ih h) (Nat.le_max_right ..)

theorem nesting_le_members {member : Option String × Document}
    {members : List (Option String × Document)} (h : member ∈ members) :
    member.2.nesting ≤ nestingMembers members := by
  induction members with
  | nil => simp at h
  | cons e rest ih =>
    rw [nestingMembers]
    cases h with
    | head => exact Nat.le_max_left ..
    | tail _ h => exact Nat.le_trans (ih h) (Nat.le_max_right ..)

namespace Depth

def Admits (depth : Depth) (nesting : Nat) : Prop :=
  ∀ limit ∈ depth, nesting ≤ limit

theorem admits_none (nesting : Nat) : Admits none nesting := by
  simp [Admits]

theorem Admits.enter {depth : Depth} {nesting : Nat} (h : depth.Admits (nesting + 1)) :
    ∃ inner, depth.enter? = some inner ∧ ∀ other ≤ nesting, inner.Admits other := by
  cases depth with
  | none => exact ⟨none, rfl, fun _ _ => admits_none _⟩
  | some limit =>
    have hlimit : nesting + 1 ≤ limit := h limit rfl
    cases limit with
    | zero => omega
    | succ limit =>
      refine ⟨some limit, rfl, ?_⟩
      rintro other hother _ ⟨⟩
      omega

theorem Admits.enter_array {depth : Depth} {items : List Document}
    (h : depth.Admits (array items).nesting) :
    ∃ inner, depth.enter? = some inner ∧ ∀ d ∈ items, inner.Admits d.nesting := by
  rw [nesting] at h
  obtain ⟨inner, henter, hinner⟩ := h.enter
  exact ⟨inner, henter, fun d hd => hinner _ (nesting_le_items hd)⟩

theorem Admits.enter_object {depth : Depth} {members : List (Option String × Document)}
    (h : depth.Admits (object members).nesting) :
    ∃ inner, depth.enter? = some inner ∧ ∀ member ∈ members, inner.Admits member.2.nesting := by
  rw [nesting] at h
  obtain ⟨inner, henter, hinner⟩ := h.enter
  exact ⟨inner, henter, fun member hmember => hinner _ (nesting_le_members hmember)⟩

theorem Admits.enter_record {depth : Depth} {fields : List (String × Document)}
    (h : depth.Admits (record fields).nesting) :
    ∃ inner, depth.enter? = some inner ∧
      ∀ name d, (name, d) ∈ fields → inner.Admits d.nesting := by
  obtain ⟨inner, henter, hinner⟩ := h.enter_object
  exact ⟨inner, henter, fun name d hd => hinner (some name, d) (List.mem_map_of_mem hd)⟩

end Depth

theorem ofItems_eq_map (items : List Json) : ofItems items = items.map ofJson := by
  induction items with
  | nil => rfl
  | cons x rest ih => rw [ofItems, ih, List.map_cons]

theorem ofMembers_eq_map (members : List (String × Json)) :
    ofMembers members = members.map fun (k, x) => (some k, ofJson x) := by
  induction members with
  | nil => rfl
  | cons member rest ih => rw [ofMembers, ih, List.map_cons]

theorem itemValues?_map_ofJson {depth : Depth} {items : List Json}
    (h : ∀ x ∈ items, value? depth (ofJson x) = some x) :
    itemValues? depth (items.map ofJson) = some items := by
  induction items with
  | nil => rfl
  | cons x rest ih =>
    rw [List.forall_mem_cons] at h
    rw [List.map_cons, itemValues?, h.1, ih h.2]
    rfl

theorem memberValues?_map_ofJson {depth : Depth} {members : List (String × Json)}
    (h : ∀ member ∈ members, value? depth (ofJson member.2) = some member.2) :
    memberValues? depth (members.map fun (k, x) => (some k, ofJson x)) = some members := by
  induction members with
  | nil => rfl
  | cons member rest ih =>
    obtain ⟨name, x⟩ := member
    rw [List.forall_mem_cons] at h
    rw [List.map_cons, memberValues?, h.1, ih h.2]
    rfl

theorem value?_ofJson {x : Json} (h : x.Ordered) {depth : Depth}
    (hdepth : depth.Admits (ofJson x).nesting) : value? depth (ofJson x) = some x := by
  induction h generalizing depth with
  | null => rfl
  | bool b => rfl
  | number n => rfl
  | string s => rfl
  | @array items _ ih =>
    rw [ofJson, ofItems_eq_map] at hdepth ⊢
    obtain ⟨inner, henter, hinner⟩ := hdepth.enter_array
    have hitems : itemValues? inner (items.map ofJson) = some items :=
      itemValues?_map_ofJson fun x hx => ih x hx (hinner _ (List.mem_map_of_mem hx))
    rw [value?, henter]
    simp [hitems]
  | @object members sorted _ ih =>
    rw [ofJson, ofMembers_eq_map] at hdepth ⊢
    obtain ⟨inner, henter, hinner⟩ := hdepth.enter_object
    have hmembers : memberValues? inner (members.map fun (k, x) => (some k, ofJson x)) =
        some members :=
      memberValues?_map_ofJson fun member hmember =>
        ih member hmember (hinner _ (List.mem_map_of_mem hmember))
    rw [value?, henter]
    simp [hmembers, ofMembers_of_sorted sorted]

end Document

namespace Part

open Document (Depth)

theorem namedMembers?_append {names : List String} {fields found : List (String × Document)}
    (hnames : ∀ name ∈ fields.map (·.1), name ∈ names)
    (hnodup : ((found.reverse ++ fields).map (·.1)).Nodup) :
    namedMembers? names found (fields.map fun (k, d) => (some k, d)) =
      some (fields.reverse ++ found) := by
  induction fields generalizing found with
  | nil => rfl
  | cons field rest ih =>
    obtain ⟨name, d⟩ := field
    rw [List.map_cons, List.forall_mem_cons] at hnames
    have hfresh : ¬ found.any fun (other, _) => other = name := by
      rw [List.map_append, List.nodup_append] at hnodup
      have hdisjoint := hnodup.2.2
      simp only [List.any_eq_true, decide_eq_true_eq, Prod.exists, not_exists, not_and]
      intro other d' hmem
      exact hdisjoint other (List.mem_map_of_mem (List.mem_reverse.mpr hmem)) name
        (List.mem_cons_self ..)
    rw [List.map_cons, namedMembers?, if_pos hnames.1, if_neg hfresh, ih hnames.2]
    . rw [List.reverse_cons, List.append_assoc, List.singleton_append]
    . rwa [List.reverse_cons, List.append_assoc, List.singleton_append]

theorem fields?_record {names : List String} (hnames : names.Nodup) {depth inner : Depth}
    (henter : depth.enter? = some inner) {fields : List (String × Document)}
    (h : (fields.map (·.1)).Sublist names) :
    fields? names ⟨.record fields, depth⟩ =
      some fun name => (fields.lookup name).map (⟨·, inner⟩) := by
  have hnodup : (fields.map (·.1)).Nodup := hnames.sublist h
  have hfound : namedMembers? names [] (fields.map fun (k, d) => (some k, d)) =
      some fields.reverse := by
    rw [namedMembers?_append (fun name hname => h.subset hname) (by simpa using hnodup),
      List.append_nil]
  simp only [fields?, henter, Document.record, hfound, Option.bind_eq_bind, Option.bind_some,
    Option.pure_def, Option.some.injEq]
  funext name
  rw [← find?_reverse_eq_lookup hnodup, Option.map_map]
  rfl

theorem entries?_record {depth inner : Depth} (henter : depth.enter? = some inner)
    (fields : List (String × Document)) :
    entries? ⟨.record fields, depth⟩ = some (fields.map fun (k, d) => (k, ⟨d, inner⟩)) := by
  simp only [entries?, henter, Document.record, Option.bind_eq_bind, Option.bind_some,
    List.mapM_map]
  exact mapM_eq_some fun _ _ => rfl

theorem items?_array {depth inner : Depth} (henter : depth.enter? = some inner)
    (items : List Document) :
    items? ⟨.array items, depth⟩ = some (items.map (⟨·, inner⟩)) := by
  simp [items?, henter]

theorem optional_map {α : Type} {read : Part → Option α} {write : α → Document} {depth : Depth}
    {field : Option α} (hwrite : ∀ x, write x ≠ .null)
    (hread : ∀ x ∈ field, read ⟨write x, depth⟩ = some x) :
    reader.optional ((field.map write).map (⟨·, depth⟩)) read = some field := by
  cases field with
  | none => rfl
  | some x =>
    have hpresent : reader.present? ⟨write x, depth⟩ = some (some ⟨write x, depth⟩) := by
      cases h : write x with
      | null => exact absurd h (hwrite x)
      | _ => rfl
    simp [Reader.optional, hpresent, hread x rfl]

end Part

end Json

end Sequencer
